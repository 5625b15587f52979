import LineBasic.Host.Piped
import LineBasic.Session.Step

namespace LineBasic.CommandLine

structure Options where
  ramSize : Option UInt64 := none
  stackFrames : Option UInt64 := none
  noEcho : Bool := false
  stream : Bool := false

inductive Request
  | version
  | session (options : Options)
  | refused

/-- What is echoed on a terminal is never echoed through a pipe. -/
def Options.settings (o : Options) : Settings :=
  let standard : Settings := {}
  { ramSize := o.ramSize.getD standard.ramSize
    stackFrames := o.stackFrames.getD standard.stackFrames
    echo := false }

def size? (text : String) : Option UInt64 :=
  let digits := match ascii text with
    | sign :: rest => if sign = byte '+' then rest else sign :: rest
    | [] => []
  if text.toList.all (·.toNat < 128) && !digits.isEmpty && digits.all Byte.isDigit
      && Decimal.value digits < UInt64.size then
    some (UInt64.ofNat (Decimal.value digits))
  else none

inductive Sized
  | ramSize | stackFrames

def Sized.title : Sized → String
  | ramSize => "--ram-size"
  | stackFrames => "--stack-frames"

def Sized.set? (option : Sized) (o : Options) (text : String) : Option Options :=
  match option with
  | ramSize => if o.ramSize.isSome then none else
    (size? text).map fun n => { o with ramSize := some n }
  | stackFrames => if o.stackFrames.isSome then none else
    (size? text).map fun n => { o with stackFrames := some n }

/-- The option that an argument names, with the value after an equals sign if there is one. -/
def sized? (argument : String) : Option (Sized × Option String) :=
  [Sized.ramSize, Sized.stackFrames].findSome? fun option =>
    if argument = option.title then some (option, none)
    else
      let front := (option.title ++ "=").toList
      if front.isPrefixOf argument.toList then
        some (option, some (String.ofList (argument.toList.drop front.length)))
      else none

def startsWith (argument start : String) : Bool :=
  start.toList.isPrefixOf argument.toList

/-- Arguments act in order, and the first that is refused or asks for the version decides. An
argument that begins with a dash is no value. -/
def requestFrom (o : Options) : List String → Request
  | [] => .session o
  | argument :: rest =>
    if argument = "--" then if rest.isEmpty then .session o else .refused
    else if argument = "--version" || startsWith argument "-V" then .version
    else if argument = "--no-echo" then
      if o.noEcho then .refused else requestFrom { o with noEcho := true } rest
    else if argument = "--stream" then
      if o.stream then .refused else requestFrom { o with stream := true } rest
    else
      match sized? argument with
      | none => .refused
      | some (option, some value) =>
        match option.set? o value with
        | some o => requestFrom o rest
        | none => .refused
      | some (option, none) =>
        match rest with
        | [] => .refused
        | value :: rest =>
          if startsWith value "-" then .refused
          else
            match option.set? o value with
            | some o => requestFrom o rest
            | none => .refused

def request (arguments : List String) : Request :=
  requestFrom {} arguments

def versionLine : List UInt8 :=
  ascii "tinybasic-plus 1.0.0\n"

def refusedCode : Nat := 2

def stopCode : Halt → Nat
  | .io (.endOfInput _) => 0
  | _ => 1

def faultCode : Nat := 101

def launch (o : Options) (input : List UInt8) : Except Fault (Session Piped) :=
  Session.launch .caught o.settings { input } none

structure Outcome where
  code : Nat
  output : List UInt8

def perform (steps : Nat) (arguments : List String) (input : List UInt8) : Outcome :=
  match request arguments with
  | .refused => ⟨refusedCode, []⟩
  | .version => ⟨0, versionLine⟩
  | .session o =>
    match launch o input with
    | .error _ => ⟨faultCode, []⟩
    | .ok s =>
      match Session.serve steps s with
      | .ok _ s => ⟨0, s.host.output.toList⟩
      | .error h s => ⟨stopCode h, s.host.output.toList⟩

end LineBasic.CommandLine
