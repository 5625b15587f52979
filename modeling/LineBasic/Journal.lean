import LineBasic.Keyword
import LineBasic.Memory.Frames

namespace LineBasic

inductive Severity
  | info | debug | trace
  deriving DecidableEq, Repr

namespace Severity

def title : Severity → String
  | info => "INFO"
  | debug => "DEBUG"
  | trace => "TRACE"

def detail : Severity → Nat
  | info => 0
  | debug => 1
  | trace => 2

end Severity

def describeOption : Option String → String
  | none => "None"
  | some text => "Some(" ++ text ++ ")"

def Frame.describe : Frame → String
  | gosub line pos =>
    "Gosub \x7b line: " ++ describeOption (line.map toString) ++ ", pos: " ++
      toString pos ++ " \x7d"
  | loop counter terminal step line pos =>
    "For \x7b var: Var(" ++ toString counter.letter.toNat ++ "), terminal: " ++
      toString terminal.toInt ++ ", step: " ++ toString step.toInt ++ ", line: " ++
      describeOption (line.map toString) ++ ", pos: " ++ toString pos ++ " \x7d"

namespace Journal

inductive Entry
  | coldStart (size : Nat)
  /-- A statement begins with this word, after which it goes on at `pos`. -/
  | statement (word : Option Keyword) (pos : Nat)
  | pushed (frame : Frame)
  | popped (frame : Frame)
  | stored (number : UInt16) (length : Nat)
  | removed (number : UInt16)
  | pokeIgnored (address value : Int16)
  | reseeded (seed : Int16)
  | reported (e : Error) (line : Option Nat)
  | replyRejected (e : Error)
  deriving DecidableEq, Repr

namespace Entry

def severity : Entry → Severity
  | coldStart _ => .info
  | statement .. => .trace
  | _ => .debug

def text : Entry → String
  | coldStart size => "cold start, " ++ toString size ++ " bytes"
  | statement word pos => describeOption (word.map Keyword.title) ++ " at " ++ toString pos
  | pushed frame => "push " ++ frame.describe
  | popped frame => "pop " ++ frame.describe
  | stored number length =>
    "stored line " ++ toString number.toNat ++ " (" ++ toString length ++ " bytes)"
  | removed number => "removed line " ++ toString number.toNat
  | pokeIgnored address value =>
    "POKE " ++ toString address.toInt ++ "," ++ toString value.toInt ++ " ignored"
  | reseeded seed => "RSEED " ++ toString seed.toInt
  | reported e line => e.describe ++ " in " ++ describeOption (line.map toString)
  | replyRejected e => "INPUT rejected: " ++ e.describe

end Entry
end Journal

structure Journal where
  threshold : Option Severity := none
  entries : Array Journal.Entry := #[]
  /-- How many times `PEEK` has been applied. -/
  peeks : Nat := 0

def Journal.note (j : Journal) (e : Journal.Entry) : Journal :=
  if j.threshold.any fun t => e.severity.detail ≤ t.detail then
    { j with entries := j.entries.push e }
  else j

def Journal.tally (j : Journal) (peeks : Nat) : Journal :=
  { j with peeks := j.peeks + peeks }

end LineBasic
