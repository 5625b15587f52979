import LineBasic.CommandLine

namespace LineBasic

def emit (s : Session Piped) : IO (Session Piped) := do
  let out ← IO.getStdout
  out.write ⟨s.host.output⟩
  out.flush
  return { s with host := { s.host with output := #[] } }

def supply (phase : Phase) (s : Session Piped) : IO (Session Piped) := do
  match phase, s.host.input with
  | .edit .., [] =>
    let s ← emit s
    let bytes ← (← IO.getStdin).read 4096
    return { s with host := { s.host with input := bytes.toList } }
  | _, _ => if s.host.output.size < 4096 then return s else emit s

/-- Takes steps until the session is over or stops. -/
partial def pump (phase : Phase) (s : Session Piped) : IO UInt32 := do
  if phase = .bye then
    discard <| emit s
    return 0
  match Session.step phase (← supply phase s) with
  | .ok phase s => pump phase s
  | .error h s =>
    discard <| emit s
    if let .io (.other message) := h then IO.eprintln message
    return (CommandLine.stopCode h).toUInt32

end LineBasic

open LineBasic in
def main (arguments : List String) : IO UInt32 := do
  match CommandLine.request arguments with
  | .refused =>
    IO.eprintln "usage: [--ram-size N] [--stack-frames N] [--no-echo] [--stream] [--version]"
    return CommandLine.refusedCode.toUInt32
  | .version =>
    (← IO.getStdout).write ⟨CommandLine.versionLine.toArray⟩
    return 0
  | .session options =>
    match CommandLine.launch options [] with
    | .error _ => return CommandLine.faultCode.toUInt32
    | .ok s => pump .cold s
