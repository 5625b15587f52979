import LineBasic.Vocabulary

namespace LineBasic

/-- The words that begin a statement. -/
inductive Keyword
  | list | load | save | new | run | next | assign | branch | goto | gosub | goBack | remark
  | loop | input | print | poke | stop | bye | mem | reseed | printSign | remarkSign | finish
  deriving DecidableEq, Repr

namespace Keyword

def vocabulary : Vocabulary Keyword :=
  [("LIST", list), ("LOAD", load), ("SAVE", save), ("NEW", new), ("RUN", run), ("NEXT", next),
    ("LET", assign), ("IF", branch), ("GOTO", goto), ("GOSUB", gosub), ("RETURN", goBack),
    ("REM", remark), ("FOR", loop), ("INPUT", input), ("PRINT", print), ("POKE", poke),
    ("STOP", stop), ("BYE", bye), ("MEM", mem), ("RSEED", reseed), ("?", printSign),
    ("'", remarkSign), ("END", finish)]

def title : Keyword → String
  | list => "List"
  | load => "Load"
  | save => "Save"
  | new => "New"
  | run => "Run"
  | next => "Next"
  | assign => "Let"
  | branch => "If"
  | goto => "Goto"
  | gosub => "Gosub"
  | goBack => "Return"
  | remark => "Rem1"
  | loop => "For"
  | input => "Input"
  | print => "Print1"
  | poke => "Poke"
  | stop => "Stop"
  | bye => "Bye"
  | mem => "Mem"
  | reseed => "Rseed"
  | printSign => "Print2"
  | remarkSign => "Rem2"
  | finish => "End"

end Keyword

/-- The word between the bounds of a loop. -/
inductive LoopBound
  | upTo
  deriving DecidableEq, Repr

def LoopBound.vocabulary : Vocabulary LoopBound :=
  [("TO", upTo)]

/-- The word before the step of a loop. -/
inductive LoopStep
  | stepBy
  deriving DecidableEq, Repr

def LoopStep.vocabulary : Vocabulary LoopStep :=
  [("STEP", stepBy)]

end LineBasic
