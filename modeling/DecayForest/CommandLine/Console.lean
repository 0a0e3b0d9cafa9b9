/-!
# Output

Commands write lines to the standard output and to the error output. Labels have colours where the
terminal shows them.
-/

namespace DecayForest

/-- What has been written. -/
structure Output where
  out : String := ""
  err : String := ""
deriving DecidableEq, Repr

/-- How a label is shown. -/
inductive Style where
  | red
  | green
  | yellow
  | boldRed
  | boldCyan
deriving DecidableEq, Repr

namespace Style

/-- The sequence that ends a style. -/
def reset : String := "\x1b[0m"

/-- The sequence that starts a style. -/
def start : Style → String
  | red => "\x1b[31m"
  | green => "\x1b[32m"
  | yellow => "\x1b[33m"
  | boldRed => "\x1b[1;31m"
  | boldCyan => "\x1b[1;36m"

/-- A text in a style, where colours are shown. A style that ends inside the text starts again. -/
def paint (s : Style) (colored : Bool) (text : String) : String :=
  if colored then
    s.start ++ (reset ++ s.start).intercalate (text.splitOn reset) ++ reset
  else text

end Style

namespace Output

/-- Writes a line. -/
def line (o : Output) (text : String) : Output :=
  { o with out := o.out ++ text ++ "\n" }

/-- Writes a text that ends its lines itself. -/
def text (o : Output) (text : String) : Output :=
  { o with out := o.out ++ text }

/-- Writes a line to the error output. -/
def errorLine (o : Output) (text : String) : Output :=
  { o with err := o.err ++ text ++ "\n" }

end Output

end DecayForest
