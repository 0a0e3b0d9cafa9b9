/-!
# Outlines

An outline is a tree of labels, drawn with one label a line and rules that lead from each item to
the ones below it.
-/

namespace DecayForest

/-- A label with items below it. -/
inductive Outline where
  | node (label : String) (items : List Outline)

namespace Outline

/-- The lines of some items, behind the rules of the items they belong to. -/
def itemLines (rules : String) : List Outline → List String
  | [] => []
  | [.node label items] => (rules ++ "└── " ++ label) :: itemLines (rules ++ "    ") items
  | .node label items :: rest =>
    (rules ++ "├── " ++ label) :: itemLines (rules ++ "│   ") items ++ itemLines rules rest

/-- The drawing, with a line break behind every line. -/
def text : Outline → String
  | .node label items => String.join ((label :: itemLines "" items).map (· ++ "\n"))

end Outline

end DecayForest
