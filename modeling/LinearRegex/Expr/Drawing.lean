import LinearRegex.Expr.Basic
import LinearRegex.Text.Escaped

/-!
# Drawings of expressions

An expression is drawn as a tree with one node per line, each under its parent and joined to it by
a branch.
-/

namespace LinearRegex

/-- A tree of labels. -/
inductive LabelTree where
  | node (label : String) (children : List LabelTree)

namespace LabelTree

mutual

/-- The lines of a tree.  `lead` stands before its label, and `inner` before the branches to its
children. -/
def linesFrom (lead inner : String) : LabelTree → List String
  | node label children => (lead ++ " " ++ label) :: childLines inner children

/-- The lines of the children of a node. -/
def childLines (inner : String) : List LabelTree → List String
  | [] => []
  | [t] => linesFrom (inner ++ " └─") (inner ++ "   ") t
  | t :: ts => linesFrom (inner ++ " ├─") (inner ++ " │ ") t ++ childLines inner ts

end

/-- The lines of a tree. -/
def lines (t : LabelTree) : List String :=
  linesFrom "" "" t

end LabelTree

namespace Expr

/-- What follows the label of a range or literal that ignores case. -/
def foldMark (fold : Bool) : String :=
  if fold then " (?i)" else ""

def classRangeLabel (r : ClassRange) : LabelTree :=
  .node (Text.quotedChar r.range.lo ++ "-" ++ Text.quotedChar r.range.hi ++ foldMark r.fold) []

/-- How many items of a class are drawn. -/
def shownItems : Nat := 16

/-- The tree of a class with the given items.  Only the first items are drawn, and the others
counted. -/
def classTree (negated : Bool) (items : List LabelTree) : LabelTree :=
  let more :=
    if shownItems < items.length then
      [LabelTree.node ("... " ++ toString (items.length - shownItems) ++ " more") []]
    else []
  .node (if negated then "class ^" else "class") (items.take shownItems ++ more)

def classItemTree : ClassItem → LabelTree
  | .range r => classRangeLabel r
  | .nested negated ranges => classTree negated (ranges.map classRangeLabel)

/-- The label of a repetition. -/
def repetitionLabel (min : Nat) (max : Option Nat) (greedy : Bool) : String :=
  "repeat \x7b" ++ toString min ++ "," ++ (max.map toString).getD "" ++ "\x7d" ++
    (if greedy then "" else " lazy")

/-- The label of a group. -/
def captureLabel (index : Nat) (name : Option String) : String :=
  "capture " ++ toString index ++ (name.map fun n => " <" ++ n ++ ">").getD ""

mutual

/-- The tree of an expression. -/
def labelTree : Expr → LabelTree
  | empty => .node "empty" []
  | literal chars fold =>
    .node ("literal " ++ Text.quoted (String.ofList chars) ++ foldMark fold) []
  | charClass c => classTree c.negated (c.items.map classItemTree)
  | look l => .node ("look " ++ l.name) []
  | repetition min max greedy body =>
    .node (repetitionLabel min max greedy) [body.labelTree]
  | capture index name body => .node (captureLabel index name) [body.labelTree]
  | concat parts => .node "concat" (labelTrees parts)
  | alternation branches => .node "alternation" (labelTrees branches)

/-- The trees of a list of expressions. -/
def labelTrees : List Expr → List LabelTree
  | [] => []
  | e :: es => e.labelTree :: labelTrees es

end

/-- The lines of the drawing of an expression. -/
def drawing (e : Expr) : List String :=
  e.labelTree.lines

end Expr
end LinearRegex
