import LinearRegex.CharClass
import LinearRegex.Look

/-!
# Regular expressions

The tree of a regular expression is close to what is written.  Flags are already applied: a dot is
a class with or without the newline, and a literal knows whether it ignores case.  Characters that
follow each other and agree on case are one literal.
-/

namespace LinearRegex

/-- Regular expressions.  Groups are numbered from 1; group 0 is the whole match and has no
node. -/
inductive Expr where
  | empty
  | literal (chars : List Char) (fold : Bool)
  | charClass (c : CharClass)
  | look (l : Look)
  | repetition (min : Nat) (max : Option Nat) (greedy : Bool) (body : Expr)
  | capture (index : Nat) (name : Option String) (body : Expr)
  | concat (parts : List Expr)
  | alternation (branches : List Expr)

namespace Expr

mutual

/-- The largest number of a group, 0 if there is none. -/
def captureCount : Expr → Nat
  | empty | literal .. | charClass _ | look _ => 0
  | repetition _ _ _ body => body.captureCount
  | capture index _ body => max index body.captureCount
  | concat parts => captureCounts parts
  | alternation branches => captureCounts branches

/-- The largest number of a group in a list of expressions. -/
def captureCounts : List Expr → Nat
  | [] => 0
  | e :: es => max e.captureCount (captureCounts es)

end

mutual

/-- The groups with a name, outer before inner and left before right. -/
def groupNames : Expr → List (Nat × String)
  | empty | literal .. | charClass _ | look _ => []
  | repetition _ _ _ body => body.groupNames
  | capture index name body => (name.toList.map fun n => (index, n)) ++ body.groupNames
  | concat parts => groupNamesOf parts
  | alternation branches => groupNamesOf branches

/-- The groups with a name in a list of expressions. -/
def groupNamesOf : List Expr → List (Nat × String)
  | [] => []
  | e :: es => e.groupNames ++ groupNamesOf es

end

mutual

/-- The classes of an expression, in the order in which they are written. -/
def classes : Expr → List CharClass
  | charClass c => [c]
  | empty | literal .. | look _ => []
  | repetition _ _ _ body | capture _ _ body => body.classes
  | concat parts => classesOf parts
  | alternation branches => classesOf branches

/-- The classes in a list of expressions. -/
def classesOf : List Expr → List CharClass
  | [] => []
  | e :: es => e.classes ++ classesOf es

end

end Expr
end LinearRegex
