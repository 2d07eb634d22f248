/-!
# Windows on long lines

A line that is too long is shown in part.  The window is placed so that as much as possible of what
the report is about falls into it: the marked span, the label behind it, and some room for the dots
that stand for what is cut off.
-/

namespace LinearRegex
namespace Report

/-- The columns that a line is shown in, unless it is shown in full. -/
structure Window where
  left : Nat
  right : Nat

namespace Window

/-- The number of columns of a report. -/
def reportWidth : Nat := 140

/-- The column that a line starts at, behind its number. -/
def margin : Nat := 4

/-- The number of columns that are shown of a line. -/
def maxWidth : Nat := reportWidth - margin

/-- The room kept on either side of what has to be seen. -/
def padding : Nat := 6

/-- White space at the start of a line is cut off if there is more of it than this. -/
def longBlank : Nat := 20

/-- The white space that is left of what was cut off. -/
def shortBlank : Nat := 4

/-- The window on a line of the given length, which starts with `blank` columns of white space and
has a mark from `start` to `stop` with a label up to `labelStop`.  The white space may reach beyond
the label, because a tab is wider in it than in front of a mark. -/
def around (blank start stop labelStop length : Nat) : Window :=
  let blank := blank - padding
  let start := start - padding
  let stop := stop + padding
  let labelStop := labelStop + padding
  let left := if longBlank < blank then blank - (longBlank - shortBlank) else 0
  let right := max length left
  if right - left ≤ maxWidth then ⟨left, right⟩
  else if blank ≤ labelStop ∧ labelStop - blank ≤ maxWidth then ⟨blank, blank + maxWidth⟩
  else if labelStop - start ≤ maxWidth then
    let left := start - (maxWidth - (labelStop - start)) / 2
    ⟨left, left + maxWidth⟩
  else if stop - start ≤ maxWidth then
    let left := start - (maxWidth - (stop - start)) / 5 * 2
    ⟨left, left + maxWidth⟩
  else ⟨start, stop⟩

/-- Where the part shown of a line of the given length starts. -/
def leftOf (w : Window) (length : Nat) : Nat :=
  min w.left length

/-- Where the part shown of a line of the given length ends. -/
def rightOf (w : Window) (length : Nat) : Nat :=
  if length - w.left ≤ maxWidth then length else min length w.right

end Window
end Report
end LinearRegex
