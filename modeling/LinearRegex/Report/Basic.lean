import LinearRegex.Expr.Error
import LinearRegex.Report.Window
import LinearRegex.Text.Utf8
import LinearRegex.Unicode.Width

/-!
# Reports on patterns

A report shows a faulty pattern with the fault marked below it:

```text
error: missing closing )
 --> pattern:1:2
  |
1 | a(b
  |  ^^ missing closing )
  |
```
-/

namespace LinearRegex
namespace Report

/-- Characters that are left out because they would reorder or join what is around them. -/
def isHidden (c : Char) : Bool :=
  c = '\u200d' || ('\u202a' ≤ c && c ≤ '\u202e') || ('\u2066' ≤ c && c ≤ '\u2069')

/-- The characters of a line as they are shown: tabs become blanks, and some characters are left
out. -/
def shown (cs : List Char) : List Char :=
  cs.flatMap fun c =>
    if c = '\t' then [' ', ' ', ' ', ' '] else if isHidden c then [] else [c]

/-- The columns that characters take up, of which those without a place count as `control`. -/
def width (control : Nat) (cs : List Char) : Nat :=
  cs.foldr (fun c n => (Unicode.width? c).getD control + n) 0

/-- The longest start of a text that fits into `room` columns. -/
def fitting (room : Nat) : List Char → List Char
  | [] => []
  | c :: cs =>
    let taken := (Unicode.width? c).getD 1
    if room < taken then [] else c :: fitting (room - taken) cs

/-- Writes a text over a line, from column `i` on.  Blanks fill up a line that ends before. -/
def writeAt (i : Nat) (text line : List Char) : List Char :=
  if text = [] then line
  else
    line.take i ++ List.replicate (i - line.length) ' ' ++ text ++ line.drop (i + text.length)

/-- What stands for the part of a line that is not shown. -/
def dots : List Char := ['.', '.', '.']

/-- The line that shows what falls into a window of a text, with dots over its ends if the text was
cut there.  It starts with the number of the line, which is always the first. -/
def textLine (w : Window) (text : List Char) : List Char :=
  let length := Utf8.length text
  let left := w.leftOf length
  let rest := text.drop left
  let code := fitting (w.rightOf length - left) rest
  let line := writeAt Window.margin code ['1', ' ', '|']
  let line := if 0 < w.left then writeAt Window.margin dots line else line
  if code.length < rest.length then writeAt (Window.margin + width 1 code - 3) dots line else line

/-- The line that marks the columns from `start` to `stop`, with a label behind them, below a text
of which `cut` columns are not shown.  Marks on what is not shown go into the margin, over what
stands there. -/
def markLine (cut start stop : Nat) (label : List Char) : List Char :=
  let line := writeAt (Window.margin + (stop + 1 - cut)) label [' ', ' ', '|']
  (List.range' start (stop - start)).foldl
    (fun line i => writeAt (Window.margin + i - cut) ['^'] line) line

/-- The characters of a pattern that start before the given offset. -/
def before (offset : Nat) : List Char → List Char
  | [] => []
  | c :: cs => if offset = 0 then [] else c :: before (offset - c.utf8Size) cs

/-- A line without the newline at its end. -/
def withoutNewline (cs : List Char) : List Char :=
  match cs.reverse with
  | '\n' :: '\r' :: rest => rest.reverse
  | '\n' :: rest => rest.reverse
  | _ => cs

/-- The report of a fault in a pattern of one line.  The columns of the marks are those of the
pattern as it is written, where a tab takes up none; the tabs that are shown as blanks in front of a
fault move it away from its marks. -/
def ofError (pattern : String) (e : SyntaxError) : String :=
  let line := withoutNewline pattern.toList
  let start := width 0 (before e.start line)
  let stop := max (start + 1) (width 0 (before e.stop line))
  let title := e.kind.message
  let blank :=
    (line.takeWhile Unicode.isSpace).foldr (fun c n => (if c = '\t' then 4 else 1) + n) 0
  let labelStop := stop + title.utf8ByteSize + 1
  let w := Window.around blank start stop labelStop (Utf8.length line)
  let text := shown line
  let cut := width 1 (text.take (w.leftOf (Utf8.length text)))
  "error: " ++ title ++ "\n" ++
    " --> pattern:1:" ++ toString ((before e.start line).length + 1) ++ "\n" ++
    "  |\n" ++
    String.ofList (textLine w text) ++ "\n" ++
    String.ofList (markLine cut start stop title.toList) ++ "\n" ++
    "  |"

end Report
end LinearRegex
