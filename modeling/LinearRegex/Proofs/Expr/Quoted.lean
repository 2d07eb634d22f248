import LinearRegex.Proofs.Expr.WellFormed
import LinearRegex.Regex.Quote

/-!
# Reading a quoted text

A quoted text is read character by character.  One that means something stands behind a backslash,
which takes its meaning away; another one stands for itself.  Neither is followed by what could be a
quantifier, and a backslash of the text is read with the one that quotes it, so that no `\Q` begins
at it.  In the end there is one literal (`Expr.parse_quote`).
-/

namespace LinearRegex

open Regex (metaChars quoteChar)

/-- The expression that matches a text. -/
def Expr.ofText : List Char → Expr
  | [] => .empty
  | cs => .literal cs false

namespace Parser

variable {o : ParserOptions} {s : State} {c : Char} {cs text : List Char} {cur : Cursor}

/-- The characters that mean something are few, so they can be looked at one by one. -/
theorem of_mem_metaChars {P : Char → Prop} [DecidablePred P] (hc : c ∈ metaChars)
    (hall : metaChars.all fun x => P x) : P c :=
  of_decide_eq_true (List.all_eq_true.mp hall c hc)

/-! ## No quantifier follows -/

/-- No quantifier begins here. -/
def IsPlain (cs : List Char) : Prop :=
  ∀ c ∈ cs.head?, c ∉ ['*', '+', '?', '{']

theorem isPlain_flatMap_quoteChar (text : List Char) : IsPlain (text.flatMap quoteChar) := by
  cases text with
  | nil => exact nofun
  | cons c text =>
    intro d hd
    rw [List.flatMap_cons] at hd
    unfold Regex.quoteChar at hd
    split at hd
    · obtain rfl : '\\' = d := Option.some.inj hd
      decide
    · next hplain =>
      obtain rfl : c = d := Option.some.inj hd
      intro hmem
      have hsubset : ['*', '+', '?', '{'] ⊆ metaChars := by decide
      exact hplain (List.contains_iff_mem.mpr (hsubset hmem))

theorem readQuantifier_of_isPlain (h : IsPlain cur.rest) : readQuantifier cur = .ok none := by
  have hnext : ∀ c mid, cur.next? = some (c, mid) → c ∉ ['*', '+', '?', '{'] := by
    intro c mid hnext
    apply h
    rw [(Cursor.next?_eq_some hnext).2]
    rfl
  have hcount : scanCount? cur.rest = none := by
    unfold scanCount?
    split
    · next rest hrest =>
      refine absurd ?_ (h '{' (by rw [hrest]; rfl))
      decide
    · rfl
  unfold readQuantifier
  split
  · next hstar => exact absurd (by decide) (hnext _ _ hstar)
  · next hplus => exact absurd (by decide) (hnext _ _ hplus)
  · next hquestion => exact absurd (by decide) (hnext _ _ hquestion)
  · rw [hcount]

theorem State.push_of_isPlain (h : IsPlain cur.rest) (s : State) (e : Expr) :
    s.push e cur = .ok { s with cur := cur, items := e :: s.items } := by
  rw [State.push, quantify, readQuantifier_of_isPlain h]

/-! ## One character -/

theorem State.read_of_notMem_metaChars (hc : c ∉ metaChars) (s : State) (cur : Cursor) :
    s.read o c cur = s.push (literal s.modes c) cur := by
  have hquantifier : c ∉ ['*', '+', '?'] := by
    intro hmem
    have hsubset : ['*', '+', '?'] ⊆ metaChars := by decide
    exact hc (hsubset hmem)
  unfold State.read
  split
  · exact absurd (by decide) hc
  · exact absurd (by decide) hc
  · exact absurd (by decide) hc
  · exact absurd (by decide) hc
  · exact absurd (by decide) hc
  · exact absurd (by decide) hc
  · exact absurd (by decide) hc
  · exact absurd (by decide) hc
  · exact absurd (by decide) hc
  · rw [if_neg hquantifier]

/-- A character that means something stands for itself behind a backslash. -/
theorem readEscape_of_mem_metaChars (hc : c ∈ metaChars) {mid : Cursor}
    (hnext : cur.next? = some (c, mid)) (modes : Modes) (start : Nat) :
    readEscape o modes start cur = .ok (literal modes c, mid) := by
  have hlook : escapedLook? o.unicodeWordBoundary c = none := by
    have hall : ∀ b, escapedLook? b c = none :=
      of_mem_metaChars (P := fun x => ∀ b, escapedLook? b x = none) hc (by decide)
    exact hall _
  have hclass : Escape.isClassLetter c = false :=
    of_mem_metaChars (P := fun x => Escape.isClassLetter x = false) hc (by decide)
  have hcontrol : Escape.controls.lookup c = none :=
    of_mem_metaChars (P := fun x => Escape.controls.lookup x = none) hc (by decide)
  have hdigit : Text.isDigit 8 c = false :=
    of_mem_metaChars (P := fun x => Text.isDigit 8 x = false) hc (by decide)
  have hhex : c ≠ 'x' := of_mem_metaChars (P := (· ≠ 'x')) hc (by decide)
  have hpunctuation : Escape.isPunctuation c = true :=
    of_mem_metaChars (P := (Escape.isPunctuation ·)) hc (by decide)
  have hchar : Escape.readChar start cur = .ok (c, mid) := by
    rw [Escape.readChar, hnext]
    dsimp only
    rw [hcontrol, hdigit, hpunctuation]
    exact if_neg hhex
  rw [readEscape, hnext]
  dsimp only
  rw [hlook, hclass, hchar]
  rfl

theorem State.readBackslash_of_mem_metaChars (hc : c ∈ metaChars) {mid : Cursor}
    (hnext : cur.next? = some (c, mid)) (s : State) :
    s.readBackslash o cur = s.push (literal s.modes c) mid := by
  unfold State.readBackslash
  split
  · next hquoted =>
    obtain ⟨rfl, -⟩ := Prod.mk.inj (Option.some.inj (hquoted.symm.trans hnext))
    exact absurd hc (by decide)
  · rw [readEscape_of_mem_metaChars hc hnext]

/-- The reader is behind one more character, which is its last item. -/
theorem State.step_of_quoted (s : State) (hrest : s.cur.rest = (c :: text).flatMap quoteChar) :
    ∃ cur : Cursor, cur.rest = text.flatMap quoteChar ∧
      s.step o = .ok (.next { s with cur := cur, items := literal s.modes c :: s.items }) := by
  have hplain := isPlain_flatMap_quoteChar text
  rw [List.flatMap_cons, Regex.quoteChar] at hrest
  by_cases hc : metaChars.contains c
  · rw [if_pos hc] at hrest
    refine ⟨⟨text.flatMap quoteChar, s.cur.pos + '\\'.utf8Size + c.utf8Size⟩, rfl, ?_⟩
    have hnext : s.cur.next? =
        some ('\\', ⟨c :: text.flatMap quoteChar, s.cur.pos + '\\'.utf8Size⟩) := by
      rw [Cursor.next?, hrest]
      rfl
    rw [State.step, hnext]
    dsimp only
    rw [State.read, State.readBackslash_of_mem_metaChars (List.contains_iff_mem.mp hc) rfl,
      State.push_of_isPlain hplain]
  · rw [if_neg hc] at hrest
    refine ⟨⟨text.flatMap quoteChar, s.cur.pos + c.utf8Size⟩, rfl, ?_⟩
    have hnext : s.cur.next? =
        some (c, ⟨text.flatMap quoteChar, s.cur.pos + c.utf8Size⟩) := by
      rw [Cursor.next?, hrest]
      rfl
    rw [State.step, hnext]
    dsimp only
    rw [State.read_of_notMem_metaChars (mt List.contains_iff_mem.mpr hc),
      State.push_of_isPlain hplain]

/-! ## The text -/

/-- The characters that are still to be read become items. -/
theorem State.run_of_quoted (s : State) (hgroups : s.groups = [])
    (hrest : s.cur.rest = text.flatMap quoteChar) :
    s.run o = .ok (alternationOf
      (concatOf ((text.map (literal s.modes)).reverse ++ s.items) :: s.branches)) := by
  induction text generalizing s with
  | nil =>
    have hstep : s.step o = .ok (.finished s.body) := by
      have hend : s.cur.next? = none := by
        rw [Cursor.next?, hrest]
        rfl
      rw [State.step, hend]
      dsimp only
      rw [hgroups]
    exact State.run_of_finished hstep
  | cons c text ih =>
    obtain ⟨cur, hcur, hstep⟩ := s.step_of_quoted (o := o) hrest
    rw [State.run_of_next hstep, ih { s with cur, items := _ } hgroups hcur, List.map_cons,
      List.reverse_cons, List.append_assoc, List.singleton_append]

/-- Literals of one character each become one. -/
theorem concatOf_literals {modes : Modes} (hmodes : modes.ignoreCase = false) (text : List Char) :
    concatOf (text.map (literal modes)).reverse = Expr.ofText text := by
  have hliteral : ∀ c, literal modes c = .literal [c] false := by
    intro c
    rw [literal, hmodes, Bool.false_and]
  have hfold : (text.map (literal modes)).reverse.foldl prepend [] =
      if text = [] then [] else [.literal text false] := by
    rw [List.foldl_reverse]
    induction text with
    | nil => rfl
    | cons c text ih =>
      rw [List.map_cons, List.foldr_cons, ih, hliteral, if_neg (List.cons_ne_nil c text)]
      by_cases htext : text = []
      · rw [if_pos htext, htext]
        rfl
      · rw [if_neg htext]
        rfl
  rw [concatOf, hfold]
  cases text with
  | nil => rfl
  | cons c text => rw [if_neg (List.cons_ne_nil c text)]; rfl

end Parser

/-- A quoted text is read as the text. -/
theorem Expr.parse_quote {o : ParserOptions} (ho : o.modes.ignoreCase = false) (text : String) :
    parse o (Regex.quote text) = .ok (ofText text.toList) := by
  have hchars : (Regex.quote text).toList = text.toList.flatMap quoteChar := by
    rw [Regex.quote, String.toList_ofList]
  have hrun := Parser.State.run_of_quoted (o := o)
    (Parser.State.initial o.modes (Regex.quote text).toList) rfl hchars
  rw [parse, hrun]
  show Except.ok (Parser.concatOf ((text.toList.map (Parser.literal o.modes)).reverse ++ [])) = _
  rw [List.append_nil, Parser.concatOf_literals ho]

end LinearRegex
