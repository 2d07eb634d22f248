import LinearRegex.Proofs.Expr.Positions

/-!
# Opening braces

The reader looks for a count at every opening brace that it comes to: behind an item, where the
count says how often the item is repeated, and at the start of one, where there is nothing to
repeat.  A count is read to its closing brace, or refused with its text (`CountText.IsReadAt`).  Any
other brace stands for itself in both places (`Cursor.HasOrdinaryBrace`).
-/

namespace LinearRegex

open LinearRegex.Parser (State)

variable {pattern : String} {cur : Cursor} {rest : List Char} {t : CountText}

theorem readQuantifier_of_brace (h : cur.rest = '{' :: rest) :
    readQuantifier cur =
      match scanCount? cur.rest with
      | none => .ok none
      | some count =>
        if count.isValid then
          .ok (some (lazyMark count.min count.max (cur.drop count.length)))
        else .error ⟨.invalidRepeatSize, cur.pos, (cur.drop count.length).pos⟩ := by
  rw [readQuantifier, Cursor.next?_of_rest h]
  rfl

theorem Parser.State.step_of_brace {s : State} (h : s.cur.rest = '{' :: rest)
    (o : ParserOptions) :
    s.step o =
      match scanCount? s.cur.rest with
      | some count => .error ⟨.missingRepeatArgument, s.cur.pos, s.cur.pos + count.length⟩
      | none => (s.push (Parser.literal s.modes '{') (s.cur.drop 1)).map .next := by
  rw [State.step, Cursor.next?_of_rest h]
  simp only [State.read, State.readBrace]
  cases scanCount? s.cur.rest with
  | some count => rfl
  | none =>
    cases s.push (Parser.literal s.modes '{') (s.cur.drop 1) with
    | ok next => rfl
    | error fault => rfl

/-- The count `t` stands in the pattern at the cursor, and is read as a count there. -/
structure CountText.IsReadAt (t : CountText) (pattern : String) (cur : Cursor) : Prop where
  /-- The text ends with the first closing brace. -/
  closed : cur.until? '}' = some ('{' :: t.inside, cur.drop t.text.length)
  /-- Behind an item it is its quantifier, and reading goes on behind the text. -/
  accepted : t.IsInBounds →
    readQuantifier cur = .ok (some (lazyMark t.min t.max (cur.drop t.text.length)))
  refused : ¬ t.IsInBounds →
    readQuantifier cur = .error ⟨.invalidRepeatSize, cur.pos, cur.pos + t.text.length⟩
  /-- At the start of an item it has nothing to repeat. -/
  misplaced : ∀ (o : ParserOptions) (s : State), s.cur = cur →
    s.step o = .error ⟨.missingRepeatArgument, cur.pos, cur.pos + t.text.length⟩
  /-- An error shows the text and nothing else. -/
  shown : ∀ kind : SyntaxErrorKind,
    (Fault.mk kind cur.pos (cur.pos + t.text.length)).inPattern pattern =
      ⟨⟨kind, cur.pos, cur.pos + t.text.length⟩, String.ofList t.text⟩

/-- The brace at the cursor is no quantifier of what stands before it, and is read as a literal
where an item starts. -/
structure Cursor.HasOrdinaryBrace (cur : Cursor) : Prop where
  unread : readQuantifier cur = .ok none
  unquantified : ∀ (swapGreed : Bool) (e : Expr), quantify swapGreed e cur = .ok (e, cur)
  literal : ∀ (o : ParserOptions) (s : State), s.cur = cur →
    s.step o = (s.push (Parser.literal s.modes '{') (cur.drop 1)).map .next

theorem CountText.isReadAt_of_isPrefix (hcur : (Cursor.start pattern.toList).Reaches cur)
    (ht : t.text <+: cur.rest) : t.IsReadAt pattern cur := by
  obtain ⟨rest, hrest⟩ := ht
  have hbrace : cur.rest = '{' :: (t.inside ++ '}' :: rest) := hrest.symm.trans (t.text_append rest)
  have hscan : scanCount? cur.rest = some t.count := hrest ▸ scanCount?_text_append t rest
  have hpos : (cur.drop t.text.length).pos = cur.pos + t.text.length :=
    Cursor.pos_drop_of_ascii hrest.symm t.utf8Size_of_mem_text
  have hread := readQuantifier_of_brace hbrace
  rw [hscan] at hread
  constructor
  case closed =>
    refine Cursor.until?_eq_some_iff.mpr ⟨?_, ⟨rest, hbrace⟩, ?_⟩
    · exact List.not_mem_cons_of_ne_of_not_mem (by decide) t.notMem_inside
    · rw [t.length_text, List.length_cons]
  case accepted =>
    intro hbounds
    rw [hread]
    exact if_pos (t.isValid_count_iff.mpr hbounds)
  case refused =>
    intro hbounds
    rw [hread, ← hpos]
    exact if_neg (mt t.isValid_count_iff.mp hbounds)
  case misplaced =>
    rintro o s rfl
    rw [State.step_of_brace hbrace, hscan]
    rfl
  case shown =>
    intro kind
    have hlength : cur.pos + Utf8.length t.text = cur.pos + t.text.length := by
      rw [← hpos, Cursor.drop, ← List.prefix_iff_eq_take.mp ⟨rest, hrest⟩]
    refine Fault.inPattern_of_occursAt (Cursor.occursAt_of_isPrefix hcur ⟨rest, hrest⟩) ?_
    rw [utf8ByteSize_ofList, hlength]

theorem Cursor.hasOrdinaryBrace_of_scanCount? (hbrace : cur.rest = '{' :: rest)
    (hscan : scanCount? cur.rest = none) : cur.HasOrdinaryBrace := by
  have hread : readQuantifier cur = .ok none := by
    rw [readQuantifier_of_brace hbrace, hscan]
  constructor
  case unread => exact hread
  case unquantified =>
    intro swapGreed e
    rw [quantify, hread]
  case literal =>
    rintro o s rfl
    rw [State.step_of_brace hbrace, hscan]

/-- At every opening brace of a pattern: a count is found there if and only if the text of one
begins there, and then it is read with its exact values up to its closing brace.  Otherwise nothing
is read there but the brace itself. -/
theorem Cursor.reads_count_or_ordinary_brace
    (hcur : (Cursor.start pattern.toList).Reaches cur) (hbrace : cur.rest.head? = some '{') :
    ((scanCount? cur.rest).isSome ↔ ∃ t : CountText, t.text <+: cur.rest) ∧
      (∀ t : CountText, t.text <+: cur.rest → t.IsReadAt pattern cur) ∧
      ((¬ ∃ t : CountText, t.text <+: cur.rest) → cur.HasOrdinaryBrace) := by
  obtain ⟨rest, hrest⟩ := List.head?_eq_some_iff.mp hbrace
  refine ⟨isSome_scanCount?_iff, fun t ht => CountText.isReadAt_of_isPrefix hcur ht, ?_⟩
  intro hnone
  rw [← isSome_scanCount?_iff, Option.not_isSome_iff_eq_none] at hnone
  exact Cursor.hasOrdinaryBrace_of_scanCount? hrest hnone

/-- The upper bound is read as the number that it is, which is beyond 32 bits, and not as 2. -/
theorem Cursor.reads_large_count :
    (Cursor.start "é\x7b02,4294967298\x7d".toList).Reaches
        ((Cursor.start "é\x7b02,4294967298\x7d".toList).drop 1) ∧
      ((Cursor.start "é\x7b02,4294967298\x7d".toList).drop 1).rest.head? = some '{' ∧
      ∃ t : CountText, t.text = "\x7b02,4294967298\x7d".toList ∧
        t.min = 2 ∧ t.max = some 4294967298 ∧ ¬ t.IsInBounds ∧
        t.IsReadAt "é\x7b02,4294967298\x7d"
          ((Cursor.start "é\x7b02,4294967298\x7d".toList).drop 1) := by
  have hreach := Cursor.reaches_drop 1 (Cursor.start "é\x7b02,4294967298\x7d".toList)
  let d : Numeral := ⟨['0', '2'], List.cons_ne_nil _ _, List.all_eq_true.mp rfl⟩
  let e : Numeral := ⟨"4294967298".toList, List.cons_ne_nil _ _, List.all_eq_true.mp rfl⟩
  let t : CountText := .between d e
  obtain ⟨-, hcounts, -⟩ := Cursor.reads_count_or_ordinary_brace hreach rfl
  exact ⟨hreach, rfl, t, rfl, rfl, rfl, by decide, hcounts t ⟨[], rfl⟩⟩

end LinearRegex
