import LinearRegex.Proofs.Expr.Quoted
import LinearRegex.Proofs.Regex.Span
import LinearRegex.Proofs.Text.Slices
import Mathlib.Order.Bounds.Basic

/-!
# Searching for a text

A quoted text is a pattern that can be built if the text is not too long.  It finds the text where
that occurs in another one, cut out between two of its characters (`OccursAt`), and nothing else
(`Regex.quote_finds_occurrences`).
-/

namespace LinearRegex

variable {text h : String} {i j : Nat}

/-! ## Bytes -/

theorem toByteArray_encodeAll (text : String) :
    (Utf8.encodeAll text.toList).toByteArray = text.toUTF8 := by
  rw [String.toUTF8_eq_toByteArray]
  exact String.utf8Encode_toList

theorem length_encodeAll (text : String) :
    (Utf8.encodeAll text.toList).length = text.utf8ByteSize := by
  rw [← List.size_toByteArray, toByteArray_encodeAll]
  rfl

/-! ## Occurrences -/

theorem spells_append_append (before text after : String) :
    Spells (before ++ (text ++ after)).toUTF8 (Utf8.encodeAll text.toList) before.utf8ByteSize
      (before.utf8ByteSize + text.utf8ByteSize) := by
  have hsize : (before ++ (text ++ after)).toUTF8.size =
      before.utf8ByteSize + (text ++ after).utf8ByteSize := String.utf8ByteSize_append
  have hle : before.utf8ByteSize ≤ (before ++ (text ++ after)).toUTF8.size :=
    hsize ▸ Nat.le_add_right _ _
  rw [spells_iff_bytesAt hle, bytesAt_iff_extract, length_encodeAll]
  refine ⟨⟨hle, after.toByteArray, ?_⟩, rfl⟩
  have hjoin : text.toUTF8 ++ after.toByteArray = (text ++ after).toByteArray :=
    String.toByteArray_append.symm
  rw [hsize, toByteArray_encodeAll, hjoin, String.toUTF8_eq_toByteArray, String.toByteArray_append]
  exact ByteArray.extract_append_eq_right rfl rfl

/-- A text occurs where a character may begin and its bytes are spelled. -/
theorem occursAt_iff_spells :
    OccursAt text h i ↔ i ≤ h.toUTF8.size ∧ Utf8.isBoundary h.toUTF8 i ∧
      Spells h.toUTF8 (Utf8.encodeAll text.toList) i (i + text.utf8ByteSize) := by
  constructor
  · rintro ⟨before, after, rfl, rfl⟩
    rw [String.append_assoc]
    refine ⟨?_, Utf8.isBoundary_append before _, spells_append_append before text after⟩
    have hsize : (before ++ (text ++ after)).toUTF8.size =
        before.utf8ByteSize + (text ++ after).utf8ByteSize := String.utf8ByteSize_append
    exact hsize ▸ Nat.le_add_right _ _
  · rintro ⟨hi, hboundary, hspells⟩
    obtain ⟨-, hstop, hbytes⟩ := (spells_iff_extract hi).mp hspells
    have hend : Utf8.isBoundary h.toUTF8 (i + text.utf8ByteSize) :=
      (isText_of_spells hspells).isBoundary h.isValidUTF8 hi hboundary
    obtain ⟨before, hbefore⟩ := Utf8.exists_slice? (h := h.toUTF8) h.isValidUTF8 (Nat.zero_le i) hi
      (Utf8.isBoundary_zero h.isValidUTF8) hboundary
    obtain ⟨after, hafter⟩ := Utf8.exists_slice? (h := h.toUTF8) h.isValidUTF8 hstop
      (Nat.le_refl _) hend (Utf8.isBoundary_of_size_le (Nat.le_refl _))
    have hfront := Utf8.toUTF8_of_slice? hbefore
    refine ⟨before, after, ?_, ?_⟩
    · have hrest := Utf8.toUTF8_of_slice? hafter
      rw [toByteArray_encodeAll] at hbytes
      rw [← String.toByteArray_inj, String.toByteArray_append, String.toByteArray_append,
        ← String.toUTF8_eq_toByteArray, ← String.toUTF8_eq_toByteArray,
        ← String.toUTF8_eq_toByteArray, ← String.toUTF8_eq_toByteArray, hfront, hrest, ← hbytes,
        ← ByteArray.extract_eq_extract_append_extract _ (Nat.zero_le _) (Nat.le_add_right _ _),
        ← ByteArray.extract_eq_extract_append_extract _ (Nat.zero_le _) hstop,
        ByteArray.extract_zero_size]
    · have hsize := congrArg ByteArray.size hfront
      rw [ByteArray.size_extract, Nat.min_eq_left hi, Nat.sub_zero] at hsize
      exact hsize

theorem OccursAt.self (text : String) : OccursAt text text 0 :=
  ⟨"", "", by rw [String.empty_append, String.append_empty], rfl⟩

/-- There is no room for a text in another one of the same size. -/
theorem OccursAt.eq_of_utf8ByteSize_eq (hoccurs : OccursAt text h i)
    (hsize : h.utf8ByteSize = text.utf8ByteSize) : h = text := by
  obtain ⟨before, after, rfl, -⟩ := hoccurs
  rw [String.utf8ByteSize_append, String.utf8ByteSize_append] at hsize
  have hbefore : before = "" := String.utf8ByteSize_eq_zero_iff.mp (by omega)
  have hafter : after = "" := String.utf8ByteSize_eq_zero_iff.mp (by omega)
  rw [hbefore, hafter, String.empty_append, String.append_empty]

/-- A text occurs where its bytes stand.  The empty one needs none, and occurs where a character may
begin, and at the end. -/
theorem occursAt_iff_extract :
    OccursAt text h i ↔ i + text.utf8ByteSize ≤ h.utf8ByteSize ∧
      (text = "" → Utf8.isBoundary h.toUTF8 i) ∧
        h.toUTF8.extract i (i + text.utf8ByteSize) = text.toUTF8 := by
  have hsize : h.toUTF8.size = h.utf8ByteSize := rfl
  rw [occursAt_iff_spells]
  constructor
  · rintro ⟨hi, hboundary, hspells⟩
    obtain ⟨-, hstop, hbytes⟩ := (spells_iff_extract hi).mp hspells
    exact ⟨hstop, fun _ => hboundary, hbytes.trans (toByteArray_encodeAll text)⟩
  · rintro ⟨hstop, hempty, hbytes⟩
    have hi : i ≤ h.toUTF8.size := Nat.le_trans (Nat.le_add_right _ _) hstop
    have hspells : Spells h.toUTF8 (Utf8.encodeAll text.toList) i (i + text.utf8ByteSize) := by
      rw [spells_iff_extract hi, length_encodeAll, toByteArray_encodeAll]
      exact ⟨rfl, hstop, hbytes⟩
    refine ⟨hi, ?_, hspells⟩
    rcases (isText_of_spells hspells).eq_or_isBoundary with hend | hboundary
    · exact hempty (String.utf8ByteSize_eq_zero_iff.mp (Nat.left_eq_add.mp hend))
    · exact hboundary

/-! ## What a quoted text is built into -/

namespace Expr

theorem bytewise_ofText (cs : List Char) : (ofText cs).bytewise = .bytes (Utf8.encodeAll cs) := by
  cases cs with
  | nil => rfl
  | cons c cs => rfl

theorem wellFormed_ofText (cs : List Char) : (ofText cs).WellFormed := by
  cases cs with
  | nil => trivial
  | cons c cs => trivial

theorem matches_ofText_iff {h : ByteArray} {cs : List Char} :
    (ofText cs).Matches h i j ↔ Spells h (Utf8.encodeAll cs) i j := by
  cases cs with
  | nil => exact Iff.rfl
  | cons c cs => exact Iff.rfl

/-- In a text, the expression of a text matches where that occurs. -/
theorem matchesIn_ofText_iff {input : Input} (hinput : input.haystack = h.toUTF8) :
    (ofText text.toList).MatchesIn input i j ↔
      input.start ≤ i ∧ (input.anchoredStart → i = input.start) ∧
        (input.anchoredEnd → j = h.utf8ByteSize) ∧ OccursAt text h i ∧
          j = i + text.utf8ByteSize := by
  have hsize : input.haystack.size = h.utf8ByteSize := by
    rw [hinput]
    rfl
  constructor
  · rintro ⟨hadmits, hstop, hmatch⟩
    rw [matches_ofText_iff] at hmatch
    obtain ⟨hend, -, -⟩ := (spells_iff_extract hadmits.le_size).mp hmatch
    rw [length_encodeAll] at hend
    rw [hend, hinput] at hmatch
    refine ⟨hadmits.le, hadmits.eq, hsize ▸ hstop, occursAt_iff_spells.mpr ⟨?_, ?_, hmatch⟩, hend⟩
    · exact hinput ▸ hadmits.le_size
    · exact hinput ▸ hadmits.isBoundary
  · rintro ⟨hstart, hanchored, hstop, hoccurs, rfl⟩
    obtain ⟨hle, hboundary, hspells⟩ := occursAt_iff_spells.mp hoccurs
    rw [← hinput] at hle hboundary hspells
    exact ⟨⟨hstart, hle, hanchored, hboundary⟩, hsize ▸ hstop, matches_ofText_iff.mpr hspells⟩

end Expr

namespace Regex

/-- The regular expression of a quoted text. -/
def ofText (text : String) : Regex where
  pattern := quote text
  flags := {}
  program := .ofExpr false (.ofText text.toList)

theorem build_quote (text : String) :
    build {} {} (quote text) =
      if text.utf8ByteSize ≤ 99997 then .ok (ofText text) else .error (.tooLarge 100000) := by
  have hparse : Expr.parse (ParserOptions.ofFlags {} (Limits.nest {})) (quote text) =
      .ok (.ofText text.toList) := Expr.parse_quote rfl text
  have hsize : (Expr.ofText text.toList).bytewise.programSize ≤ 100000 ↔
      text.utf8ByteSize ≤ 99997 := by
    rw [Expr.bytewise_ofText, ByteExpr.programSize, ByteExpr.size, length_encodeAll]
    omega
  rw [build_of_parse {} hparse]
  exact if_congr hsize rfl rfl

theorem search_ofText (text : String) (input : Input) :
    (ofText text).search input =
      (Search.best? (.ofExpr false (.ofText text.toList)) input input.start).map
        (Captures.ofSlots (Program.ofExpr false (.ofText text.toList)).slotCount) :=
  Search.search_eq_best? false (Expr.wellFormed_ofText _) (Search.isMarked_of_isReachable .empty)

theorem findFrom?_ofText_eq_none_iff {start : Nat} :
    (ofText text).findFrom? h start = none ↔ ∀ i, start ≤ i → ¬ OccursAt text h i := by
  rw [findFrom?, search_ofText, Option.map_eq_none_iff, Option.map_eq_none_iff,
    Search.best?_eq_none_iff_forall_not_matchesIn false (Expr.wellFormed_ofText _)]
  constructor
  · intro hnone i hi hoccurs
    exact hnone i _ ((Expr.matchesIn_ofText_iff rfl).mpr
      ⟨hi, (absurd · Bool.false_ne_true), (absurd · Bool.false_ne_true), hoccurs, rfl⟩)
  · intro hnone i j hmatch
    obtain ⟨hi, -, -, hoccurs, -⟩ := (Expr.matchesIn_ofText_iff rfl).mp hmatch
    exact hnone i hi hoccurs

/-- What is found is the first occurrence from the start on. -/
theorem isLeast_of_findFrom?_ofText {start : Nat} {s : Span}
    (hfound : (ofText text).findFrom? h start = some s) :
    IsLeast {k | start ≤ k ∧ OccursAt text h k} s.start ∧ s.stop = s.start + text.utf8ByteSize := by
  rw [findFrom?, search_ofText, Option.map_map, Option.map_eq_some_iff] at hfound
  obtain ⟨m, hbest, rfl⟩ := hfound
  obtain ⟨i, j, hstart, hstop, hmatch, hfirst, -⟩ :=
    Search.leftmost_of_best?_eq_some (Expr.wellFormed_ofText _) hbest
  obtain ⟨hi, -, -, hoccurs, hend⟩ := (Expr.matchesIn_ofText_iff rfl).mp hmatch
  have hspan : (Captures.ofSlots (Program.ofExpr false (.ofText text.toList)).slotCount m).span =
      ⟨i, j⟩ := Captures.span_ofSlots hstart hstop
  rw [Function.comp_apply, hspan]
  refine ⟨⟨⟨hi, hoccurs⟩, ?_⟩, hend⟩
  rintro k ⟨hk, hoccurs'⟩
  exact hfirst k _ ((Expr.matchesIn_ofText_iff rfl).mpr
    ⟨hk, (absurd · Bool.false_ne_true), (absurd · Bool.false_ne_true), hoccurs', rfl⟩)

theorem findFrom?_ofText_eq_some_iff {start : Nat} :
    (ofText text).findFrom? h start = some ⟨i, j⟩ ↔
      IsLeast {k | start ≤ k ∧ OccursAt text h k} i ∧ j = i + text.utf8ByteSize := by
  constructor
  · intro hfound
    exact isLeast_of_findFrom?_ofText hfound
  · rintro ⟨hleast, rfl⟩
    cases hfound : (ofText text).findFrom? h start with
    | none => exact absurd hleast.1.2 (findFrom?_ofText_eq_none_iff.mp hfound i hleast.1.1)
    | some s =>
      obtain ⟨hleast', hstop⟩ := isLeast_of_findFrom?_ofText hfound
      obtain ⟨start', stop⟩ := s
      obtain rfl : start' = i := hleast'.unique hleast
      exact congrArg (fun stop => some (Span.mk start' stop)) hstop

theorem isFullMatch_ofText_iff : (ofText text).isFullMatch h ↔ h = text := by
  rw [isFullMatch, search_ofText, Option.isSome_map, Option.isSome_iff_ne_none, ne_eq,
    Search.best?_eq_none_iff_forall_not_matchesIn false (Expr.wellFormed_ofText _)]
  push Not
  constructor
  · rintro ⟨i, j, hmatch⟩
    obtain ⟨-, hzero, hsize, hoccurs, hstop⟩ := (Expr.matchesIn_ofText_iff rfl).mp hmatch
    obtain rfl : i = 0 := hzero rfl
    obtain rfl : j = h.utf8ByteSize := hsize rfl
    exact hoccurs.eq_of_utf8ByteSize_eq (hstop.trans (Nat.zero_add _))
  · rintro rfl
    exact ⟨0, _, (Expr.matchesIn_ofText_iff rfl).mpr
      ⟨Nat.le_refl 0, fun _ => rfl, fun _ => rfl, .self h, (Nat.zero_add _).symm⟩⟩

/-- A quoted text can be built unless it is too long.  It finds the first occurrence of the text
from any start on, and matches as a whole nothing but the text. -/
theorem quote_finds_occurrences (text : String) :
    (99997 < text.utf8ByteSize → build {} {} (quote text) = .error (.tooLarge 100000)) ∧
    (text.utf8ByteSize ≤ 99997 → ∃ r, build {} {} (quote text) = .ok r ∧ ∀ h : String,
      (∀ start i j, r.findFrom? h start = some ⟨i, j⟩ ↔
        IsLeast {k | start ≤ k ∧ OccursAt text h k} i ∧ j = i + text.utf8ByteSize) ∧
      (∀ start, r.findFrom? h start = none ↔ ∀ i, start ≤ i → ¬ OccursAt text h i) ∧
      (∀ i, OccursAt text h i ↔ i + text.utf8ByteSize ≤ h.utf8ByteSize ∧
        (text = "" → Utf8.isBoundary h.toUTF8 i) ∧
          h.toUTF8.extract i (i + text.utf8ByteSize) = text.toUTF8) ∧
      (r.isFullMatch h ↔ h = text)) := by
  constructor
  · intro hlong
    rw [build_quote, if_neg (Nat.not_le.mpr hlong)]
  · intro hshort
    refine ⟨ofText text, ?_, ?_⟩
    · rw [build_quote, if_pos hshort]
    · intro h
      exact ⟨fun _ _ _ => findFrom?_ofText_eq_some_iff, fun _ => findFrom?_ofText_eq_none_iff,
        fun _ => occursAt_iff_extract, isFullMatch_ofText_iff⟩

/-- A quoted dot finds a dot, and not the character in front of it. -/
theorem quote_finds_occurrences_dot :
    ∃ r, build {} {} (quote ".") = .ok r ∧ r.findFrom? "a." 0 = some ⟨1, 2⟩ ∧
      r.isFullMatch "a" = false := by
  obtain ⟨r, hbuild, hfinds⟩ := (quote_finds_occurrences ".").2 (by decide)
  obtain ⟨hsome, -, -⟩ := hfinds "a."
  obtain ⟨-, -, -, hfull⟩ := hfinds "a"
  have hfirst : ¬ OccursAt "." "a." 0 := by
    rw [occursAt_iff_spells]
    rintro ⟨-, -, hspells⟩
    exact absurd hspells.1 (by decide)
  have hleast : IsLeast {k | 0 ≤ k ∧ OccursAt "." "a." k} 1 := by
    refine ⟨⟨Nat.zero_le 1, "a", "", rfl, rfl⟩, ?_⟩
    rintro k ⟨-, hk⟩
    exact Nat.pos_of_ne_zero fun hzero => hfirst (hzero ▸ hk)
  exact ⟨r, hbuild, (hsome 0 1 2).mpr ⟨hleast, rfl⟩,
    Bool.eq_false_iff.mpr fun h => absurd (hfull.mp h) (by decide)⟩

end Regex

end LinearRegex
