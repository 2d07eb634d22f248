import LinearRegex.Proofs.Expr.Folded
import LinearRegex.Proofs.Regex.Leftmost
import LinearRegex.Proofs.Text.Offsets
import LinearRegex.Proofs.Text.Slices
import Mathlib.Data.List.Forall2

/-!
# Ignoring case

Of two texts that agree but for case, character by character, a pattern that ignores case matches
both or neither (`Regex.isFullMatch_ignores_case`).  Equal characters need not have encodings of one
length, so the matches are compared by the numbers of the characters that they begin and end at, not
by offsets: what a folded expression matches in one text, it matches between the same characters of
the other (`Expr.corresponds_of_isFolded`).
-/

namespace LinearRegex

open Unicode (caseOrbit)

/-- The texts have equally many characters, and those in the same place are equal but for case. -/
def SameButCase (cs ds : List Char) : Prop :=
  List.Forall₂ (fun c d => d ∈ caseOrbit c) cs ds

namespace SameButCase

variable {cs ds es : List Char}

theorem symm (h : SameButCase cs ds) : SameButCase ds cs := by
  apply List.Forall₂.flip
  exact h.imp fun _ _ hd => Unicode.mem_caseOrbit_symm hd

theorem trans (h : SameButCase cs ds) (h' : SameButCase ds es) : SameButCase cs es := by
  induction h generalizing es with
  | nil => exact h'
  | cons hd _ ih =>
    obtain ⟨e, es, he, hes, rfl⟩ := List.forall₂_cons_left_iff.mp h'
    exact .cons (Unicode.mem_caseOrbit_trans hd he) (ih hes)

theorem exists_getElem? (h : SameButCase cs ds) {n : Nat} {c : Char} (hc : cs[n]? = some c) :
    ∃ d, ds[n]? = some d ∧ d ∈ caseOrbit c := by
  induction h generalizing n with
  | nil => cases hc
  | cons hd _ ih =>
    cases n with
    | zero =>
      cases hc
      exact ⟨_, rfl, hd⟩
    | succ n => exact ih hc

/-- Both texts have the character in question there, or neither. -/
theorem getElem?_eq_some_iff (h : SameButCase cs ds) {n : Nat} {c : Char}
    (hc : Unicode.IsAlone c) : cs[n]? = some c ↔ ds[n]? = some c := by
  have honly : ∀ {cs ds : List Char}, SameButCase cs ds → cs[n]? = some c → ds[n]? = some c := by
    intro cs ds h hn
    obtain ⟨d, hd, hmem⟩ := h.exists_getElem? hn
    rw [Unicode.caseOrbit_eq_of_isAlone hc, List.mem_singleton] at hmem
    rw [hd, hmem]
  exact ⟨honly h, honly h.symm⟩

/-- Characters that are alone in their orbits are the same in both texts. -/
theorem eq_of_forall (h : SameButCase cs ds) (halone : ∀ c ∈ cs, caseOrbit c = [c]) :
    cs = ds := by
  induction h with
  | nil => rfl
  | cons hd _ ih =>
    obtain ⟨hc, halone⟩ := List.forall_mem_cons.mp halone
    rw [hc, List.mem_singleton] at hd
    rw [hd, ih halone]

end SameButCase

/-! ## Corresponding positions -/

variable {cs ds : List Char} {n j : Nat}

/-- Wherever the first relation leads from a character of the one text, the second one leads from
the same character of the other text to the same place. -/
def Corresponds (cs ds : List Char) (R S : Nat → Nat → Prop) : Prop :=
  ∀ n j : Nat, n ≤ cs.length → R (Utf8.offset cs n) j →
    ∃ m ≤ cs.length, j = Utf8.offset cs m ∧ S (Utf8.offset ds n) (Utf8.offset ds m)

namespace Corresponds

variable {R R' S S' : Nat → Nat → Prop}

theorem eq : Corresponds cs ds (· = ·) (· = ·) := by
  rintro n j hn rfl
  exact ⟨n, hn, rfl, rfl⟩

theorem comp (hR : Corresponds cs ds R S) (hR' : Corresponds cs ds R' S') :
    Corresponds cs ds (fun i j => ∃ k, R i k ∧ R' k j) (fun i j => ∃ k, S i k ∧ S' k j) := by
  rintro n j hn ⟨k, hk, hj⟩
  obtain ⟨l, hl, rfl, hS⟩ := hR n k hn hk
  obtain ⟨m, hm, rfl, hS'⟩ := hR' l j hl hj
  exact ⟨m, hm, rfl, _, hS, hS'⟩

theorem copies (hR : Corresponds cs ds R S) (count : Nat) :
    Corresponds cs ds (Copies R count) (Copies S count) := by
  induction count with
  | zero => exact eq
  | succ count ih => exact comp hR ih

end Corresponds

/-- What the one text spells, the other one spells but for case. -/
theorem exists_spells (h : SameButCase cs ds) {xs : List Char} (hn : n ≤ cs.length)
    (hspells : Spells cs.utf8Encode (Utf8.encodeAll xs) (Utf8.offset cs n) j) :
    ∃ m ≤ cs.length, j = Utf8.offset cs m ∧ ∃ ys, SameButCase xs ys ∧
      Spells ds.utf8Encode (Utf8.encodeAll ys) (Utf8.offset ds n) (Utf8.offset ds m) := by
  induction xs generalizing n with
  | nil =>
    obtain rfl : Utf8.offset cs n = j := hspells
    exact ⟨n, hn, rfl, [], .nil, rfl⟩
  | cons x xs ih =>
    rw [Utf8.encodeAll, List.flatMap_cons, spells_append] at hspells
    obtain ⟨k, hx, hxs⟩ := hspells
    obtain ⟨hget, rfl⟩ := Utf8.spells_encode_offset_iff.mp hx
    obtain ⟨y, hy, hmem⟩ := h.exists_getElem? hget
    obtain ⟨m, hm, rfl, ys, hys, hspells⟩ := ih (List.getElem?_eq_some_iff.mp hget).1 hxs
    refine ⟨m, hm, rfl, y :: ys, .cons hmem hys, ?_⟩
    rw [Utf8.encodeAll, List.flatMap_cons, spells_append]
    exact ⟨_, Utf8.spells_encode_offset_iff.mpr ⟨hy, rfl⟩, hspells⟩

theorem byteBefore?_congr (h : SameButCase cs ds) (hn : n ≤ cs.length) :
    Look.byteBefore? cs.utf8Encode (Utf8.offset cs n) = some 0x0A ↔
      Look.byteBefore? ds.utf8Encode (Utf8.offset ds n) = some 0x0A := by
  cases n with
  | zero => exact Iff.rfl
  | succ n =>
    have hc : cs[n]? = some cs[n] := List.getElem?_eq_getElem hn
    obtain ⟨d, hd, hmem⟩ := h.exists_getElem? hc
    rw [Utf8.byteBefore?_offset_eq_newline_iff hc, Utf8.byteBefore?_offset_eq_newline_iff hd]
    exact Unicode.eq_iff_of_mem_caseOrbit (.inl rfl) hmem

/-- Assertions about the ends of the text and of lines do not tell case. -/
theorem Look.IsBound.holds_congr {l : Look} (hl : l.IsBound) (h : SameButCase cs ds)
    (hn : n ≤ cs.length) :
    l.holds cs.utf8Encode (Utf8.offset cs n) ↔ l.holds ds.utf8Encode (Utf8.offset ds n) := by
  have hlength := h.length_eq
  have hn' : n ≤ ds.length := hlength ▸ hn
  have hstart : Utf8.offset cs n = 0 ↔ Utf8.offset ds n = 0 := by
    rw [Utf8.offset_eq_zero_iff hn, Utf8.offset_eq_zero_iff hn']
  have hstop : Utf8.offset cs n = cs.utf8Encode.size ↔ Utf8.offset ds n = ds.utf8Encode.size := by
    rw [Utf8.offset_eq_size_iff hn, Utf8.offset_eq_size_iff hn', hlength]
  have hnext : cs.utf8Encode[Utf8.offset cs n]? = some 0x0A ↔
      ds.utf8Encode[Utf8.offset ds n]? = some 0x0A := by
    rw [Utf8.getElem?_offset_eq_newline_iff, Utf8.getElem?_offset_eq_newline_iff]
    exact h.getElem?_eq_some_iff (.inl rfl)
  simp only [Look.IsBound, List.mem_cons, List.not_mem_nil, or_false] at hl
  rcases hl with rfl | rfl | rfl | rfl
  · simpa only [holds, decide_eq_true_eq] using hstart
  · simpa only [holds, decide_eq_true_eq] using hstop
  · simpa only [holds, Bool.or_eq_true, decide_eq_true_eq, beq_iff_eq] using
      or_congr hstart (byteBefore?_congr h hn)
  · simpa only [holds, Bool.or_eq_true, decide_eq_true_eq, beq_iff_eq] using or_congr hstop hnext

namespace Expr

theorem corresponds_literal (h : SameButCase cs ds) {chars : List Char} {fold : Bool}
    (hfold : (literal chars fold).IsFolded) :
    Corresponds cs ds ((literal chars fold).Matches cs.utf8Encode)
      ((literal chars fold).Matches ds.utf8Encode) := by
  intro n j hn hmatch
  cases fold with
  | false =>
    obtain ⟨m, hm, rfl, ys, hys, hspells⟩ := exists_spells h hn hmatch
    obtain rfl : chars = ys := hys.eq_of_forall (hfold.resolve_left Bool.false_ne_true)
    exact ⟨m, hm, rfl, hspells⟩
  | true =>
    obtain ⟨xs, hxs, hmatch⟩ := hmatch
    obtain ⟨m, hm, rfl, ys, hys, hspells⟩ := exists_spells h hn hmatch
    exact ⟨m, hm, rfl, ys, SameButCase.trans hxs hys, hspells⟩

theorem corresponds_charClass (h : SameButCase cs ds) {k : CharClass} (hk : k.IsCaseClosed) :
    Corresponds cs ds ((charClass k).Matches cs.utf8Encode)
      ((charClass k).Matches ds.utf8Encode) := by
  rintro n j hn ⟨c, hmem, hspells⟩
  obtain ⟨hc, rfl⟩ := Utf8.spells_encode_offset_iff.mp hspells
  obtain ⟨d, hd, horbit⟩ := h.exists_getElem? hc
  exact ⟨n + 1, (List.getElem?_eq_some_iff.mp hc).1, rfl, d, (hk horbit).mp hmem,
    Utf8.spells_encode_offset_iff.mpr ⟨hd, rfl⟩⟩

theorem corresponds_look (h : SameButCase cs ds) {l : Look} (hl : l.IsBound) :
    Corresponds cs ds ((look l).Matches cs.utf8Encode) ((look l).Matches ds.utf8Encode) := by
  rintro n j hn ⟨hholds, rfl⟩
  exact ⟨n, hn, rfl, (hl.holds_congr h hn).mp hholds, rfl⟩

mutual

/-- A folded expression matches between the same characters of both texts. -/
theorem corresponds_of_isFolded (h : SameButCase cs ds) :
    ∀ {e : Expr}, e.IsFolded → Corresponds cs ds (e.Matches cs.utf8Encode) (e.Matches ds.utf8Encode)
  | empty, _ => Corresponds.eq
  | literal _ _, he => corresponds_literal h he
  | charClass _, he => corresponds_charClass h he
  | look _, he => corresponds_look h he
  | repetition _ _ _ body, he => by
    rintro n j hn ⟨count, hcount, hcopies⟩
    have hbody := corresponds_of_isFolded h (e := body) he
    obtain ⟨m, hm, hj, hcopies'⟩ := hbody.copies count n j hn hcopies
    exact ⟨m, hm, hj, count, hcount, hcopies'⟩
  | capture _ _ body, he => corresponds_of_isFolded h (e := body) he
  | concat _, he => corresponds_of_allFolded h he
  | alternation _, he => corresponds_of_allFolded_some h he

theorem corresponds_of_allFolded (h : SameButCase cs ds) :
    ∀ {es : List Expr}, AllFolded es →
      Corresponds cs ds (MatchesAll cs.utf8Encode es) (MatchesAll ds.utf8Encode es)
  | [], _ => Corresponds.eq
  | _ :: _, hes => (corresponds_of_isFolded h hes.1).comp (corresponds_of_allFolded h hes.2)

theorem corresponds_of_allFolded_some (h : SameButCase cs ds) :
    ∀ {es : List Expr}, AllFolded es →
      Corresponds cs ds (MatchesSome cs.utf8Encode es) (MatchesSome ds.utf8Encode es)
  | [], _ => by
    intro n j hn hmatch
    cases hmatch
  | _ :: _, hes => by
    rintro n j hn (hmatch | hmatch)
    · obtain ⟨m, hm, hj, hmatch⟩ := corresponds_of_isFolded h hes.1 n j hn hmatch
      exact ⟨m, hm, hj, .inl hmatch⟩
    · obtain ⟨m, hm, hj, hmatch⟩ := corresponds_of_allFolded_some h hes.2 n j hn hmatch
      exact ⟨m, hm, hj, .inr hmatch⟩

end

/-- A folded expression that matches all of the one text matches all of the other. -/
theorem IsFolded.matches_congr {e : Expr} (he : e.IsFolded) (h : SameButCase cs ds)
    (hmatch : e.Matches cs.utf8Encode 0 cs.utf8Encode.size) :
    e.Matches ds.utf8Encode 0 ds.utf8Encode.size := by
  obtain ⟨m, hm, hsize, hmatch⟩ := corresponds_of_isFolded h he 0 _ (Nat.zero_le _) hmatch
  obtain rfl : m = cs.length := (Utf8.offset_eq_size_iff hm).mp hsize.symm
  rwa [Utf8.offset_of_length_le (Nat.le_of_eq h.length_eq.symm)] at hmatch

end Expr

namespace Regex

/-- A regular expression matches a text as a whole if its expression matches from the beginning to
the end. -/
theorem exists_isFullMatch_iff_of_build {flags : Flags} {limits : Limits} {pattern : String}
    {r : Regex} (hbuild : build flags limits pattern = .ok r) :
    ∃ e, Expr.parse (ParserOptions.ofFlags flags limits.nest) pattern = .ok e ∧
      ∀ text : String, r.isFullMatch text ↔ e.Matches text.toUTF8 0 text.toUTF8.size := by
  obtain ⟨e, hparse, he, hsearch⟩ := exists_search_eq_of_build hbuild
  refine ⟨e, hparse, fun text => ?_⟩
  rw [isFullMatch, hsearch, Option.isSome_map, Option.isSome_iff_ne_none, ne_eq,
    Search.best?_eq_none_iff_forall_not_matchesIn flags.longest he]
  push Not
  constructor
  · rintro ⟨i, j, hadmits, hstop, hmatch⟩
    obtain rfl : i = 0 := hadmits.eq rfl
    obtain rfl : j = text.toUTF8.size := hstop rfl
    exact hmatch
  · intro hmatch
    exact ⟨0, _, ⟨Nat.le_refl 0, Nat.zero_le _, fun _ => rfl,
      Utf8.isBoundary_zero text.isValidUTF8⟩, fun _ => rfl, hmatch⟩

/-- A regular expression that ignores case throughout matches as a whole both or neither of two
texts that are the same but for case. -/
theorem isFullMatch_ignores_case {flags : Flags} {limits : Limits} {pattern : String} {r : Regex}
    (hbuild : build flags limits pattern = .ok r) (hflag : flags.ignoreCase)
    (hkeeps : Parser.KeepsIgnoringCase (ParserOptions.ofFlags flags limits.nest) pattern)
    {text text' : String} (hsame : SameButCase text.toList text'.toList) :
    r.isFullMatch text = r.isFullMatch text' := by
  obtain ⟨e, hparse, hfull⟩ := exists_isFullMatch_iff_of_build hbuild
  have he : e.IsFolded := Expr.isFolded_of_parse hflag hkeeps hparse
  rw [Bool.eq_iff_iff, hfull, hfull, String.toUTF8_eq_toByteArray, String.toUTF8_eq_toByteArray,
    ← String.utf8Encode_toList, ← String.utf8Encode_toList]
  exact ⟨he.matches_congr hsame, he.matches_congr hsame.symm⟩

theorem caseOrbit_k : CharSet.caseOrbit 'k' = ⟨[.single 'K', .single 'k', .single '\u212a']⟩ := by
  have horbit : caseOrbit 'k' = ['K', 'k', '\u212a'] := by decide +kernel
  have hsorted : (['K', 'k', '\u212a'].map CharRange.single).mergeSort CharRange.precedes =
      [.single 'K', .single 'k', .single '\u212a'] := List.mergeSort_of_pairwise (by decide)
  rw [CharSet.caseOrbit, horbit, CharSet.ofChars, CharSet.ofRanges, hsorted]
  decide

theorem build_ignoringCase_k :
    build { ignoreCase := true } {} "k" =
      .ok ⟨"k", { ignoreCase := true }, .ofExpr false (.literal ['k'] true)⟩ := by
  have hrun : (Parser.State.initial { ignoreCase := true } "k".toList).run
      (ParserOptions.ofFlags { ignoreCase := true } defaultNestLimit) = .ok (.literal ['k'] true) :=
    (Parser.State.run_of_next rfl).trans (Parser.State.run_of_finished rfl)
  have hfits : (Expr.literal ['k'] true).bytewise.programSize ≤ 100000 := by
    have hbytewise : (Expr.literal ['k'] true).bytewise = .ofSet (CharSet.caseOrbit 'k') := rfl
    rw [hbytewise, caseOrbit_k]
    decide +kernel
  exact (build_of_parse {} (congrArg (Except.mapError (Fault.inPattern · "k")) hrun)).trans
    (if_pos hfits)

/-- The sign for kelvin, of three bytes, is equal to the letter but for case. -/
theorem isFullMatch_k_ignores_case :
    ∃ r, build { ignoreCase := true } {} "k" = .ok r ∧
      r.isFullMatch "k" = r.isFullMatch "\u212a" := by
  have hsame : SameButCase ['k'] ['\u212a'] := .cons (by decide +kernel) .nil
  have hkeeps : Parser.KeepsIgnoringCase
      (ParserOptions.ofFlags { ignoreCase := true } defaultNestLimit) "k" :=
    Parser.State.forall_leadsTo_of_next ⟨nofun, nofun⟩ rfl <|
      Parser.State.forall_leadsTo_of_finished ⟨nofun, nofun⟩ rfl
  exact ⟨_, build_ignoringCase_k, isFullMatch_ignores_case build_ignoringCase_k rfl hkeeps hsame⟩

end Regex
end LinearRegex
