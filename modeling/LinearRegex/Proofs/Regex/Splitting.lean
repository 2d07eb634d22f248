import LinearRegex.Proofs.Matcher.Enumeration
import LinearRegex.Proofs.Text.Slices
import LinearRegex.Regex.Split
import Mathlib.Data.List.DropRight

/-!
# The pieces of a text

Splitting goes through the matches once, with a count of empty pieces that are still to be added.
What it ought to do is said in two steps: which matches a text is cut at (`Split.cuts`), and what
is left between them (`Split.gaps`).  The two are the same under every limit, every gap can be cut
out of the text, and the pieces with the matches between them are the text again
(`Regex.splitn_eq_pieces`).
-/

namespace LinearRegex

namespace Split

/-- The matches that count: an empty one at the start of the text does not. -/
def counted : List Span → List Span
  | m :: ms => if m = ⟨0, 0⟩ then ms else m :: ms
  | [] => []

/-- The matches that a text is cut at, at most one less than the limit if that is positive. -/
def cuts (limit : Int) (ms : List Span) : List Span :=
  if 0 < limit then (counted ms).take (limit - 1).toNat else counted ms

/-- What lies between the matches from `start` on, and behind the last one. -/
def gaps (size start : Nat) : List Span → List Span
  | [] => [⟨start, size⟩]
  | m :: ms => ⟨start, m.start⟩ :: gaps size m.stop ms

/-- The texts at the given spans; `none` if one of them is out of range or cuts a character. -/
def textsAt? (h : ByteArray) (ss : List Span) : Option (List String) :=
  ss.mapM fun s => Utf8.slice? h s.start s.stop

/-- The pieces without the empty ones at the end.  One piece is left if all are empty. -/
def trimmed (pieces : List String) : List String :=
  match pieces.rdropWhile (· = "") with
  | [] => [""]
  | pieces => pieces

/-- One text from each of the lists in turn. -/
def interleave : List String → List String → List String
  | p :: ps, m :: ms => p :: m :: interleave ps ms
  | ps, [] => ps
  | [], ms => ms

/-- The spans lie one behind the other from `start` on, and between characters. -/
inductive Lie (h : ByteArray) : (start : Nat) → List Span → Prop
  | nil (start : Nat) : Lie h start []
  | cons {start : Nat} {m : Span} {ms : List Span} (hm : m.IsBetween h start)
      (hrest : Lie h m.stop ms) : Lie h start (m :: ms)

variable {text : String} {h : ByteArray} {start : Nat} {ms : List Span}

/-! ## Where a text is cut -/

theorem lie_of_pairwise (hbetween : ∀ m ∈ ms, m.IsBetween h start)
    (hordered : ms.Pairwise fun s t => s.stop ≤ t.start) : Lie h start ms := by
  induction ms generalizing start with
  | nil => exact .nil start
  | cons m ms ih =>
    obtain ⟨hm, hms⟩ := List.forall_mem_cons.mp hbetween
    obtain ⟨hfirst, hrest⟩ := List.pairwise_cons.mp hordered
    exact .cons hm (ih (fun t ht => { hms t ht with start_le := hfirst t ht }) hrest)

theorem Lie.take (hms : Lie h start ms) (n : Nat) : Lie h start (ms.take n) := by
  induction hms generalizing n with
  | nil => exact List.take_nil.symm ▸ .nil _
  | cons hm _ ih =>
    cases n with
    | zero => exact .nil _
    | succ n => exact .cons hm (ih n)

theorem Lie.counted (hms : Lie h 0 ms) : Lie h 0 (counted ms) := by
  cases hms with
  | nil => exact .nil 0
  | @cons _ m ms hm hrest =>
    rw [Split.counted]
    split
    · next hzero =>
      rw [hzero] at hrest
      exact hrest
    · exact .cons hm hrest

theorem Lie.cuts (hms : Lie h 0 ms) (limit : Int) : Lie h 0 (cuts limit ms) := by
  rw [Split.cuts]
  split
  · exact hms.counted.take _
  · exact hms.counted

/-- What lies between the spans lies between characters too. -/
theorem Lie.isBetween_of_mem_gaps (hms : Lie h start ms) (hsize : start ≤ h.size)
    (hstart : Utf8.isBoundary h start) : ∀ g ∈ gaps h.size start ms, g.IsBetween h start := by
  induction hms with
  | nil start =>
    rw [gaps, List.forall_mem_singleton]
    exact ⟨Nat.le_refl _, hsize, Nat.le_refl _, hstart, Utf8.isBoundary_of_size_le (Nat.le_refl _)⟩
  | cons hm _ ih =>
    rw [gaps, List.forall_mem_cons]
    refine ⟨⟨Nat.le_refl _, hm.start_le, hm.le.trans hm.stop_le, hstart, hm.isBoundary_start⟩, ?_⟩
    exact fun g hg => (ih hm.stop_le hm.isBoundary_stop g hg).mono (hm.start_le.trans hm.le)

theorem Lie.isBetween_of_mem (hms : Lie h start ms) : ∀ m ∈ ms, m.IsBetween h start := by
  induction hms with
  | nil => exact List.forall_mem_nil _
  | cons hm _ ih =>
    exact List.forall_mem_cons.mpr
      ⟨hm, fun t ht => (ih t ht).mono (hm.start_le.trans hm.le)⟩

/-! ## What is cut out -/

/-- The text at a span. -/
def textAt (h : ByteArray) (s : Span) : String :=
  piece h s.start s.stop

theorem slice?_eq_textAt {s : Span} (hs : s.IsBetween text.toUTF8 start) :
    Utf8.slice? text.toUTF8 s.start s.stop = some (textAt text.toUTF8 s) := by
  obtain ⟨t, ht⟩ := Utf8.exists_slice? (h := text.toUTF8) text.isValidUTF8 hs.le hs.stop_le
    hs.isBoundary_start hs.isBoundary_stop
  rw [textAt, piece, ht, Option.getD_some]

theorem toUTF8_textAt {s : Span} (hs : s.IsBetween text.toUTF8 start) :
    (textAt text.toUTF8 s).toUTF8 = text.toUTF8.extract s.start s.stop :=
  Utf8.toUTF8_of_slice? (slice?_eq_textAt hs)

/-- A piece is empty just where nothing lies between two matches. -/
theorem textAt_eq_empty_iff {s : Span} (hs : s.IsBetween text.toUTF8 start) :
    textAt text.toUTF8 s = "" ↔ s.start = s.stop := by
  have hle := hs.le
  have hsize := hs.stop_le
  rw [← String.toByteArray_inj, ← String.toUTF8_eq_toByteArray, toUTF8_textAt hs,
    String.toByteArray_empty, ← ByteArray.size_eq_zero_iff, ByteArray.size_extract]
  omega

theorem textsAt?_eq {ss : List Span} (hss : ∀ s ∈ ss, s.IsBetween text.toUTF8 start) :
    textsAt? text.toUTF8 ss = some (ss.map (textAt text.toUTF8)) := by
  induction ss with
  | nil => rfl
  | cons s ss ih =>
    obtain ⟨hs, hss⟩ := List.forall_mem_cons.mp hss
    have hrest := ih hss
    rw [textsAt?] at hrest ⊢
    rw [List.mapM_cons, slice?_eq_textAt hs, hrest]
    rfl

/-- The pieces with the matches between them are all of the text from `start` on. -/
theorem Lie.toUTF8_join_interleave (hms : Lie text.toUTF8 start ms)
    (hsize : start ≤ text.toUTF8.size) (hstart : Utf8.isBoundary text.toUTF8 start) :
    (String.join (interleave ((gaps text.toUTF8.size start ms).map (textAt text.toUTF8))
      (ms.map (textAt text.toUTF8)))).toUTF8 = text.toUTF8.extract start text.toUTF8.size := by
  induction hms with
  | nil start =>
    have hrest := (Lie.nil start).isBetween_of_mem_gaps hsize hstart _ List.mem_cons_self
    rw [gaps, List.map_singleton, List.map_nil, interleave, String.join_cons, String.join_nil,
      String.append_empty, toUTF8_textAt hrest]
  | @cons start m ms hm hms ih =>
    have hgap := (Lie.cons hm hms).isBetween_of_mem_gaps hsize hstart _ List.mem_cons_self
    have hrest := ih hm.stop_le hm.isBoundary_stop
    rw [String.toUTF8_eq_toByteArray] at hrest ⊢
    rw [gaps, List.map_cons, List.map_cons, interleave, String.join_cons, String.join_cons,
      String.toByteArray_append, String.toByteArray_append, hrest, ← String.toUTF8_eq_toByteArray,
      ← String.toUTF8_eq_toByteArray, toUTF8_textAt hgap, toUTF8_textAt hm,
      ← ByteArray.extract_eq_extract_append_extract _ hm.le hm.stop_le,
      ← ByteArray.extract_eq_extract_append_extract _ hm.start_le (hm.le.trans hm.stop_le)]

/-! ## One pass -/

/-- An empty match at the start of the text is passed over, and no other match ends there. -/
theorem atSpans_counted (limit : Int) (ms : List Span) :
    atSpans h limit ms {} = atSpans h limit (counted ms) {} := by
  cases ms with
  | nil => rfl
  | cons m ms =>
    rw [counted]
    split
    · next hzero =>
      rw [hzero, atSpans, if_pos ⟨rfl, rfl⟩]
    · rfl

/-- The matches that count end behind the start of the text. -/
theorem stop_pos_of_mem_counted (hbetween : ∀ m ∈ ms, m.IsBetween h 0)
    (hordered : ms.Pairwise fun s t => s.stop ≤ t.start ∧ (s.isEmpty → s.stop < t.start)) :
    ∀ m ∈ counted ms, 0 < m.stop := by
  cases ms with
  | nil => exact List.forall_mem_nil _
  | cons m ms =>
    obtain ⟨hm, hms⟩ := List.forall_mem_cons.mp hbetween
    obtain ⟨hfirst, -⟩ := List.pairwise_cons.mp hordered
    have hrest : ∀ t ∈ ms, 0 < t.stop := by
      intro t ht
      refine Nat.lt_of_lt_of_le (Nat.pos_of_ne_zero fun hzero => ?_) (hms t ht).le
      -- What begins at the start of the text touches an empty match before it.
      obtain ⟨hle, hempty⟩ := hfirst t ht
      have hstop : m.start = m.stop := by
        have := hm.le
        omega
      have := hempty (beq_iff_eq.mpr hstop)
      omega
    rw [counted]
    split
    · exact hrest
    · next hne =>
      refine List.forall_mem_cons.mpr ⟨Nat.pos_of_ne_zero fun hzero => hne ?_, hrest⟩
      have hle := hm.le
      rw [hzero] at hle
      obtain ⟨start, stop⟩ := m
      rw [Span.mk.injEq]
      exact ⟨Nat.le_zero.mp hle, hzero⟩

/-- The matches that are still cut at when there are `size` pieces. -/
def kept (limit : Int) (size : Nat) (ms : List Span) : List Span :=
  if 0 < limit then ms.take (limit - 1 - size).toNat else ms

/-- Unless the limit is 0, every match that is cut at adds a piece, and so does the rest. -/
theorem finish_atSpans {limit : Int} (hlimit : limit ≠ 0) (hpos : ∀ m ∈ ms, 0 < m.stop) (s : State)
    (hempties : s.empties = 0) (hroom : 0 < limit → (s.pieces.size : Int) ≤ limit - 1) :
    (atSpans h limit ms s).finish h limit =
      s.pieces.toList ++ (gaps h.size s.last (kept limit s.pieces.size ms)).map (textAt h) := by
  have hadd : ∀ (s : State) piece last, s.empties = 0 →
      (s.add piece last).pieces = s.pieces.push piece := by
    intro s piece last hempties
    rw [State.add, hempties, Array.replicate_zero, Array.append_empty]
  have hfinish : ∀ s : State, s.empties = 0 → s.finish h limit =
      s.pieces.toList ++ (gaps h.size s.last []).map (textAt h) := by
    intro s hempties
    rw [State.finish, if_neg hlimit, hadd s _ _ hempties, Array.toList_push]
    rfl
  induction ms generalizing s with
  | nil =>
    rw [atSpans, hfinish s hempties, kept, List.take_nil, ite_self]
  | cons m ms ih =>
    obtain ⟨hm, hms⟩ := List.forall_mem_cons.mp hpos
    rw [atSpans, if_neg fun hzero => absurd hzero.2 (Nat.ne_of_gt hm)]
    split
    · next hfull =>
      have hnone : kept limit s.pieces.size (m :: ms) = [] := by
        rw [kept, if_pos hfull.1, hfull.2, Int.sub_self]
        rfl
      rw [hfinish s hempties, hnone]
    · next hfree =>
      rw [if_neg fun hzero => absurd hzero.1 hlimit]
      have hkept : kept limit s.pieces.size (m :: ms) =
          m :: kept limit (s.pieces.size + 1) ms := by
        rw [kept, kept]
        split
        · next hpositive =>
          have hroom := hroom hpositive
          have hcount : (limit - 1 - (s.pieces.size : Int)).toNat =
              (limit - 1 - ((s.pieces.size + 1 : Nat) : Int)).toNat + 1 := by omega
          rw [hcount, List.take_succ_cons]
        · rfl
      have hpieces := hadd s (piece h s.last m.start) m.stop hempties
      have hsize : (s.add (piece h s.last m.start) m.stop).pieces.size = s.pieces.size + 1 := by
        rw [hpieces, Array.size_push]
      rw [ih hms _ rfl (by omega), hsize, hkept, hpieces, Array.toList_push, List.append_assoc]
      rfl

theorem trimmed_concat_empty (pieces : List String) :
    trimmed (pieces ++ [""]) = trimmed pieces := by
  rw [trimmed, trimmed, List.rdropWhile_concat_pos _ _ _ (by simp)]

theorem trimmed_append_replicate (pieces : List String) (n : Nat) :
    trimmed (pieces ++ List.replicate n "") = trimmed pieces := by
  induction n with
  | zero => rw [List.replicate_zero, List.append_nil]
  | succ n ih => rw [List.replicate_succ', ← List.append_assoc, trimmed_concat_empty, ih]

theorem trimmed_concat {piece : String} (hpiece : piece ≠ "") (pieces : List String) :
    trimmed (pieces ++ [piece]) = pieces ++ [piece] := by
  rw [trimmed, List.rdropWhile_concat_neg _ _ _ (by simpa using hpiece)]
  split
  · next hnil => cases List.append_ne_nil_of_right_ne_nil pieces (List.cons_ne_nil _ _) hnil
  · rfl

theorem State.toList_add (s : State) (piece : String) (last : Nat) :
    (s.add piece last).pieces.toList =
      s.pieces.toList ++ List.replicate s.empties "" ++ [piece] := by
  rw [add, Array.toList_push, Array.toList_append, Array.toList_replicate]

/-- With the limit 0, the pieces that have been added end with one that is not empty, and the empty
ones behind it are counted. -/
theorem finish_atSpans_zero (s : State) (hms : Lie text.toUTF8 s.last ms)
    (hpos : ∀ m ∈ ms, 0 < m.stop) (hsize : s.last ≤ text.toUTF8.size)
    (hlast : Utf8.isBoundary text.toUTF8 s.last)
    (htrim : s.pieces.toList = [] ∨ trimmed s.pieces.toList = s.pieces.toList) :
    (atSpans text.toUTF8 0 ms s).finish text.toUTF8 0 =
      trimmed (s.pieces.toList ++ List.replicate s.empties "" ++
        (gaps text.toUTF8.size s.last ms).map (textAt text.toUTF8)) := by
  have hgaps := hms.isBetween_of_mem_gaps hsize hlast
  induction ms generalizing s with
  | nil =>
    rw [gaps, List.forall_mem_singleton] at hgaps
    have hempty := textAt_eq_empty_iff hgaps
    rw [atSpans, State.finish, if_pos rfl, gaps, List.map_singleton]
    split
    · next hne =>
      rw [State.toList_add, trimmed_concat (mt hempty.mp hne)]
      rfl
    · next heq =>
      have hrest := hempty.mpr (Decidable.not_not.mp heq)
      have hpiece : piece text.toUTF8 s.last text.toUTF8.size = "" := hrest
      rw [hrest, hpiece, trimmed_concat_empty, trimmed_append_replicate]
      split
      · next hnone =>
        rw [Array.isEmpty_iff.mp hnone]
        rfl
      · next hsome =>
        refine (htrim.resolve_left fun hnil => hsome ?_).symm
        rw [Array.isEmpty_iff, ← Array.toList_eq_nil_iff, hnil]
  | cons m ms ih =>
    obtain ⟨hm, hms'⟩ := List.forall_mem_cons.mp hpos
    obtain ⟨hgap, -⟩ := List.forall_mem_cons.mp hgaps
    have hempty := textAt_eq_empty_iff hgap
    cases hms with
    | cons hbetween hrest =>
      have hgaps' := hrest.isBetween_of_mem_gaps hbetween.stop_le hbetween.isBoundary_stop
      rw [atSpans, if_neg fun hzero => absurd hzero.2 (Nat.ne_of_gt hm),
        if_neg fun hfull => absurd hfull.1 (Int.lt_irrefl 0), gaps, List.map_cons]
      split
      · next hnone =>
        rw [ih { s with empties := s.empties + 1, last := m.stop } hrest hms' hbetween.stop_le
          hbetween.isBoundary_stop htrim hgaps', hempty.mpr hnone.2, List.replicate_succ']
        simp only [List.append_assoc, List.singleton_append]
      · next hsome =>
        have hpiece : piece text.toUTF8 s.last m.start ≠ "" :=
          mt hempty.mp fun heq => hsome ⟨rfl, heq⟩
        have hadd := s.toList_add (piece text.toUTF8 s.last m.start) m.stop
        rw [ih (s.add (piece text.toUTF8 s.last m.start) m.stop) hrest hms' hbetween.stop_le
          hbetween.isBoundary_stop (Or.inr ?_) hgaps', hadd]
        · simp only [State.add, List.replicate_zero, List.append_assoc, List.singleton_append]
          rfl
        · rw [hadd, trimmed_concat hpiece]

theorem length_gaps (size start : Nat) (ms : List Span) :
    (gaps size start ms).length = ms.length + 1 := by
  induction ms generalizing start with
  | nil => rfl
  | cons m ms ih => rw [gaps, List.length_cons, ih, List.length_cons]

theorem cuts_eq_kept (limit : Int) (ms : List Span) :
    cuts limit ms = kept limit 0 (counted ms) := by
  rw [cuts, kept, Int.natCast_zero, Int.sub_zero]

theorem length_cuts_lt {limit : Int} (hlimit : 0 < limit) (ms : List Span) :
    ((cuts limit ms).length : Int) < limit := by
  rw [cuts, if_pos hlimit]
  have hle := List.length_take_le (limit - 1).toNat (counted ms)
  omega

end Split

open Split in
/-- The matches that a matcher finds cut the text into pieces, and these are the result, under the
limit 0 without the empty ones at the end. -/
theorem Regex.splitn_eq_pieces {flags : Flags} {limits : Limits} {pattern : String} {r : Regex}
    (hbuild : build flags limits pattern = .ok r) (text : String) (limit : Int) :
    ∃ ms pieces matched, (r.matcher text).Enumerates ms ∧
      textsAt? text.toUTF8 (gaps text.toUTF8.size 0 (cuts limit ms)) = some pieces ∧
      textsAt? text.toUTF8 (cuts limit ms) = some matched ∧
      String.join (interleave pieces matched) = text ∧
      (limit ≠ 0 → r.splitn text limit = pieces) ∧
      (limit = 0 → r.splitn text limit = trimmed pieces) ∧
      (0 < limit → ((r.splitn text limit).length : Int) ≤ limit) := by
  have hms := enumerates_spans hbuild text
  have hfor := Matcher.isFor_matcher r text
  have hbetween : ∀ m ∈ r.spans text, m.IsBetween text.toUTF8 0 := by
    intro m hm
    obtain ⟨cursor, hcursor, hm⟩ := hfor.isBetween_of_enumerates hbuild hms hm
    obtain rfl : 0 = cursor := Option.some.inj hcursor
    exact hm
  have hordered := hfor.pairwise_of_enumerates hbuild hms
  have hlie := lie_of_pairwise hbetween (hordered.imp fun hst => hst.1)
  have hzero := Utf8.isBoundary_zero (h := text.toUTF8) text.isValidUTF8
  have hgaps := (hlie.cuts limit).isBetween_of_mem_gaps (Nat.zero_le _) hzero
  have hpos := stop_pos_of_mem_counted hbetween hordered
  have hnonzero : limit ≠ 0 → r.splitn text limit =
      (gaps text.toUTF8.size 0 (cuts limit (r.spans text))).map (textAt text.toUTF8) := by
    intro hlimit
    rw [splitn, atSpans_counted,
      finish_atSpans hlimit hpos {} rfl fun hpositive => Int.le_sub_one_of_lt hpositive,
      cuts_eq_kept]
    rfl
  refine ⟨r.spans text, _, _, hms, textsAt?_eq hgaps,
    textsAt?_eq (hlie.cuts limit).isBetween_of_mem, ?_, hnonzero, fun hlimit => ?_,
    fun hlimit => ?_⟩
  · have hjoin := (hlie.cuts limit).toUTF8_join_interleave (Nat.zero_le _) hzero
    rw [ByteArray.extract_zero_size] at hjoin
    exact String.toByteArray_inj.mp hjoin
  · rw [hlimit, splitn, atSpans_counted,
      finish_atSpans_zero {} hlie.counted hpos (Nat.zero_le _) hzero (.inl rfl)]
    rfl
  · have hlength := length_cuts_lt hlimit (r.spans text)
    rw [hnonzero hlimit.ne', List.length_map, length_gaps]
    omega

open Split in
/-- The empty pattern cuts `aé` between its characters and at the end, but not at the start, and the
empty piece behind the cut at the end is left out under the limit 0. -/
theorem Regex.splitn_eq_pieces_empty :
    ∃ r, build {} {} "" = .ok r ∧ (r.matcher "aé").Enumerates [⟨0, 0⟩, ⟨1, 1⟩, ⟨3, 3⟩] ∧
      String.join (interleave ["a", "é", ""] ["", ""]) = "aé" ∧
      r.splitn "aé" 0 = trimmed ["a", "é", ""] ∧ trimmed ["a", "é", ""] = ["a", "é"] := by
  obtain ⟨ms, pieces, matched, hms, hpieces, hmatched, hjoin, -, hzero, -⟩ :=
    splitn_eq_pieces build_empty "aé" 0
  have hspans : spans ⟨"", {}, .ofExpr false .empty⟩ "aé" = [⟨0, 0⟩, ⟨1, 1⟩, ⟨3, 3⟩] := by
    decide +kernel
  obtain rfl := (hms.unique (enumerates_spans build_empty "aé")).trans hspans
  have hgaps : textsAt? "aé".toUTF8 (gaps "aé".toUTF8.size 0 (cuts 0 [⟨0, 0⟩, ⟨1, 1⟩, ⟨3, 3⟩])) =
      some ["a", "é", ""] := by decide +kernel
  have hcuts : textsAt? "aé".toUTF8 (cuts 0 [⟨0, 0⟩, ⟨1, 1⟩, ⟨3, 3⟩]) = some ["", ""] := by
    decide +kernel
  obtain rfl := Option.some.inj (hgaps.symm.trans hpieces)
  obtain rfl := Option.some.inj (hcuts.symm.trans hmatched)
  exact ⟨_, build_empty, hms, hjoin, hzero rfl, by decide⟩

end LinearRegex
