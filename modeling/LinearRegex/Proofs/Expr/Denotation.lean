import LinearRegex.Proofs.Expr.Parts
import LinearRegex.Proofs.Program.Trie
import LinearRegex.Proofs.Text.Stretch

/-!
# What an expression matches

An expression matches between two positions of a haystack, whatever stands around them but for what
its assertions see (`Expr.Matches`).  The expression over bytes that it becomes matches between the
same positions (`spans_bytewise_iff`), although the program made of it shares bytes between
characters and unrolls repetitions.  Whatever the haystack holds, what is matched is text
(`isText_of_spans`).
-/

namespace LinearRegex

open LiteralPrefix (bytesAt)

/-- The bytes stand in `h` from `i` to `j`. -/
def Spells (h : ByteArray) : List UInt8 → (i j : Nat) → Prop
  | [], i, j => i = j
  | b :: bs, i, j => h[i]? = some b ∧ Spells h bs (i + 1) j

/-- Where the bytes end, if they stand in `h` at `i`. -/
def spellEnd? (h : ByteArray) : List UInt8 → (i : Nat) → Option Nat
  | [], i => some i
  | b :: bs, i => if h[i]? = some b then spellEnd? h bs (i + 1) else none

/-- So many steps of a relation lead from `i` to `j`. -/
def Copies (R : Nat → Nat → Prop) : Nat → (i j : Nat) → Prop
  | 0, i, j => i = j
  | n + 1, i, j => ∃ k, R i k ∧ Copies R n k j

namespace Expr

mutual

/-- The expression matches from `i` to `j`. -/
def Matches (h : ByteArray) : Expr → (i j : Nat) → Prop
  | empty, i, j => i = j
  | literal chars false, i, j => Spells h (Utf8.encodeAll chars) i j
  | literal chars true, i, j =>
    ∃ cs, List.Forall₂ (fun c d => d ∈ Unicode.caseOrbit c) chars cs ∧
      Spells h (Utf8.encodeAll cs) i j
  | charClass c, i, j => ∃ d, c.toSet.contains d ∧ Spells h (Utf8.encode d) i j
  | look l, i, j => l.holds h i ∧ i = j
  | repetition min max _ body, i, j =>
    ∃ n, (min ≤ n ∧ ∀ m ∈ max, n ≤ m) ∧ Copies (body.Matches h) n i j
  | capture _ _ body, i, j => body.Matches h i j
  | concat parts, i, j => MatchesAll h parts i j
  | alternation branches, i, j => MatchesSome h branches i j

/-- The expressions match one after the other. -/
def MatchesAll (h : ByteArray) : List Expr → (i j : Nat) → Prop
  | [], i, j => i = j
  | e :: es, i, j => ∃ k, e.Matches h i k ∧ MatchesAll h es k j

/-- One of the expressions matches. -/
def MatchesSome (h : ByteArray) : List Expr → (i j : Nat) → Prop
  | [], _, _ => False
  | e :: es, i, j => e.Matches h i j ∨ MatchesSome h es i j

end

end Expr

namespace ByteExpr

/-- The expression matches from `i` to `j`. -/
def Spans (h : ByteArray) : ByteExpr → (i j : Nat) → Prop
  | fail, _, _ => False
  | bytes bs, i, j => Spells h bs i j
  | char t, i, j => t.walk? h i = some j
  | look l, i, j => l.holds h i ∧ i = j
  | capture _ body, i, j => body.Spans h i j
  | seq first second, i, j => ∃ k, first.Spans h i k ∧ second.Spans h k j
  | choice first second, i, j => first.Spans h i j ∨ second.Spans h i j
  | times more body, i, j => Copies (body.Spans h) (more + 1) i j
  | atMost more _ body, i, j => ∃ n ≤ more + 1, Copies (body.Spans h) n i j
  | star _ body, i, j => ∃ n, Copies (body.Spans h) n i j
  | plus _ body, i, j => ∃ n, Copies (body.Spans h) (n + 1) i j

/-- The expression leaves no choice. -/
def isLeaf : ByteExpr → Bool
  | fail | bytes _ | char _ | look _ => true
  | _ => false

/-- Where the match of a leaf ends that begins at `i`. -/
def leafEnd? (h : ByteArray) (i : Nat) : ByteExpr → Option Nat
  | bytes bs => spellEnd? h bs i
  | char t => t.walk? h i
  | look l => if l.holds h i then some i else none
  | _ => none

end ByteExpr

variable {h : ByteArray} {i j : Nat}

theorem spellEnd?_eq_some_iff {bs : List UInt8} :
    spellEnd? h bs i = some j ↔ Spells h bs i j := by
  induction bs generalizing i with
  | nil => exact Option.some.injEq i j ▸ Iff.rfl
  | cons b bs ih =>
    rw [spellEnd?, Spells]
    split
    · next hb => rw [ih, and_iff_right hb]
    · next hb => simp [hb]

theorem spells_append {bs cs : List UInt8} :
    Spells h (bs ++ cs) i j ↔ ∃ k, Spells h bs i k ∧ Spells h cs k j := by
  induction bs generalizing i with
  | nil => simp [Spells]
  | cons b bs ih =>
    simp only [List.cons_append, Spells, ih]
    exact ⟨fun ⟨hb, k, hk⟩ => ⟨k, ⟨hb, hk.1⟩, hk.2⟩, fun ⟨k, hk, hrest⟩ => ⟨hk.1, k, hk.2, hrest⟩⟩

theorem spells_iff_bytesAt {bs : List UInt8} (hi : i ≤ h.size) :
    Spells h bs i j ↔ bytesAt h i bs ∧ i + bs.length = j := by
  induction bs generalizing i with
  | nil =>
    rw [Spells, bytesAt, decide_eq_true_eq, and_iff_right hi]
    rfl
  | cons b bs ih =>
    rw [Spells, bytesAt, Bool.and_eq_true, beq_iff_eq, and_assoc]
    refine and_congr_right fun hb => ?_
    rw [ih (i := i + 1) (LiteralPrefix.lt_size_of_byte hb), List.length_cons, Nat.add_right_comm,
      Nat.add_assoc]

/-- Bytes are spelled where they are what stands there. -/
theorem spells_iff_extract {bs : List UInt8} (hi : i ≤ h.size) :
    Spells h bs i j ↔ j = i + bs.length ∧ j ≤ h.size ∧ h.extract i j = bs.toByteArray := by
  rw [spells_iff_bytesAt hi, bytesAt_iff_extract]
  constructor
  · rintro ⟨⟨-, rest, hrest⟩, rfl⟩
    have hsize : h.size - i = bs.length + rest.size := by
      have hsizes := congrArg ByteArray.size hrest
      rwa [ByteArray.size_extract, Nat.min_self, ByteArray.size_append, List.size_toByteArray]
        at hsizes
    refine ⟨rfl, by omega, ?_⟩
    have hprefix : (h.extract i h.size).extract 0 bs.length = bs.toByteArray := by
      rw [hrest]
      exact ByteArray.extract_append_eq_left List.size_toByteArray.symm
    rwa [ByteArray.extract_extract, Nat.add_zero, Nat.min_eq_left (by omega)] at hprefix
  · rintro ⟨rfl, hj, hbytes⟩
    refine ⟨⟨hi, h.extract (i + bs.length) h.size, ?_⟩, rfl⟩
    rw [← hbytes]
    exact ByteArray.extract_eq_extract_append_extract _ (Nat.le_add_right _ _) hj

theorem spells_encode_iff {c : Char} :
    Spells h (Utf8.encode c) i j ↔
      bytesAt h i (Utf8.encode c) ∧ i + (Utf8.encode c).length = j := by
  obtain ⟨b, bs, heq, -⟩ := Utf8.exists_encode_eq_cons c
  by_cases hi : i ≤ h.size
  · exact spells_iff_bytesAt hi
  · rw [heq, Spells, bytesAt, Bool.and_eq_true, beq_iff_eq]
    refine iff_of_false (fun hb => hi ?_) (fun hb => hi ?_)
    · exact Nat.le_of_lt (LiteralPrefix.lt_size_of_byte hb.1)
    · exact Nat.le_of_lt (LiteralPrefix.lt_size_of_byte hb.1.1)

theorem le_of_spells {bs : List UInt8} (hspells : Spells h bs i j) (hi : i ≤ h.size) :
    i ≤ j ∧ j ≤ h.size := by
  obtain ⟨hbytes, rfl⟩ := (spells_iff_bytesAt hi).mp hspells
  exact ⟨Nat.le_add_right _ _, LiteralPrefix.le_size_of_bytesAt hbytes⟩

theorem copies_add {R : Nat → Nat → Prop} {m n : Nat} :
    Copies R (m + n) i j ↔ ∃ k, Copies R m i k ∧ Copies R n k j := by
  induction m generalizing i with
  | zero => simp [Copies]
  | succ m ih =>
    simp only [Nat.succ_add, Copies, ih]
    exact ⟨fun ⟨l, hl, k, hk⟩ => ⟨k, ⟨l, hl, hk.1⟩, hk.2⟩,
      fun ⟨k, ⟨l, hl, hk⟩, hrest⟩ => ⟨l, hl, k, hk, hrest⟩⟩

/-- What holds from each position to itself and adds up holds of copies. -/
theorem copies_induction {R S : Nat → Nat → Prop} (hrefl : ∀ i, S i i)
    (hstep : ∀ i k j, R i k → S k j → S i j) {n : Nat} (hcopies : Copies R n i j) : S i j := by
  induction n generalizing i with
  | zero => exact hcopies ▸ hrefl i
  | succ n ih =>
    obtain ⟨k, hik, hkj⟩ := hcopies
    exact hstep i k j hik (ih hkj)

theorem le_of_copies {R : Nat → Nat → Prop} {size n : Nat}
    (hR : ∀ {i j}, R i j → i ≤ size → i ≤ j ∧ j ≤ size) (hcopies : Copies R n i j)
    (hi : i ≤ size) : i ≤ j ∧ j ≤ size := by
  refine copies_induction (S := fun i j => i ≤ size → i ≤ j ∧ j ≤ size)
    (fun i hi => ⟨Nat.le_refl i, hi⟩) (fun i k j hik hkj hi => ?_) hcopies hi
  obtain ⟨hle, hk⟩ := hR hik hi
  exact ⟨Nat.le_trans hle (hkj hk).1, (hkj hk).2⟩

namespace ByteExpr

variable {body : ByteExpr}

theorem spans_iff_leafEnd? {e : ByteExpr} (he : e.isLeaf) :
    e.Spans h i j ↔ e.leafEnd? h i = some j := by
  cases e with
  | fail => simp [Spans, leafEnd?]
  | bytes bs => exact spellEnd?_eq_some_iff.symm
  | char t => exact Iff.rfl
  | look l => simp [Spans, leafEnd?]
  | _ => cases he

/-- A match lies in the haystack. -/
theorem le_of_spans {e : ByteExpr} (hspans : e.Spans h i j) (hi : i ≤ h.size) :
    i ≤ j ∧ j ≤ h.size := by
  induction e generalizing i j with
  | fail => exact hspans.elim
  | bytes bs => exact le_of_spells hspans hi
  | char t => exact ⟨Nat.le_of_lt (ByteTrie.lt_of_walk? hspans).1, (ByteTrie.lt_of_walk? hspans).2⟩
  | look l =>
    obtain ⟨-, rfl⟩ := hspans
    exact ⟨Nat.le_refl i, hi⟩
  | capture index body ih => exact ih hspans hi
  | seq first second ih₁ ih₂ =>
    obtain ⟨k, hik, hkj⟩ := hspans
    obtain ⟨hle, hk⟩ := ih₁ hik hi
    exact ⟨Nat.le_trans hle (ih₂ hkj hk).1, (ih₂ hkj hk).2⟩
  | choice first second ih₁ ih₂ =>
    rcases hspans with hspans | hspans
    · exact ih₁ hspans hi
    · exact ih₂ hspans hi
  | times more body ih => exact le_of_copies ih hspans hi
  | atMost more greedy body ih =>
    obtain ⟨n, -, hcopies⟩ := hspans
    exact le_of_copies ih hcopies hi
  | star greedy body ih | plus greedy body ih =>
    obtain ⟨n, hcopies⟩ := hspans
    exact le_of_copies ih hcopies hi

theorem spans_empty : empty.Spans h i j ↔ i = j :=
  Iff.rfl

theorem spans_sequence_cons (e : ByteExpr) (es : List ByteExpr) :
    (sequence (e :: es)).Spans h i j ↔ ∃ k, e.Spans h i k ∧ (sequence es).Spans h k j := by
  cases es with
  | nil => simp [sequence, spans_empty]
  | cons e' es => rfl

theorem spans_alternatives_cons (e : ByteExpr) {es : List ByteExpr} (hes : es ≠ []) :
    (alternatives (e :: es)).Spans h i j ↔ e.Spans h i j ∨ (alternatives es).Spans h i j := by
  obtain ⟨e', es, rfl⟩ := List.exists_cons_of_ne_nil hes
  rfl

theorem spans_exactly_append (n : Nat) (es : List ByteExpr) :
    (sequence (exactly n body ++ es)).Spans h i j ↔
      ∃ k, Copies (body.Spans h) n i k ∧ (sequence es).Spans h k j := by
  cases n with
  | zero => simp [exactly, Copies]
  | succ n => exact spans_sequence_cons (times n body) es

theorem spans_optional (n : Nat) (greedy : Bool) :
    (sequence (optional n greedy body)).Spans h i j ↔ ∃ k ≤ n, Copies (body.Spans h) k i j := by
  cases n with
  | zero =>
    refine ⟨fun heq => ⟨0, Nat.le_refl 0, heq⟩, ?_⟩
    rintro ⟨k, hk, hcopies⟩
    obtain rfl := Nat.le_zero.mp hk
    exact hcopies
  | succ n => rfl

/-- Unrolled copies are as many as the bounds allow. -/
theorem spans_repeated {min : Nat} {max : Option Nat} (hle : ∀ m ∈ max, min ≤ m) (greedy : Bool) :
    (repeated min max greedy body).Spans h i j ↔
      ∃ n, (min ≤ n ∧ ∀ m ∈ max, n ≤ m) ∧ Copies (body.Spans h) n i j := by
  unfold repeated
  split
  · simp [Spans]
  · next n =>
    rw [spans_exactly_append]
    simp only [sequence, Spans, Option.mem_def, reduceCtorEq, false_imp_iff, implies_true, and_true]
    constructor
    · rintro ⟨k, hn, m, hm⟩
      exact ⟨n + (m + 1), by omega, copies_add.mpr ⟨k, hn, hm⟩⟩
    · rintro ⟨m, hm, hcopies⟩
      rw [show m = n + (m - n - 1 + 1) by omega] at hcopies
      obtain ⟨k, hn, hm⟩ := copies_add.mp hcopies
      exact ⟨k, hn, _, hm⟩
  · next m =>
    have hmin : min ≤ m := hle m rfl
    rw [spans_exactly_append]
    simp only [spans_optional, Option.mem_def, Option.some.injEq, forall_eq']
    constructor
    · rintro ⟨k, hn, l, hl, hcopies⟩
      exact ⟨min + l, by omega, copies_add.mpr ⟨k, hn, hcopies⟩⟩
    · rintro ⟨l, hl, hcopies⟩
      rw [show l = min + (l - min) by omega] at hcopies
      obtain ⟨k, hn, hcopies⟩ := copies_add.mp hcopies
      exact ⟨k, hn, l - min, by omega, hcopies⟩

theorem spans_ofSet {s : CharSet} (hs : s.IsAscending) :
    (ofSet s).Spans h i j ↔ ∃ c, s.contains c ∧ Spells h (Utf8.encode c) i j := by
  unfold ofSet
  split
  · next hempty =>
    have hnone : ∀ c, s.contains c = false := by
      intro c
      rw [CharSet.contains, List.isEmpty_iff.mp hempty]
      rfl
    simp [Spans, hnone]
  · simp only [Spans, ByteTrie.walk?_ofSet hs, spells_encode_iff]

/-- A character of a literal that ignores case stands for each of its case orbit. -/
theorem spans_folded (chars : List Char) :
    (sequence (chars.map fun c => ofSet (CharSet.caseOrbit c))).Spans h i j ↔
      ∃ cs, List.Forall₂ (fun c d => d ∈ Unicode.caseOrbit c) chars cs ∧
        Spells h (Utf8.encodeAll cs) i j := by
  induction chars generalizing i with
  | nil => simp [sequence, spans_empty, Utf8.encodeAll, Spells]
  | cons c chars ih =>
    have hset : ∀ k, (ofSet (CharSet.caseOrbit c)).Spans h i k ↔
        ∃ d, d ∈ Unicode.caseOrbit c ∧ Spells h (Utf8.encode d) i k := by
      intro k
      rw [spans_ofSet (CharSet.isAscending_caseOrbit c)]
      simp only [CharSet.caseOrbit, CharSet.contains_ofChars]
    simp only [List.map_cons, spans_sequence_cons, hset, ih, List.forall₂_cons_left_iff,
      Utf8.encodeAll]
    constructor
    · rintro ⟨k, ⟨d, hd, hspells⟩, cs, hcs, hrest⟩
      refine ⟨d :: cs, ⟨d, cs, hd, hcs, rfl⟩, ?_⟩
      rw [List.flatMap_cons, spells_append]
      exact ⟨k, hspells, hrest⟩
    · rintro ⟨_, ⟨d, cs, hd, hcs, rfl⟩, hspells⟩
      rw [List.flatMap_cons, spells_append] at hspells
      obtain ⟨k, hspells, hrest⟩ := hspells
      exact ⟨k, ⟨d, hd, hspells⟩, cs, hcs, hrest⟩

end ByteExpr

namespace Expr

mutual

/-- The expression over bytes matches what the expression does. -/
theorem spans_bytewise_iff : ∀ {e : Expr}, e.WellFormed → ∀ {i j : Nat},
    e.bytewise.Spans h i j ↔ e.Matches h i j
  | empty, _, i, j => Iff.rfl
  | literal _ false, _, i, j => Iff.rfl
  | literal chars true, _, i, j => ByteExpr.spans_folded chars
  | charClass c, _, i, j => ByteExpr.spans_ofSet (CharSet.isAscending_toSet c)
  | look _, _, i, j => Iff.rfl
  | repetition min max greedy body, he, i, j => by
    have hbody : body.bytewise.Spans h = body.Matches h :=
      funext fun i => funext fun j => propext (spans_bytewise_iff he.2)
    rw [bytewise, ByteExpr.spans_repeated he.1, hbody, Matches]
  | capture _ _ body, he, i, j => spans_bytewise_iff (e := body) he.2
  | concat parts, he, i, j => spans_sequence_iff he
  | alternation branches, he, i, j => spans_alternatives_iff he.1 he.2

theorem spans_sequence_iff : ∀ {es : List Expr}, WellFormedAll es → ∀ {i j : Nat},
    (ByteExpr.sequence (bytewiseAll es)).Spans h i j ↔ MatchesAll h es i j
  | [], _, i, j => Iff.rfl
  | e :: es, he, i, j => by
    rw [bytewiseAll, ByteExpr.spans_sequence_cons, MatchesAll]
    exact exists_congr fun k => and_congr (spans_bytewise_iff he.1) (spans_sequence_iff he.2)

theorem spans_alternatives_iff : ∀ {es : List Expr}, es ≠ [] → WellFormedAll es →
    ∀ {i j : Nat},
      (ByteExpr.alternatives (bytewiseAll es)).Spans h i j ↔ MatchesSome h es i j
  | [], hne, _, i, j => absurd rfl hne
  | [e], _, he, i, j => by
    rw [MatchesSome, MatchesSome, or_false]
    exact spans_bytewise_iff he.1
  | e :: e' :: es, _, he, i, j => by
    rw [bytewiseAll, ByteExpr.spans_alternatives_cons _ (by simp [bytewiseAll]), MatchesSome]
    exact or_congr (spans_bytewise_iff he.1)
      (spans_alternatives_iff (List.cons_ne_nil e' es) he.2)

end

end Expr

/-! ## Matches are text -/

theorem isText_of_spells {cs : List Char} (hspells : Spells h (Utf8.encodeAll cs) i j) :
    Utf8.IsText h i j := by
  induction cs generalizing i with
  | nil =>
    obtain rfl : i = j := hspells
    exact .refl i
  | cons c cs ih =>
    rw [Utf8.encodeAll, List.flatMap_cons, spells_append] at hspells
    obtain ⟨k, hchar, hrest⟩ := hspells
    obtain ⟨hbytes, rfl⟩ := spells_encode_iff.mp hchar
    have hlength : (Utf8.encode c).length = c.utf8Size := String.length_utf8EncodeChar c
    rw [hlength] at hrest
    exact .step (Utf8.decodeAt?_eq_some_iff.mpr hbytes) (ih hrest)

namespace ByteExpr

/-- Bytes are those of characters, and tries those of sets of characters. -/
def IsTextual : ByteExpr → Prop
  | fail | look _ => True
  | bytes bs => ∃ cs, bs = Utf8.encodeAll cs
  | char t => ∃ s : CharSet, s.IsAscending ∧ t = ByteTrie.ofSet s
  | capture _ body | times _ body | atMost _ _ body | star _ body | plus _ body => body.IsTextual
  | seq first second | choice first second => first.IsTextual ∧ second.IsTextual

theorem isPervasive_isTextual : IsPervasive IsTextual where
  fail := trivial
  empty := ⟨[], rfl⟩
  seq := And.intro
  choice := And.intro
  times := id
  atMost := id
  bytes cs := ⟨cs, rfl⟩
  char hs _ := ⟨_, hs, rfl⟩
  look _ := trivial
  capture _ := id
  star := id
  plus := id

/-- What is made of text and of characters matches nothing but text. -/
theorem isText_of_spans {e : ByteExpr} (he : e.IsTextual) (hspans : e.Spans h i j) :
    Utf8.IsText h i j := by
  induction e generalizing i j with
  | fail => exact hspans.elim
  | bytes bs =>
    obtain ⟨cs, rfl⟩ := he
    exact isText_of_spells hspans
  | char t =>
    obtain ⟨s, hs, rfl⟩ := he
    obtain ⟨c, -, hbytes, rfl⟩ := (ByteTrie.walk?_ofSet hs).mp hspans
    have hlength : (Utf8.encode c).length = c.utf8Size := String.length_utf8EncodeChar c
    rw [hlength]
    exact .single (Utf8.decodeAt?_eq_some_iff.mpr hbytes)
  | look l =>
    obtain ⟨-, rfl⟩ := hspans
    exact .refl i
  | capture index body ih => exact ih he hspans
  | seq first second ih₁ ih₂ =>
    obtain ⟨k, hik, hkj⟩ := hspans
    exact (ih₁ he.1 hik).trans (ih₂ he.2 hkj)
  | choice first second ih₁ ih₂ => exact hspans.elim (ih₁ he.1) (ih₂ he.2)
  | times more body ih => exact copies_induction .refl (fun _ _ _ hik => (ih he hik).trans) hspans
  | atMost more greedy body ih =>
    obtain ⟨n, -, hcopies⟩ := hspans
    exact copies_induction .refl (fun _ _ _ hik => (ih he hik).trans) hcopies
  | star greedy body ih | plus greedy body ih =>
    obtain ⟨n, hcopies⟩ := hspans
    exact copies_induction .refl (fun _ _ _ hik => (ih he hik).trans) hcopies

end ByteExpr

/-- The expression over bytes that a pattern becomes is made of text and of characters. -/
theorem Expr.isTextual_bytewise {e : Expr} (he : e.WellFormed) : e.bytewise.IsTextual :=
  forall_bytewise ByteExpr.isPervasive_isTextual he

end LinearRegex
