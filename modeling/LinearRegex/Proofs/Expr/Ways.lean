import LinearRegex.Proofs.Expr.Denotation
import LinearRegex.Search.Input

/-!
# In which order an expression is tried

A matcher that goes back when it fails tries the branches of an alternation from left to right, and
one more copy of what is repeated before the end of a greedy repetition, but behind the end of a
lazy one.  The ways in which an expression matches from a position come in the order of these
attempts, each with the slots that it has stored (`Expr.ways`).  The expression over bytes has the
same ways (`ways_bytewise`), although it puts the last copy that a repetition needs into its loop.
-/

namespace LinearRegex

/-- Where a way has come to, and the slots that it has stored. -/
abbrev Point := Nat × Slots

namespace Ways

/-- Where a character ends that stands at `i` and is one of those asked for. -/
def charEnd? (h : ByteArray) (q : Char → Bool) (i : Nat) : Option Nat :=
  ((Utf8.decodeAt? h i).filter q).map fun c => i + c.utf8Size

/-- Where characters end that stand at `i` and fold to the given ones. -/
def foldEnd? (h : ByteArray) : List Char → (i : Nat) → Option Nat
  | [], i => some i
  | c :: cs, i => (charEnd? h (fun d => d ∈ Unicode.caseOrbit c) i).bind (foldEnd? h cs)

/-- The one way from `a` that stores nothing, if there is an end. -/
def single (a : Point) (stop? : Option Nat) : List Point :=
  (stop?.map (·, a.2)).toList

/-- What is entered stands in front of what is left for if `greedy`, and behind it otherwise. -/
def prefer (greedy : Bool) (entered left : List Point) : List Point :=
  if greedy then entered ++ left else left ++ entered

/-- So many copies, one after the other. -/
def copies (f : Point → List Point) : Nat → Point → List Point
  | 0, a => [a]
  | n + 1, a => (f a).flatMap (copies f n)

/-- Up to so many copies, each an option inside the one before it. -/
def options (greedy : Bool) (f : Point → List Point) : Nat → Point → List Point
  | 0, a => [a]
  | n + 1, a => prefer greedy ((f a).flatMap (options greedy f n)) [a]

/-- Any number of copies.  Every copy has to take some of the `size` bytes. -/
def loop (greedy : Bool) (size : Nat) (f : Point → List Point) (a : Point) : List Point :=
  prefer greedy
    ((f a).flatMap fun b =>
      if _hlt : a.1 < b.1 ∧ b.1 ≤ size then loop greedy size f b else [])
    [a]
termination_by size - a.1

end Ways

namespace Expr

mutual

/-- The ways in which the expression matches from a point, the preferred one first. -/
def ways (h : ByteArray) : Expr → Point → List Point
  | empty, a => [a]
  | literal chars false, a => Ways.single a (spellEnd? h (Utf8.encodeAll chars) a.1)
  | literal chars true, a => Ways.single a (Ways.foldEnd? h chars a.1)
  | charClass c, a => Ways.single a (Ways.charEnd? h c.toSet.contains a.1)
  | look l, a => if l.holds h a.1 then [a] else []
  | repetition min (some max) greedy body, a =>
    (Ways.copies (body.ways h) min a).flatMap (Ways.options greedy (body.ways h) (max - min))
  | repetition min none greedy body, a =>
    (Ways.copies (body.ways h) min a).flatMap (Ways.loop greedy h.size (body.ways h))
  | capture index _ body, a =>
    (body.ways h (a.1, a.2.store (2 * index) (some a.1))).map fun b =>
      (b.1, b.2.store (2 * index + 1) (some b.1))
  | concat parts, a => waysAll h parts a
  | alternation branches, a => waysSome h branches a

/-- The ways in which the expressions match one after the other. -/
def waysAll (h : ByteArray) : List Expr → Point → List Point
  | [], a => [a]
  | e :: es, a => (e.ways h a).flatMap (waysAll h es)

/-- The ways in which one of the expressions matches. -/
def waysSome (h : ByteArray) : List Expr → Point → List Point
  | [], _ => []
  | e :: es, a => e.ways h a ++ waysSome h es a

end

mutual

/-- No repetition without an upper bound has a body that can match the empty text. -/
def IsProductive : Expr → Prop
  | empty | literal .. | charClass _ | look _ => True
  | repetition _ max _ body =>
    (max = none → ∀ h : ByteArray, ∀ i ≤ h.size, ¬ body.Matches h i i) ∧ body.IsProductive
  | capture _ _ body => body.IsProductive
  | concat parts => AllProductive parts
  | alternation branches => AllProductive branches

/-- The same of a list of expressions. -/
def AllProductive : List Expr → Prop
  | [] => True
  | e :: es => e.IsProductive ∧ AllProductive es

end

end Expr

namespace ByteExpr

/-- The ways in which the expression matches from a point, the preferred one first. -/
def ways (h : ByteArray) : ByteExpr → Point → List Point
  | fail, _ => []
  | bytes bs, a => Ways.single a (spellEnd? h bs a.1)
  | char t, a => Ways.single a (t.walk? h a.1)
  | look l, a => if l.holds h a.1 then [a] else []
  | capture index body, a =>
    (body.ways h (a.1, a.2.store (2 * index) (some a.1))).map fun b =>
      (b.1, b.2.store (2 * index + 1) (some b.1))
  | seq first second, a => (first.ways h a).flatMap (second.ways h)
  | choice first second, a => first.ways h a ++ second.ways h a
  | times more body, a => Ways.copies (body.ways h) (more + 1) a
  | atMost more greedy body, a => Ways.options greedy (body.ways h) (more + 1) a
  | star greedy body, a => Ways.loop greedy h.size (body.ways h) a
  | plus greedy body, a => (body.ways h a).flatMap (Ways.loop greedy h.size (body.ways h))

/-- No loop has a body that can match the empty text. -/
def IsProductive (h : ByteArray) : ByteExpr → Prop
  | fail | bytes _ | char _ | look _ => True
  | capture _ body | times _ body | atMost _ _ body => body.IsProductive h
  | seq first second | choice first second => first.IsProductive h ∧ second.IsProductive h
  | star _ body | plus _ body => (∀ i ≤ h.size, ¬ body.Spans h i i) ∧ body.IsProductive h

end ByteExpr

variable {h : ByteArray} {i j : Nat} {a b : Point}

namespace Ways

theorem charEnd?_eq_some_iff {q : Char → Bool} :
    charEnd? h q i = some j ↔ ∃ c, q c ∧ Spells h (Utf8.encode c) i j := by
  have hlength : ∀ c : Char, (Utf8.encode c).length = c.utf8Size := fun c =>
    String.length_utf8EncodeChar c
  simp only [charEnd?, Option.map_eq_some_iff, Option.filter_eq_some_iff, spells_encode_iff,
    Utf8.decodeAt?_eq_some_iff, hlength]
  exact exists_congr fun c => ⟨fun ⟨⟨hbytes, hc⟩, heq⟩ => ⟨hc, hbytes, heq⟩,
    fun ⟨hc, hbytes, heq⟩ => ⟨⟨hbytes, hc⟩, heq⟩⟩

theorem mem_single {stop? : Option Nat} : b ∈ single a stop? ↔ stop? = some b.1 ∧ b.2 = a.2 := by
  rw [single, Option.mem_toList, Option.map_eq_some_iff]
  constructor
  · rintro ⟨j, hj, rfl⟩
    exact ⟨hj, rfl⟩
  · rintro ⟨hj, heq⟩
    exact ⟨b.1, hj, Prod.ext rfl heq.symm⟩

theorem mem_prefer {greedy : Bool} {xs ys : List Point} :
    b ∈ prefer greedy xs ys ↔ b ∈ xs ∨ b ∈ ys := by
  unfold prefer
  split
  · exact List.mem_append
  · exact List.mem_append.trans or_comm

theorem copies_one (f : Point → List Point) : copies f 1 = f :=
  funext fun a => (List.flatMap_singleton' (f a))

theorem copies_add (f : Point → List Point) (m n : Nat) (a : Point) :
    copies f (m + n) a = (copies f m a).flatMap (copies f n) := by
  induction m generalizing a with
  | zero => rw [Nat.zero_add, copies, List.flatMap_singleton]
  | succ m ih =>
    rw [Nat.succ_add, copies, copies, List.flatMap_assoc]
    exact List.flatMap_congr fun b _ => ih b

theorem copies_of_mem {f : Point → List Point} {R : Nat → Nat → Prop}
    (hf : ∀ {a b}, b ∈ f a → R a.1 b.1) {n : Nat} (hb : b ∈ copies f n a) :
    Copies R n a.1 b.1 := by
  induction n generalizing a with
  | zero =>
    obtain rfl := List.mem_singleton.mp hb
    rfl
  | succ n ih =>
    obtain ⟨c, hc, hb⟩ := List.mem_flatMap.mp hb
    exact ⟨c.1, hf hc, ih hb⟩

theorem copies_of_mem_options {f : Point → List Point} {R : Nat → Nat → Prop}
    (hf : ∀ {a b}, b ∈ f a → R a.1 b.1) {greedy : Bool} {n : Nat}
    (hb : b ∈ options greedy f n a) : ∃ k ≤ n, Copies R k a.1 b.1 := by
  induction n generalizing a with
  | zero =>
    obtain rfl := List.mem_singleton.mp hb
    exact ⟨0, Nat.le_refl 0, rfl⟩
  | succ n ih =>
    rcases mem_prefer.mp hb with hb | hb
    · obtain ⟨c, hc, hb⟩ := List.mem_flatMap.mp hb
      obtain ⟨k, hk, hcopies⟩ := ih hb
      exact ⟨k + 1, Nat.succ_le_succ hk, c.1, hf hc, hcopies⟩
    · obtain rfl := List.mem_singleton.mp hb
      exact ⟨0, Nat.zero_le _, rfl⟩

theorem copies_of_mem_loop {f : Point → List Point} {R : Nat → Nat → Prop}
    (hf : ∀ {a b}, b ∈ f a → R a.1 b.1) {greedy : Bool} {size : Nat}
    (hb : b ∈ loop greedy size f a) : ∃ n, Copies R n a.1 b.1 := by
  induction a using loop.induct size with
  | case1 a ih =>
    rw [loop] at hb
    rcases mem_prefer.mp hb with hb | hb
    · obtain ⟨c, hc, hb⟩ := List.mem_flatMap.mp hb
      split at hb
      · next hlt =>
        obtain ⟨n, hcopies⟩ := ih c hlt hb
        exact ⟨n + 1, c.1, hf hc, hcopies⟩
      · cases hb
    · obtain rfl := List.mem_singleton.mp hb
      exact ⟨0, rfl⟩

/-- Where every copy takes some bytes, a loop takes one more copy or ends. -/
theorem loop_eq {f : Point → List Point} {greedy : Bool} {size : Nat}
    (hf : ∀ b ∈ f a, a.1 < b.1 ∧ b.1 ≤ size) :
    loop greedy size f a = prefer greedy ((f a).flatMap (loop greedy size f)) [a] := by
  rw [loop]
  congr 1
  exact List.flatMap_congr fun b hb => dif_pos (hf b hb)

end Ways

namespace ByteExpr

theorem ways_leaf {e : ByteExpr} (he : e.isLeaf) :
    e.ways h a = Ways.single a (e.leafEnd? h a.1) := by
  cases e with
  | fail | bytes _ | char _ => rfl
  | look l =>
    rw [ways, leafEnd?]
    split <;> rfl
  | _ => cases he

/-- The ways lead over what the expression matches. -/
theorem spans_of_mem_ways {e : ByteExpr} (hb : b ∈ e.ways h a) : e.Spans h a.1 b.1 := by
  induction e generalizing a b with
  | fail | bytes _ | char _ | look _ =>
    rw [ways_leaf rfl] at hb
    exact (spans_iff_leafEnd? rfl).mpr (Ways.mem_single.mp hb).1
  | capture index body ih =>
    obtain ⟨c, hc, rfl⟩ := List.mem_map.mp hb
    have hspans := ih hc
    exact hspans
  | seq first second ih₁ ih₂ =>
    obtain ⟨c, hc, hb⟩ := List.mem_flatMap.mp hb
    exact ⟨c.1, ih₁ hc, ih₂ hb⟩
  | choice first second ih₁ ih₂ => exact (List.mem_append.mp hb).imp ih₁ ih₂
  | times more body ih => exact Ways.copies_of_mem ih hb
  | atMost more greedy body ih => exact Ways.copies_of_mem_options ih hb
  | star greedy body ih => exact Ways.copies_of_mem_loop ih hb
  | plus greedy body ih =>
    obtain ⟨c, hc, hb⟩ := List.mem_flatMap.mp hb
    obtain ⟨n, hcopies⟩ := Ways.copies_of_mem_loop ih hb
    exact ⟨n, c.1, ih hc, hcopies⟩

theorem le_of_mem_ways {e : ByteExpr} (hb : b ∈ e.ways h a) (ha : a.1 ≤ h.size) :
    a.1 ≤ b.1 ∧ b.1 ≤ h.size :=
  le_of_spans (spans_of_mem_ways hb) ha

theorem lt_of_mem_ways {e : ByteExpr} (he : ∀ i ≤ h.size, ¬ e.Spans h i i) (hb : b ∈ e.ways h a)
    (ha : a.1 ≤ h.size) : a.1 < b.1 ∧ b.1 ≤ h.size := by
  obtain ⟨hle, hsize⟩ := le_of_mem_ways hb ha
  refine ⟨Nat.lt_of_le_of_ne hle fun heq => he a.1 ha ?_, hsize⟩
  have hspans := spans_of_mem_ways hb
  rwa [← heq] at hspans

/-! ## The expression over bytes -/

theorem ways_sequence_cons (e : ByteExpr) (es : List ByteExpr) :
    (sequence (e :: es)).ways h a = (e.ways h a).flatMap ((sequence es).ways h) := by
  cases es with
  | nil => exact (List.flatMap_singleton' _).symm
  | cons e' es => rfl

theorem ways_alternatives_cons (e : ByteExpr) {es : List ByteExpr} (hes : es ≠ []) :
    (alternatives (e :: es)).ways h a = e.ways h a ++ (alternatives es).ways h a := by
  obtain ⟨e', es, rfl⟩ := List.exists_cons_of_ne_nil hes
  rfl

variable {body : ByteExpr}

theorem ways_exactly_append (n : Nat) (es : List ByteExpr) :
    (sequence (exactly n body ++ es)).ways h a =
      (Ways.copies (body.ways h) n a).flatMap ((sequence es).ways h) := by
  cases n with
  | zero => exact (List.flatMap_singleton _ a).symm
  | succ n => exact ways_sequence_cons (times n body) es

theorem ways_optional (n : Nat) (greedy : Bool) :
    (sequence (optional n greedy body)).ways h = Ways.options greedy (body.ways h) n := by
  cases n with
  | zero => rfl
  | succ n => rfl

/-- Bounded repetitions have all their copies in the program. -/
theorem ways_repeated_some (min max : Nat) (greedy : Bool) :
    (repeated min (some max) greedy body).ways h a =
      (Ways.copies (body.ways h) min a).flatMap
        (Ways.options greedy (body.ways h) (max - min)) := by
  rw [repeated, ways_exactly_append, ways_optional]

/-- The last copy that an unbounded repetition needs is the body of its loop. -/
theorem ways_repeated_none (min : Nat) (greedy : Bool) :
    (repeated min none greedy body).ways h a =
      (Ways.copies (body.ways h) min a).flatMap (Ways.loop greedy h.size (body.ways h)) := by
  cases min with
  | zero => exact (List.flatMap_singleton _ a).symm
  | succ n =>
    rw [repeated, ways_exactly_append, Ways.copies_add, Ways.copies_one, List.flatMap_assoc]
    rfl

theorem ways_ofSet {s : CharSet} (hs : s.IsAscending) :
    (ofSet s).ways h a = Ways.single a (Ways.charEnd? h s.contains a.1) := by
  have hleaf : (ofSet s).isLeaf := by
    unfold ofSet
    split <;> rfl
  rw [ways_leaf hleaf]
  congr 1
  ext j
  rw [← spans_iff_leafEnd? hleaf, spans_ofSet hs, Ways.charEnd?_eq_some_iff]

theorem ways_folded (chars : List Char) :
    (sequence (chars.map fun c => ofSet (CharSet.caseOrbit c))).ways h a =
      Ways.single a (Ways.foldEnd? h chars a.1) := by
  induction chars generalizing a with
  | nil => rfl
  | cons c chars ih =>
    have horbit : (CharSet.caseOrbit c).contains = fun d => decide (d ∈ Unicode.caseOrbit c) := by
      funext d
      rw [CharSet.caseOrbit, Bool.eq_iff_iff, CharSet.contains_ofChars, decide_eq_true_eq]
    rw [List.map_cons, ways_sequence_cons, ways_ofSet (CharSet.isAscending_caseOrbit c), horbit,
      Ways.foldEnd?]
    cases Ways.charEnd? h (fun d => decide (d ∈ Unicode.caseOrbit c)) a.1 with
    | none => rfl
    | some j =>
      exact (List.flatMap_singleton _ (j, a.2)).trans ih

end ByteExpr

namespace Expr

mutual

/-- The expression over bytes has the ways of the expression, in the same order. -/
theorem ways_bytewise : ∀ {e : Expr}, e.WellFormed → ∀ {a : Point},
    e.bytewise.ways h a = e.ways h a
  | empty, _, _ => rfl
  | literal _ false, _, _ => rfl
  | literal chars true, _, _ => ByteExpr.ways_folded chars
  | charClass c, _, _ => ByteExpr.ways_ofSet (CharSet.isAscending_toSet c)
  | look _, _, _ => rfl
  | repetition min (some max) greedy body, he, a => by
    have hbody : body.bytewise.ways h = body.ways h := funext fun a => ways_bytewise he.2
    rw [bytewise, ByteExpr.ways_repeated_some, hbody, ways]
  | repetition min none greedy body, he, a => by
    have hbody : body.bytewise.ways h = body.ways h := funext fun a => ways_bytewise he.2
    rw [bytewise, ByteExpr.ways_repeated_none, hbody, ways]
  | capture index name body, he, a => by
    rw [bytewise, ByteExpr.ways, ways_bytewise (e := body) he.2, ways]
  | concat parts, he, a => ways_sequence he
  | alternation branches, he, a => ways_alternatives he.1 he.2

theorem ways_sequence : ∀ {es : List Expr}, WellFormedAll es → ∀ {a : Point},
    (ByteExpr.sequence (bytewiseAll es)).ways h a = waysAll h es a
  | [], _, _ => rfl
  | e :: es, he, a => by
    rw [bytewiseAll, ByteExpr.ways_sequence_cons, waysAll, ways_bytewise he.1]
    exact List.flatMap_congr fun b _ => ways_sequence he.2

theorem ways_alternatives : ∀ {es : List Expr}, es ≠ [] → WellFormedAll es → ∀ {a : Point},
    (ByteExpr.alternatives (bytewiseAll es)).ways h a = waysSome h es a
  | [], hne, _, _ => absurd rfl hne
  | [e], _, he, a => by
    rw [waysSome, waysSome, List.append_nil]
    exact ways_bytewise he.1
  | e :: e' :: es, _, he, a => by
    rw [bytewiseAll, ByteExpr.ways_alternatives_cons _ (by simp [bytewiseAll]), waysSome,
      ways_bytewise he.1, ways_alternatives (List.cons_ne_nil e' es) he.2]

end

end Expr

/-! ## Loops that take bytes -/

theorem ByteExpr.isInherited_isProductive (h : ByteArray) :
    ByteExpr.IsInherited (·.IsProductive h) where
  fail := trivial
  empty := trivial
  seq := And.intro
  choice := And.intro
  times := id
  atMost := id

namespace Expr

mutual

/-- If no unbounded repetition can go on without taking a byte, no loop over bytes can. -/
theorem isProductive_bytewise : ∀ {e : Expr}, e.WellFormed → e.IsProductive →
    e.bytewise.IsProductive h
  | empty, _, _ => trivial
  | literal _ false, _, _ => trivial
  | literal chars true, _, _ => by
    refine (ByteExpr.isInherited_isProductive h).sequence fun e he => ?_
    obtain ⟨c, -, rfl⟩ := List.mem_map.mp he
    exact (ByteExpr.isInherited_isProductive h).ofSet fun _ => trivial
  | charClass c, _, _ => (ByteExpr.isInherited_isProductive h).ofSet fun _ => trivial
  | look _, _, _ => trivial
  | repetition min max greedy body, he, hproductive => by
    have hbody : body.bytewise.IsProductive h := isProductive_bytewise he.2 hproductive.2
    refine (ByteExpr.isInherited_isProductive h).repeated hbody fun hmax => ?_
    have hloop : ∀ i ≤ h.size, ¬ body.bytewise.Spans h i i := fun i hi hspans =>
      hproductive.1 hmax h i hi ((spans_bytewise_iff he.2).mp hspans)
    exact ⟨⟨hloop, hbody⟩, hloop, hbody⟩
  | capture _ _ body, he, hproductive => isProductive_bytewise (e := body) he.2 hproductive
  | concat parts, he, hproductive =>
    (ByteExpr.isInherited_isProductive h).sequence
      (isProductive_of_mem_bytewiseAll he hproductive)
  | alternation branches, he, hproductive =>
    (ByteExpr.isInherited_isProductive h).alternatives
      (isProductive_of_mem_bytewiseAll he.2 hproductive)

theorem isProductive_of_mem_bytewiseAll : ∀ {es : List Expr}, WellFormedAll es →
    AllProductive es → ∀ e ∈ bytewiseAll es, e.IsProductive h
  | [], _, _ => List.forall_mem_nil _
  | _ :: _, he, hproductive =>
    List.forall_mem_cons.mpr ⟨isProductive_bytewise he.1 hproductive.1,
      isProductive_of_mem_bytewiseAll he.2 hproductive.2⟩

end

end Expr
end LinearRegex
