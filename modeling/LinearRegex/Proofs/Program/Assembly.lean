import LinearRegex.Program.Basic

/-!
# What is assembled

An expression is assembled at the end of the instructions that are there.  What is added is the
block that is known from its size beforehand, with an unknown target for its holes
(`Assembly.gated_emitExpr`).  Patching the holes gives them their target and changes nothing else,
whatever has been added behind the block (`Assembly.Fills`).  In particular every hole fits the
instruction that it is in.  The limit is looked at before every instruction, so it is exceeded just
if there are too many of them, and has no other part in what is assembled
(`Assembly.assemble_eq`).
-/

namespace LinearRegex

open ByteExpr (bytesCode timesCode atMostCode loop length_code)
open ByteTrie (consume)

/-- The holes of the edges that complete a character, from the edge of `node` with the given number
on.  The nodes below stand at `base`. -/
def ByteTrie.holes : ByteTrie → (node number base : Nat) → List Hole
  | nil, _, _, _ => []
  | last _ rest, node, number, base => .edge node number :: rest.holes node (number + 1) base
  | step _ child rest, node, number, base =>
    child.holes base 0 (base + 1) ++ rest.holes node (number + 1) (base + child.size)

namespace Assembly

/-- There is a result with the property if `count` instructions are allowed, and none otherwise. -/
structure Gated {α : Type} (limit count : Nat) (result : Except Refusal α) (P : α → Prop) :
    Prop where
  fits : count ≤ limit → ∃ a, result = .ok a ∧ P a
  exceeds : limit < count → result = .error .tooLarge

/-- Wherever `block` stands at `base`, patching the holes gives it another target. -/
def Fills (holes : List Hole) (base : Nat) (block : Nat → List Instr) : Prop :=
  ∀ (before after : List Instr) (old target : Nat), before.length = base →
    patch holes target (before ++ block old ++ after).toArray =
      .ok (before ++ block target ++ after).toArray

/-- The block has been added to `code`, and is left through the holes of the fragment. -/
def IsAdded (code : List Instr) (block : Nat → List Instr) (added : Fragment × Array Instr) :
    Prop :=
  ∃ holes, added = (⟨code.length, holes⟩, (code ++ block pending).toArray) ∧
    Fills holes code.length block

/-- Wherever the nodes below the one at `node` stand at `base`, patching the holes gives another
target to the edges that complete a character.  The edges of the node itself follow the transitions
`front`, of which there are `number`. -/
def FillsEdges (holes : List Hole) (node number base : Nat) (t : ByteTrie) : Prop :=
  ∀ (before between after : List Instr) (front : List Transition) (old target : Nat),
    before.length = node → front.length = number → node + (between.length + 1) = base →
      patch holes target (before ++ consume (front ++ t.transitions old base) ::
          (between ++ (t.childrenCode old base ++ after))).toArray =
        .ok (before ++ consume (front ++ t.transitions target base) ::
          (between ++ (t.childrenCode target base ++ after))).toArray

variable {limit count base size m n : Nat} {code : List Instr} {holes holes' : List Hole}
  {block block' : Nat → List Instr}

/-! ## The limit -/

namespace Gated

variable {α β : Type} {a : α} {P : α → Prop} {Q : β → Prop} {result : Except Refusal α}
  {next : α → Except Refusal β}

theorem of_eq_ok (hfits : count ≤ limit) (hresult : result = .ok a) (ha : P a) :
    Gated limit count result P :=
  ⟨fun _ => ⟨a, hresult, ha⟩, fun hlt => absurd hfits (Nat.not_le.mpr hlt)⟩

theorem pure (hfits : count ≤ limit) (ha : P a) : Gated limit count (pure a) P :=
  .of_eq_ok hfits rfl ha

theorem imp {Q : α → Prop} (h : Gated limit count result P) (himp : ∀ a, P a → Q a) :
    Gated limit count result Q := by
  refine ⟨?_, h.exceeds⟩
  intro hfits
  obtain ⟨a, hresult, ha⟩ := h.fits hfits
  exact ⟨a, hresult, himp a ha⟩

/-- What exceeds the limit on the way exceeds it at the end. -/
theorem bind (h : Gated limit m result P) (hle : m ≤ n)
    (hnext : ∀ a, m ≤ limit → P a → Gated limit n (next a) Q) :
    Gated limit n (result >>= next) Q := by
  rcases Nat.lt_or_ge limit m with hlt | hge
  · rw [h.exceeds hlt]
    exact ⟨fun hfits => absurd (Nat.le_trans hle hfits) (Nat.not_le.mpr hlt), fun _ => rfl⟩
  · obtain ⟨a, hresult, ha⟩ := h.fits hge
    rw [hresult]
    exact hnext a hge ha

/-- What cannot fail does not matter for the limit. -/
theorem bind_ok (hresult : result = .ok a) (h : Gated limit n (next a) Q) :
    Gated limit n (result >>= next) Q := by
  rw [hresult]
  exact h

end Gated

theorem length_append_singleton (code : List Instr) (i : Instr) :
    (code ++ [i]).length = code.length + 1 :=
  List.length_append

theorem length_append_cons (code : List Instr) (i : Instr) {rest : List Instr}
    (hsize : rest.length = size) : (code ++ i :: rest).length = code.length + 1 + size := by
  rw [List.length_append, List.length_cons, hsize, Nat.add_comm size, Nat.add_assoc]

theorem gated_emit (limit : Nat) (instr : Instr) (code : List Instr) :
    Gated limit (code.length + 1) (emit limit instr code.toArray)
      (· = (code.length, (code ++ [instr]).toArray)) := by
  have hindex : (code ++ [instr]).toArray.size - 1 = code.length := by
    rw [List.size_toArray, length_append_singleton, Nat.add_sub_cancel]
  rw [emit, List.size_toArray, List.push_toArray]
  dsimp only
  rw [hindex]
  split
  · next hfull => exact ⟨fun hfits => absurd hfits (Nat.not_lt.mpr hfull), fun _ => rfl⟩
  · next hfree => exact .pure (Nat.not_le.mp hfree) rfl

/-! ## Holes -/

theorem modify_append_cons {α : Type} (f : α → α) (front rest : List α) (a : α) :
    (front ++ a :: rest).modify front.length f = front ++ f a :: rest := by
  induction front with
  | nil => rfl
  | cons b front ih =>
    rw [List.cons_append, List.length_cons, List.modify_succ_cons, ih, List.cons_append]

theorem setIfInBounds_append_cons (before after : List Instr) (i j : Instr) :
    (before ++ i :: after).toArray.setIfInBounds before.length j =
      (before ++ j :: after).toArray := by
  rw [List.setIfInBounds_toArray, List.set_append_right _ _ (Nat.le_refl _), Nat.sub_self,
    List.set_cons_zero]

theorem patch_append (holes holes' : List Hole) (target : Nat) (code : Array Instr) :
    patch (holes ++ holes') target code = patch holes target code >>= patch holes' target :=
  List.foldlM_append

/-- The holes in front are patched before those behind them. -/
theorem patch_append_of_ok {target : Nat} {before between after : Array Instr}
    (h : patch holes target before = .ok between) (h' : patch holes' target between = .ok after) :
    patch (holes ++ holes') target before = .ok after := by
  rw [patch_append, h]
  exact h'

/-- A hole that fits its instruction is patched there, and nowhere else. -/
theorem patch_singleton (hole : Hole) {target : Nat} {i j : Instr} (before after : List Instr)
    (hindex : holeIndex hole = before.length) (hfill : fill? target hole i = some j) :
    patch [hole] target (before ++ i :: after).toArray = .ok (before ++ j :: after).toArray := by
  have hinstr : (before ++ i :: after).toArray[holeIndex hole]? = some i := by
    rw [hindex, List.getElem?_toArray, List.getElem?_append_right (Nat.le_refl _), Nat.sub_self,
      List.getElem?_cons_zero]
  have hpatched : patchHole target (before ++ i :: after).toArray hole =
      .ok (before ++ j :: after).toArray := by
    rw [patchHole, hinstr, Option.bind_some, hfill, hindex]
    exact congrArg Except.ok (setIfInBounds_append_cons before after i j)
  rw [patch, List.foldlM_cons, hpatched]
  rfl

namespace Fills

/-- The hole of a single instruction. -/
theorem single {hole : Hole} {instr : Nat → Instr} (hindex : holeIndex hole = base)
    (hfill : ∀ old target, fill? target hole (instr old) = some (instr target)) :
    Fills [hole] base fun target => [instr target] := by
  intro before after old target hbefore
  rw [List.append_assoc, List.append_assoc, List.singleton_append, List.singleton_append]
  exact patch_singleton hole before after (hindex.trans hbefore.symm) (hfill old target)

theorem behind (front : List Instr) (h : Fills holes (base + front.length) block) :
    Fills holes base fun target => front ++ block target := by
  intro before after old target hbefore
  have hfilled := h (before ++ front) after old target (by rw [List.length_append, hbefore])
  rw [List.append_assoc before front, List.append_assoc before front] at hfilled
  exact hfilled

theorem before (h : Fills holes base block) (rest : List Instr) :
    Fills holes base fun target => block target ++ rest := by
  intro before after old target hbefore
  have hfilled := h before (rest ++ after) old target hbefore
  rw [← List.append_assoc _ rest, ← List.append_assoc _ rest, List.append_assoc before,
    List.append_assoc before _ rest] at hfilled
  exact hfilled

/-- The holes of two blocks that follow each other have the same target. -/
theorem append (h : Fills holes base block) (h' : Fills holes' (base + size) block')
    (hsize : ∀ target, (block target).length = size) :
    Fills (holes ++ holes') base fun target => block target ++ block' target := by
  intro before after old target hbefore
  have hfirst := (h.before (block' old)) before after old target hbefore
  have hsecond := h' (before ++ block target) after old target
    (by rw [List.length_append, hbefore, hsize])
  rw [List.append_assoc before (block target), List.append_assoc before (block target)] at hsecond
  exact patch_append_of_ok hfirst hsecond

/-- The block stands behind an instruction that has been added to `code`. -/
theorem patch_cons (h : Fills holes (code.length + 1) block) (i : Instr) (rest : List Instr)
    (old target : Nat) :
    patch holes target (code ++ i :: (block old ++ rest)).toArray =
      .ok (code ++ i :: (block target ++ rest)).toArray := by
  have hfilled := h (code ++ [i]) rest old target (length_append_singleton code i)
  rw [List.append_assoc, List.append_assoc, List.append_assoc code, List.append_assoc] at hfilled
  exact hfilled

end Fills

theorem gated_emitNext (instr : Nat → Instr) (limit : Nat) (code : List Instr)
    (hfill : ∀ old target, fill? target (.next code.length) (instr old) = some (instr target)) :
    Gated limit (code.length + 1) (emitNext limit (instr pending) code.toArray)
      (IsAdded code fun target => [instr target]) := by
  refine (gated_emit limit (instr pending) code).bind (Nat.le_refl _) ?_
  rintro _ hfits rfl
  exact .pure hfits ⟨_, rfl, .single rfl hfill⟩

/-! ## Bytes -/

theorem fills_bytesCode (b : UInt8) (bs : List UInt8) (base : Nat) :
    Fills [.next (base + bs.length)] base fun target => bytesCode base target (b :: bs) := by
  induction bs generalizing b base with
  | nil => exact .single rfl fun _ _ => rfl
  | cons c bs ih =>
    have hrest := ih c (base + 1)
    rw [Nat.add_right_comm, Nat.add_assoc, ← List.length_cons] at hrest
    exact .behind [_] hrest

/-- The first byte is there, with a hole, and the others are added behind it. -/
theorem gated_emitBytes (b : UInt8) (bs : List UInt8) (code : List Instr)
    (hlt : code.length < limit) :
    Gated limit (code.length + (bs.length + 1))
      (emitBytes limit code.length bs (code ++ [Instr.byteRange ⟨b, b, pending⟩]).toArray)
      (· = (code.length + bs.length,
        (code ++ bytesCode code.length pending (b :: bs)).toArray)) := by
  induction bs generalizing b code with
  | nil => exact .pure hlt rfl
  | cons c bs ih =>
    have hlength := length_append_singleton code
    have hcount : code.length + 1 + (bs.length + 1) = code.length + ((c :: bs).length + 1) := by
      rw [List.length_cons]
      omega
    have hlast : code.length + 1 + bs.length = code.length + (c :: bs).length := by
      rw [List.length_cons]
      omega
    refine (gated_emit limit _ _).bind (by rw [hlength, List.length_cons]; omega) ?_
    rintro _ hfits rfl
    have hpatch : patch [.next code.length] (code.length + 1)
        (code ++ [Instr.byteRange ⟨b, b, pending⟩] ++
          [Instr.byteRange ⟨c, c, pending⟩]).toArray =
        .ok (code ++ [Instr.byteRange ⟨b, b, code.length + 1⟩] ++
          [Instr.byteRange ⟨c, c, pending⟩]).toArray :=
      fills_bytesCode b [] code.length code _ pending (code.length + 1) rfl
    have hrest := ih c (code ++ [Instr.byteRange ⟨b, b, code.length + 1⟩])
      (by rw [hlength] at hfits ⊢; exact hfits)
    rw [hlength, hcount, hlast, List.append_assoc code _ (bytesCode ..)] at hrest
    dsimp only
    rw [hlength]
    exact .bind_ok hpatch hrest

/-! ## Tries -/

theorem fill?_edge (node : Nat) (front rest : List Transition) (lo hi : UInt8)
    (old target : Nat) :
    fill? target (.edge node front.length) (consume (front ++ ⟨lo, hi, old⟩ :: rest)) =
      some (consume (front ++ ⟨lo, hi, target⟩ :: rest)) := by
  have hmodify := modify_append_cons (fun u : Transition => { u with next := target }) front rest
    ⟨lo, hi, old⟩
  have hlt : front.length < (front ++ ⟨lo, hi, old⟩ :: rest).length := by
    rw [List.length_append, List.length_cons]
    omega
  have hfill : fill? target (.edge node front.length) (.sparse (front ++ ⟨lo, hi, old⟩ :: rest)) =
      some (.sparse (front ++ ⟨lo, hi, target⟩ :: rest)) := by
    rw [fill?, if_pos hlt, hmodify]
  cases front with
  | nil =>
    cases rest with
    | nil => rfl
    | cons u rest => exact hfill
  | cons t front =>
    -- There are several transitions, so the instruction is a sparse one.
    have hsparse : ∀ u, consume (t :: front ++ u :: rest) = .sparse (t :: front ++ u :: rest) := by
      intro u
      cases front <;> rfl
    rw [hsparse, hsparse]
    exact hfill

namespace FillsEdges

variable {node number : Nat} {r : ByteRange} {child rest : ByteTrie}

/-- An edge that completes a character has a hole of its own. -/
theorem last (h : FillsEdges holes node (number + 1) base rest) :
    FillsEdges (.edge node number :: holes) node number base (.last r rest) := by
  intro before between after front old target hbefore hfront hbase
  have hedge : fill? target (.edge node number)
      (consume (front ++ (ByteTrie.last r rest).transitions old base)) =
      some (consume (front ++ ([⟨r.lo, r.hi, target⟩] ++ rest.transitions old base))) :=
    hfront ▸ fill?_edge node front (rest.transitions old base) r.lo r.hi old target
  have hothers := h before between after (front ++ [⟨r.lo, r.hi, target⟩]) old target hbefore
    (by rw [List.length_append, hfront]; rfl) hbase
  rw [List.append_assoc, List.append_assoc] at hothers
  have hpatched := patch_singleton (.edge node number) before
    (between ++ (rest.childrenCode old base ++ after)) hbefore.symm hedge
  exact patch_append_of_ok hpatched hothers

/-- An edge to another node goes on at that, with the holes of the nodes below it. -/
theorem step (h : FillsEdges holes base 0 (base + 1) child)
    (h' : FillsEdges holes' node (number + 1) (base + child.size) rest) :
    FillsEdges (holes ++ holes') node number base (.step r child rest) := by
  intro before between after front old target hbefore hfront hbase
  have hbelow := h (before ++ consume (front ++ ⟨r.lo, r.hi, base⟩ ::
    rest.transitions old (base + child.size)) :: between) []
    (rest.childrenCode old (base + child.size) ++ after) [] old target
    (by rw [List.length_append, List.length_cons, hbefore, hbase]) rfl rfl
  have hothers := h' before (between ++ child.code base target) after
    (front ++ [⟨r.lo, r.hi, base⟩]) old target hbefore (by rw [List.length_append, hfront]; rfl)
    (by rw [List.length_append, child.length_code, ← hbase]; omega)
  simp only [ByteTrie.code, List.append_assoc, List.cons_append, List.nil_append] at hbelow hothers
  simp only [ByteTrie.transitions, ByteTrie.childrenCode, List.append_assoc, List.cons_append]
  exact patch_append_of_ok hbelow hothers

end FillsEdges

theorem fillsEdges_holes (t : ByteTrie) (node number base : Nat) :
    FillsEdges (t.holes node number base) node number base t := by
  induction t generalizing node number base with
  | nil => exact fun _ _ _ _ _ _ _ _ _ => rfl
  | last r rest ih => exact (ih node (number + 1) base).last
  | step r child rest ihChild ihRest =>
    exact (ihChild base 0 (base + 1)).step (ihRest node (number + 1) (base + child.size))

/-- The holes of a trie are those of its edges that complete a character. -/
theorem fills_holes (t : ByteTrie) (base : Nat) :
    Fills (t.holes base 0 (base + 1)) base (t.code base) := by
  intro before after old target hbefore
  have hfilled := fillsEdges_holes t base 0 (base + 1) before [] after [] old target hbefore rfl rfl
  rw [List.append_assoc, List.append_assoc]
  exact hfilled

theorem gated_emitEdges (limit : Nat) (t : ByteTrie) (node number : Nat) (code : List Instr)
    (hle : code.length ≤ limit) :
    Gated limit (code.length + t.inner) (emitEdges limit node t number code.toArray)
      (· = (t.transitions pending code.length, t.holes node number code.length,
        (code ++ t.childrenCode pending code.length).toArray)) := by
  induction t generalizing node number code with
  | nil =>
    refine .pure hle ?_
    rw [ByteTrie.childrenCode, List.append_nil]
    rfl
  | last r rest ih =>
    refine (ih node (number + 1) code hle).bind (Nat.le_refl _) ?_
    rintro _ hfits rfl
    exact .pure hfits rfl
  | step r child rest ihChild ihRest =>
    have hchild := length_append_singleton code
    have hrest : (code ++ child.code code.length pending).length = code.length + child.size := by
      rw [List.length_append, child.length_code]
    have hinner : (ByteTrie.step r child rest).inner = 1 + child.inner + rest.inner := rfl
    have hsize : child.size = 1 + child.inner := rfl
    refine (gated_emit limit _ code).bind (by omega) ?_
    rintro _ hfits rfl
    have hnodes := ihChild code.length 0 (code ++ [.fail]) (hchild _ ▸ hfits)
    have hcount : (code ++ [Instr.fail]).length + child.inner ≤
        code.length + (ByteTrie.step r child rest).inner := by
      rw [hchild]
      omega
    refine hnodes.bind hcount ?_
    rintro _ hfits rfl
    rw [hchild] at hfits ⊢
    have hset : (code ++ [Instr.fail] ++
        child.childrenCode pending (code.length + 1)).toArray.setIfInBounds code.length
          (consume (child.transitions pending (code.length + 1))) =
        (code ++ child.code code.length pending).toArray := by
      rw [List.append_assoc]
      exact setIfInBounds_append_cons _ _ _ _
    have hothers := ihRest node (number + 1) (code ++ child.code code.length pending)
      (by rw [hrest]; omega)
    rw [hrest] at hothers
    dsimp only
    rw [hset]
    refine hothers.bind (by omega) ?_
    rintro _ hfits rfl
    have hroom : code.length + (ByteTrie.step r child rest).inner ≤ limit := by omega
    refine .pure hroom ?_
    rw [List.append_assoc]
    rfl

theorem gated_emitTrie (limit : Nat) (t : ByteTrie) (code : List Instr) :
    Gated limit (code.length + t.size) (emitTrie limit t code.toArray)
      (· = (⟨code.length, t.holes code.length 0 (code.length + 1)⟩,
        (code ++ t.code code.length pending).toArray)) := by
  have hlength := length_append_singleton code
  have hsize : t.size = 1 + t.inner := rfl
  refine (gated_emit limit _ code).bind (by omega) ?_
  rintro _ hfits rfl
  have hnodes := gated_emitEdges limit t code.length 0 (code ++ [.fail]) (hlength _ ▸ hfits)
  have hcount : (code ++ [Instr.fail]).length + t.inner ≤ code.length + t.size := by
    rw [hlength]
    omega
  refine hnodes.bind hcount ?_
  rintro _ hfits rfl
  rw [hlength] at hfits ⊢
  have hroom : code.length + t.size ≤ limit := by omega
  refine .pure hroom ?_
  rw [List.append_assoc]
  exact congrArg (Prod.mk _) (setIfInBounds_append_cons _ _ _ _)

/-! ## Copies -/

theorem patch_enterHole (greedy : Bool) (target : Nat) (before after : List Instr) :
    patch [enterHole greedy before.length] target
        (before ++ .split pending pending :: after).toArray =
      .ok (before ++ loop greedy target pending :: after).toArray := by
  cases greedy <;> exact patch_singleton _ _ _ rfl rfl

theorem patch_exitHole (greedy : Bool) (body old target : Nat) (before after : List Instr) :
    patch [exitHole greedy before.length] target
        (before ++ loop greedy body old :: after).toArray =
      .ok (before ++ loop greedy body target :: after).toArray := by
  cases greedy <;> exact patch_singleton _ _ _ rfl rfl

theorem fills_exitHole (greedy : Bool) (base body : Nat) :
    Fills [exitHole greedy base] base fun target => [loop greedy body target] := by
  cases greedy <;> exact .single rfl fun _ _ => rfl

section Copies

variable {body : Array Instr → Except Refusal (Fragment × Array Instr)}
  {copy : Nat → Nat → List Instr}

/-- A split and what it enters have been added to `code`. -/
def IsEntered (code : List Instr) (greedy : Bool) (copy : Nat → Nat → List Instr)
    (added : Nat × Fragment × Array Instr) : Prop :=
  ∃ holes, added = (code.length, ⟨code.length + 1, holes⟩,
      (code ++ loop greedy (code.length + 1) pending :: copy (code.length + 1) pending).toArray) ∧
    Fills holes (code.length + 1) (copy (code.length + 1))

theorem gated_emitTimes (hsize : ∀ base next, (copy base next).length = size)
    (hbody : ∀ code : List Instr,
      Gated limit (code.length + size) (body code.toArray) (IsAdded code (copy code.length)))
    (more : Nat) (code : List Instr) :
    Gated limit (code.length + (more + 1) * size) (emitTimes body more code.toArray)
      (IsAdded code fun target => timesCode size copy code.length target more) := by
  induction more generalizing code with
  | zero =>
    rw [Nat.zero_add, Nat.one_mul]
    exact hbody code
  | succ more ih =>
    have hlength : (code ++ copy code.length pending).length = code.length + size := by
      rw [List.length_append, hsize]
    have hrest := ih (code ++ copy code.length pending)
    rw [hlength, Nat.add_assoc, Nat.add_comm size, ← Nat.succ_mul] at hrest
    refine (hbody code).bind (Nat.add_le_add_left (Nat.le_mul_of_pos_left _ (Nat.succ_pos _)) _) ?_
    rintro _ - ⟨holes, rfl, hfills⟩
    refine hrest.bind (Nat.le_refl _) ?_
    rintro _ hfits ⟨holes', rfl, hfills'⟩
    rw [hlength] at hfills' ⊢
    refine .bind_ok (hfills code _ pending (code.length + size) rfl) (.pure hfits ⟨holes', ?_, ?_⟩)
    · rw [List.append_assoc]
      rfl
    · refine .behind (copy code.length (code.length + size)) ?_
      rw [hsize]
      exact hfills'

theorem gated_emitSplit (greedy : Bool)
    (hbody : ∀ code : List Instr,
      Gated limit (code.length + size) (body code.toArray) (IsAdded code (copy code.length)))
    (code : List Instr) :
    Gated limit (code.length + (1 + size)) (emitSplit limit greedy body code.toArray)
      (IsEntered code greedy copy) := by
  have hsplit := length_append_singleton code (.split pending pending)
  have hinside := hbody (code ++ [.split pending pending])
  rw [hsplit, Nat.add_assoc] at hinside
  refine (gated_emit limit _ code).bind (by omega) ?_
  rintro _ - rfl
  refine hinside.bind (Nat.le_refl _) ?_
  rintro _ hfits ⟨holes, rfl, hfills⟩
  rw [hsplit] at hfills ⊢
  rw [List.append_assoc, List.singleton_append]
  exact .bind_ok (patch_enterHole ..) (.pure hfits ⟨holes, rfl, hfills⟩)

theorem gated_emitAtMost (greedy : Bool) (hsize : ∀ base next, (copy base next).length = size)
    (hbody : ∀ code : List Instr,
      Gated limit (code.length + size) (body code.toArray) (IsAdded code (copy code.length)))
    (more : Nat) (code : List Instr) :
    Gated limit (code.length + (more + 1) * (1 + size))
      (emitAtMost limit greedy body more code.toArray)
      (IsAdded code fun target => atMostCode greedy size copy code.length target more) := by
  induction more generalizing code with
  | zero =>
    rw [Nat.zero_add, Nat.one_mul]
    refine (gated_emitSplit greedy hbody code).bind (Nat.le_refl _) ?_
    rintro _ hfits ⟨holes, rfl, hfills⟩
    exact .pure hfits ⟨_, rfl, (fills_exitHole greedy _ _).append hfills fun _ => rfl⟩
  | succ more ih =>
    have hlength := length_append_cons code (loop greedy (code.length + 1) pending)
      (hsize (code.length + 1) pending)
    have hrest := ih (code ++ loop greedy (code.length + 1) pending ::
      copy (code.length + 1) pending)
    have hcount : code.length + 1 + size + (more + 1) * (1 + size) =
        code.length + (more + 1 + 1) * (1 + size) := by
      rw [Nat.succ_mul (more + 1)]
      omega
    rw [hlength, hcount] at hrest
    refine (gated_emitSplit greedy hbody code).bind
      (Nat.add_le_add_left (Nat.le_mul_of_pos_left _ (Nat.succ_pos _)) _) ?_
    rintro _ - ⟨holes, rfl, hfills⟩
    refine hrest.bind (Nat.le_refl _) ?_
    rintro _ hfits ⟨holes', rfl, hfills'⟩
    rw [hlength] at hfills' ⊢
    have hbehind : Fills holes' (code.length + 1) fun target =>
        copy (code.length + 1) (code.length + 1 + size) ++
          atMostCode greedy size copy (code.length + 1 + size) target more :=
      .behind _ (by rwa [hsize])
    have hadded := (fills_exitHole greedy code.length (code.length + 1)).append hbehind
      fun _ => rfl
    rw [List.append_assoc, List.cons_append]
    exact .bind_ok (hfills.patch_cons ..) (.pure hfits ⟨_, rfl, hadded⟩)

end Copies

/-! ## Expressions -/

/-- An expression is added as its block. -/
theorem gated_emitExpr (limit : Nat) (e : ByteExpr) (code : List Instr) :
    Gated limit (code.length + e.size) (emitExpr limit e code.toArray)
      (IsAdded code (e.code code.length)) := by
  induction e generalizing code with
  | fail =>
    refine (gated_emit limit _ code).bind (Nat.le_refl _) ?_
    rintro _ hfits rfl
    exact .pure hfits ⟨[], rfl, fun _ _ _ _ _ => rfl⟩
  | bytes bs =>
    cases bs with
    | nil => exact gated_emitNext .nop limit code fun _ _ => rfl
    | cons b bs =>
      have hcount : code.length + (ByteExpr.bytes (b :: bs)).size =
          code.length + (bs.length + 1) := by
        rw [ByteExpr.size, List.length_cons]
        omega
      rw [hcount]
      refine (gated_emit limit _ code).bind (by omega) ?_
      rintro _ hfits rfl
      refine (gated_emitBytes b bs code hfits).bind (Nat.le_refl _) ?_
      rintro _ hfits rfl
      exact .pure hfits ⟨_, rfl, fills_bytesCode b bs _⟩
  | char t =>
    refine (gated_emitTrie limit t code).imp ?_
    rintro _ rfl
    exact ⟨_, rfl, fills_holes t code.length⟩
  | look l => exact gated_emitNext (.look l) limit code fun _ _ => rfl
  | capture index body ih =>
    have hopening := length_append_singleton code
    have hinside := length_append_cons code (.save (2 * index) (code.length + 1))
      (length_code body (code.length + 1) pending)
    have hcount : (ByteExpr.capture index body).size = 1 + body.size + 1 := by
      rw [ByteExpr.size]
      omega
    have hbody := ih (code ++ [.save (2 * index) pending])
    have hclosing := gated_emitNext (.save (2 * index + 1)) limit
      (code ++ .save (2 * index) (code.length + 1) :: body.code (code.length + 1) pending)
      fun _ _ => rfl
    rw [hopening] at hbody
    rw [hinside] at hclosing
    refine (gated_emitNext (.save (2 * index)) limit code fun _ _ => rfl).bind (by omega) ?_
    rintro _ - ⟨hole, rfl, hfill⟩
    refine hbody.bind (by omega) ?_
    rintro _ - ⟨holes, rfl, hfills⟩
    rw [hopening] at hfills ⊢
    have hinner : (code ++ [.save (2 * index) (code.length + 1)] ++
        body.code (code.length + 1) pending) =
        code ++ .save (2 * index) (code.length + 1) :: body.code (code.length + 1) pending :=
      List.append_assoc ..
    rw [← hinner] at hclosing
    refine .bind_ok (hfill code _ pending (code.length + 1) rfl) (hclosing.bind (by omega) ?_)
    rintro _ hfits ⟨holes', rfl, hfills'⟩
    rw [hinner, hinside] at hfills'
    rw [hinner, hinside]
    have hfront : (.save (2 * index) (code.length + 1) ::
        body.code (code.length + 1) (code.length + 1 + body.size)).length = 1 + body.size := by
      rw [List.length_cons, length_code, Nat.add_comm]
    rw [List.append_assoc, List.cons_append]
    refine .bind_ok (hfills.patch_cons ..) (.pure (by omega) ⟨holes', rfl, .behind (_ :: _) ?_⟩)
    rw [hfront, ← Nat.add_assoc]
    exact hfills'
  | seq first second ih₁ ih₂ =>
    have hlength : (code ++ first.code code.length pending).length = code.length + first.size := by
      rw [List.length_append, length_code]
    have hback := ih₂ (code ++ first.code code.length pending)
    rw [hlength, Nat.add_assoc] at hback
    refine (ih₁ code).bind (Nat.add_le_add_left (Nat.le_add_right _ _) _) ?_
    rintro _ - ⟨holes, rfl, hfills⟩
    refine hback.bind (Nat.le_refl _) ?_
    rintro _ hfits ⟨holes', rfl, hfills'⟩
    rw [hlength] at hfills' ⊢
    refine .bind_ok (hfills code _ pending (code.length + first.size) rfl)
      (.pure hfits ⟨holes', ?_, .behind _ (by rwa [length_code])⟩)
    rw [List.append_assoc]
    rfl
  | choice first second ih₁ ih₂ =>
    have hlength := length_append_cons code (loop true (code.length + 1) pending)
      (length_code first (code.length + 1) pending)
    have hother := ih₂ (code ++ loop true (code.length + 1) pending ::
      first.code (code.length + 1) pending)
    have hcount : code.length + 1 + first.size + second.size =
        code.length + (ByteExpr.choice first second).size := by
      rw [ByteExpr.size]
      omega
    rw [hlength, hcount] at hother
    refine (gated_emitSplit true ih₁ code).bind (Nat.add_le_add_left (Nat.le_add_right _ _) _) ?_
    rintro _ - ⟨holes, rfl, hfills⟩
    refine hother.bind (Nat.le_refl _) ?_
    rintro _ hfits ⟨holes', rfl, hfills'⟩
    rw [hlength] at hfills' ⊢
    have hboth := hfills.append hfills' (length_code first _)
    rw [List.append_assoc, List.cons_append]
    exact .bind_ok (patch_exitHole ..) (.pure hfits ⟨_, rfl, .behind [_] hboth⟩)
  | times more body ih => exact gated_emitTimes (length_code body) ih more code
  | atMost more greedy body ih => exact gated_emitAtMost greedy (length_code body) ih more code
  | star greedy body ih =>
    rw [ByteExpr.size, Nat.add_comm body.size]
    refine (gated_emitSplit greedy ih code).bind (Nat.le_refl _) ?_
    rintro _ hfits ⟨holes, rfl, hfills⟩
    have hpatch := hfills.patch_cons (loop greedy (code.length + 1) pending) [] pending code.length
    rw [List.append_nil, List.append_nil] at hpatch
    exact .bind_ok hpatch (.pure hfits ⟨_, rfl, (fills_exitHole greedy _ _).before _⟩)
  | plus greedy body ih =>
    have hlength : ∀ target, (code ++ body.code code.length target).length =
        code.length + body.size := by
      intro target
      rw [List.length_append, length_code]
    have hsplit := gated_emit limit (.split pending pending) (code ++ body.code code.length pending)
    rw [hlength, Nat.add_assoc] at hsplit
    refine (ih code).bind (Nat.add_le_add_left (Nat.le_add_right _ _) _) ?_
    rintro _ - ⟨holes, rfl, hfills⟩
    refine hsplit.bind (Nat.le_refl _) ?_
    rintro _ hfits rfl
    have hexit : Fills [exitHole greedy (code.length + body.size)] code.length fun target =>
        body.code code.length (code.length + body.size) ++ [loop greedy code.length target] :=
      .behind _ (by rw [length_code]; exact fills_exitHole greedy _ _)
    have henter := patch_enterHole greedy code.length
      (code ++ body.code code.length (code.length + body.size)) []
    rw [hlength] at henter
    refine .bind_ok (hfills code _ pending (code.length + body.size) rfl)
      (.bind_ok henter (.pure hfits ⟨_, ?_, hexit⟩))
    rw [List.append_assoc]
    rfl

/-- A program is the one that is known beforehand. -/
theorem gated_emitProgram (limit : Nat) (e : ByteExpr) :
    Gated limit e.programSize (emitProgram limit e) (· = e.programCode.toArray) := by
  have hsize : ([] : List Instr).length + (ByteExpr.capture 0 e).size = e.size + 2 :=
    Nat.zero_add _
  have hlength : ∀ target, ([] ++ (ByteExpr.capture 0 e).code 0 target).length = e.size + 2 :=
    fun target => length_code _ _ _
  have haccept := gated_emit limit .accept ([] ++ (ByteExpr.capture 0 e).code 0 pending)
  have hwhole := gated_emitExpr limit (.capture 0 e) []
  rw [hlength] at haccept
  rw [hsize] at hwhole
  refine hwhole.bind (Nat.le_succ _) ?_
  rintro _ - ⟨holes, rfl, hfills⟩
  refine haccept.bind (Nat.le_refl _) ?_
  rintro _ hfits rfl
  exact .of_eq_ok hfits (hfills [] [.accept] pending (e.size + 2) rfl) rfl

/-- An expression is assembled into its program if that has at most `limit` instructions. -/
theorem assemble_eq (limit : Nat) (e : ByteExpr) :
    assemble limit e =
      if e.programSize ≤ limit then .ok e.programCode.toArray else .error ⟨limit⟩ := by
  have hemitted := gated_emitProgram limit e
  split
  · next hfits =>
    obtain ⟨_, hresult, rfl⟩ := hemitted.fits hfits
    rw [assemble, hresult]
    rfl
  · next hfull =>
    rw [assemble, hemitted.exceeds (Nat.lt_of_not_le hfull)]
    rfl

/-- Every hole fits the instruction that it is in. -/
theorem emitProgram_ne_misfit (limit : Nat) (e : ByteExpr) (hole : Hole) :
    emitProgram limit e ≠ .error (.misfit hole) := by
  have hemitted := gated_emitProgram limit e
  intro hmisfit
  rcases Nat.lt_or_ge limit e.programSize with hlt | hge
  · rw [hemitted.exceeds hlt] at hmisfit
    cases hmisfit
  · obtain ⟨_, hresult, -⟩ := hemitted.fits hge
    rw [hresult] at hmisfit
    cases hmisfit

end Assembly

/-- The limit decides whether there is a program, and not which one. -/
theorem Program.compile_eq (longest : Bool) (limit : Nat) (e : Expr) :
    compile longest limit e =
      if e.bytewise.programSize ≤ limit then .ok (ofExpr longest e) else .error ⟨limit⟩ := by
  rw [compile, Assembly.assemble_eq]
  split <;> rfl

theorem Program.eq_ofExpr_of_compile {longest : Bool} {limit : Nat} {e : Expr} {p : Program}
    (hp : compile longest limit e = .ok p) : p = ofExpr longest e := by
  rw [compile_eq] at hp
  split at hp
  · exact (Except.ok.inj hp).symm
  · cases hp

end LinearRegex
