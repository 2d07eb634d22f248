import LinearRegex.Proofs.Search.Threads
import LinearRegex.Search.OnePass

/-!
# One-pass tables

The exits of an instruction are the ends of the paths that consume nothing, in the order of
preference; as none of these paths meets another, they are all the paths there are
(`exitYields_exits?`).  At most one exit can be taken with the next byte, and at most one ends the
match (`Exit.IsApart`).  The table has the exits of every instruction that can be reached
(`exists_hasExits_of_ofInstrs?`).
-/

namespace LinearRegex

namespace ByteSet

theorem mem_toList {s : ByteSet} {b : UInt8} : b ∈ s.toList ↔ s.contains b := by
  rw [toList, List.mem_filter, and_iff_right_iff_imp]
  intro _
  exact List.mem_map.mpr ⟨b.toNat, List.mem_range.mpr b.toNat_lt, UInt8.ofNat_toNat⟩

theorem contains_union {s t : ByteSet} {b : UInt8} :
    (s.union t).contains b ↔ s.contains b ∨ t.contains b := by
  rw [union, contains_filter, Bool.or_eq_true]

theorem intersects_iff {s t : ByteSet} : s.intersects t ↔ ∃ b, s.contains b ∧ t.contains b := by
  rw [intersects, List.any_eq_true]
  simp only [mem_toList]

theorem contains_empty (b : UInt8) : empty.contains b = false :=
  contains_filter _ b

end ByteSet

namespace OnePass

/-! ## Exits -/

/-- The exit accepts the byte. -/
def Exit.Accepts (e : Exit) (b : UInt8) : Prop :=
  ∃ t ∈ e.instr.transitions, t.lo ≤ b ∧ b ≤ t.hi

/-- Two exits are not both taken with the same byte, and do not both end the match. -/
structure Exit.IsApart (e e' : Exit) : Prop where
  bytes : ∀ b, e.Accepts b → ¬ e'.Accepts b
  accept : e.instr = .accept → e'.instr ≠ .accept

/-- What is known of the exits found so far holds of their list. -/
structure Exits.IsSound (exits : Exits) : Prop where
  apart : exits.list.toList.Pairwise Exit.IsApart
  bytes : ∀ e ∈ exits.list.toList, ∀ b, e.Accepts b → exits.bytes.contains b
  accepts : ∀ e ∈ exits.list.toList, e.instr = .accept → exits.accepts

/-- The exit that an instruction is, if it is one. -/
def exitOf (q : Path) (instr : Instr) : List Exit :=
  if instr = .accept ∨ instr.isConsuming then [⟨q, instr⟩] else []

theorem list_of_add? {exits exits' : Exits} {q : Path} {instr : Instr}
    (h : exits.add? q instr = some exits') :
    exits'.list.toList = exits.list.toList ++ exitOf q instr := by
  unfold Exits.add? at h
  split at h
  · split at h
    · cases h
    · cases h
      simp [exitOf]
  · next hne =>
    split at h
    · next hconsuming =>
      dsimp only at h
      split at h
      · cases h
      · cases h
        simp [exitOf, hconsuming]
    · next hconsuming =>
      cases h
      simpa [exitOf, hconsuming] using hne

theorem Exits.IsSound.add? {exits exits' : Exits} (hs : exits.IsSound) {q : Path} {instr : Instr}
    (h : exits.add? q instr = some exits') : exits'.IsSound := by
  unfold Exits.add? at h
  split at h
  · split at h
    · cases h
    · next hnone =>
      cases h
      have hempty : ∀ b, ¬ Exit.Accepts ⟨q, .accept⟩ b := by
        rintro b ⟨t, ht, -⟩
        cases ht
      refine ⟨?_, fun e he b hb => ?_, fun _ _ _ => rfl⟩
      · rw [Array.toList_push, List.pairwise_append]
        refine ⟨hs.apart, List.pairwise_singleton _ _, fun e he e' he' => ?_⟩
        obtain rfl := List.mem_singleton.mp he'
        exact ⟨fun b _ => hempty b, fun haccept => absurd (hs.accepts e he haccept) hnone⟩
      · rw [Array.toList_push, List.mem_append, List.mem_singleton] at he
        rcases he with he | rfl
        · exact hs.bytes e he b hb
        · exact absurd hb (hempty b)
  · next hne =>
    split at h
    · next hconsuming =>
      dsimp only at h
      split at h
      · cases h
      · next hdisjoint =>
        cases h
        have hadds : ∀ b, Exit.Accepts ⟨q, instr⟩ b ↔
            (Summary.addTransitions ByteSet.empty instr.transitions).contains b := by
          intro b
          rw [Summary.contains_addTransitions, ByteSet.contains_empty]
          simp [Exit.Accepts]
        refine ⟨?_, fun e he b hb => ?_, fun e he haccept => ?_⟩
        · rw [Array.toList_push, List.pairwise_append]
          refine ⟨hs.apart, List.pairwise_singleton _ _, fun e he e' he' => ?_⟩
          obtain rfl := List.mem_singleton.mp he'
          refine ⟨fun b hb hb' => hdisjoint ?_, fun _ => hne⟩
          exact ByteSet.intersects_iff.mpr ⟨b, hs.bytes e he b hb, (hadds b).mp hb'⟩
        · rw [Array.toList_push, List.mem_append, List.mem_singleton] at he
          rw [ByteSet.contains_union]
          rcases he with he | rfl
          · exact Or.inl (hs.bytes e he b hb)
          · exact Or.inr ((hadds b).mp hb)
        · rw [Array.toList_push, List.mem_append, List.mem_singleton] at he
          rcases he with he | rfl
          · exact hs.accepts e he haccept
          · exact absurd haccept hne
    · cases h
      exact hs

theorem isSound_followPaths? {instrs : Array Instr} {stack : List Path} {seen : Marks}
    {exits exits' : Exits} (hs : exits.IsSound)
    (h : followPaths? instrs stack seen exits = some exits') : exits'.IsSound := by
  fun_induction followPaths? instrs stack seen exits with
  | case1 =>
    cases h
    exact hs
  | case2 => cases h
  | case3 => cases h
  | case4 seen exits q rest hfree instr hi exits'' hadd ih => exact ih (hs.add? hadd) h
  | case5 => cases h

/-- The exits of an instruction are apart from each other. -/
theorem pairwise_isApart_exits? {instrs : Array Instr} {i : Nat} {es : List Exit}
    (h : exits? instrs i = some es) : es.Pairwise Exit.IsApart := by
  obtain ⟨exits, hfollow, rfl⟩ := Option.map_eq_some_iff.mp h
  exact (isSound_followPaths? ⟨List.Pairwise.nil, by simp, by simp⟩ hfollow).apart

/-- An exit ends with the instruction that its path has come to. -/
theorem instr_of_mem_followPaths? {instrs : Array Instr} {stack : List Path} {seen : Marks}
    {exits exits' : Exits} (hall : ∀ e ∈ exits.list.toList, instrs[e.path.index]? = some e.instr)
    (h : followPaths? instrs stack seen exits = some exits') :
    ∀ e ∈ exits'.list.toList, instrs[e.path.index]? = some e.instr := by
  fun_induction followPaths? instrs stack seen exits with
  | case1 =>
    cases h
    exact hall
  | case2 => cases h
  | case3 => cases h
  | case4 seen exits q rest hfree instr hi exits'' hadd ih =>
    refine ih (fun e he => ?_) h
    rw [list_of_add? hadd, List.mem_append] at he
    rcases he with he | he
    · exact hall e he
    · rw [exitOf] at he
      split at he
      · obtain rfl := List.mem_singleton.mp he
        exact hi
      · cases he
  | case5 => cases h

theorem instr_of_mem_exits? {instrs : Array Instr} {i : Nat} {es : List Exit}
    (h : exits? instrs i = some es) : ∀ e ∈ es, instrs[e.path.index]? = some e.instr := by
  obtain ⟨exits, hfollow, rfl⟩ := Option.map_eq_some_iff.mp h
  exact instr_of_mem_followPaths? (by simp) hfollow

/-! ## Paths that consume nothing -/

variable {p : Program} {input : Input} {pos : Nat} {slots : Slots}

theorem map_index_continuations (q : Path) (instr : Instr) :
    (q.continuations instr).map (·.index) = instr.targets := by
  cases instr <;> rfl

/-- The paths that meet nothing twice come to an end. -/
theorem terminates_of_followPaths? (h : ByteArray) (pos : Nat) {stack : List Path} {seen : Marks}
    {exits exits' : Exits} (hsome : followPaths? p.instrs stack seen exits = some exits') :
    ∀ q ∈ stack, q.index < p.size ∧ (p.layer h pos).Terminates q.index := by
  fun_induction followPaths? p.instrs stack seen exits with
  | case1 => simp
  | case2 => cases hsome
  | case3 => cases hsome
  | case4 seen exits q rest hfree instr hi exits'' hadd ih =>
    have hall := List.forall_mem_append.mp (ih hsome)
    refine List.forall_mem_cons.mpr ⟨⟨Program.lt_size_of_instr hi, .of_succ fun j hj => ?_⟩, hall.2⟩
    have htarget : j ∈ instr.targets := by
      have hj' : j ∈ p.targetsAt h pos q.index := hj
      rw [Program.targetsAt_of_instr hi] at hj'
      exact Instr.targetsAt_subset hj'
    rw [← map_index_continuations q, List.mem_map] at htarget
    obtain ⟨q', hq', rfl⟩ := htarget
    exact (hall.1 q' hq').2
  | case5 => cases hsome

/-- The assertions on a path hold at `pos`. -/
def Path.isOpen (q : Path) (h : ByteArray) (pos : Nat) : Bool :=
  q.looks.all (·.holds h pos)

/-- The thread of a path that is entered at `pos` with the given slots. -/
def Path.thread (q : Path) (slots : Slots) (pos : Nat) : Lockstep.Thread :=
  ⟨q.index, slots.storeAll q.slots pos⟩

theorem storeAll_append (s : Slots) (is : List Nat) (i pos : Nat) :
    s.storeAll (is ++ [i]) pos = (s.storeAll is pos).store i (some pos) := by
  rw [Slots.storeAll, List.foldl_append]
  rfl

theorem isOpen_append {q : Path} {l : Look} {i : Nat} {h : ByteArray} :
    Path.isOpen { q with index := i, looks := q.looks ++ [l] } h pos =
      (q.isOpen h pos && l.holds h pos) := by
  simp [Path.isOpen, List.all_append]

/-- The threads of the paths that go on from a path. -/
theorem threads_continuations {q : Path} {instr : Instr} (hi : p.instrs[q.index]? = some instr)
    (hopen : q.isOpen input.haystack pos) :
    ((q.continuations instr).filter (·.isOpen input.haystack pos)).map (·.thread slots pos) =
      (p.layer input.haystack pos).next (q.thread slots pos) := by
  rw [Program.next_layer, Path.thread, Program.targetsAt_of_instr hi, Program.stored_of_instr hi]
  have hmoved : ∀ (j : Nat) (is : List Nat),
      Path.isOpen { q with index := j, slots := is } input.haystack pos := fun _ _ => hopen
  cases instr with
  | split first second =>
    rw [Path.continuations, List.filter_cons, if_pos (hmoved first q.slots), List.filter_cons,
      if_pos (hmoved second q.slots)]
    rfl
  | save slot next =>
    rw [Path.continuations, List.filter_cons, if_pos (hmoved next _)]
    simp only [List.filter_nil, List.map_cons, List.map_nil, Path.thread, storeAll_append]
    rfl
  | look l next =>
    rw [Path.continuations, List.filter_cons, isOpen_append, hopen, Bool.true_and, Instr.targetsAt]
    split <;> rfl
  | nop next =>
    rw [Path.continuations, List.filter_cons, if_pos (hmoved next q.slots)]
    rfl
  | _ => rfl

/-- Nothing goes on from a path that is closed. -/
theorem not_isOpen_continuations {q q' : Path} {instr : Instr} {h : ByteArray}
    (hclosed : q.isOpen h pos = false) (hq' : q' ∈ q.continuations instr) :
    q'.isOpen h pos = false := by
  cases instr with
  | look l next =>
    obtain rfl := List.mem_singleton.mp hq'
    rw [isOpen_append, hclosed, Bool.false_and]
  | split first second =>
    rcases List.mem_cons.mp hq' with rfl | hq'
    · exact hclosed
    · obtain rfl := List.mem_singleton.mp hq'
      exact hclosed
  | save slot next =>
    obtain rfl := List.mem_singleton.mp hq'
    exact hclosed
  | nop next =>
    obtain rfl := List.mem_singleton.mp hq'
    exact hclosed
  | _ => cases hq'

/-- What the open paths of a list lead to without consuming a byte first. -/
def pathYields (p : Program) (input : Input) (pos : Nat) (slots : Slots) (qs : List Path) :
    List (Node × Slots) :=
  ((qs.filter (·.isOpen input.haystack pos)).map (·.thread slots pos)).flatMap fun t =>
    ((p.layer input.haystack pos).trails (Finset.range p.size) t).flatMap (p.yield input pos)

/-- What the open exits of a list lead to. -/
def exitYields (p : Program) (input : Input) (pos : Nat) (slots : Slots) (es : List Exit) :
    List (Node × Slots) :=
  (es.filter (·.isOpen input.haystack pos)).flatMap fun e =>
    p.yield input pos (e.path.thread slots pos)

theorem pathYields_append (qs qs' : List Path) :
    pathYields p input pos slots (qs ++ qs') =
      pathYields p input pos slots qs ++ pathYields p input pos slots qs' := by
  rw [pathYields, List.filter_append, List.map_append, List.flatMap_append]
  rfl

theorem exitYields_append (es es' : List Exit) :
    exitYields p input pos slots (es ++ es') =
      exitYields p input pos slots es ++ exitYields p input pos slots es' := by
  rw [exitYields, List.filter_append, List.flatMap_append]
  rfl

theorem yield_eq_nil_of_ne {t : Lockstep.Thread} {instr : Instr}
    (hi : p.instrs[t.index]? = some instr) (hne : instr ≠ .accept)
    (hconsuming : instr.isConsuming = false) : p.yield input pos t = [] := by
  have hnext : p.nextAt? input.haystack pos t.index = none := by
    rw [Program.nextAt?_of_instr hi, Instr.nextAt?_of_not_isConsuming hconsuming]
  rw [Program.yield, Program.accepts_eq_false hi hne, hnext]
  rfl

/-- A path leads somewhere at once only if it ends with an exit. -/
theorem exitYields_exitOf {q : Path} {instr : Instr} (hi : p.instrs[q.index]? = some instr)
    (hopen : q.isOpen input.haystack pos) :
    exitYields p input pos slots (exitOf q instr) = p.yield input pos (q.thread slots pos) := by
  rw [exitYields, exitOf]
  split
  · have hexit : Exit.isOpen ⟨q, instr⟩ input.haystack pos := hopen
    rw [List.filter_cons, if_pos hexit, List.filter_nil, List.flatMap_singleton]
  · next hnot =>
    rw [not_or, Bool.not_eq_true] at hnot
    exact (yield_eq_nil_of_ne hi hnot.1 hnot.2).symm

/-- Where a path can end, it leads to what its exit leads to, and to what the paths that go on from
it lead to. -/
theorem pathYields_singleton {q : Path} {instr : Instr} (hi : p.instrs[q.index]? = some instr)
    (hterminates : (p.layer input.haystack pos).Terminates q.index) :
    pathYields p input pos slots [q] =
      exitYields p input pos slots (exitOf q instr) ++
        pathYields p input pos slots (q.continuations instr) := by
  cases hopen : q.isOpen input.haystack pos with
  | true =>
    have hmem : (p.layer input.haystack pos).key (q.thread slots pos) ∈ Finset.range p.size :=
      Finset.mem_range.mpr (Program.lt_size_of_instr hi)
    rw [pathYields, List.filter_cons, if_pos hopen, List.filter_nil, List.map_singleton,
      List.flatMap_singleton, Exploration.trails_of_terminates _ hmem hterminates,
      List.flatMap_cons, exitYields_exitOf hi hopen, pathYields, threads_continuations hi hopen,
      List.flatMap_assoc]
  | false =>
    have hexits : (exitOf q instr).filter (·.isOpen input.haystack pos) = [] := by
      refine List.filter_eq_nil_iff.mpr fun e he => ?_
      rw [exitOf] at he
      split at he
      · obtain rfl := List.mem_singleton.mp he
        exact ne_true_of_eq_false hopen
      · cases he
    have hpaths : (q.continuations instr).filter (·.isOpen input.haystack pos) = [] :=
      List.filter_eq_nil_iff.mpr fun q' hq' =>
        ne_true_of_eq_false (not_isOpen_continuations hopen hq')
    rw [pathYields, List.filter_cons, if_neg (ne_true_of_eq_false hopen), exitYields, hexits,
      pathYields, hpaths]
    rfl

/-- The exits that are found lead to what the paths lead to. -/
theorem exists_of_followPaths? (slots : Slots) {stack : List Path} {seen : Marks}
    {exits exits' : Exits}
    (hstack : ∀ q ∈ stack, (p.layer input.haystack pos).Terminates q.index)
    (h : followPaths? p.instrs stack seen exits = some exits') :
    ∃ new, exits'.list.toList = exits.list.toList ++ new ∧
      exitYields p input pos slots new = pathYields p input pos slots stack := by
  fun_induction followPaths? p.instrs stack seen exits with
  | case1 =>
    cases h
    exact ⟨[], (List.append_nil _).symm, rfl⟩
  | case2 => cases h
  | case3 => cases h
  | case4 seen exits q rest hfree instr hi exits'' hadd ih =>
    obtain ⟨new, hlist, hyields⟩ := ih (fun q' hq' => (terminates_of_followPaths? _ _ h q' hq').2) h
    refine ⟨exitOf q instr ++ new, ?_, ?_⟩
    · rw [hlist, list_of_add? hadd, List.append_assoc]
    · rw [exitYields_append, hyields, pathYields_append, ← List.append_assoc,
        ← pathYields_singleton hi (hstack q List.mem_cons_self), ← pathYields_append]
      rfl
  | case5 => cases h

/-- The exits of an instruction lead to the results that the instruction leads to. -/
theorem exitYields_exits? {i : Nat} {es : List Exit} (h : exits? p.instrs i = some es)
    (hstart : input.start ≤ pos) (hsize : pos ≤ input.haystack.size) :
    exitYields p input pos slots es = p.results input (i, pos) slots := by
  obtain ⟨exits, hfollow, rfl⟩ := Option.map_eq_some_iff.mp h
  obtain ⟨new, hlist, hyields⟩ := exists_of_followPaths? slots
    (fun q hq => (terminates_of_followPaths? input.haystack pos hfollow q hq).2) hfollow
  rw [hlist, Array.toList_empty, List.nil_append, hyields,
    Program.results_eq_flatMap_yield hstart hsize ⟨i, slots⟩]
  exact List.append_nil _

/-- The slots at the end of an open path say where the path began. -/
theorem isBegun_of_mem_followPaths? (hp : p.Regular) {start : Nat} {stack : List Path}
    {seen : Marks} {exits exits' : Exits}
    (hstack : ∀ q ∈ stack, q.isOpen input.haystack pos →
      IsBegun p start (q.index, pos) (q.thread slots pos).slots)
    (hall : ∀ e ∈ exits.list.toList, e.isOpen input.haystack pos →
      IsBegun p start (e.path.index, pos) (e.path.thread slots pos).slots)
    (h : followPaths? p.instrs stack seen exits = some exits') :
    ∀ e ∈ exits'.list.toList, e.isOpen input.haystack pos →
      IsBegun p start (e.path.index, pos) (e.path.thread slots pos).slots := by
  fun_induction followPaths? p.instrs stack seen exits with
  | case1 =>
    cases h
    exact hall
  | case2 => cases h
  | case3 => cases h
  | case4 seen exits q rest hfree instr hi exits'' hadd ih =>
    rw [List.forall_mem_cons] at hstack
    refine ih (fun q' hq' hopen => ?_) (fun e he hopen => ?_) h
    · rcases List.mem_append.mp hq' with hq' | hq'
      · have hq : q.isOpen input.haystack pos := by
          by_contra hclosed
          rw [not_isOpen_continuations (Bool.eq_false_of_not_eq_true hclosed) hq'] at hopen
          cases hopen
        have hnext : q'.thread slots pos ∈
            (p.layer input.haystack pos).next (q.thread slots pos) := by
          rw [← threads_continuations hi hq]
          exact List.mem_map_of_mem (List.mem_filter.mpr ⟨hq', hopen⟩)
        rw [Program.next_layer, List.mem_map] at hnext
        obtain ⟨j, hj, heq⟩ := hnext
        have hbegun := (hstack.1 hq).next hp (Program.mem_successors_of_targetsAt hj)
        have hindex : j = q'.index := congrArg Lockstep.Thread.index heq
        have hslots := congrArg Lockstep.Thread.slots heq
        rw [← hindex, ← hslots]
        exact hbegun
      · exact hstack.2 q' hq' hopen
    · rw [list_of_add? hadd, List.mem_append] at he
      rcases he with he | he
      · exact hall e he hopen
      · rw [exitOf] at he
        split at he
        · obtain rfl := List.mem_singleton.mp he
          exact hstack.1 hopen
        · cases he
  | case5 => cases h

theorem isBegun_of_mem_exits? (hp : p.Regular) {start i : Nat} {es : List Exit}
    (hbegun : IsBegun p start (i, pos) slots) (h : exits? p.instrs i = some es) :
    ∀ e ∈ es, e.isOpen input.haystack pos →
      IsBegun p start (e.path.index, pos) (e.path.thread slots pos).slots := by
  obtain ⟨exits, hfollow, rfl⟩ := Option.map_eq_some_iff.mp h
  refine isBegun_of_mem_followPaths? hp (fun q hq _ => ?_) (by simp) hfollow
  obtain rfl := List.mem_singleton.mp hq
  exact hbegun

/-! ## The table -/

theorem isFree_discover {found : Marks} {pending is : List Nat} {j : Nat} :
    (discover found pending is).1.isFree j ↔ found.isFree j ∧ j ∉ is := by
  induction is generalizing found pending with
  | nil => simp [discover]
  | cons i is ih =>
    rw [discover]
    split
    · rw [ih, Marks.isFree_mark, List.mem_cons]
      tauto
    · next hnot =>
      rw [ih, List.mem_cons, not_or]
      refine and_congr_right fun hfree => (and_iff_right ?_).symm
      exact fun heq => hnot (heq ▸ hfree)

theorem size_discover {found : Marks} {pending is : List Nat} :
    (discover found pending is).1.size = found.size := by
  induction is generalizing found pending with
  | nil => rfl
  | cons i is ih =>
    rw [discover]
    split
    · rw [ih, Marks.size_mark]
    · exact ih

theorem mem_discover {found : Marks} {pending is : List Nat} {j : Nat} :
    j ∈ (discover found pending is).2 ↔ j ∈ pending ∨ found.isFree j ∧ j ∈ is := by
  induction is generalizing found pending with
  | nil => simp [discover]
  | cons i is ih =>
    rw [discover]
    split
    · next hfree =>
      rw [ih, Marks.isFree_mark, List.mem_cons, List.mem_cons]
      by_cases heq : j = i
      · subst heq
        simp [hfree]
      · simp [heq]
    · next hnot =>
      rw [ih, List.mem_cons]
      by_cases heq : j = i
      · subst heq
        simp [hnot]
      · simp [heq]

/-- The table has the exits of an instruction, and knows where they lead. -/
structure HasExits (instrs : Array Instr) (found : Marks) (t : OnePass) (i : Nat) : Prop where
  exits : exits? instrs i = some (t.exitsAt i)
  found : ∀ j ∈ successors (t.exitsAt i), found.isFree j = false

/-- Everything that has been found is pending or has its exits in the table. -/
structure IsFilled (instrs : Array Instr) (found : Marks) (pending : List Nat) (t : OnePass) :
    Prop where
  size : t.table.size = instrs.size
  size_found : found.size = instrs.size
  lt_size : ∀ i ∈ pending, i < instrs.size
  done : ∀ i, i < instrs.size → found.isFree i = false → i ∈ pending ∨ HasExits instrs found t i

theorem exitsAt_set_self {t : OnePass} {i : Nat} (hi : i < t.table.size) (es : List Exit) :
    exitsAt ⟨t.table.setIfInBounds i (some es)⟩ i = es := by
  simp [exitsAt, hi]

theorem exitsAt_set_of_ne {t : OnePass} {i j : Nat} (hne : i ≠ j) (es : List Exit) :
    exitsAt ⟨t.table.setIfInBounds i (some es)⟩ j = t.exitsAt j := by
  simp [exitsAt, hne]

/-- An entry for one instruction leaves the others with their exits. -/
theorem IsFilled.step {instrs : Array Instr} {found : Marks} {i : Nat} {rest : List Nat}
    {t : OnePass} {es : List Exit} (h : IsFilled instrs found (i :: rest) t)
    (hexits : exits? instrs i = some es) :
    IsFilled instrs (discover found rest (successors es)).1 (discover found rest (successors es)).2
      ⟨t.table.setIfInBounds i (some es)⟩ := by
  have hlt : i < t.table.size := h.size.symm ▸ h.lt_size i List.mem_cons_self
  have hkept : ∀ j, found.isFree j = false →
      (discover found rest (successors es)).1.isFree j = false := by
    intro j hj
    rw [Bool.eq_false_iff, Ne, isFree_discover, hj]
    exact fun hboth => Bool.false_ne_true hboth.1
  have hself : HasExits instrs (discover found rest (successors es)).1
      ⟨t.table.setIfInBounds i (some es)⟩ i := by
    refine ⟨by rw [exitsAt_set_self hlt, hexits], fun j hj => ?_⟩
    rw [exitsAt_set_self hlt] at hj
    rw [Bool.eq_false_iff, Ne, isFree_discover]
    exact fun hboth => hboth.2 hj
  refine ⟨Array.size_setIfInBounds.trans h.size, size_discover.trans h.size_found, ?_, ?_⟩
  · intro j hj
    rcases mem_discover.mp hj with hj | ⟨hfree, -⟩
    · exact h.lt_size j (List.mem_cons_of_mem i hj)
    · exact h.size_found ▸ Marks.lt_size_of_isFree hfree
  · intro j hj hnot
    by_cases hfree : found.isFree j
    · left
      refine mem_discover.mpr (Or.inr ⟨hfree, ?_⟩)
      by_contra hmem
      rw [Bool.eq_false_iff, Ne, isFree_discover] at hnot
      exact hnot ⟨hfree, hmem⟩
    · rw [Bool.not_eq_true] at hfree
      by_cases heq : i = j
      · exact Or.inr (heq ▸ hself)
      · rcases h.done j hj hfree with hpending | hdone
        · have hmem : j ∈ rest := (List.mem_cons.mp hpending).resolve_left (Ne.symm heq)
          exact Or.inl (mem_discover.mpr (Or.inl hmem))
        · right
          refine ⟨by rw [exitsAt_set_of_ne heq, hdone.exits], fun k hk => ?_⟩
          rw [exitsAt_set_of_ne heq] at hk
          exact hkept k (hdone.found k hk)

theorem isFilled_fill? {instrs : Array Instr} {found : Marks} {pending : List Nat}
    {t t' : OnePass} (hfilled : IsFilled instrs found pending t)
    (h : fill? instrs found pending t = some t') :
    ∃ found', IsFilled instrs found' [] t' ∧
      ∀ i, found.isFree i = false → found'.isFree i = false := by
  fun_induction fill? instrs found pending t with
  | case1 found t =>
    cases h
    exact ⟨found, hfilled, fun _ hi => hi⟩
  | case2 => cases h
  | case3 found t i rest es hexits ih =>
    obtain ⟨found', hfilled', hkept⟩ := ih (hfilled.step hexits) h
    refine ⟨found', hfilled', fun j hj => hkept j ?_⟩
    rw [Bool.eq_false_iff, Ne, isFree_discover, hj]
    exact fun hboth => Bool.false_ne_true hboth.1

/-- The table of a program has the exits of its first instruction and of all that they lead to. -/
theorem exists_hasExits_of_ofInstrs? {instrs : Array Instr} {t : OnePass}
    (h : ofInstrs? instrs = some t) (hpos : 0 < instrs.size) :
    ∃ found : Marks, found.isFree 0 = false ∧
      ∀ i, i < instrs.size → found.isFree i = false → HasExits instrs found t i := by
  rw [ofInstrs?] at h
  split at h
  · have hinitial : IsFilled instrs ((Marks.blank instrs.size).mark 0) [0]
        ⟨Array.replicate instrs.size none⟩ := by
      refine ⟨Array.size_replicate, by simp, by simpa using hpos, fun i hi hnot => ?_⟩
      left
      rw [Bool.eq_false_iff, Ne, Marks.isFree_mark, Marks.isFree_blank] at hnot
      rw [List.mem_singleton]
      by_contra hne
      exact hnot ⟨hne, hi⟩
    obtain ⟨found, hfilled, hkept⟩ := isFilled_fill? hinitial h
    refine ⟨found, hkept 0 ?_, fun i hi hnot => (hfilled.done i hi hnot).resolve_left ?_⟩
    · rw [Bool.eq_false_iff, Ne, Marks.isFree_mark]
      exact fun hboth => hboth.1 rfl
    · exact List.not_mem_nil
  · cases h

end OnePass
end LinearRegex
