import LinearRegex.Proofs.Program.Unrolling
import LinearRegex.Proofs.Search.Runs

/-!
# The runs of an unrolled program

Where a program unrolls another one, every run of that one can be followed in it, copy by copy
(`Unrolls.exists_isRun`).  The other way round a run is lost if it comes to two copies of an
instruction at the same position, since these are one node of the program that has the instruction
once.  So what is found along a run that does not do so, both programs find
(`best?_eq_some_of_unrolls`).
-/

namespace LinearRegex
namespace Program

variable {p q : Program} {f : Nat → Nat} {input : Input} {start : Nat} {path : List Node}

theorem stopOf_map (f : Nat → Nat) (path : List Node) :
    stopOf (path.map (Prod.map f id)) = stopOf path := by
  rw [stopOf, stopOf, List.getLast?_map, Option.map_map]
  rfl

namespace Unrolls

theorem written (hq : q.Unrolls p f) (s : Slots) (path : List Node) :
    p.written s (path.map (Prod.map f id)) = q.written s path := by
  rw [Program.written, Program.written, List.foldl_map]
  simp only [hq.stored]

/-- Steps of both programs make the same choice. -/
theorem choice (hq : q.Unrolls p f) (hp : p.Regular) {h : ByteArray} {c d : Node}
    (hd : d ∈ q.successors h c) :
    p.choice (Prod.map f id c) (Prod.map f id d) = q.choice c d := by
  have hinstr := hq.instrs c.1
  rw [Program.choice, Program.choice, Prod.map_fst, Prod.map_fst, hinstr]
  cases hi : q.instrs[c.1]? with
  | none => rfl
  | some instr =>
    cases instr with
    | split first second =>
      rw [hi] at hinstr
      have hne : f first ≠ f second := hp.split hinstr
      have hsuccessors : q.successors h c = (Instr.split first second).successors h c.2 :=
        successors_of_instr hi
      rw [hsuccessors, Instr.successors_split] at hd
      simp only [List.mem_cons, List.not_mem_nil, or_false] at hd
      rcases hd with rfl | rfl
      · simp [Instr.retarget]
      · have hne' : second ≠ first := fun heq => hne (congrArg f heq).symm
        simp only [Option.map_some, Instr.retarget, bne_iff_ne.mpr hne.symm,
          bne_iff_ne.mpr hne']
    | _ => rfl

theorem choices (hq : q.Unrolls p f) (hp : p.Regular) {h : ByteArray}
    (hchain : path.IsChain fun c d => d ∈ q.successors h c) :
    p.choices (path.map (Prod.map f id)) = q.choices path := by
  induction path with
  | nil => rfl
  | cons c rest ih =>
    cases rest with
    | nil => rfl
    | cons d rest =>
      obtain ⟨hd, hchain⟩ := List.isChain_cons_cons.mp hchain
      have hrest := ih hchain
      rw [List.map_cons] at hrest
      rw [List.map_cons, List.map_cons, Program.choices, Program.choices, hq.choice hp hd, hrest]

/-- A path of the program can be followed in the one that unrolls it. -/
theorem exists_isChain (hq : q.Unrolls p f) {h : ByteArray} {c : Node}
    (hhead : path.head? = some (Prod.map f id c))
    (hchain : path.IsChain fun c d => d ∈ p.successors h c) :
    ∃ path' : List Node, path'.head? = some c ∧
      (path'.IsChain fun c d => d ∈ q.successors h c) ∧ path'.map (Prod.map f id) = path := by
  induction path generalizing c with
  | nil => cases hhead
  | cons c' rest ih =>
    obtain rfl : c' = Prod.map f id c := Option.some.inj hhead
    cases rest with
    | nil => exact ⟨[c], rfl, List.isChain_singleton c, rfl⟩
    | cons d' rest =>
      obtain ⟨hd', hchain⟩ := List.isChain_cons_cons.mp hchain
      rw [hq.successors, List.mem_map] at hd'
      obtain ⟨d, hd, rfl⟩ := hd'
      obtain ⟨path', hhead', hchain', hmap⟩ := ih rfl hchain
      obtain ⟨rest', rfl⟩ := List.head?_eq_some_iff.mp hhead'
      exact ⟨c :: d :: rest', rfl, List.isChain_cons_cons.mpr ⟨hd, hchain'⟩, congrArg _ hmap⟩

/-- A run of the program can be followed in the one that unrolls it. -/
theorem exists_isRun (hq : q.Unrolls p f) (hrun : p.IsRun input start path) :
    ∃ path', q.IsRun input start path' ∧ path'.map (Prod.map f id) = path := by
  have hhead : path.head? = some (Prod.map f id (0, start)) := by
    rw [hrun.head, Prod.map_apply, hq.first, id_eq]
  obtain ⟨path', hhead', hchain', rfl⟩ := hq.exists_isChain hhead hrun.chain
  obtain ⟨c, hlast, haccepts⟩ := hrun.accepts
  rw [List.getLast?_map, Option.map_eq_some_iff] at hlast
  obtain ⟨c', hlast', rfl⟩ := hlast
  rw [hq.accepts] at haccepts
  exact ⟨path', ⟨hhead', hchain', hrun.nodup.of_map _, c', hlast', haccepts⟩, rfl⟩

/-- A run that comes to no two copies of an instruction at one position is a run of the program. -/
theorem isRun_map (hq : q.Unrolls p f) (hrun : q.IsRun input start path)
    (hnodup : (path.map (Prod.map f id)).Nodup) :
    p.IsRun input start (path.map (Prod.map f id)) := by
  obtain ⟨c, hlast, haccepts⟩ := hrun.accepts
  refine ⟨?_, ?_, hnodup, Prod.map f id c, ?_, ?_⟩
  · rw [List.head?_map, hrun.head, Option.map_some, Prod.map_apply, hq.first, id_eq]
  · rw [List.isChain_map]
    refine hrun.chain.imp fun c d hd => ?_
    rw [hq.successors]
    exact List.mem_map_of_mem hd
  · rw [List.getLast?_map, hlast, Option.map_some]
  · rwa [hq.accepts]

/-- No run of the program is preferred to the preferred one that can be followed in it. -/
theorem isPreferred_map (hq : q.Unrolls p f) (hp : p.Regular)
    (hpath : q.IsPreferred input start path) (hnodup : (path.map (Prod.map f id)).Nodup) :
    p.IsPreferred input start (path.map (Prod.map f id)) := by
  refine ⟨hq.isRun_map hpath.isRun hnodup, fun hlongest run hrun => ?_, fun run hrun hstop => ?_⟩
  · obtain ⟨path', hrun', rfl⟩ := hq.exists_isRun hrun
    rw [stopOf_map, stopOf_map]
    exact hpath.last (hq.longest ▸ hlongest) path' hrun'
  · obtain ⟨path', hrun', rfl⟩ := hq.exists_isRun hrun
    rw [stopOf_map, stopOf_map] at hstop
    rw [hq.choices hp hrun'.chain, hq.choices hp hpath.isRun.chain]
    exact hpath.first path' hrun' (hq.longest ▸ hstop)

theorem slotCount (hq : q.Unrolls p f) : q.slotCount = p.slotCount := by
  rw [Program.slotCount, Program.slotCount, hq.groupCount]

theorem slotsFor (hq : q.Unrolls p f) (input : Input) : input.slotsFor q = input.slotsFor p := by
  rw [Input.slotsFor, Input.slotsFor, hq.slotCount]

end Unrolls
end Program

namespace Search

variable {p q : Program} {f : Nat → Nat} {input : Input}

theorem matchesAt_eq_nil_of_unrolls (hq : q.Unrolls p f) {start : Nat}
    (hstart : input.Admits start) (hnone : matchesAt q input start = []) :
    matchesAt p input start = [] := by
  rw [matchesAt_eq_nil_iff_forall_not_isRun hstart.le hstart.le_size] at hnone ⊢
  intro path hrun
  obtain ⟨path', hrun', -⟩ := hq.exists_isRun hrun
  exact hnone path' hrun'

/-- What the unrolled program finds along a run that comes to no two copies of an instruction at one
position, the program finds too. -/
theorem best?_eq_some_of_unrolls (hq : q.Unrolls p f) (hp : p.Regular) (hq' : q.Regular)
    (hs : p.Summarized) (hs' : q.Summarized) {m : Slots}
    (hbest : best? q input input.start = some m)
    (hnodup : ∀ start path, input.Admits start → q.IsPreferred input start path →
      q.written (Slots.blank (input.slotsFor q)) path = m →
      (path.map (Prod.map f id)).Nodup) :
    best? p input input.start = some m := by
  obtain ⟨start, hstart, hkept, hbefore⟩ := (best?_start_eq_some_iff hs').mp hbest
  obtain ⟨path, hpath, hwritten⟩ :=
    exists_isPreferred_of_outcome_eq_some hq' hstart.le hstart.le_size hkept
  refine (best?_start_eq_some_iff hs).mpr ⟨start, hstart, ?_, fun start' hlt hstart' =>
    matchesAt_eq_nil_of_unrolls hq hstart' (hbefore start' hlt hstart')⟩
  have hpreferred := hq.isPreferred_map hp hpath (hnodup start path hstart hpath hwritten)
  rw [outcome_matchesAt_eq_some_of_isPreferred hp hstart.le hstart.le_size hpreferred, hq.written,
    ← hq.slotsFor, hwritten]

end Search
end LinearRegex
