import LinearRegex.Proofs.Expr.Ways
import LinearRegex.Proofs.Program.Compile

/-!
# In which order a program tries

Where no loop can turn without taking a byte, every path of a program comes to an end.  The paths
from the first instruction of a block then lead to the matches to which the ways of its expression
lead, way by way and in the same order (`isOrdered_code`).
-/

namespace LinearRegex
namespace Program

/-- If all paths come to an end that begin at `next` with one of the points `bs`, those that begin
at `i` with `a` do so too, and they lead to the same matches in the same order. -/
def LeadsTo (p : Program) (input : Input) (i : Nat) (a : Point) (next : Nat) (bs : List Point) :
    Prop :=
  (∀ b ∈ bs, (p.graph input.haystack).Terminates (next, b.1)) →
    (p.graph input.haystack).Terminates (i, a.1) ∧
      p.results input (i, a.1) a.2 = bs.flatMap fun b => p.results input (next, b.1) b.2

variable {p : Program} {input : Input} {i next pos : Nat} {c d : Node} {a : Point}

theorem results_of_terminates (hc : c ∈ p.nodes input)
    (hterminates : (p.graph input.haystack).Terminates c) (s : Slots) :
    p.results input c s =
      (if p.accepts input c then [(c, s)] else []) ++
        (p.successors input.haystack c).flatMap fun d => p.results input d (p.stored c s) := by
  have hkey : (p.graph input.haystack).key (c, s) = c := rfl
  rw [results, Exploration.trails_of_terminates _ (hkey ▸ hc) hterminates, List.filter_cons,
    next_graph, List.flatMap_map, List.filter_flatMap]
  split <;> rfl

/-- The paths from an instruction go on behind it, if they come to an end there. -/
theorem results_of_instr {instr : Instr} (hi : p.instrs[i]? = some instr) (hne : instr ≠ .accept)
    (hstart : input.start ≤ pos) (hsize : pos ≤ input.haystack.size)
    (hnext : ∀ d ∈ instr.successors input.haystack pos, (p.graph input.haystack).Terminates d) :
    (p.graph input.haystack).Terminates (i, pos) ∧
      ∀ s, p.results input (i, pos) s =
        (instr.successors input.haystack pos).flatMap fun d =>
          p.results input d (instr.store s pos) := by
  have hsuccessors : p.successors input.haystack (i, pos) = instr.successors input.haystack pos :=
    successors_of_instr hi
  have hterminates : (p.graph input.haystack).Terminates (i, pos) := by
    refine .of_succ fun d hd => hnext d ?_
    rwa [← hsuccessors]
  have hmem : (i, pos) ∈ p.nodes input := mem_nodes.mpr ⟨lt_size_of_instr hi, hstart, hsize⟩
  refine ⟨hterminates, fun s => ?_⟩
  rw [results_of_terminates hmem hterminates, accepts_eq_false hi hne, hsuccessors,
    stored_of_instr hi]
  rfl

theorem Passes.results {o : Option Node} (hpasses : p.Passes input.haystack c o)
    (hstart : input.start ≤ c.2) (hsize : c.2 ≤ input.haystack.size)
    (hnext : ∀ d ∈ o, (p.graph input.haystack).Terminates d) :
    (p.graph input.haystack).Terminates c ∧
      ∀ s, p.results input c s = o.toList.flatMap fun d => p.results input d s := by
  induction hpasses with
  | stop hinstr hne hstop =>
    have hresults := results_of_instr hinstr hne hstart hsize (by simp [hstop])
    rw [hstop] at hresults
    exact hresults
  | @step c d instr hinstr hstep hstore =>
    have hne := Instr.ne_accept_of_mem_successors (hstep ▸ List.mem_singleton_self d)
    have hresults := results_of_instr hinstr hne hstart hsize
      (by rw [hstep]; exact List.forall_mem_singleton.mpr (hnext d rfl))
    simp only [hstep, hstore] at hresults
    exact hresults
  | @trans c d o hfirst _ ih₁ ih₂ =>
    have hreach := hfirst.reaches
    obtain ⟨hterminates, hrest⟩ := ih₂ (Nat.le_trans hstart hreach.le) (hreach.le_size hsize) hnext
    obtain ⟨hterminates', heq⟩ := ih₁ hstart hsize (by rintro _ ⟨⟩; exact hterminates)
    refine ⟨hterminates', fun s => ?_⟩
    rw [heq, Option.toList_some, List.flatMap_singleton, hrest]

namespace LeadsTo

theorem refl (i : Nat) (a : Point) : p.LeadsTo input i a i [a] := by
  intro hnext
  rw [List.flatMap_singleton]
  exact ⟨hnext a (List.mem_singleton_self a), rfl⟩

theorem bind {mid : Nat} {bs : List Point} {g : Point → List Point}
    (hfirst : p.LeadsTo input i a mid bs) (hrest : ∀ b ∈ bs, p.LeadsTo input mid b next (g b)) :
    p.LeadsTo input i a next (bs.flatMap g) := by
  intro hnext
  have hmid : ∀ b ∈ bs, _ := fun b hb =>
    hrest b hb fun c hc => hnext c (List.mem_flatMap.mpr ⟨b, hb, hc⟩)
  obtain ⟨hterminates, heq⟩ := hfirst fun b hb => (hmid b hb).1
  refine ⟨hterminates, ?_⟩
  rw [heq, List.flatMap_assoc]
  exact List.flatMap_congr fun b hb => (hmid b hb).2

theorem trans {mid : Nat} {b : Point} {cs : List Point} (hfirst : p.LeadsTo input i a mid [b])
    (hrest : p.LeadsTo input mid b next cs) : p.LeadsTo input i a next cs := by
  have hall := hfirst.bind (g := fun _ => cs) fun c hc => by
    obtain rfl := List.mem_singleton.mp hc
    exact hrest
  rwa [List.flatMap_singleton] at hall

variable (hstart : input.start ≤ a.1) (hsize : a.1 ≤ input.haystack.size)

include hstart hsize

theorem save {slot : Nat} (hi : p.instrs[i]? = some (.save slot next)) :
    p.LeadsTo input i a next [(a.1, a.2.store slot (some a.1))] := by
  intro hnext
  have hresults := results_of_instr hi (by simp) hstart hsize (by simpa using hnext)
  refine ⟨hresults.1, ?_⟩
  rw [hresults.2, Instr.successors_save, List.flatMap_singleton, List.flatMap_singleton]
  rfl

/-- A loop leads where its preferred target does, and then where the other one does. -/
theorem loop {greedy : Bool} {body out : Nat} {bs cs : List Point}
    (hi : p.instrs[i]? = some (ByteExpr.loop greedy body out))
    (hbody : p.LeadsTo input body a next bs) (hout : p.LeadsTo input out a next cs) :
    p.LeadsTo input i a next (Ways.prefer greedy bs cs) := by
  intro hnext
  obtain ⟨hterminates₁, heq₁⟩ := hbody fun b hb => hnext b (Ways.mem_prefer.mpr (Or.inl hb))
  obtain ⟨hterminates₂, heq₂⟩ := hout fun b hb => hnext b (Ways.mem_prefer.mpr (Or.inr hb))
  have hresults := results_of_instr hi (ByteExpr.loop_ne_accept greedy body out) hstart hsize
    (fun d hd => by
      rcases ByteExpr.mem_successors_loop.mp hd with rfl | rfl
      · exact hterminates₁
      · exact hterminates₂)
  refine ⟨hresults.1, ?_⟩
  rw [hresults.2]
  cases greedy with
  | true => simp [ByteExpr.loop, Ways.prefer, Instr.store, heq₁, heq₂]
  | false => simp [ByteExpr.loop, Ways.prefer, Instr.store, heq₁, heq₂]

theorem passes {stop? : Option Nat}
    (hpasses : p.Passes input.haystack (i, a.1) (stop?.map (next, ·))) :
    p.LeadsTo input i a next (Ways.single a stop?) := by
  intro hnext
  have hresults := hpasses.results hstart hsize (by
    intro d hd
    obtain ⟨j, rfl, rfl⟩ := Option.map_eq_some_iff.mp hd
    exact hnext (j, a.2) (Ways.mem_single.mpr ⟨rfl, rfl⟩))
  refine ⟨hresults.1, ?_⟩
  rw [hresults.2]
  cases stop? <;> rfl

end LeadsTo

end Program

namespace ByteExpr

variable {p : Program} {input : Input} {size : Nat} {block : Nat → Nat → List Instr}
  {f : Point → List Point}

/-- The block leads over the given ways, in their order. -/
def IsOrdered (p : Program) (input : Input) (block : Nat → Nat → List Instr)
    (f : Point → List Point) : Prop :=
  ∀ {base next : Nat} {a : Point}, p.HasCode base (block base next) → input.start ≤ a.1 →
    a.1 ≤ input.haystack.size → p.LeadsTo input base a next (f a)

section

variable (hsize : ∀ base next, (block base next).length = size)
  (hle : ∀ {a b}, b ∈ f a → a.1 ≤ input.haystack.size → a.1 ≤ b.1 ∧ b.1 ≤ input.haystack.size)
  (hblock : IsOrdered p input block f)

include hsize hle hblock

theorem isOrdered_timesCode (more : Nat) :
    IsOrdered p input (fun base next => timesCode size block base next more)
      (Ways.copies f (more + 1)) := by
  intro base next a hcode hstart ha
  induction more generalizing base a with
  | zero => exact (hblock hcode hstart ha).bind fun b _ => .refl next b
  | succ more ih =>
    simp only [timesCode, Program.hasCode_append, hsize] at hcode
    refine (hblock hcode.1 hstart ha).bind fun b hb => ?_
    obtain ⟨hab, hb⟩ := hle hb ha
    exact ih hcode.2 (Nat.le_trans hstart hab) hb

theorem isOrdered_atMostCode (greedy : Bool) (more : Nat) :
    IsOrdered p input (fun base next => atMostCode greedy size block base next more)
      (Ways.options greedy f (more + 1)) := by
  intro base next a hcode hstart ha
  induction more generalizing base a with
  | zero =>
    obtain ⟨hloop, hcode⟩ := hcode
    refine .loop hstart ha hloop ?_ (.refl next a)
    exact (hblock hcode hstart ha).bind fun b _ => .refl next b
  | succ more ih =>
    obtain ⟨hloop, hcode⟩ := hcode
    rw [Program.hasCode_append, hsize] at hcode
    refine .loop hstart ha hloop ?_ (.refl next a)
    refine (hblock hcode.1 hstart ha).bind fun b hb => ?_
    obtain ⟨hab, hb⟩ := hle hb ha
    exact ih hcode.2 (Nat.le_trans hstart hab) hb

end

/-- A loop whose turns take bytes leads over one more turn or out of it. -/
theorem leadsTo_loop {greedy : Bool} {base entry next : Nat} {a : Point}
    (hlt : ∀ {a b}, b ∈ f a → a.1 ≤ input.haystack.size → a.1 < b.1 ∧ b.1 ≤ input.haystack.size)
    (hblock : IsOrdered p input block f) (hloop : p.instrs[base]? = some (loop greedy entry next))
    (hcode : p.HasCode entry (block entry base)) (hstart : input.start ≤ a.1)
    (ha : a.1 ≤ input.haystack.size) :
    p.LeadsTo input base a next (Ways.loop greedy input.haystack.size f a) := by
  -- By induction on the number of bytes that are left.
  generalize hleft : input.haystack.size - a.1 = left
  induction left using Nat.strongRecOn generalizing a with
  | ind left ih =>
    rw [Ways.loop_eq fun b hb => hlt hb ha]
    refine .loop hstart ha hloop ?_ (.refl next a)
    refine (hblock hcode hstart ha).bind fun b hb => ?_
    obtain ⟨hab, hb⟩ := hlt hb ha
    exact ih _ (by omega) (by omega) hb rfl

/-- The block of an expression leads over its ways, if its loops take bytes. -/
theorem isOrdered_code (e : ByteExpr) (he : e.IsProductive input.haystack) :
    IsOrdered p input e.code (e.ways input.haystack) := by
  induction e with
  | fail | bytes _ | char _ | look _ =>
    intro base next a hcode hstart ha
    rw [ways_leaf rfl]
    exact .passes hstart ha (passes_leaf rfl hcode)
  | capture index body ih =>
    rintro base next a ⟨hopen, hcode⟩ hstart ha
    rw [Program.hasCode_append, length_code, Program.hasCode_singleton] at hcode
    rw [ways, List.map_eq_flatMap]
    have hbody : p.LeadsTo input (base + 1) (a.1, a.2.store (2 * index) (some a.1)) _ _ :=
      ih he hcode.1 hstart ha
    refine (Program.LeadsTo.save hstart ha hopen).trans (hbody.bind fun b hb => ?_)
    obtain ⟨hab, hb⟩ := le_of_mem_ways hb ha
    exact .save (Nat.le_trans hstart hab) hb hcode.2
  | seq first second ih₁ ih₂ =>
    intro base next a hcode hstart ha
    rw [code, Program.hasCode_append, length_code] at hcode
    refine (ih₁ he.1 hcode.1 hstart ha).bind fun b hb => ?_
    obtain ⟨hab, hb⟩ := le_of_mem_ways hb ha
    exact ih₂ he.2 hcode.2 (Nat.le_trans hstart hab) hb
  | choice first second ih₁ ih₂ =>
    rintro base next a ⟨hsplit, hcode⟩ hstart ha
    rw [Program.hasCode_append, length_code] at hcode
    have hloop : p.instrs[base]? = some (loop true (base + 1) (base + 1 + first.size)) := hsplit
    exact .loop hstart ha hloop (ih₁ he.1 hcode.1 hstart ha) (ih₂ he.2 hcode.2 hstart ha)
  | times more body ih => exact isOrdered_timesCode body.length_code le_of_mem_ways (ih he) more
  | atMost more greedy body ih =>
    exact isOrdered_atMostCode body.length_code le_of_mem_ways (ih he) greedy more
  | star greedy body ih =>
    rintro base next a ⟨hloop, hcode⟩ hstart ha
    exact leadsTo_loop (lt_of_mem_ways he.1) (ih he.2) hloop hcode hstart ha
  | plus greedy body ih =>
    intro base next a hcode hstart ha
    rw [code, Program.hasCode_append, length_code, Program.hasCode_singleton] at hcode
    refine (ih he.2 hcode.1 hstart ha).bind fun b hb => ?_
    obtain ⟨hab, hb⟩ := le_of_mem_ways hb ha
    exact leadsTo_loop (lt_of_mem_ways he.1) (ih he.2) hcode.2 hcode.1 (Nat.le_trans hstart hab) hb

end ByteExpr
end LinearRegex
