import LinearRegex.Proofs.Program.Reach

/-!
# Blocks of a program

An expression becomes a block of instructions, placed somewhere in the program (`Program.HasCode`).
What a block does is said by where it lets the paths go on.  Blocks that leave no choice, such as
those of bytes and of classes, pass a node on to one other node or to none (`Program.Passes`); for
the others the number of steps counts in which a path carries its slots to a match
(`Program.CarriesIn`), since it drops with every turn of a loop.
-/

namespace LinearRegex
namespace Program

/-- The instructions stand in the program from `base` on. -/
def HasCode (p : Program) (base : Nat) : List Instr → Prop
  | [] => True
  | instr :: code => p.instrs[base]? = some instr ∧ p.HasCode (base + 1) code

/-- So many steps lead from one node to the other, and the slots of the one become those of the
other. -/
def CarriesIn (p : Program) (h : ByteArray) : Nat → Node × Slots → Node × Slots → Prop
  | 0, a, b => a = b
  | n + 1, a, b => ∃ a' ∈ (p.graph h).next a, p.CarriesIn h n a' b

/-- A node goes on, without a choice and without storing anything, to one other node or to none. -/
inductive Passes (p : Program) (h : ByteArray) : Node → Option Node → Prop
  | stop {c : Node} {instr : Instr} (hinstr : p.instrs[c.1]? = some instr) (hne : instr ≠ .accept)
      (hstop : instr.successors h c.2 = []) : Passes p h c none
  | step {c d : Node} {instr : Instr} (hinstr : p.instrs[c.1]? = some instr)
      (hstep : instr.successors h c.2 = [d]) (hstore : ∀ s, instr.store s c.2 = s) :
      Passes p h c (some d)
  | trans {c d : Node} {o : Option Node} (hfirst : Passes p h c (some d)) (hrest : Passes p h d o) :
      Passes p h c o

variable {p : Program} {h : ByteArray} {c d : Node}

theorem hasCode_append {base : Nat} {xs ys : List Instr} :
    p.HasCode base (xs ++ ys) ↔ p.HasCode base xs ∧ p.HasCode (base + xs.length) ys := by
  induction xs generalizing base with
  | nil => exact (and_iff_right trivial).symm
  | cons x xs ih =>
    rw [List.cons_append, HasCode, HasCode, ih, and_assoc, List.length_cons, Nat.add_right_comm,
      Nat.add_assoc base]

theorem hasCode_singleton {base : Nat} {instr : Instr} :
    p.HasCode base [instr] ↔ p.instrs[base]? = some instr :=
  and_iff_left trivial

theorem hasCode_of_append {xs ys : List Instr} (heq : p.instrs.toList = xs ++ ys) :
    p.HasCode xs.length ys := by
  induction ys generalizing xs with
  | nil => trivial
  | cons y ys ih =>
    have hrest : p.HasCode (xs ++ [y]).length ys := ih (by rw [heq, List.append_cons])
    rw [List.length_append] at hrest
    refine ⟨?_, hrest⟩
    rw [← Array.getElem?_toList, heq, List.getElem?_append_right (Nat.le_refl _), Nat.sub_self]
    rfl

/-- Whatever its slots are, a path carries them to where it leads. -/
theorem exists_carriesIn_of_reaches (hreach : p.Reaches h c d) (s : Slots) :
    ∃ n s', p.CarriesIn h n (c, s) (d, s') := by
  induction hreach using Relation.ReflTransGen.head_induction_on generalizing s with
  | refl => exact ⟨0, s, rfl⟩
  | @head c c' hfirst _ ih =>
    obtain ⟨n, s', hrest⟩ := ih (p.stored c s)
    exact ⟨n + 1, s', (c', p.stored c s), List.mem_map_of_mem hfirst, hrest⟩

theorem CarriesIn.snoc {n : Nat} {a b b' : Node × Slots} (hpath : p.CarriesIn h n a b)
    (hb' : b' ∈ (p.graph h).next b) : p.CarriesIn h (n + 1) a b' := by
  induction n generalizing a with
  | zero =>
    obtain rfl : a = b := hpath
    exact ⟨b', hb', rfl⟩
  | succ n ih =>
    obtain ⟨a', ha', hrest⟩ := hpath
    exact ⟨a', ha', ih hrest⟩

theorem CarriesIn.le {n : Nat} {a b : Node × Slots} (hpath : p.CarriesIn h n a b) :
    a.1.2 ≤ b.1.2 := by
  induction n generalizing a with
  | zero =>
    obtain rfl : a = b := hpath
    exact Nat.le_refl _
  | succ n ih =>
    obtain ⟨a', ha', hrest⟩ := hpath
    obtain ⟨d, hd, rfl⟩ := List.mem_map.mp ha'
    exact Nat.le_trans (le_of_mem_successors hd) (ih hrest)

/-- A path carries its slots to every result. -/
theorem exists_carriesIn_of_mem_results {input : Input} {s : Slots} {a : Node × Slots}
    (ha : a ∈ p.results input c s) : ∃ n, p.CarriesIn input.haystack n (c, s) a := by
  refine (p.graph input.haystack).forall_mem_trails
    (P := fun a => ∃ n, p.CarriesIn input.haystack n (c, s) a) ⟨0, rfl⟩ ?_ a
    (List.mem_filter.mp ha).1
  rintro b ⟨n, hpath⟩ b' hb'
  exact ⟨n + 1, hpath.snoc hb'⟩

/-- A path to a match takes a step at every instruction that does not accept. -/
theorem CarriesIn.of_instr {n i pos : Nat} {instr : Instr} {s : Slots} {b : Node × Slots}
    (hi : p.instrs[i]? = some instr) (hne : instr ≠ .accept)
    (hat : p.instrs[b.1.1]? = some .accept) (hpath : p.CarriesIn h n ((i, pos), s) b) :
    ∃ m, n = m + 1 ∧ ∃ c ∈ instr.successors h pos,
      p.CarriesIn h m (c, instr.store s pos) b := by
  cases n with
  | zero =>
    obtain rfl : ((i, pos), s) = b := hpath
    exact absurd (Option.some.inj (hi.symm.trans hat)) hne
  | succ m =>
    obtain ⟨a', ha', hrest⟩ := hpath
    rw [next_graph, List.mem_map, successors_of_instr hi, stored_of_instr hi] at ha'
    obtain ⟨c, hc, rfl⟩ := ha'
    exact ⟨m, rfl, c, hc, hrest⟩

theorem CarriesIn.of_accept {n : Nat} {s : Slots} {b : Node × Slots}
    (hat : p.instrs[c.1]? = some .accept) (hpath : p.CarriesIn h n (c, s) b) : b = (c, s) := by
  cases n with
  | zero => exact Eq.symm hpath
  | succ n =>
    obtain ⟨a', ha', -⟩ := hpath
    rw [next_graph, successors_of_accept hat] at ha'
    cases ha'

namespace Passes

theorem reaches (hpasses : p.Passes h c (some d)) : p.Reaches h c d := by
  generalize ho : some d = o at hpasses
  induction hpasses generalizing d with
  | stop => cases ho
  | @step c _ instr hinstr hstep =>
    cases ho
    refine .head ?_ (.refl _)
    have hsuccessors : p.successors h c = instr.successors h c.2 := successors_of_instr hinstr
    rw [hsuccessors, hstep]
    exact List.mem_singleton_self _
  | trans _ _ ih₁ ih₂ => exact (ih₁ rfl).trans (ih₂ ho)

/-- Every path to a match goes where the node is passed on to. -/
theorem of_carriesIn {o : Option Node} {s : Slots} {b : Node × Slots} (hpasses : p.Passes h c o)
    (hat : p.instrs[b.1.1]? = some .accept) {n : Nat} (hpath : p.CarriesIn h n (c, s) b) :
    ∃ c', o = some c' ∧ ∃ m < n, p.CarriesIn h m (c', s) b := by
  induction hpasses generalizing n with
  | stop hinstr hne hstop =>
    obtain ⟨m, -, c', hc', -⟩ := hpath.of_instr hinstr hne hat
    rw [hstop] at hc'
    cases hc'
  | @step c c' instr hinstr hstep hstore =>
    have hne := Instr.ne_accept_of_mem_successors (hstep ▸ List.mem_singleton_self c')
    obtain ⟨m, rfl, d', hd', hrest⟩ := hpath.of_instr hinstr hne hat
    rw [hstep, List.mem_singleton] at hd'
    rw [hd', hstore] at hrest
    exact ⟨c', rfl, m, Nat.lt_succ_self m, hrest⟩
  | trans _ _ ih₁ ih₂ =>
    obtain ⟨c', heq, m, hm, hrest⟩ := ih₁ hpath
    cases heq
    obtain ⟨c'', heq, m', hm', hrest⟩ := ih₂ hrest
    exact ⟨c'', heq, m', Nat.lt_trans hm' hm, hrest⟩

end Passes

end Program
end LinearRegex
