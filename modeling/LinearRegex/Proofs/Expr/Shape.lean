import LinearRegex.Proofs.Expr.Nodes
import LinearRegex.Proofs.Expr.Reading
import Mathlib.Data.List.Chain

/-!
# The shape of an expression

The reader merges literals that meet and agree on case, and makes no sequence of a single item.
Quantifiers are read before that, after each single item, and a group without a number leaves no
trace, so that its body may be a literal that merges with what stands next to it.  In the end every
node has its shape (`Expr.isShaped_of_parse`): literals that meet have been merged for as long as
there are any, which the list of items shows from its end on (`Parser.isChain_foldl_prepend`).
-/

namespace LinearRegex

/-- The ranges of a class, those of the classes in it included. -/
def ClassItem.ranges : ClassItem → List ClassRange
  | range r => [r]
  | nested _ ranges => ranges

def CharClass.ranges (k : CharClass) : List ClassRange :=
  k.items.flatMap ClassItem.ranges

namespace Expr

/-- Both expressions are literals, and they agree on case. -/
def Merges (a b : Expr) : Prop :=
  ∃ cs ds fold, a = literal cs fold ∧ b = literal ds fold

/-- No literal is empty, and one that ignores case has characters that have variants.  Sequences and
choices have two parts or more, and no two neighbours in a sequence are literals that could be one.
The bounds of a repetition and of a range are in order, and those of a repetition are at most
1000. -/
def IsShaped : Expr → Prop
  | empty | look _ | capture .. => True
  | literal chars fold => chars ≠ [] ∧ (fold → ∀ c ∈ chars, Unicode.hasCaseVariants c)
  | charClass k => ∀ r ∈ k.ranges, r.range.lo ≤ r.range.hi
  | repetition min max _ _ => min ≤ 1000 ∧ ∀ m ∈ max, min ≤ m ∧ m ≤ 1000
  | concat parts => 2 ≤ parts.length ∧ parts.IsChain fun a b => ¬ a.Merges b
  | alternation branches => 2 ≤ branches.length

/-- Every node has its shape. -/
def AllShaped (e : Expr) : Prop :=
  ∀ x ∈ e.nodes, x.IsShaped

variable {parts branches : List Expr} {cs ds : List Char} {fold : Bool}

theorem allShaped_literal :
    (literal cs fold).AllShaped ↔ cs ≠ [] ∧ (fold → ∀ c ∈ cs, Unicode.hasCaseVariants c) :=
  List.forall_mem_singleton

theorem allShaped_charClass (k : CharClass) : (charClass k).AllShaped :=
  List.forall_mem_singleton.mpr fun r _ => r.range.lo_le_hi

theorem allShaped_look (l : Look) : (look l).AllShaped :=
  List.forall_mem_singleton.mpr trivial

theorem allShaped_concat (hshape : (concat parts).IsShaped) (hparts : ∀ e ∈ parts, e.AllShaped) :
    (concat parts).AllShaped := by
  intro x hx
  rcases mem_nodes_concat.mp hx with rfl | ⟨e, he, hx⟩
  · exact hshape
  · exact hparts e he x hx

theorem allShaped_alternation (hlength : 2 ≤ branches.length)
    (hbranches : ∀ e ∈ branches, e.AllShaped) : (alternation branches).AllShaped := by
  intro x hx
  rcases mem_nodes_alternation.mp hx with rfl | ⟨e, he, hx⟩
  · exact hlength
  · exact hbranches e he x hx

theorem AllShaped.append (hcs : (literal cs fold).AllShaped) (hds : (literal ds fold).AllShaped) :
    (literal (cs ++ ds) fold).AllShaped := by
  rw [allShaped_literal] at hcs hds ⊢
  refine ⟨List.append_ne_nil_of_left_ne_nil hcs.1 ds, ?_⟩
  intro hfold
  exact List.forall_mem_append.mpr ⟨hcs.2 hfold, hds.2 hfold⟩

end Expr

namespace Parser

open LinearRegex.Expr (AllShaped IsShaped Merges)

variable {o : ParserOptions} {modes : Modes} {s : State} {cur after : Cursor} {e : Expr}
  {items following : List Expr}

/-! ## Neighbours -/

/-- What an item is put before merges with nothing if the item does not. -/
theorem isChain_prepend (e : Expr) (h : following.IsChain fun a b => ¬ a.Merges b) :
    (prepend following e).IsChain fun a b => ¬ a.Merges b := by
  unfold prepend
  split
  · next cs fold ds fold' rest =>
    obtain ⟨hhead, hrest⟩ := List.isChain_cons.mp h
    split
    · next heq =>
      -- Whether the merged literal could merge with its neighbour is told by its case alone.
      refine List.isChain_cons.mpr ⟨?_, hrest⟩
      rintro b hb ⟨cs', ds', fold'', hliteral, rfl⟩
      obtain ⟨-, rfl⟩ := Expr.literal.inj hliteral
      exact hhead _ hb ⟨ds, ds', fold, by rw [heq], rfl⟩
    · next hne =>
      refine List.isChain_cons.mpr ⟨?_, h⟩
      rintro b hb ⟨cs', ds', fold'', hliteral, rfl⟩
      obtain ⟨-, rfl⟩ := Expr.literal.inj hliteral
      obtain ⟨-, rfl⟩ := Expr.literal.inj (Option.some.inj hb)
      exact hne rfl
  · next hmatch =>
    refine List.isChain_cons.mpr ⟨?_, h⟩
    rintro b hb ⟨cs, ds, fold, rfl, rfl⟩
    obtain ⟨rest, rfl⟩ := List.head?_eq_some_iff.mp hb
    exact hmatch cs fold ds fold rest rfl rfl

theorem isChain_foldl_prepend (items : List Expr)
    (h : following.IsChain fun a b => ¬ a.Merges b) :
    (items.foldl prepend following).IsChain fun a b => ¬ a.Merges b := by
  induction items generalizing following with
  | nil => exact h
  | cons e items ih => exact ih (isChain_prepend e h)

/-! ## What is put together -/

theorem isComposed_allShaped : Expr.IsComposed AllShaped where
  quantified hq hbody :=
    List.forall_mem_cons.mpr ⟨⟨hq.min_le, fun m hm => ⟨hq.ordered m hm, hq.max_le m hm⟩⟩, hbody⟩
  capture _ hbody := List.forall_mem_cons.mpr ⟨trivial, hbody⟩
  concatOf {items} hitems := by
    have hall := of_mem_foldl_prepend Expr.AllShaped.append hitems (List.forall_mem_nil _)
    have hchain := isChain_foldl_prepend items .nil
    unfold concatOf
    split
    · exact List.forall_mem_singleton.mpr trivial
    · next e heq =>
      apply hall
      rw [heq]
      exact List.mem_singleton_self e
    · next hnil hone =>
      refine Expr.allShaped_concat ⟨?_, hchain⟩ hall
      match hlist : items.foldl prepend [] with
      | [] => exact absurd hlist hnil
      | [e] => exact absurd hlist (hone e)
      | _ :: _ :: rest => exact Nat.le_add_left 2 rest.length
  alternationOf {branches} hne hbranches := by
    match branches with
    | [] => exact absurd rfl hne
    | [e] => exact hbranches e (List.mem_singleton_self e)
    | a :: b :: rest =>
      refine Expr.allShaped_alternation ?_ ?_
      · rw [List.length_reverse]
        exact Nat.le_add_left 2 rest.length
      · intro e he
        exact hbranches e (List.mem_reverse.mp he)

/-! ## Items -/

theorem allShaped_literal (modes : Modes) (c : Char) : (literal modes c).AllShaped := by
  refine Expr.allShaped_literal.mpr ⟨List.cons_ne_nil c [], ?_⟩
  intro hfold
  rw [Bool.and_eq_true] at hfold
  exact List.forall_mem_singleton.mpr hfold.2

theorem allShaped_of_readEscape {start : Nat}
    (h : readEscape o modes start cur = .ok (e, after)) : e.AllShaped := by
  rcases cases_of_readEscape h with ⟨l, rfl⟩ | ⟨k, rfl⟩ | ⟨c, rfl⟩
  · exact Expr.allShaped_look l
  · exact Expr.allShaped_charClass k
  · exact allShaped_literal modes c

theorem State.supplies_allShaped (o : ParserOptions) (s : State) :
    s.Supplies o (fun _ => True) AllShaped where
  literal := allShaped_literal s.modes
  dot := Expr.allShaped_charClass _
  bound l _ := Expr.allShaped_look l
  bracket _ := Expr.allShaped_charClass _
  escape _ h := allShaped_of_readEscape h
  opening {_ _ opening} _ _ := by cases opening <;> trivial

end Parser

namespace Expr

/-- In the expression of a pattern every node has its shape. -/
theorem isShaped_of_parse {o : ParserOptions} {pattern : String} {e : Expr}
    (h : parse o pattern = .ok e) : ∀ x ∈ e.nodes, x.IsShaped :=
  of_parse Parser.isComposed_allShaped trivial (fun s _ _ => s.supplies_allShaped o) h

/-- In the second branch two literals are kept apart by a quantifier. -/
theorem isShaped_two_branches :
    ∃ e, parse {} "ab|c*de" = .ok e ∧ e.nodes.length = 6 ∧ ∀ x ∈ e.nodes, x.IsShaped := by
  have hrun : (Parser.State.initial (ParserOptions.modes {}) "ab|c*de".toList).run {} =
      .ok (.alternation [.literal ['a', 'b'] false,
        .concat [.repetition 0 none true (.literal ['c'] false), .literal ['d', 'e'] false]]) :=
    (Parser.State.run_of_next rfl).trans <| (Parser.State.run_of_next rfl).trans <|
      (Parser.State.run_of_next rfl).trans <| (Parser.State.run_of_next rfl).trans <|
        (Parser.State.run_of_next rfl).trans <| (Parser.State.run_of_next rfl).trans <|
          Parser.State.run_of_finished rfl
  have hparse := congrArg (Except.mapError (Fault.inPattern · "ab|c*de")) hrun
  exact ⟨_, hparse, by decide, isShaped_of_parse hparse⟩

end Expr
end LinearRegex
