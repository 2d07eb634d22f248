import LinearRegex.Proofs.Expr.Nodes
import LinearRegex.Proofs.Expr.Steps

/-!
# The numbers of groups

A group gets its number where it begins.  What the reader has read by then is in several places:
before each group that is open stand branches and items of the group around it.  In the order of the
pattern (`Parser.State.groupsBegun`), the groups that have begun have the numbers from 1 on, and a
step adds at most one group, behind all the others (`Parser.State.Moves.groups_cases`).  What is put
together later, repeated, merged or left without a node of its own stays in this order.
-/

namespace LinearRegex

/-- An ASCII letter, an ASCII digit or an underscore. -/
def Group.IsNameChar (c : Char) : Prop :=
  '0' ≤ c ∧ c ≤ '9' ∨ 'A' ≤ c ∧ c ≤ 'Z' ∨ 'a' ≤ c ∧ c ≤ 'z' ∨ c = '_'

theorem Group.isNameChar_of_isName {name : List Char} (h : isName name) :
    name ≠ [] ∧ ∀ c ∈ name, IsNameChar c := by
  rw [isName, Bool.and_eq_true, decide_eq_true_eq, List.all_eq_true] at h
  refine ⟨h.1, ?_⟩
  intro c hc
  rcases Bool.or_eq_true_iff.mp (h.2 c hc) with halnum | hunderscore
  · rcases Bool.or_eq_true_iff.mp halnum with halpha | hdigit
    · rcases Bool.or_eq_true_iff.mp halpha with hupper | hlower
      · exact Or.inr (Or.inl (of_decide_eq_true hupper))
      · obtain ⟨hfrom, hto⟩ := Bool.and_eq_true_iff.mp hlower
        exact Or.inr (Or.inr (Or.inl ⟨of_decide_eq_true hfrom, of_decide_eq_true hto⟩))
    · obtain ⟨hfrom, hto⟩ := Bool.and_eq_true_iff.mp hdigit
      exact Or.inl ⟨of_decide_eq_true hfrom, of_decide_eq_true hto⟩
  · exact Or.inr (Or.inr (Or.inr (of_decide_eq_true hunderscore)))

namespace Expr

/-- The groups of an expression are numbered from 1 on in the order in which the pattern shows them.
Their names differ, and consist of ASCII letters, digits and underscores. -/
structure IsNumbered (e : Expr) : Prop where
  numbers : e.groups.map (·.1) = List.range' 1 e.captureCount
  names : (e.groups.filterMap (·.2)).Nodup
  spelled : ∀ name ∈ e.groups.filterMap (·.2),
    name.toList ≠ [] ∧ ∀ c ∈ name.toList, Group.IsNameChar c

end Expr

/-- Modes begin no numbered group. -/
theorem Group.ne_capture_of_readModes {start : Nat} {modes : Modes} {negated seen : Bool}
    {cur after : Cursor} {opening : Opening} (name : Option String)
    (h : readModes start modes negated seen cur = .ok (opening, after)) :
    opening ≠ .capture name := by
  fun_induction readModes start modes negated seen cur with
  | case1 => cases h
  | case2 _ _ _ _ _ _ _ _ _ ih => exact ih h
  | case3 _ _ _ _ _ _ _ _ _ ih => exact ih h
  | case4 | case5 =>
    cases h
    intro hopening
    cases hopening
  | case6 => cases h

/-- A group that begins has no name that is taken, and none that is no name. -/
theorem Group.free_of_readOpening {modes : Modes} {taken : List String} {start : Nat}
    {cur after : Cursor} {name : Option String}
    (h : readOpening modes taken start cur = .ok (.capture name, after)) :
    ∀ n ∈ name, n ∉ taken ∧ isName n.toList := by
  unfold readOpening at h
  split at h
  · split at h
    · unfold readName at h
      split at h
      · cases h
      · split at h
        · split at h
          · cases h
          · next hname hfree =>
            cases h
            rintro _ ⟨⟩
            rw [String.toList_ofList]
            exact ⟨hfree, hname⟩
        · cases h
    · exact absurd rfl (ne_capture_of_readModes name h)
  · cases h
    nofun

namespace Parser

variable {o : ParserOptions} {s next : State} {cur after : Cursor} {e : Expr}

/-! ## The groups of what is put together -/

theorem groups_prepend (following : List Expr) (e : Expr) :
    (prepend following e).flatMap Expr.groups = e.groups ++ following.flatMap Expr.groups := by
  unfold prepend
  split
  · split
    · rfl
    · rfl
  · rfl

theorem groups_foldl_prepend (items following : List Expr) :
    (items.foldl prepend following).flatMap Expr.groups =
      items.reverse.flatMap Expr.groups ++ following.flatMap Expr.groups := by
  induction items generalizing following with
  | nil => rfl
  | cons e items ih =>
    rw [List.foldl_cons, ih, groups_prepend, List.reverse_cons, List.flatMap_append,
      List.flatMap_singleton, List.append_assoc]

theorem groups_concatOf (items : List Expr) :
    (concatOf items).groups = items.reverse.flatMap Expr.groups := by
  have hall := groups_foldl_prepend items []
  rw [List.flatMap_nil, List.append_nil] at hall
  rw [← hall]
  unfold concatOf
  split
  · next hnil =>
    rw [hnil]
    rfl
  · next e hone => rw [hone, List.flatMap_singleton]
  · exact Expr.groups_concat _

theorem groups_alternationOf (branches : List Expr) :
    (alternationOf branches).groups = branches.reverse.flatMap Expr.groups := by
  unfold alternationOf
  split
  · rfl
  · exact (List.flatMap_singleton _ _).symm
  · exact Expr.groups_alternation _

/-- A quantifier has no effect on the groups. -/
theorem groups_of_quantify {swapGreed : Bool} {e' : Expr}
    (h : quantify swapGreed e cur = .ok (e', after)) : e'.groups = e.groups := by
  unfold quantify at h
  split at h
  · cases h
  · cases h
    rfl
  · split at h
    · cases h
    · cases h
      exact Expr.groups_repetition _ _ _ _
    · cases h

theorem State.IsItem.groups_eq_nil (h : s.IsItem o e) : e.groups = [] := by
  rcases h.cases with ⟨l, rfl⟩ | ⟨k, rfl⟩ | ⟨c, rfl⟩ <;> rfl

/-! ## The groups that have begun -/

/-- The groups in branches and items, given last first. -/
def groupsOf (branches items : List Expr) : List (Nat × Option String) :=
  branches.reverse.flatMap Expr.groups ++ items.reverse.flatMap Expr.groups

theorem groupsOf_cons (branches : List Expr) (e : Expr) (items : List Expr) :
    groupsOf branches (e :: items) = groupsOf branches items ++ e.groups := by
  rw [groupsOf, List.reverse_cons, List.flatMap_append, List.flatMap_singleton,
    ← List.append_assoc, groupsOf]

/-- The groups up to the beginning of the innermost open group, and this group. -/
def groupsOutside : List OpenGroup → List (Nat × Option String)
  | [] => []
  | g :: outer => groupsOutside outer ++ groupsOf g.branches g.items ++ g.capture.toList

/-- The groups that have begun, in the order of the pattern. -/
def State.groupsBegun (s : State) : List (Nat × Option String) :=
  groupsOutside s.groups ++ groupsOf s.branches s.items

theorem State.groups_body (s : State) : s.body.groups = groupsOf s.branches s.items := by
  rw [State.body, groups_alternationOf, List.reverse_cons, List.flatMap_append,
    List.flatMap_singleton, groups_concatOf, groupsOf]

theorem OpenGroup.groups_close (g : OpenGroup) (body : Expr) :
    (g.close body).groups = g.capture.toList ++ body.groups := by
  unfold OpenGroup.close
  split
  · next hcapture =>
    rw [hcapture, Expr.groups_capture]
    rfl
  · next hcapture =>
    rw [hcapture]
    rfl

/-- A step begins no group, or one that gets the next number and has no name that is taken. -/
theorem State.Moves.groups_cases (h : s.Moves o next) :
    (next.groupsBegun = s.groupsBegun ∧ next.captures = s.captures ∧ next.names = s.names) ∨
      ∃ name : Option String, (∀ n ∈ name, n ∉ s.names ∧ Group.isName n.toList) ∧
        next.groupsBegun = s.groupsBegun ++ [(s.captures + 1, name)] ∧
        next.captures = s.captures + 1 ∧ next.names = name.toList ++ s.names := by
  cases h with
  | bar =>
    refine Or.inl ⟨?_, rfl, rfl⟩
    rw [State.groupsBegun, State.groupsBegun, groupsOf, List.reverse_cons, List.flatMap_append,
      List.flatMap_singleton, groups_concatOf, List.reverse_nil, List.flatMap_nil,
      List.append_nil, groupsOf]
  | skip => exact Or.inl ⟨rfl, rfl, rfl⟩
  | switch => exact Or.inl ⟨rfl, rfl, rfl⟩
  | item quoted he hquantify =>
    have hquoted : ((quoted.map (literal s.modes)).reverse ++ s.items).reverse.flatMap Expr.groups =
        s.items.reverse.flatMap Expr.groups := by
      rw [List.reverse_append, List.reverse_reverse, List.flatMap_append, List.flatMap_map]
      have hnone : quoted.flatMap (fun c => (literal s.modes c).groups) = [] :=
        List.flatMap_eq_nil_iff.mpr fun _ _ => rfl
      rw [hnone, List.append_nil]
    refine Or.inl ⟨?_, rfl, rfl⟩
    rw [State.groupsBegun, groupsOf_cons, groups_of_quantify hquantify, he.groups_eq_nil,
      List.append_nil, groupsOf, hquoted, State.groupsBegun, groupsOf]
  | plain =>
    refine Or.inl ⟨?_, rfl, rfl⟩
    rw [State.groupsBegun, groupsOutside, Option.toList_none, List.append_nil, State.groupsBegun]
    exact List.append_nil _
  | @group cur after name _ hnext hread =>
    refine Or.inr ⟨name, Group.free_of_readOpening hread, ?_, rfl, rfl⟩
    rw [State.groupsBegun, groupsOutside, Option.toList_some, State.groupsBegun]
    exact List.append_nil _
  | close hgroups hquantify =>
    refine Or.inl ⟨?_, rfl, rfl⟩
    rw [State.groupsBegun, groupsOf_cons, groups_of_quantify hquantify, OpenGroup.groups_close,
      State.groups_body, State.groupsBegun, hgroups, groupsOutside]
    simp only [List.append_assoc]

/-- The groups that have begun have the numbers from 1 on, and different names. -/
structure State.IsNumbered (s : State) : Prop where
  numbers : s.groupsBegun.map (·.1) = List.range' 1 s.captures
  names : s.groupsBegun.filterMap (·.2) = s.names.reverse
  nodup : s.names.Nodup
  spelled : ∀ name ∈ s.names, Group.isName name.toList

theorem State.IsNumbered.move (hs : s.IsNumbered) (h : s.Moves o next) : next.IsNumbered := by
  rcases h.groups_cases with
    ⟨hgroups, hcaptures, hnames⟩ | ⟨name, hfree, hgroups, hcaptures, hnames⟩
  · constructor
    · rw [hgroups, hcaptures, hs.numbers]
    · rw [hgroups, hnames, hs.names]
    · rw [hnames]
      exact hs.nodup
    · rw [hnames]
      exact hs.spelled
  · constructor
    · rw [hgroups, hcaptures, List.map_append, hs.numbers, List.range'_1_concat, Nat.add_comm]
      rfl
    · rw [hgroups, hnames, List.filterMap_append, hs.names, List.reverse_append]
      cases name <;> rfl
    · rw [hnames]
      cases name with
      | none => exact hs.nodup
      | some n => exact List.nodup_cons.mpr ⟨(hfree n rfl).1, hs.nodup⟩
    · rw [hnames]
      cases name with
      | none => exact hs.spelled
      | some n => exact List.forall_mem_cons.mpr ⟨(hfree n rfl).2, hs.spelled⟩

theorem State.isNumbered_of_leadsTo {pattern : List Char} {modes : Modes}
    (h : (State.initial modes pattern).LeadsTo o s) : s.IsNumbered := by
  refine h.keeps ⟨rfl, rfl, List.nodup_nil, List.forall_mem_nil _⟩ ?_
  intro s next hs hstep
  exact hs.move (State.moves_of_step hstep)

/-- At the end of the pattern, the groups that have begun are those of the expression. -/
theorem State.groupsBegun_of_finished (h : s.step o = .ok (.finished e)) :
    s.groupsBegun = e.groups := by
  obtain ⟨-, hgroups, rfl⟩ := State.eq_body_of_step h
  rw [State.groups_body, State.groupsBegun, hgroups]
  rfl

end Parser

namespace Expr

theorem foldr_max_range' (n : Nat) : (List.range' 1 n).foldr max 0 = n := by
  induction n with
  | zero => rfl
  | succ n ih =>
    rw [List.range'_1_concat, foldr_max_append, ih, List.foldr_cons, List.foldr_nil, Nat.max_zero,
      Nat.add_comm]
    exact Nat.max_eq_right (Nat.le_succ n)

/-- In the expression of a pattern the groups are numbered. -/
theorem isNumbered_of_run {o : ParserOptions} {modes : Modes} {pattern : List Char} {e : Expr}
    (h : (Parser.State.initial modes pattern).run o = .ok e) : e.IsNumbered := by
  obtain ⟨s, hleads, hfinished⟩ := Parser.State.exists_of_run_eq_ok h
  have hs := Parser.State.isNumbered_of_leadsTo hleads
  have hnumbers := hs.numbers
  have hnames := hs.names
  rw [Parser.State.groupsBegun_of_finished hfinished] at hnumbers hnames
  constructor
  · rw [captureCount_eq, hnumbers, foldr_max_range']
  · rw [hnames]
    exact (List.reverse_perm _).nodup_iff.mpr hs.nodup
  · rw [hnames]
    intro name hname
    exact Group.isNameChar_of_isName (hs.spelled name (List.mem_reverse.mp hname))

end Expr
end LinearRegex
