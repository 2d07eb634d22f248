import LinearRegex.Proofs.Expr.Nesting
import LinearRegex.Proofs.Expr.Reading

/-!
# How high an expression is

A group that is open adds four nodes at most to a way down from the root: a choice, a sequence, a
repetition and the group itself.  What stands in no group adds three, and one more for the item at
the end.  So the limit on how deep a pattern nests bounds how high its expression is, however long
the pattern (`Expr.length_le_and_depth_eq`), and with it how deep whatever goes down the tree has
to go.  While the pattern is read, the groups that are still to be closed leave room for what is
already put together (`Parser.State.IsLow`).  All that a bracket opens counts as nested until the
reader comes back from it (`Parser.State.ReturnsTo`), and it comes back from every bracket of a
pattern that it reads to its end.
-/

namespace LinearRegex
namespace Expr

/-- The nodes right below a node. -/
def children : Expr → List Expr
  | repetition _ _ _ body | capture _ _ body => [body]
  | concat parts => parts
  | alternation branches => branches
  | _ => []

/-- A way down from the root of an expression: every node is right below the one before it. -/
structure IsWayDown (e : Expr) (path : List Expr) : Prop where
  head : path.head? = some e
  chain : path.IsChain fun a b => b ∈ a.children

mutual

/-- The number of nodes on a longest way down from the root. -/
def height : Expr → Nat
  | empty | literal .. | charClass _ | look _ => 1
  | repetition _ _ _ body | capture _ _ body => body.height + 1
  | concat parts => heights parts + 1
  | alternation branches => heights branches + 1

/-- The greatest height in a list of expressions, 0 if there are none. -/
def heights : List Expr → Nat
  | [] => 0
  | e :: es => max e.height (heights es)

end

variable {e : Expr} {parts branches : List Expr} {n : Nat}

theorem heights_le_iff {es : List Expr} : heights es ≤ n ↔ ∀ e ∈ es, e.height ≤ n := by
  induction es with
  | nil => simp [heights]
  | cons e es ih => rw [heights, Nat.max_le, ih, List.forall_mem_cons]

theorem height_concat_le : (concat parts).height ≤ n + 1 ↔ ∀ e ∈ parts, e.height ≤ n := by
  rw [height, Nat.add_le_add_iff_right, heights_le_iff]

theorem height_alternation_le :
    (alternation branches).height ≤ n + 1 ↔ ∀ e ∈ branches, e.height ≤ n := by
  rw [height, Nat.add_le_add_iff_right, heights_le_iff]

theorem height_lt_of_mem_children {child : Expr} (h : child ∈ e.children) :
    child.height < e.height := by
  cases e with
  | repetition _ _ _ body | capture _ _ body =>
    obtain rfl := List.mem_singleton.mp h
    exact Nat.lt_succ_self _
  | concat parts => exact Nat.lt_succ_of_le (heights_le_iff.mp (Nat.le_refl _) child h)
  | alternation branches => exact Nat.lt_succ_of_le (heights_le_iff.mp (Nat.le_refl _) child h)
  | empty | literal | charClass | look => cases h

theorem height_pos (e : Expr) : 0 < e.height := by
  cases e <;> exact Nat.succ_pos _

/-- No way down has more nodes than the expression is high. -/
theorem IsWayDown.length_le_height {path : List Expr} (h : e.IsWayDown path) :
    path.length ≤ e.height := by
  obtain ⟨hhead, hchain⟩ := h
  induction path generalizing e with
  | nil => cases hhead
  | cons x path ih =>
    obtain rfl := Option.some.inj hhead
    cases path with
    | nil => exact x.height_pos
    | cons child rest =>
      obtain ⟨hchild, hrest⟩ := List.isChain_cons_cons.mp hchain
      exact Nat.lt_of_le_of_lt (ih rfl hrest) (height_lt_of_mem_children hchild)

end Expr

namespace Parser

variable {o : ParserOptions} {s next t : State} {cur after : Cursor} {e : Expr} {n : Nat}

/-! ## What is put together -/

theorem height_concatOf_le {items : List Expr} (h : ∀ e ∈ items, e.height ≤ n) :
    (concatOf items).height ≤ n + 1 := by
  have hall : ∀ e ∈ items.foldl prepend [], e.height ≤ n :=
    of_mem_foldl_prepend (fun hliteral _ => hliteral) h (List.forall_mem_nil _)
  unfold concatOf
  split
  · exact Nat.succ_le_succ (Nat.zero_le n)
  · next e heq =>
    apply Nat.le_succ_of_le
    apply hall
    rw [heq]
    exact List.mem_singleton_self e
  · exact Expr.height_concat_le.mpr hall

theorem height_alternationOf_le {branches : List Expr} (h : ∀ e ∈ branches, e.height ≤ n) :
    (alternationOf branches).height ≤ n + 1 := by
  unfold alternationOf
  split
  · exact Nat.succ_le_succ (Nat.zero_le n)
  · next e => exact Nat.le_succ_of_le (h e (List.mem_singleton_self e))
  · refine Expr.height_alternation_le.mpr ?_
    intro e he
    exact h e (List.mem_reverse.mp he)

theorem height_of_quantify {swapGreed : Bool} {e' : Expr}
    (h : quantify swapGreed e cur = .ok (e', after)) : e'.height ≤ e.height + 1 := by
  unfold quantify at h
  split at h
  · cases h
  · cases h
    exact Nat.le_succ _
  · split at h
    · cases h
    · cases h
      exact Nat.le_refl _
    · cases h

theorem State.IsItem.height_eq (h : s.IsItem o e) : e.height = 1 := by
  rcases h.cases with ⟨l, rfl⟩ | ⟨k, rfl⟩ | ⟨c, rfl⟩ <;> rfl

theorem OpenGroup.height_close_le (g : OpenGroup) (body : Expr) :
    (g.close body).height ≤ body.height + 1 := by
  unfold OpenGroup.close
  split
  · exact Nat.le_refl _
  · exact Nat.le_succ _

/-! ## The groups that are open -/

/-- What is read of a group in which `n` more may nest leaves room for the sequence and the choice
that it will be part of. -/
structure IsLow (n : Nat) (branches items : List Expr) : Prop where
  branches : ∀ e ∈ branches, e.height ≤ 4 * n + 3
  items : ∀ e ∈ items, e.height ≤ 4 * n + 2

theorem isLow_nil (n : Nat) : IsLow n [] [] :=
  ⟨List.forall_mem_nil _, List.forall_mem_nil _⟩

theorem IsLow.height_concatOf {branches items : List Expr} (h : IsLow n branches items) :
    (concatOf items).height ≤ 4 * n + 3 :=
  height_concatOf_le h.items

/-- There is room for another group in every one that is open, and what stands before it is low. -/
def GroupsLow (limit : Nat) : List OpenGroup → Prop
  | [] => True
  | g :: outer => outer.length < limit ∧ IsLow (limit - outer.length) g.branches g.items ∧
      GroupsLow limit outer

/-- All that has been read is low. -/
structure State.IsLow (limit : Nat) (s : State) : Prop where
  groups : GroupsLow limit s.groups
  inner : Parser.IsLow (limit - s.groups.length) s.branches s.items

theorem State.IsLow.height_body {limit : Nat} (hs : s.IsLow limit) :
    s.body.height ≤ 4 * (limit - s.groups.length + 1) := by
  apply height_alternationOf_le
  exact List.forall_mem_cons.mpr ⟨hs.inner.height_concatOf, hs.inner.branches⟩

/-- A group that begins finds the place that it needs under the limit. -/
theorem State.IsLow.enter {limit : Nat} (hs : s.IsLow limit) (hlimit : s.groups.length < limit)
    (start : Nat) (capture : Option (Nat × Option String)) :
    GroupsLow limit (⟨start, capture, s.modes, s.branches, s.items⟩ :: s.groups) :=
  ⟨hlimit, hs.inner, hs.groups⟩

/-- A step keeps low what is read: an item adds two nodes to the way down, and a group that ends as
many as it had set aside. -/
theorem State.IsLow.move (hs : s.IsLow o.nestLimit) (hlevel : s.IsLevel) (h : s.Moves o next) :
    next.IsLow o.nestLimit := by
  cases h with
  | bar =>
    exact ⟨hs.groups, List.forall_mem_cons.mpr ⟨hs.inner.height_concatOf, hs.inner.branches⟩,
      List.forall_mem_nil _⟩
  | skip => exact ⟨hs.groups, hs.inner⟩
  | switch => exact ⟨hs.groups, hs.inner⟩
  | @item _ _ e e' quoted he hquantify =>
    have hitem : e'.height ≤ 4 * (o.nestLimit - s.groups.length) + 2 := by
      have := height_of_quantify hquantify
      have := he.height_eq
      omega
    have hquoted : ∀ x ∈ (quoted.map (literal s.modes)).reverse,
        x.height ≤ 4 * (o.nestLimit - s.groups.length) + 2 := by
      intro x hx
      obtain ⟨c, -, rfl⟩ := List.mem_map.mp (List.mem_reverse.mp hx)
      exact Nat.succ_le_succ (Nat.zero_le _)
    exact ⟨hs.groups, hs.inner.branches,
      List.forall_mem_cons.mpr ⟨hitem, List.forall_mem_append.mpr ⟨hquoted, hs.inner.items⟩⟩⟩
  | plain hdepth => exact ⟨hs.enter (hlevel ▸ hdepth) _ _, isLow_nil _⟩
  | group hdepth => exact ⟨hs.enter (hlevel ▸ hdepth) _ _, isLow_nil _⟩
  | @close _ _ g groups e' hgroups hquantify =>
    have hbody := hs.height_body
    have hall := hs.groups
    rw [hgroups] at hbody hall
    obtain ⟨hlimit, hinner, houter⟩ := hall
    have hitem : e'.height ≤ 4 * (o.nestLimit - groups.length) + 2 := by
      have hclose := g.height_close_le s.body
      have hquantified := height_of_quantify hquantify
      rw [List.length_cons] at hbody
      omega
    exact ⟨houter, hinner.branches, List.forall_mem_cons.mpr ⟨hitem, hinner.items⟩⟩

theorem State.isLow_of_leadsTo {pattern : List Char}
    (h : (State.initial o.modes pattern).LeadsTo o s) : s.IsLow o.nestLimit := by
  induction h with
  | refl => exact ⟨trivial, isLow_nil _⟩
  | tail hprev hstep ih =>
    exact ih.move (State.isLevel_of_leadsTo hprev) (State.moves_of_step hstep)

/-! ## Coming back from a bracket -/

/-- At `s` stands an opening bracket, and at `t` all of what it opens has been read. -/
inductive State.ReturnsTo (o : ParserOptions) (s : State) : State → Prop
  /-- A group ends with the first closing parenthesis that finds no other group open inside it. -/
  | group {cur cur' : Cursor} {inside last t : State} (hnext : s.cur.next? = some ('(', cur))
      (hopen : s.step o = .ok (.next inside)) (hlength : s.groups.length < inside.groups.length)
      (hinside : Relation.ReflTransGen
        (fun a b => a.step o = .ok (.next b) ∧ s.groups.length < b.groups.length) inside last)
      (hlast : last.groups.length = s.groups.length + 1)
      (hnext' : last.cur.next? = some (')', cur')) (hclose : last.step o = .ok (.next t)) :
    s.ReturnsTo o t
  /-- Modes are switched. -/
  | modes {cur after : Cursor} {modes : Modes} {t : State} (hnext : s.cur.next? = some ('(', cur))
      (hread : Group.readOpening s.modes s.names s.cur.pos cur = .ok (.modes modes, after))
      (hstep : s.step o = .ok (.next t)) : s.ReturnsTo o t
  /-- A class is an item with its quantifier. -/
  | bracket {cur : Cursor} {t : State} (hnext : s.cur.next? = some ('[', cur))
      (hstep : s.step o = .ok (.next t)) : s.ReturnsTo o t

theorem State.read_of_step {c : Char} (hnext : s.cur.next? = some (c, cur))
    (h : s.step o = .ok (.next t)) : s.read o c cur = .ok t := by
  rw [State.step, hnext] at h
  dsimp only at h
  split at h
  · cases h
  · next hread =>
    cases h
    exact hread

theorem State.groups_of_close (hnext : s.cur.next? = some (')', cur))
    (h : s.step o = .ok (.next t)) : ∃ g, s.groups = g :: t.groups := by
  have hclose : s.closeGroup cur = .ok t := State.read_of_step hnext h
  rw [State.closeGroup] at hclose
  split at hclose
  · cases hclose
  · next g groups hgroups =>
    obtain ⟨e', after, -, rfl⟩ := State.exists_of_push hclose
    exact ⟨g, hgroups⟩

theorem State.groups_of_modes {modes : Modes} (hnext : s.cur.next? = some ('(', cur))
    (hread : Group.readOpening s.modes s.names s.cur.pos cur = .ok (.modes modes, after))
    (h : s.step o = .ok (.next t)) : t.groups = s.groups := by
  have hopen : s.openGroup o cur = .ok t := State.read_of_step hnext h
  rw [State.openGroup] at hopen
  split at hopen
  · cases hopen
  · next henter =>
    obtain ⟨-, rfl⟩ := State.enter_eq_ok henter
    simp only [hread] at hopen
    cases hopen
    rfl

theorem State.groups_of_push {e : Expr} (h : s.push e cur = .ok t) : t.groups = s.groups := by
  obtain ⟨e', after, -, rfl⟩ := State.exists_of_push h
  rfl

theorem State.groups_of_bracket (hnext : s.cur.next? = some ('[', cur))
    (h : s.step o = .ok (.next t)) : t.groups = s.groups := by
  have hbracket : s.readBracket o cur = .ok t := State.read_of_step hnext h
  rw [State.readBracket] at hbracket
  split at hbracket
  · cases hbracket
  · next henter =>
    obtain ⟨-, rfl⟩ := State.enter_eq_ok henter
    split at hbracket
    · cases hbracket
    · exact State.groups_of_push hbracket

/-- The reader comes back to as many open groups as there were. -/
theorem State.ReturnsTo.length_groups (h : s.ReturnsTo o t) :
    t.groups.length = s.groups.length := by
  cases h with
  | group _ _ _ _ hlast hnext' hclose =>
    obtain ⟨g, hgroups⟩ := State.groups_of_close hnext' hclose
    rw [hgroups, List.length_cons] at hlast
    exact Nat.succ.inj hlast
  | modes hnext hread hstep => rw [State.groups_of_modes hnext hread hstep]
  | bracket hnext hstep => rw [State.groups_of_bracket hnext hstep]

theorem State.ReturnsTo.leadsTo (h : s.ReturnsTo o t) : s.LeadsTo o t := by
  cases h with
  | group _ hopen _ hinside _ _ hclose =>
    have hleads : State.LeadsTo o _ _ :=
      Relation.ReflTransGen.mono (fun _ _ hboth => hboth.1) _ _ hinside
    exact .head hopen (.tail hleads hclose)
  | modes _ _ hstep => exact .single hstep
  | bracket _ hstep => exact .single hstep

/-! ## Every bracket is returned from -/

theorem State.length_groups_le_of_openGroup (h : s.openGroup o cur = .ok t) :
    s.groups.length ≤ t.groups.length := by
  rw [State.openGroup] at h
  split at h
  · cases h
  · next henter =>
    obtain ⟨-, rfl⟩ := State.enter_eq_ok henter
    split at h
    · cases h
    · cases h
      exact Nat.le_refl _
    · cases h
      exact Nat.le_succ _
    · cases h
      exact Nat.le_succ _

theorem State.groups_of_readBackslash (h : s.readBackslash o cur = .ok t) :
    t.groups = s.groups := by
  rw [State.readBackslash] at h
  split at h
  · rw [State.readQuoted] at h
    dsimp only at h
    split at h
    · cases h
      rfl
    · have hgroups := State.groups_of_push h
      exact hgroups
  · split at h
    · cases h
    · exact State.groups_of_push h

theorem State.groups_of_readBrace (h : s.readBrace cur = .ok t) : t.groups = s.groups := by
  rw [State.readBrace] at h
  split at h
  · cases h
  · exact State.groups_of_push h

/-- Only a closing parenthesis leaves fewer groups open, and it closes one. -/
theorem State.exists_next_of_length_lt (h : s.step o = .ok (.next t))
    (hlt : t.groups.length < s.groups.length) :
    ∃ cur, s.cur.next? = some (')', cur) ∧ s.groups.length = t.groups.length + 1 := by
  obtain ⟨c, cur, hnext⟩ : ∃ c cur, s.cur.next? = some (c, cur) := by
    cases hnext : s.cur.next? with
    | none =>
      rw [State.step, hnext] at h
      dsimp only at h
      split at h <;> cases h
    | some next => exact ⟨_, _, rfl⟩
  have hread : s.read o c cur = .ok t := State.read_of_step hnext h
  have hkept : t.groups ≠ s.groups := fun heq => Nat.lt_irrefl _ (heq ▸ hlt)
  unfold State.read at hread
  split at hread
  · cases hread
    exact absurd rfl hkept
  · obtain ⟨g, hgroups⟩ := State.groups_of_close hnext h
    exact ⟨cur, hnext, by rw [hgroups, List.length_cons]⟩
  · exact absurd hlt (Nat.not_lt.mpr (State.length_groups_le_of_openGroup hread))
  · exact absurd (State.groups_of_bracket hnext h) hkept
  · exact absurd (State.groups_of_readBackslash hread) hkept
  · exact absurd (State.groups_of_readBrace hread) hkept
  · exact absurd (State.groups_of_push hread) hkept
  · exact absurd (State.groups_of_push hread) hkept
  · exact absurd (State.groups_of_push hread) hkept
  · split at hread
    · cases hread
    · exact absurd (State.groups_of_push hread) hkept

/-- On the way to a state with at most `n` open groups there is a step that closes the group outside
which are `n`. -/
theorem State.exists_close_of_leadsTo (hleads : s.LeadsTo o t) (hlt : n < s.groups.length)
    (hle : t.groups.length ≤ n) :
    ∃ last next cur, Relation.ReflTransGen
        (fun a b => a.step o = .ok (.next b) ∧ n < b.groups.length) s last ∧
      last.groups.length = n + 1 ∧ last.cur.next? = some (')', cur) ∧
      last.step o = .ok (.next next) := by
  induction hleads using Relation.ReflTransGen.head_induction_on with
  | refl => exact absurd hlt (Nat.not_lt.mpr hle)
  | @head a b hstep _ ih =>
    rcases Nat.lt_or_ge n b.groups.length with hinside | houtside
    · obtain ⟨last, next, cur, hpath, hrest⟩ := ih hinside
      exact ⟨last, next, cur, .head ⟨hstep, hinside⟩ hpath, hrest⟩
    · obtain ⟨cur, hnext, hlength⟩ :=
        State.exists_next_of_length_lt hstep (Nat.lt_of_le_of_lt houtside hlt)
      exact ⟨a, b, cur, .refl, by omega, hnext, hstep⟩

/-- If the pattern is read to its end, what an opening bracket opens has been read at some state. -/
theorem State.exists_returnsTo {c : Char} (h : s.run o = .ok e)
    (hnext : s.cur.next? = some (c, cur)) (hc : c = '(' ∨ c = '[') : ∃ t, s.ReturnsTo o t := by
  obtain ⟨last, hleads, hfinished⟩ := State.exists_of_run_eq_ok h
  obtain ⟨hend, hgroups, -⟩ := State.eq_body_of_step hfinished
  rcases hleads.cases_head with rfl | ⟨inside, hstep, hleads⟩
  · cases hend.symm.trans hnext
  rcases hc with rfl | rfl
  · have hopen : s.openGroup o cur = .ok inside := State.read_of_step hnext hstep
    by_cases hlength : s.groups.length < inside.groups.length
    · obtain ⟨last', t, cur', hpath, hlast, hnext', hclose⟩ :=
        State.exists_close_of_leadsTo hleads hlength (by rw [hgroups]; exact Nat.zero_le _)
      exact ⟨t, .group hnext hstep hlength hpath hlast hnext' hclose⟩
    · rw [State.openGroup] at hopen
      split at hopen
      · cases hopen
      · next henter =>
        obtain ⟨-, rfl⟩ := State.enter_eq_ok henter
        split at hopen
        · cases hopen
        · next hread => exact ⟨inside, .modes hnext hread hstep⟩
        · cases hopen
          exact absurd (Nat.lt_succ_self _) hlength
        · cases hopen
          exact absurd (Nat.lt_succ_self _) hlength
  · exact ⟨inside, .bracket hnext hstep⟩

end Parser

namespace Expr

/-- If the pattern is read, a way down from the root of the expression has four nodes at most for
every group or class that the limit lets nest, and four more.  Whether it is read to its end or
not: where the reader comes back from a bracket, it counts as many groups and classes as before.  If
it is, the reader comes back from every bracket. -/
theorem length_le_and_depth_eq (o : ParserOptions) (pattern : String) :
    (∀ e path, parse o pattern = .ok e → e.IsWayDown path →
        path.length ≤ 4 * (o.nestLimit + 1)) ∧
      (∀ s t, (Parser.State.initial o.modes pattern.toList).LeadsTo o s → s.ReturnsTo o t →
        t.depth = s.depth) ∧
      ∀ e s c cur, parse o pattern = .ok e →
        (Parser.State.initial o.modes pattern.toList).LeadsTo o s →
          s.cur.next? = some (c, cur) → c = '(' ∨ c = '[' → ∃ t, s.ReturnsTo o t := by
  refine ⟨?_, ?_, ?_⟩
  · intro e path hparse hpath
    obtain ⟨s, hleads, hfinished⟩ := Parser.State.exists_of_run_eq_ok (run_of_parse hparse)
    obtain ⟨-, hgroups, rfl⟩ := Parser.State.eq_body_of_step hfinished
    have hbody := (Parser.State.isLow_of_leadsTo hleads).height_body
    rw [hgroups] at hbody
    exact Nat.le_trans hpath.length_le_height hbody
  · intro s t hs hreturns
    have hlevel : s.IsLevel := Parser.State.isLevel_of_leadsTo hs
    have hlevel' : t.IsLevel := Parser.State.isLevel_of_leadsTo (hs.trans hreturns.leadsTo)
    rw [hlevel', hreturns.length_groups, ← hlevel]
  · intro e s c cur hparse hs hnext hc
    have hrun : s.run o = .ok e := hs.run_eq ▸ run_of_parse hparse
    exact Parser.State.exists_returnsTo hrun hnext hc

/-- A choice within a choice needs all of the nodes.  Its group is left before the repetition. -/
theorem length_le_and_depth_eq_nestedChoice :
    ∃ e path s t, parse { nestLimit := 1 } "(a*b|c)*d|e" = .ok e ∧ e.IsWayDown path ∧
      path.length = 4 * (1 + 1) ∧ path.length ≤ 4 * (1 + 1) ∧
      (Parser.State.initial {} "(a*b|c)*d|e".toList).LeadsTo { nestLimit := 1 } s ∧
      s.ReturnsTo { nestLimit := 1 } t ∧ t.cur.pos = 8 ∧ t.depth = s.depth ∧
      (∃ cur, s.cur.next? = some ('(', cur)) ∧ ∃ t', s.ReturnsTo { nestLimit := 1 } t' := by
  let a : Expr := .repetition 0 none true (.literal ['a'] false)
  let inner : Expr := .concat [a, .literal ['b'] false]
  let choice : Expr := .alternation [inner, .literal ['c'] false]
  let group : Expr := .repetition 0 none true (.capture 1 none choice)
  let outer : Expr := .concat [group, .literal ['d'] false]
  let e : Expr := .alternation [outer, .literal ['e'] false]
  let path := [e, outer, group, .capture 1 none choice, choice, inner, a, .literal ['a'] false]
  have hrun : (Parser.State.initial {} "(a*b|c)*d|e".toList).run { nestLimit := 1 } = .ok e :=
    (Parser.State.run_of_next rfl).trans <| (Parser.State.run_of_next rfl).trans <|
      (Parser.State.run_of_next rfl).trans <| (Parser.State.run_of_next rfl).trans <|
        (Parser.State.run_of_next rfl).trans <| (Parser.State.run_of_next rfl).trans <|
          (Parser.State.run_of_next rfl).trans <| (Parser.State.run_of_next rfl).trans <|
            (Parser.State.run_of_next rfl).trans <| Parser.State.run_of_finished rfl
  have hparse : parse { nestLimit := 1 } "(a*b|c)*d|e" = .ok e :=
    congrArg (Except.mapError (Fault.inPattern · "(a*b|c)*d|e")) hrun
  have hpath : e.IsWayDown path := by
    refine ⟨rfl, ?_⟩
    simp [path, e, outer, group, choice, inner, a, children]
  have hreturns : ∃ t, (Parser.State.initial {} "(a*b|c)*d|e".toList).ReturnsTo
      { nestLimit := 1 } t ∧ t.cur.pos = 8 :=
    ⟨_, .group rfl rfl (by decide) (.tail (.tail (.tail (.tail .refl ⟨rfl, by decide⟩)
      ⟨rfl, by decide⟩) ⟨rfl, by decide⟩) ⟨rfl, by decide⟩) rfl rfl rfl, rfl⟩
  obtain ⟨t, hreturns, hpos⟩ := hreturns
  have hbounds := length_le_and_depth_eq { nestLimit := 1 } "(a*b|c)*d|e"
  exact ⟨e, path, _, t, hparse, hpath, rfl, hbounds.1 e path hparse hpath, .refl, hreturns, hpos,
    hbounds.2.1 _ t .refl hreturns, ⟨_, rfl⟩,
    hbounds.2.2 e _ '(' _ hparse .refl rfl (.inl rfl)⟩

end Expr
end LinearRegex
