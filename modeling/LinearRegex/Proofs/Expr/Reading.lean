import LinearRegex.Proofs.Expr.Steps
import Mathlib.Data.List.Basic

/-!
# What the reader makes of a pattern

The reader puts the expression of a pattern together from single items: characters, classes and
assertions.  A property that all that is put together takes from its parts (`Expr.IsComposed`, for
instance because every form of expressions takes it from its parts, `Expr.IsInherited`) holds of the
whole expression if it holds of every item, and the items depend on the modes that they are read in.
So the reader carries along that the modes are as they should be and that all that it has read has
the property (`Parser.State.Holds`), and a step keeps this if it is supplied with such items
(`Parser.State.Holds.move`).
-/

namespace LinearRegex

/-- Whatever is put together of expressions takes the property from them. -/
structure Expr.IsInherited (P : Expr → Prop) : Prop where
  empty : P .empty
  literals : ∀ {cs ds : List Char} {fold : Bool},
    P (.literal cs fold) → P (.literal ds fold) → P (.literal (cs ++ ds) fold)
  repetition : ∀ {min : Nat} {max : Option Nat} {greedy : Bool} {body : Expr},
    (∀ m ∈ max, min ≤ m) → P body → P (.repetition min max greedy body)
  capture : ∀ {index : Nat} {name : Option String} {body : Expr},
    0 < index → P body → P (.capture index name body)
  concat : ∀ {parts : List Expr}, (∀ e ∈ parts, P e) → P (.concat parts)
  alternation : ∀ {branches : List Expr},
    branches ≠ [] → (∀ e ∈ branches, P e) → P (.alternation branches)

/-! ## Quantifiers -/

/-- The bounds of a quantifier are in order. -/
def Quantifier.IsOrdered (q : Quantifier) : Prop :=
  ∀ m ∈ q.max, q.min ≤ m

/-- The bounds of a quantifier are in order and not too large. -/
structure Quantifier.IsBounded (q : Quantifier) : Prop where
  ordered : q.IsOrdered
  min_le : q.min ≤ maxRepeat
  max_le : ∀ m ∈ q.max, m ≤ maxRepeat

theorem isBounded_of_lazyMark {min : Nat} {max : Option Nat} {q : Quantifier} {cur after : Cursor}
    (hbounded : (⟨min, max, false⟩ : Quantifier).IsBounded)
    (h : (Except.ok (some (lazyMark min max cur)) : Except Fault _) = .ok (some (q, after))) :
    q.IsBounded := by
  unfold lazyMark at h
  split at h <;> cases h <;> exact ⟨hbounded.ordered, hbounded.min_le, hbounded.max_le⟩

theorem Count.isBounded_of_isValid {count : Count} (h : count.isValid) :
    (⟨count.min, count.max, false⟩ : Quantifier).IsBounded := by
  rw [Count.isValid, Bool.and_eq_true, decide_eq_true_eq] at h
  obtain ⟨hmin, hmax⟩ := h
  have hbounds : ∀ m ∈ count.max, count.min ≤ m ∧ m ≤ maxRepeat := by
    intro m hm
    rw [Option.mem_def.mp hm, Option.all_some, Bool.and_eq_true, decide_eq_true_eq,
      decide_eq_true_eq] at hmax
    exact hmax
  exact ⟨fun m hm => (hbounds m hm).1, hmin, fun m hm => (hbounds m hm).2⟩

/-- A quantifier that is read has bounds that are in order and not too large. -/
theorem isBounded_of_readQuantifier {cur after : Cursor} {q : Quantifier}
    (h : readQuantifier cur = .ok (some (q, after))) : q.IsBounded := by
  have hsigns : ∀ {min : Nat} {max : Option Nat}, (∀ m ∈ max, min ≤ m ∧ m ≤ 1) → min ≤ 1 →
      (⟨min, max, false⟩ : Quantifier).IsBounded := by
    intro min max hmax hmin
    have hone : 1 ≤ maxRepeat := by decide
    exact ⟨fun m hm => (hmax m hm).1, Nat.le_trans hmin hone,
      fun m hm => Nat.le_trans (hmax m hm).2 hone⟩
  unfold readQuantifier at h
  split at h
  · exact isBounded_of_lazyMark (hsigns (by simp) (by decide)) h
  · exact isBounded_of_lazyMark (hsigns (by simp) (by decide)) h
  · exact isBounded_of_lazyMark (hsigns (by simp) (by decide)) h
  · split at h
    · cases h
    · dsimp only at h
      split at h
      · next hvalid => exact isBounded_of_lazyMark (Count.isBounded_of_isValid hvalid) h
      · cases h

/-! ## Classes item by item -/

namespace Bracket

variable {unicodeClasses fold : Bool} {start : Nat} {read : List ClassItem} {cur mid after : Cursor}

/-- What comes next in a class is its end or an item. -/
theorem readItems_of_next {c : Char} (hnext : cur.next? = some (c, mid)) :
    readItems unicodeClasses fold start read cur =
      if c = ']' ∧ read ≠ [] then .ok (read.reverse, mid)
      else
        match readItem unicodeClasses fold start cur with
        | .error fault => .error fault
        | .ok (item, after) => readItems unicodeClasses fold start (item :: read) after := by
  rw [readItems, hnext]
  dsimp only
  split
  · rfl
  · split
    · next heq => rw [heq]
    · next heq => rw [heq]

/-- An item that is not the closing bracket is put before those that are read. -/
theorem readItems_of_item {c : Char} {item : ClassItem} (hnext : cur.next? = some (c, mid))
    (hc : c ≠ ']') (hitem : readItem unicodeClasses fold start cur = .ok (item, after)) :
    readItems unicodeClasses fold start read cur =
      readItems unicodeClasses fold start (item :: read) after := by
  rw [readItems_of_next hnext, if_neg fun hclose => hc hclose.1, hitem]

theorem readItems_of_close (hnext : cur.next? = some (']', mid)) (hread : read ≠ []) :
    readItems unicodeClasses fold start read cur = .ok (read.reverse, mid) := by
  rw [readItems_of_next hnext, if_pos ⟨rfl, hread⟩]

theorem readClass_of_caret {items : List ClassItem} (hnext : cur.next? = some ('^', mid))
    (hitems : readItems unicodeClasses fold start [] mid = .ok (items, after)) :
    readClass unicodeClasses fold start cur = .ok (⟨true, items⟩, after) := by
  simp only [readClass, hnext, hitems]

end Bracket

/-- Whatever the reader puts together takes the property from its parts. -/
structure Expr.IsComposed (P : Expr → Prop) : Prop where
  quantified : ∀ {q : Quantifier} {swapGreed : Bool} {body : Expr},
    q.IsBounded → P body → P (q.apply swapGreed body)
  capture : ∀ {index : Nat} {name : Option String} {body : Expr},
    0 < index → P body → P (.capture index name body)
  concatOf : ∀ {items : List Expr}, (∀ e ∈ items, P e) → P (Parser.concatOf items)
  alternationOf : ∀ {branches : List Expr},
    branches ≠ [] → (∀ e ∈ branches, P e) → P (Parser.alternationOf branches)

/-- The modes that an opening parenthesis switches to are as required. -/
def Group.Opening.Keeps (Q : Modes → Prop) : Group.Opening → Prop
  | .capture _ => True
  | .plain m | .modes m => Q m

namespace Parser

open LinearRegex.Expr (IsComposed IsInherited)

/-! ## What has been read -/

/-- What stands before an open group has the property, the modes to return to are as required, and
the group has a positive number. -/
structure OpenGroup.Holds (Q : Modes → Prop) (P : Expr → Prop) (g : OpenGroup) : Prop where
  capture : ∀ c ∈ g.capture, 0 < c.1
  modes : Q g.modes
  branches : ∀ x ∈ g.branches, P x
  items : ∀ x ∈ g.items, P x

/-- All that has been read has the property, and the modes are as required. -/
structure State.Holds (Q : Modes → Prop) (P : Expr → Prop) (s : State) : Prop where
  modes : Q s.modes
  groups : ∀ g ∈ s.groups, g.Holds Q P
  branches : ∀ x ∈ s.branches, P x
  items : ∀ x ∈ s.items, P x

/-- Whatever single item comes next has the property, and whatever modes, they are as required. -/
structure State.Supplies (o : ParserOptions) (Q : Modes → Prop) (P : Expr → Prop) (s : State) :
    Prop where
  literal : ∀ c, P (literal s.modes c)
  dot : P (.charClass (dot s.modes))
  bound : ∀ l : Look, l ∈ [.startText, .endText, .startLine, .endLine] → P (.look l)
  bracket : ∀ {cur after : Cursor} {k : CharClass},
    Bracket.readClass o.unicodeClasses s.modes.ignoreCase s.cur.pos cur = .ok (k, after) →
    P (.charClass k)
  escape : ∀ {cur after : Cursor} {e : Expr}, s.cur.next? = some ('\\', cur) →
    readEscape o s.modes s.cur.pos cur = .ok (e, after) → P e
  opening : ∀ {cur after : Cursor} {opening : Group.Opening}, s.cur.next? = some ('(', cur) →
    Group.readOpening s.modes s.names s.cur.pos cur = .ok (opening, after) → opening.Keeps Q

variable {o : ParserOptions} {Q : Modes → Prop} {P : Expr → Prop} {s next : State}
  {cur after : Cursor} {e x : Expr}

/-- Literals that are merged are all that is new. -/
theorem of_mem_prepend
    (hliterals : ∀ {cs ds : List Char} {fold : Bool},
      P (.literal cs fold) → P (.literal ds fold) → P (.literal (cs ++ ds) fold))
    {following : List Expr} (he : P e) (hall : ∀ x ∈ following, P x) :
    ∀ x ∈ prepend following e, P x := by
  unfold prepend
  split
  · next cs fold ds fold' rest =>
    obtain ⟨hds, hrest⟩ := List.forall_mem_cons.mp hall
    split
    · next heq =>
      subst heq
      exact List.forall_mem_cons.mpr ⟨hliterals he hds, hrest⟩
    · exact List.forall_mem_cons.mpr ⟨he, hall⟩
  · exact List.forall_mem_cons.mpr ⟨he, hall⟩

theorem of_mem_foldl_prepend
    (hliterals : ∀ {cs ds : List Char} {fold : Bool},
      P (.literal cs fold) → P (.literal ds fold) → P (.literal (cs ++ ds) fold))
    {items following : List Expr} (hitems : ∀ x ∈ items, P x) (hall : ∀ x ∈ following, P x) :
    ∀ x ∈ items.foldl prepend following, P x := by
  induction items generalizing following with
  | nil => exact hall
  | cons e items ih =>
    obtain ⟨he, hitems⟩ := List.forall_mem_cons.mp hitems
    exact ih hitems (of_mem_prepend hliterals he hall)

section

variable (hP : IsComposed P)

include hP

theorem quantify_of_isComposed {swapGreed : Bool} {e' : Expr} (he : P e)
    (h : quantify swapGreed e cur = .ok (e', after)) : P e' := by
  unfold quantify at h
  split at h
  · cases h
  · cases h
    exact he
  · next hq =>
    split at h
    · cases h
    · cases h
      exact hP.quantified (isBounded_of_readQuantifier hq) he
    · cases h

theorem State.Holds.body (hs : s.Holds Q P) : P s.body := by
  apply hP.alternationOf (List.cons_ne_nil _ _)
  exact List.forall_mem_cons.mpr ⟨hP.concatOf hs.items, hs.branches⟩

theorem OpenGroup.Holds.close {g : OpenGroup} {body : Expr} (hg : g.Holds Q P) (hbody : P body) :
    P (g.close body) := by
  unfold OpenGroup.close
  split
  · next index name hcapture => exact hP.capture (hg.capture _ hcapture) hbody
  · exact hbody

omit hP in
theorem State.Supplies.item (hsupplies : s.Supplies o Q P) (he : s.IsItem o e) : P e := by
  cases he with
  | literal c => exact hsupplies.literal c
  | dot => exact hsupplies.dot
  | bound hl => exact hsupplies.bound _ hl
  | bracket _ hread => exact hsupplies.bracket hread
  | escape hnext hread => exact hsupplies.escape hnext hread

/-- A step of the reader keeps the property, if it is supplied with items that have it. -/
theorem State.Holds.move (hs : s.Holds Q P) (hsupplies : s.Supplies o Q P)
    (h : s.Moves o next) : next.Holds Q P := by
  have hnone : ∀ x ∈ ([] : List Expr), P x := List.forall_mem_nil P
  cases h with
  | bar =>
    exact ⟨hs.modes, hs.groups,
      List.forall_mem_cons.mpr ⟨hP.concatOf hs.items, hs.branches⟩, hnone⟩
  | skip => exact ⟨hs.modes, hs.groups, hs.branches, hs.items⟩
  | switch _ hnext hread =>
    exact ⟨hsupplies.opening hnext hread, hs.groups, hs.branches, hs.items⟩
  | item quoted he hquantify =>
    have hquoted : ∀ x ∈ (quoted.map (literal s.modes)).reverse, P x := by
      intro x hx
      obtain ⟨c, -, rfl⟩ := List.mem_map.mp (List.mem_reverse.mp hx)
      exact hsupplies.literal c
    have he' := quantify_of_isComposed hP (hsupplies.item he) hquantify
    exact ⟨hs.modes, hs.groups, hs.branches,
      List.forall_mem_cons.mpr ⟨he', List.forall_mem_append.mpr ⟨hquoted, hs.items⟩⟩⟩
  | plain _ hnext hread =>
    exact ⟨hsupplies.opening hnext hread,
      List.forall_mem_cons.mpr ⟨⟨nofun, hs.modes, hs.branches, hs.items⟩, hs.groups⟩,
      hnone, hnone⟩
  | group _ hnext hread =>
    refine ⟨hs.modes,
      List.forall_mem_cons.mpr ⟨⟨?_, hs.modes, hs.branches, hs.items⟩, hs.groups⟩, hnone, hnone⟩
    rintro _ ⟨⟩
    exact Nat.succ_pos s.captures
  | @close mid after g groups e' hgroups hquantify =>
    have hall := hs.groups
    rw [hgroups, List.forall_mem_cons] at hall
    obtain ⟨hg, hgroups⟩ := hall
    have he' := quantify_of_isComposed hP (hg.close hP (hs.body hP)) hquantify
    exact ⟨hg.modes, hgroups, hg.branches, List.forall_mem_cons.mpr ⟨he', hg.items⟩⟩

/-- If every state that the reader comes to is supplied, the whole expression has the property. -/
theorem State.Holds.run (hs : s.Holds Q P)
    (hsupplies : ∀ t, s.LeadsTo o t → Q t.modes → t.Supplies o Q P) (h : s.run o = .ok e) :
    P e := by
  obtain ⟨t, hst, hstep⟩ := State.exists_of_run_eq_ok h
  obtain ⟨-, -, rfl⟩ := State.eq_body_of_step hstep
  suffices ht : t.Holds Q P from ht.body hP
  clear h hstep
  induction hst with
  | refl => exact hs
  | tail hprev hstep ih =>
    exact ih.move hP (hsupplies _ hprev ih.modes) (State.moves_of_step hstep)

end

theorem State.readBracket_of_readClass {inside : State} {k : CharClass}
    (henter : s.enter o = .ok inside)
    (hclass : Bracket.readClass o.unicodeClasses inside.modes.ignoreCase inside.cur.pos cur =
      .ok (k, after)) :
    s.readBracket o cur = inside.leave.push (.charClass k) after := by
  rw [State.readBracket, henter]
  dsimp only
  rw [hclass]

end Parser

/-- What every form of expressions takes from its parts, all that is put together does. -/
theorem Expr.IsInherited.isComposed {P : Expr → Prop} (hP : IsInherited P) : IsComposed P where
  quantified hq hbody := hP.repetition hq.ordered hbody
  capture := hP.capture
  concatOf {items} hitems := by
    have hall := Parser.of_mem_foldl_prepend hP.literals hitems (List.forall_mem_nil P)
    unfold Parser.concatOf
    split
    · exact hP.empty
    · next e heq =>
      apply hall
      rw [heq]
      exact List.mem_singleton_self e
    · exact hP.concat hall
  alternationOf {branches} hne hbranches := by
    unfold Parser.alternationOf
    split
    · exact absurd rfl hne
    · next e => exact hbranches e (List.mem_singleton_self e)
    · next hnil _ =>
      apply hP.alternation
      · intro hreverse
        exact hnil (List.reverse_eq_nil_iff.mp hreverse)
      · intro x hx
        exact hbranches x (List.mem_reverse.mp hx)

/-- The expression of a pattern has every property that its items have and that all that is put
together takes from its parts. -/
theorem Expr.of_parse {o : ParserOptions} {Q : Modes → Prop} {P : Expr → Prop} (hP : IsComposed P)
    {pattern : String} {e : Expr} (hmodes : Q o.modes)
    (hsupplies : ∀ s, (Parser.State.initial o.modes pattern.toList).LeadsTo o s → Q s.modes →
      s.Supplies o Q P)
    (h : parse o pattern = .ok e) : P e := by
  have hinitial : (Parser.State.initial o.modes pattern.toList).Holds Q P :=
    ⟨hmodes, List.forall_mem_nil _, List.forall_mem_nil _, List.forall_mem_nil _⟩
  exact hinitial.run hP hsupplies (run_of_parse h)

end LinearRegex
