import LinearRegex.Proofs.CharSet.Classes
import LinearRegex.Proofs.Expr.Reading

/-!
# Expressions that do not tell case

Every way to write a character or a class takes the mode `i` into account by itself: a literal
becomes one that ignores case, and every range of a class is folded.  Whatever negations and unions
a class is made of, its set then has a character just when it has those equal to it but for case
(`CharClass.IsCaseClosed`).  A pattern that keeps the mode stands for an expression all of whose
literals and classes are like that (`Expr.isFolded_of_parse`).
-/

namespace LinearRegex

open Unicode (caseOrbit hasCaseVariants)

/-! ## Classes -/

/-- The item holds a character just when it holds those equal to it but for case. -/
def ClassItem.IsCaseClosed (item : ClassItem) : Prop :=
  ∀ {c d : Char}, d ∈ caseOrbit c → (item.Holds c ↔ item.Holds d)

/-- The class has a character just when it has those equal to it but for case. -/
def CharClass.IsCaseClosed (k : CharClass) : Prop :=
  ∀ {c d : Char}, d ∈ caseOrbit c → (k.toSet.contains c ↔ k.toSet.contains d)

theorem bordersSurrogates_congr {c d : Char} (h : d ∈ caseOrbit c) :
    BordersSurrogates c ↔ BordersSurrogates d :=
  or_congr (Unicode.eq_iff_of_mem_caseOrbit (.inr (.inl rfl)) h)
    (Unicode.eq_iff_of_mem_caseOrbit (.inr (.inr rfl)) h)

theorem isCaseClosed_range {r : ClassRange} (hfold : r.fold) :
    (ClassItem.range r).IsCaseClosed := by
  have hholds : ∀ {c d : Char}, d ∈ caseOrbit c → r.Holds c → r.Holds d := by
    rintro c d h (hc | ⟨-, e, he, hc⟩)
    · exact .inr ⟨hfold, c, hc, h⟩
    · exact .inr ⟨hfold, e, he, Unicode.mem_caseOrbit_trans hc h⟩
  intro c d h
  exact ⟨hholds h, hholds (Unicode.mem_caseOrbit_symm h)⟩

namespace CharClass

variable {k : CharClass}

theorem someHolds_congr (hitems : ∀ item ∈ k.items, item.IsCaseClosed) {c d : Char}
    (h : d ∈ caseOrbit c) : k.SomeHolds c ↔ k.SomeHolds d := by
  constructor
  · rintro ⟨item, hitem, hc⟩
    exact ⟨item, hitem, (hitems item hitem h).mp hc⟩
  · rintro ⟨item, hitem, hd⟩
    exact ⟨item, hitem, (hitems item hitem h).mpr hd⟩

/-- Negation and what it does at the surrogates keep a class closed. -/
theorem isCaseClosed_of_someHolds
    (hholds : ∀ {c d : Char}, d ∈ caseOrbit c → (k.SomeHolds c ↔ k.SomeHolds d)) :
    k.IsCaseClosed := by
  intro c d h
  rw [contains_toSet_iff, contains_toSet_iff, hholds h, bordersSurrogates_congr h]

theorem isCaseClosed_of_items (hitems : ∀ item ∈ k.items, item.IsCaseClosed) : k.IsCaseClosed :=
  isCaseClosed_of_someHolds (someHolds_congr hitems)

theorem isCaseClosed_ofRanges (negated : Bool) {ranges : List ClassRange}
    (hfold : ∀ r ∈ ranges, r.fold) : (ofRanges negated ranges).IsCaseClosed := by
  apply isCaseClosed_of_items
  intro item hitem
  obtain ⟨r, hr, rfl⟩ := List.mem_map.mp hitem
  exact isCaseClosed_range (hfold r hr)

end CharClass

/-! ## Readers of classes -/

namespace Escape

/-- All ranges of the class are folded. -/
def NamedClass.IsFolded (named : NamedClass) : Prop :=
  ∀ r ∈ named.ranges, r.fold

theorem NamedClass.isFolded_ofRanges (negated : Bool) (ranges : List CharRange) :
    (ofRanges negated true ranges).IsFolded := by
  intro r hr
  obtain ⟨_, -, rfl⟩ := List.mem_map.mp hr
  rfl

theorem NamedClass.IsFolded.toClass {named : NamedClass} (h : named.IsFolded) :
    named.toClass.IsCaseClosed :=
  CharClass.isCaseClosed_ofRanges named.negated h

theorem NamedClass.IsFolded.toItem {named : NamedClass} (h : named.IsFolded) :
    named.toItem.IsCaseClosed :=
  h.toClass

theorem isFolded_of_readClass {unicodeClasses : Bool} {start : Nat} {cur after : Cursor}
    {named : NamedClass} (h : readClass unicodeClasses true start cur = .ok (named, after)) :
    named.IsFolded := by
  unfold readClass at h
  split at h
  · cases h
  · split at h
    · cases h
      exact NamedClass.isFolded_ofRanges _ _
    · split at h
      · split at h
        · cases h
        · dsimp only at h
          split at h
          · cases h
          · cases h
            exact NamedClass.isFolded_ofRanges _ _
      · cases h

end Escape

namespace Bracket

variable {unicodeClasses : Bool} {start : Nat} {cur after : Cursor}

theorem isCaseClosed_of_readRange {item : ClassItem}
    (h : readRange true start cur = .ok (item, after)) : item.IsCaseClosed := by
  unfold readRange at h
  split at h
  · cases h
  · dsimp only at h
    split at h
    · split at h
      · cases h
      · split at h
        · cases h
        · split at h
          · cases h
            exact isCaseClosed_range rfl
          · cases h
    · cases h
      exact isCaseClosed_range rfl

theorem isCaseClosed_of_readItem {item : ClassItem}
    (h : readItem unicodeClasses true start cur = .ok (item, after)) : item.IsCaseClosed := by
  unfold readItem at h
  split at h
  · dsimp only at h
    split at h
    · cases h
    · cases h
      exact (Escape.NamedClass.isFolded_ofRanges _ _).toItem
  · split at h
    · split at h
      · cases h
      · next hread =>
        cases h
        exact (Escape.isFolded_of_readClass hread).toItem
    · exact isCaseClosed_of_readRange h

theorem isCaseClosed_of_readItems {read items : List ClassItem}
    (hread : ∀ item ∈ read, item.IsCaseClosed)
    (h : readItems unicodeClasses true start read cur = .ok (items, after)) :
    ∀ item ∈ items, item.IsCaseClosed := by
  generalize hfold : true = fold at h
  fun_induction readItems unicodeClasses fold start read cur with
  | case1 => cases h
  | case2 read cur c mid hnext _ =>
    cases h
    intro item hitem
    exact hread item (List.mem_reverse.mp hitem)
  | case3 => cases h
  | case4 read cur c mid hnext _ item after' hitem ih =>
    subst hfold
    exact ih (List.forall_mem_cons.mpr ⟨isCaseClosed_of_readItem hitem, hread⟩) h

theorem isCaseClosed_of_readClass {k : CharClass}
    (h : readClass unicodeClasses true start cur = .ok (k, after)) : k.IsCaseClosed := by
  unfold readClass at h
  dsimp only at h
  split at h
  · cases h
  · next hitems =>
    cases h
    exact CharClass.isCaseClosed_of_items
      (isCaseClosed_of_readItems (List.forall_mem_nil _) hitems)

end Bracket

/-! ## Expressions -/

/-- An assertion about the ends of the text or of a line; the others are about words. -/
def Look.IsBound (l : Look) : Prop :=
  l ∈ [.startText, .endText, .startLine, .endLine]

namespace Expr

mutual

/-- Literals ignore case or have no variants, classes are closed, and no assertion is about
words. -/
def IsFolded : Expr → Prop
  | empty => True
  | literal chars fold => fold ∨ ∀ c ∈ chars, caseOrbit c = [c]
  | charClass k => k.IsCaseClosed
  | look l => l.IsBound
  | repetition _ _ _ body | capture _ _ body => body.IsFolded
  | concat parts | alternation parts => AllFolded parts

/-- Every expression of a list is folded. -/
def AllFolded : List Expr → Prop
  | [] => True
  | e :: es => e.IsFolded ∧ AllFolded es

end

theorem allFolded_iff {es : List Expr} : AllFolded es ↔ ∀ e ∈ es, e.IsFolded := by
  induction es with
  | nil => simp [AllFolded]
  | cons e es ih => rw [AllFolded, ih, List.forall_mem_cons]

theorem isInherited_isFolded : IsInherited IsFolded where
  empty := trivial
  literals {cs ds fold} hcs hds := by
    cases fold with
    | true => exact .inl rfl
    | false =>
      right
      exact List.forall_mem_append.mpr
        ⟨hcs.resolve_left Bool.false_ne_true, hds.resolve_left Bool.false_ne_true⟩
  repetition _ hbody := hbody
  capture _ hbody := hbody
  concat hparts := allFolded_iff.mpr hparts
  alternation _ hbranches := allFolded_iff.mpr hbranches

end Expr

/-! ## The reader -/

namespace Parser

theorem isFolded_literal {modes : Modes} (hmodes : modes.ignoreCase) (c : Char) :
    (literal modes c).IsFolded := by
  rw [literal, hmodes, Bool.true_and]
  by_cases hvariants : hasCaseVariants c
  · exact .inl hvariants
  · right
    intro d hd
    obtain rfl := List.mem_singleton.mp hd
    exact Unicode.caseOrbit_eq_of_not_hasCaseVariants (Bool.eq_false_iff.mpr hvariants)

theorem holds_unfolded {r : CharRange} {c : Char} :
    (ClassItem.range ⟨r, false⟩).Holds c ↔ r.lo.toNat ≤ c.toNat ∧ c.toNat ≤ r.hi.toNat := by
  rw [ClassItem.Holds, ClassRange.Holds, ← CharRange.contains_iff]
  simp

/-- Of the characters, a dot leaves out the newline at most. -/
theorem someHolds_dot_iff (modes : Modes) (c : Char) :
    (dot modes).SomeHolds c ↔ modes.dotAll ∨ c ≠ '\n' := by
  have hc := CharSet.isValidChar_toNat c
  have hfirst : '\x00'.toNat = 0 := rfl
  have hbefore : '\t'.toNat = 9 := rfl
  have hnewline : '\n'.toNat = 10 := rfl
  have hafter : '\x0b'.toNat = 11 := rfl
  unfold Nat.isValidChar at hc
  rw [dot, ne_eq, ← Char.toNat_inj, hnewline]
  split
  · next hall =>
    refine iff_of_true ⟨_, List.mem_singleton_self _, ?_⟩ (.inl hall)
    rw [holds_unfolded, CharRange.full, CharSet.toNat_lo_between, CharSet.toNat_hi_between,
      CharSet.toNat_lastChar, hfirst]
    omega
  · next hall =>
    have hitems : (CharClass.ofRanges false [⟨.between '\x00' '\t', false⟩,
        ⟨.between '\x0b' lastChar, false⟩]).SomeHolds c ↔
        (ClassItem.range ⟨.between '\x00' '\t', false⟩).Holds c ∨
          (ClassItem.range ⟨.between '\x0b' lastChar, false⟩).Holds c := by
      simp [CharClass.SomeHolds, CharClass.ofRanges]
    rw [hitems, holds_unfolded, holds_unfolded, CharSet.toNat_lo_between,
      CharSet.toNat_hi_between, CharSet.toNat_lo_between, CharSet.toNat_hi_between,
      CharSet.toNat_lastChar, hfirst, hbefore, hafter, or_iff_right hall]
    omega

theorem isCaseClosed_dot (modes : Modes) : (dot modes).IsCaseClosed := by
  apply CharClass.isCaseClosed_of_someHolds
  intro c d h
  rw [someHolds_dot_iff, someHolds_dot_iff, ne_eq, ne_eq,
    Unicode.eq_iff_of_mem_caseOrbit (.inl rfl) h]

/-- What comes next keeps ignoring case: it is no flag group that turns `i` off, and neither `\b`
nor `\B`. -/
structure State.KeepsIgnoringCase (s : State) : Prop where
  opening : ∀ {cur after : Cursor} {opening : Group.Opening}, s.cur.next? = some ('(', cur) →
    Group.readOpening s.modes s.names s.cur.pos cur = .ok (opening, after) →
    opening.Keeps (·.ignoreCase)
  escape : ∀ {cur mid : Cursor} {c : Char}, s.cur.next? = some ('\\', cur) →
    cur.next? = some (c, mid) → c ≠ 'b' ∧ c ≠ 'B'

/-- No flag group of the pattern turns `i` off, and no escape of it is `\b` or `\B`. -/
def KeepsIgnoringCase (o : ParserOptions) (pattern : String) : Prop :=
  ∀ s, (State.initial o.modes pattern.toList).LeadsTo o s → s.KeepsIgnoringCase

theorem isBound_of_escapedLook? {unicodeWordBoundary : Bool} {c : Char} {l : Look}
    (hb : c ≠ 'b') (hB : c ≠ 'B') (h : escapedLook? unicodeWordBoundary c = some l) :
    l.IsBound := by
  unfold escapedLook? at h
  split at h
  · cases h
    exact List.mem_cons_self
  · cases h
    exact List.mem_cons_of_mem _ List.mem_cons_self
  · exact absurd rfl hb
  · exact absurd rfl hB
  · cases h

theorem isFolded_of_readEscape {o : ParserOptions} {modes : Modes} (hmodes : modes.ignoreCase)
    {start : Nat} {cur after : Cursor} {e : Expr}
    (hword : ∀ {c : Char} {mid : Cursor}, cur.next? = some (c, mid) → c ≠ 'b' ∧ c ≠ 'B')
    (h : readEscape o modes start cur = .ok (e, after)) : e.IsFolded := by
  unfold readEscape at h
  rw [hmodes] at h
  split at h
  · cases h
  · next c mid hnext =>
    obtain ⟨hb, hB⟩ := hword hnext
    split at h
    · next hlook =>
      cases h
      exact isBound_of_escapedLook? hb hB hlook
    · split at h
      · split at h
        · cases h
        · next hclass =>
          cases h
          exact (Escape.isFolded_of_readClass hclass).toClass
      · split at h
        · cases h
        · cases h
          exact isFolded_literal hmodes _

theorem State.KeepsIgnoringCase.supplies {o : ParserOptions} {s : State}
    (hs : s.KeepsIgnoringCase) (hmodes : s.modes.ignoreCase) :
    s.Supplies o (·.ignoreCase) Expr.IsFolded where
  literal := isFolded_literal hmodes
  dot := isCaseClosed_dot s.modes
  bound _ hl := hl
  bracket hread := by
    rw [hmodes] at hread
    exact Bracket.isCaseClosed_of_readClass hread
  escape hnext hread := isFolded_of_readEscape hmodes (hs.escape hnext) hread
  opening := hs.opening

end Parser

/-- A pattern that is read ignoring case, and keeps to it, stands for a folded expression. -/
theorem Expr.isFolded_of_parse {o : ParserOptions} {pattern : String} {e : Expr}
    (hmodes : o.modes.ignoreCase) (hkeeps : Parser.KeepsIgnoringCase o pattern)
    (h : parse o pattern = .ok e) : e.IsFolded := by
  apply of_parse (Q := (·.ignoreCase)) isInherited_isFolded.isComposed hmodes _ h
  intro s hs hmodes'
  exact (hkeeps s hs).supplies hmodes'

end LinearRegex
