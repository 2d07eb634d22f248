import LinearRegex.Proofs.Expr.Faults
import LinearRegex.Proofs.Expr.Reading

/-!
# Reading a part of a longer pattern

The readers look at what is next, and further on for what closes a name, a code or a count.  In a
longer pattern that goes on with closing parentheses, they find the same: nothing that they look for
has a closing parenthesis in it, and none of them is content with the end of the pattern.  Only at
the end can they refuse what is there for another reason than before, so a fault is carried over if
nothing is added behind (`Carries`).  The offsets are greater by the bytes that stand before.
-/

namespace LinearRegex

namespace Cursor

/-- The same position in a longer pattern, which has `k` bytes more before it and `n` closing
parentheses more at its end. -/
def within (k n : Nat) (cur : Cursor) : Cursor :=
  ⟨cur.rest ++ List.replicate n ')', cur.pos + k⟩

variable {cur mid after : Cursor} {c : Char} {text : List Char} {k n : Nat}

theorem within_zero (k : Nat) (cur : Cursor) : cur.within k 0 = ⟨cur.rest, cur.pos + k⟩ := by
  rw [within, List.replicate_zero, List.append_nil]

theorem next?_within (h : cur.next? = some (c, mid)) :
    (cur.within k n).next? = some (c, mid.within k n) := by
  unfold next? at h
  split at h
  · cases h
  · next hrest =>
    cases h
    simp only [within, next?, hrest, List.cons_append, Nat.add_right_comm]

theorem next?_within_zero (h : cur.next? = none) : (cur.within k 0).next? = none := by
  rw [next?_eq_none_iff] at h ⊢
  rw [within_zero, h]

/-- A closing parenthesis is all that can be found in addition. -/
theorem next?_within_ne (hc : c ≠ ')') (h : ∀ mid, cur.next? ≠ some (c, mid)) (mid : Cursor) :
    (cur.within k n).next? ≠ some (c, mid) := by
  intro hmid
  cases hnext : cur.next? with
  | some found =>
    cases (next?_within hnext).symm.trans hmid
    exact h _ hnext
  | none =>
    have hrest := next?_eq_none_iff.mp hnext
    cases n with
    | zero =>
      rw [within_zero, next?, hrest] at hmid
      cases hmid
    | succ n =>
      rw [within, hrest, List.nil_append, List.replicate_succ, next?] at hmid
      cases hmid
      exact hc rfl

theorem drop_within_zero (m : Nat) : (cur.within k 0).drop m = (cur.drop m).within k 0 := by
  rw [within_zero, within_zero, drop, drop, Nat.add_right_comm]

theorem drop_within {m : Nat} (hm : m ≤ cur.rest.length) :
    (cur.within k n).drop m = (cur.drop m).within k n := by
  simp only [within, drop, List.drop_append_of_le_length hm, List.take_append_of_le_length hm,
    Nat.add_right_comm]

theorem finish_within_zero : (cur.within k 0).finish = cur.finish + k := by
  rw [within_zero, finish, finish, Nat.add_right_comm]

theorem until?_within (h : cur.until? c = some (text, after)) :
    (cur.within k n).until? c = some (text, after.within k n) := by
  obtain ⟨hc, ⟨rest, hrest⟩, rfl⟩ := until?_eq_some_iff.mp h
  refine until?_eq_some_iff.mpr ⟨hc, ⟨rest ++ List.replicate n ')', ?_⟩, ?_⟩
  · rw [within, hrest, List.append_assoc, List.cons_append]
  · refine (drop_within ?_).symm
    rw [hrest, List.length_append, List.length_cons]
    exact Nat.add_le_add_left (Nat.le_add_left 1 _) _

theorem until?_within_zero (h : cur.until? c = none) : (cur.within k 0).until? c = none := by
  unfold until? at h
  split at h
  · cases h
  · next hc => rw [within_zero, until?, if_neg hc]

end Cursor

/-- The same fault in a longer pattern, which has `k` bytes more before it. -/
def Fault.shift (k : Nat) (fault : Fault) : Fault :=
  { fault with start := fault.start + k, stop := fault.stop + k }

/-- The second result is what the first one is in a longer pattern, given what a value is there.  A
fault is there again if nothing has been added at the end. -/
def Carries {α : Type} (f : α → α) (k n : Nat) (result result' : Except Fault α) : Prop :=
  (∃ a, result = .ok a ∧ result' = .ok (f a)) ∨
    ∃ fault, result = .error fault ∧ (n = 0 → result' = .error (fault.shift k))

/-- What the readers read is the same in a longer pattern. -/
abbrev CarriesRead {α : Type} (k n : Nat) : (result result' : Except Fault (α × Cursor)) → Prop :=
  Carries (Prod.map id (Cursor.within k n)) k n

theorem Carries.ok {α : Type} {f : α → α} {k n : Nat} (a : α) :
    Carries f k n (.ok a) (.ok (f a)) :=
  Or.inl ⟨a, rfl, rfl⟩

theorem Carries.error {α : Type} {f : α → α} {k n : Nat} {fault : Fault} {result' : Except Fault α}
    (h : n = 0 → result' = .error (fault.shift k)) : Carries f k n (.error fault) result' :=
  Or.inr ⟨fault, rfl, h⟩

theorem Carries.of_ok {α : Type} {f : α → α} {k n : Nat} {result result' : Except Fault α} {a : α}
    (h : Carries f k n result result') (ha : result = .ok a) : result' = .ok (f a) := by
  rcases h with ⟨b, hb, hover⟩ | ⟨fault, hfault, -⟩
  · cases ha.symm.trans hb
    exact hover
  · cases ha.symm.trans hfault

theorem Carries.of_error {α : Type} {f : α → α} {k n : Nat} {result result' : Except Fault α}
    {fault : Fault} (h : Carries f k n result result') (hfault : result = .error fault)
    (hn : n = 0) : result' = .error (fault.shift k) := by
  rcases h with ⟨b, hb, -⟩ | ⟨fault', hfault', hshift⟩
  · cases hfault.symm.trans hb
  · cases hfault.symm.trans hfault'
    exact hshift hn

variable {cur mid after : Cursor} {k n start : Nat} {cs : List Char}

/-! ## Looking ahead -/

theorem takeWhile_append_close {p : Char → Bool} (hp : p ')' = false) :
    (cs ++ List.replicate n ')').takeWhile p = cs.takeWhile p := by
  induction cs with
  | nil =>
    cases n with
    | zero => rfl
    | succ n =>
      rw [List.nil_append, List.replicate_succ, List.takeWhile_cons_of_neg (by simp [hp]),
        List.takeWhile_nil]
  | cons c cs ih =>
    by_cases hc : p c
    · rw [List.cons_append, List.takeWhile_cons_of_pos hc, ih, List.takeWhile_cons_of_pos hc]
    · rw [List.cons_append, List.takeWhile_cons_of_neg hc, List.takeWhile_cons_of_neg hc]

theorem dropWhile_append_close {p : Char → Bool} (hp : p ')' = false) :
    (cs ++ List.replicate n ')').dropWhile p = cs.dropWhile p ++ List.replicate n ')' := by
  induction cs with
  | nil =>
    cases n with
    | zero => rfl
    | succ n =>
      rw [List.nil_append, List.replicate_succ, List.dropWhile_cons_of_neg (by simp [hp])]
      rfl
  | cons c cs ih =>
    by_cases hc : p c
    · rw [List.cons_append, List.dropWhile_cons_of_pos hc, ih, List.dropWhile_cons_of_pos hc]
    · rw [List.cons_append, List.dropWhile_cons_of_neg hc, List.dropWhile_cons_of_neg hc,
        List.cons_append]

/-- What a text has in front is found if parentheses follow it, and no other text. -/
theorem cons_append_close_ne {c : Char} (hc : c ≠ ')') (h : ∀ rest, cs ≠ c :: rest)
    (rest : List Char) : cs ++ List.replicate n ')' ≠ c :: rest := by
  intro heq
  cases cs with
  | nil =>
    cases n with
    | zero => cases heq
    | succ n =>
      rw [List.nil_append, List.replicate_succ] at heq
      exact hc (List.cons.inj heq).1.symm
  | cons d cs => exact h cs (congrArg (· :: cs) (List.cons.inj heq).1)

theorem cons_cons_append_close_ne {c d : Char} (hc : c ≠ ')') (hd : d ≠ ')')
    (h : ∀ rest, cs ≠ c :: d :: rest) (rest : List Char) :
    cs ++ List.replicate n ')' ≠ c :: d :: rest := by
  intro heq
  cases cs with
  | nil => exact cons_append_close_ne hc (fun _ h => by cases h) _ heq
  | cons e cs =>
    obtain ⟨rfl, hrest⟩ := List.cons.inj heq
    exact cons_append_close_ne hd (fun rest hcs => h rest (congrArg _ hcs)) _ hrest

theorem closeCount?_append_close (lower : List Char) :
    closeCount? lower (cs ++ List.replicate n ')') = closeCount? lower cs := by
  symm
  fun_cases closeCount? lower cs with
  | case1 => rfl
  | case2 rest rest' hclose hnil =>
    rw [List.cons_append, closeCount?, dropWhile_append_close rfl, hclose, List.cons_append,
      takeWhile_append_close rfl, hnil]
    rfl
  | case3 rest rest' hclose hne =>
    rw [List.cons_append, closeCount?, dropWhile_append_close rfl, hclose, List.cons_append,
      takeWhile_append_close rfl]
    simp only
  | case4 rest hclose =>
    rw [List.cons_append, closeCount?, dropWhile_append_close rfl]
    split
    · next heq => exact absurd heq (cons_append_close_ne (by decide) hclose _)
    · rfl
  | case5 cs hbrace hcomma =>
    rw [closeCount?]
    · exact cons_append_close_ne (by decide) hbrace
    · exact cons_append_close_ne (by decide) hcomma

theorem scanCount?_append_close : scanCount? (cs ++ List.replicate n ')') = scanCount? cs := by
  symm
  fun_cases scanCount? cs with
  | case1 rest hnil =>
    rw [List.cons_append, scanCount?, takeWhile_append_close rfl, hnil]
  | case2 rest hne =>
    rw [List.cons_append, scanCount?, takeWhile_append_close rfl, dropWhile_append_close rfl]
    split
    · next hnil => exact absurd hnil hne
    · exact (closeCount?_append_close _).symm
  | case3 cs hbrace =>
    rw [scanCount?]
    exact cons_append_close_ne (by decide) hbrace

/-! ## Quantifiers -/

theorem lazyMark_within (min : Nat) (max : Option Nat) :
    lazyMark min max (cur.within k n) = Prod.map id (Cursor.within k n) (lazyMark min max cur) := by
  symm
  fun_cases lazyMark min max cur with
  | case1 after hnext =>
    rw [lazyMark, Cursor.next?_within hnext]
    rfl
  | case2 hnext =>
    rw [lazyMark]
    split
    · next h => exact absurd h (Cursor.next?_within_ne (by decide) hnext _)
    · rfl

theorem drop_of_scanCount? {count : Count} (h : scanCount? cur.rest = some count) :
    (cur.within k n).drop count.length = (cur.drop count.length).within k n := by
  obtain ⟨t, hfront, rfl⟩ := scanCount?_eq_some_iff.mp h
  exact Cursor.drop_within hfront.length_le

/-- A quantifier that is read is the same in a longer pattern, and there is no other one. -/
theorem readQuantifier_within : readQuantifier (cur.within k n) =
    ((readQuantifier cur).map (Option.map (Prod.map id (Cursor.within k n)))).mapError
      (Fault.shift k) := by
  have hscan : scanCount? (cur.within k n).rest = scanCount? cur.rest := scanCount?_append_close
  have hmark : ∀ {min max} {cur : Cursor}, Except.ok (some (lazyMark min max (cur.within k n))) =
      (((Except.ok (some (lazyMark min max cur)) : Except Fault _).map
        (Option.map (Prod.map id (Cursor.within k n)))).mapError (Fault.shift k)) := by
    intro min max cur
    rw [lazyMark_within]
    rfl
  symm
  fun_cases readQuantifier cur with
  | case1 after hnext =>
    rw [readQuantifier, Cursor.next?_within hnext]
    exact hmark.symm
  | case2 after hnext =>
    rw [readQuantifier, Cursor.next?_within hnext]
    exact hmark.symm
  | case3 after hnext =>
    rw [readQuantifier, Cursor.next?_within hnext]
    exact hmark.symm
  | case4 hnone hstar hplus hquestion =>
    rw [readQuantifier, hscan, hnone]
    split
    · next h => exact absurd h (Cursor.next?_within_ne (by decide) hstar _)
    · next h => exact absurd h (Cursor.next?_within_ne (by decide) hplus _)
    · next h => exact absurd h (Cursor.next?_within_ne (by decide) hquestion _)
    · rfl
  | case5 count hcount after hvalid hstar hplus hquestion =>
    rw [readQuantifier, hscan, hcount]
    split
    · next h => exact absurd h (Cursor.next?_within_ne (by decide) hstar _)
    · next h => exact absurd h (Cursor.next?_within_ne (by decide) hplus _)
    · next h => exact absurd h (Cursor.next?_within_ne (by decide) hquestion _)
    · dsimp only
      rw [if_pos hvalid, drop_of_scanCount? hcount]
      exact hmark.symm
  | case6 count hcount after hvalid hstar hplus hquestion =>
    rw [readQuantifier, hscan, hcount]
    split
    · next h => exact absurd h (Cursor.next?_within_ne (by decide) hstar _)
    · next h => exact absurd h (Cursor.next?_within_ne (by decide) hplus _)
    · next h => exact absurd h (Cursor.next?_within_ne (by decide) hquestion _)
    · dsimp only
      rw [if_neg hvalid, drop_of_scanCount? hcount]
      rfl

theorem readQuantifier_within_ok {found : Option (Quantifier × Cursor)}
    (h : readQuantifier cur = .ok found) : readQuantifier (cur.within k n) =
      .ok (found.map (Prod.map id (Cursor.within k n))) := by
  rw [readQuantifier_within, h]
  rfl

theorem readQuantifier_within_error {fault : Fault} (h : readQuantifier cur = .error fault) :
    readQuantifier (cur.within k n) = .error (fault.shift k) := by
  rw [readQuantifier_within, h]
  rfl

theorem carries_quantify (swapGreed : Bool) (e : Expr) :
    CarriesRead k n (quantify swapGreed e cur) (quantify swapGreed e (cur.within k n)) := by
  fun_cases quantify swapGreed e cur with
  | case1 fault hread =>
    simp only [quantify, readQuantifier_within_error hread]
    exact .error fun _ => rfl
  | case2 hread =>
    simp only [quantify, readQuantifier_within_ok hread]
    exact .ok _
  | case3 q after hread fault hagain =>
    simp only [quantify, readQuantifier_within_ok hread, Option.map_some, Prod.map_apply,
      readQuantifier_within_error hagain]
    exact .error fun _ => rfl
  | case4 q after hread hagain =>
    simp only [quantify, readQuantifier_within_ok hread, Option.map_some, Prod.map_apply,
      readQuantifier_within_ok hagain]
    exact .ok _
  | case5 q after hread q' later hagain =>
    simp only [quantify, readQuantifier_within_ok hread, Option.map_some, Prod.map_apply,
      readQuantifier_within_ok hagain]
    exact .error fun _ => rfl

/-! ## Escapes -/

namespace Escape

theorem moreOctalDigits_append_close :
    moreOctalDigits (cs ++ List.replicate n ')') = moreOctalDigits cs := by
  have hclose : Text.isDigit 8 ')' = false := by decide
  unfold moreOctalDigits
  rw [List.take_append, List.take_replicate]
  exact takeWhile_append_close hclose

theorem startsClass_of_ne {c : Char} (hc : c ≠ '\\') (rest : List Char) :
    startsClass (c :: rest) = false := by
  unfold startsClass
  split
  · next heq => exact absurd (List.cons.inj heq).1 hc
  · rfl

theorem startsClass_append_close : startsClass (cs ++ List.replicate n ')') = startsClass cs := by
  match cs with
  | [] => rcases n with _ | _ | n <;> rfl
  | c :: rest =>
    by_cases hc : c = '\\'
    · subst hc
      match rest with
      | [] => cases n <;> rfl
      | _ :: _ => rfl
    · rw [List.cons_append, startsClass_of_ne hc, startsClass_of_ne hc]

/-- The digits of a code are the same in a longer pattern, and so is an incomplete code if nothing
has been added at the end. -/
theorem hexDigits_within : n = 0 ∨ (hexDigits cur).1.isSome →
    hexDigits (cur.within k n) = Prod.map id (Cursor.within k n) (hexDigits cur) := by
  fun_cases hexDigits cur with
  | case1 mid hnext digits after huntil =>
    intro _
    simp only [hexDigits, Cursor.next?_within hnext, Cursor.until?_within huntil]
    rfl
  | case2 mid hnext huntil =>
    rintro (rfl | hsome)
    · simp only [hexDigits, Cursor.next?_within hnext, Cursor.until?_within_zero huntil,
        Cursor.finish_within_zero]
      rfl
    · cases hsome
  | case3 a b rest hrest hbrace =>
    intro _
    have hlength : 2 ≤ cur.rest.length := by
      rw [hrest]
      exact Nat.le_add_left 2 _
    have hrest' : (cur.within k n).rest = a :: b :: (rest ++ List.replicate n ')') := by
      rw [Cursor.within, hrest]
      rfl
    rw [hexDigits, hrest', Cursor.drop_within hlength]
    split
    · next h => exact absurd h (Cursor.next?_within_ne (by decide) hbrace _)
    · rfl
  | case4 hbrace hrest =>
    rintro (rfl | hsome)
    · have hrest' : (cur.within k 0).rest = cur.rest := List.append_nil _
      rw [hexDigits, Cursor.drop_within_zero, hrest']
      split
      · next h => exact absurd h (Cursor.next?_within_ne (by decide) hbrace _)
      · split
        · next h => exact absurd h (hrest _ _ _)
        · rfl
    · cases hsome

theorem carries_readChar :
    CarriesRead k n (readChar start cur) (readChar (start + k) (cur.within k n)) := by
  fun_cases readChar start cur with
  | case1 hnext =>
    refine .error fun hn => ?_
    subst hn
    simp only [readChar, Cursor.next?_within_zero hnext, Cursor.finish_within_zero]
    rfl
  | case2 c mid hnext code hcode =>
    simp only [readChar, Cursor.next?_within hnext, hcode]
    exact .ok _
  | case3 c mid hnext hcode hoctal more hmore =>
    have hmore' : moreOctalDigits (mid.within k n).rest = more := moreOctalDigits_append_close
    have hdrop : (mid.within k n).drop more.length = (mid.drop more.length).within k n := by
      apply Cursor.drop_within
      exact ((List.takeWhile_prefix _).trans (List.take_prefix 2 _)).length_le
    simp only [readChar, Cursor.next?_within hnext, hcode, hoctal, hmore', hmore, if_true, hdrop]
    exact .ok _
  | case4 c mid hnext hcode hoctal more hmore =>
    have hmore' : moreOctalDigits (mid.within k n).rest = more := moreOctalDigits_append_close
    simp only [readChar, Cursor.next?_within hnext, hcode, hoctal, hmore', hmore, if_true, if_false]
    exact .error fun _ => rfl
  | case5 mid digits after hdigits code hcode hnext hcontrol hoctal =>
    have hdigits' : hexDigits (mid.within k n) = (digits, after.within k n) := by
      rw [hexDigits_within, hdigits]
      · rfl
      · rw [hdigits]
        right
        obtain ⟨ds, hds, -⟩ := Option.bind_eq_some_iff.mp hcode
        rw [hds]
        rfl
    simp only [readChar, Cursor.next?_within hnext, hcontrol, hoctal, hdigits', hcode]
    exact .ok _
  | case6 mid digits after hdigits hcode hnext hcontrol hoctal =>
    refine .error fun hn => ?_
    have hdigits' : hexDigits (mid.within k n) = (digits, after.within k n) := by
      rw [hexDigits_within (Or.inl hn), hdigits]
      rfl
    simp only [readChar, Cursor.next?_within hnext, hcontrol, hoctal, hdigits', hcode]
    rfl
  | case7 c mid hnext hcontrol hoctal hx hpunctuation =>
    simp only [readChar, Cursor.next?_within hnext, hcontrol, hoctal, hx, hpunctuation, if_true,
      if_false]
    exact .ok _
  | case8 c mid hnext hcontrol hoctal hx hpunctuation =>
    simp only [readChar, Cursor.next?_within hnext, hcontrol, hoctal, hx, hpunctuation]
    exact .error fun _ => rfl

theorem carries_readPropertyName :
    CarriesRead k n (readPropertyName start cur)
      (readPropertyName (start + k) (cur.within k n)) := by
  fun_cases readPropertyName start cur with
  | case1 hnext =>
    refine .error fun hn => ?_
    subst hn
    simp only [readPropertyName, Cursor.next?_within_zero hnext, Cursor.finish_within_zero]
    rfl
  | case2 mid hnext huntil =>
    refine .error fun hn => ?_
    subst hn
    simp only [readPropertyName, Cursor.next?_within hnext, Cursor.until?_within_zero huntil,
      Cursor.finish_within_zero]
    rfl
  | case3 mid hnext name after huntil =>
    simp only [readPropertyName, Cursor.next?_within hnext, Cursor.until?_within huntil]
    exact .ok _
  | case4 c mid hbrace hnext =>
    rw [readPropertyName, Cursor.next?_within hnext]
    split
    · next h => cases h
    · next h =>
      cases h
      exact absurd rfl hbrace
    · next h =>
      cases h
      exact .ok _

theorem carries_readClass {unicodeClasses fold : Bool} :
    CarriesRead k n (readClass unicodeClasses fold start cur)
      (readClass unicodeClasses fold (start + k) (cur.within k n)) := by
  fun_cases readClass unicodeClasses fold start cur with
  | case1 hnext =>
    refine .error fun hn => ?_
    subst hn
    simp only [readClass, Cursor.next?_within_zero hnext, Cursor.finish_within_zero]
    rfl
  | case2 letter mid hnext ranges hranges =>
    simp only [readClass, Cursor.next?_within hnext, hranges]
    exact .ok _
  | case3 letter mid hnext hranges hunicode fault hname =>
    refine .error fun hn => ?_
    simp only [readClass, Cursor.next?_within hnext, hranges, hunicode, if_true,
      carries_readPropertyName.of_error hname hn]
  | case4 letter mid hnext hranges hunicode written after hname caret name hcaret hproperty =>
    simp only [readClass, Cursor.next?_within hnext, hranges, hunicode, if_true,
      carries_readPropertyName.of_ok hname, Prod.map_apply, id_eq, hcaret, hproperty]
    exact .error fun _ => rfl
  | case5 letter mid hnext hranges hunicode written after hname caret name hcaret set hproperty =>
    simp only [readClass, Cursor.next?_within hnext, hranges, hunicode, if_true,
      carries_readPropertyName.of_ok hname, Prod.map_apply, id_eq, hcaret, hproperty]
    exact .ok _
  | case6 letter mid hnext hranges hunicode =>
    simp only [readClass, Cursor.next?_within hnext, hranges, hunicode]
    exact .error fun _ => rfl

end Escape

/-! ## Openings of groups -/

namespace Group

theorem nameMark?_append_close : nameMark? (cs ++ List.replicate n ')') = nameMark? cs := by
  symm
  fun_cases nameMark? cs with
  | case1 => rfl
  | case2 => rfl
  | case3 => rfl
  | case4 rest hequals hbang =>
    rw [List.cons_append, nameMark?]
    · exact cons_append_close_ne (by decide) hequals
    · exact cons_append_close_ne (by decide) hbang
  | case5 cs hP hequals hbang hangle =>
    rw [nameMark?]
    · exact cons_cons_append_close_ne (by decide) (by decide) hP
    · intro rest
      exact cons_append_close_ne (by decide) hangle _
    · intro rest
      exact cons_append_close_ne (by decide) hangle _
    · exact cons_append_close_ne (by decide) hangle

theorem length_of_nameMark? {m : Nat} (h : nameMark? cs = some m) : m ≤ cs.length := by
  unfold nameMark? at h
  split at h <;> cases h <;> simp

theorem carries_readName {taken : List String} :
    CarriesRead k n (readName taken start cur) (readName taken (start + k) (cur.within k n)) := by
  fun_cases readName taken start cur with
  | case1 huntil =>
    refine .error fun hn => ?_
    subst hn
    simp only [readName, Cursor.until?_within_zero huntil, Cursor.finish_within_zero]
    rfl
  | case2 name after huntil hname htaken =>
    simp only [readName, Cursor.until?_within huntil, hname, htaken, if_true]
    exact .error fun _ => rfl
  | case3 name after huntil hname htaken =>
    simp only [readName, Cursor.until?_within huntil, hname, htaken, if_true, if_false]
    exact .ok _
  | case4 name after huntil hname =>
    simp only [readName, Cursor.until?_within huntil, hname]
    exact .error fun _ => rfl

theorem readModes_of_next {modes : Modes} {negated seen : Bool} {c : Char}
    (hnext : cur.next? = some (c, mid)) : readModes start modes negated seen cur =
      match modes.switch? c !negated with
      | some switched => readModes start switched negated true mid
      | none =>
        if c = '-' ∧ ¬negated then readModes start modes true false mid
        else if c = ':' ∧ (seen ∨ ¬negated) then .ok (.plain modes, mid)
        else if c = ')' ∧ seen then .ok (.modes modes, mid)
        else .error ⟨.invalidPerlOp, start, mid.pos⟩ := by
  rw [readModes]
  split
  · next h => cases hnext.symm.trans h
  · next h =>
    cases hnext.symm.trans h
    rfl

theorem carries_readModes {modes : Modes} {negated seen : Bool} :
    CarriesRead k n (readModes start modes negated seen cur)
      (readModes (start + k) modes negated seen (cur.within k n)) := by
  fun_induction readModes start modes negated seen cur with
  | case1 modes negated seen cur hnext =>
    refine .error fun hn => ?_
    subst hn
    rw [readModes]
    split
    · rw [Cursor.finish_within_zero]
      rfl
    · next h => cases (Cursor.next?_within_zero hnext).symm.trans h
  | case2 modes negated seen cur c mid hnext switched hswitch ih =>
    rw [readModes_of_next (Cursor.next?_within hnext)]
    simp only [hswitch]
    exact ih
  | case3 modes negated seen cur c mid hnext hswitch hhyphen ih =>
    rw [readModes_of_next (Cursor.next?_within hnext)]
    simp only [hhyphen]
    exact ih
  | case4 modes negated seen cur c mid hnext hswitch hhyphen hcolon =>
    rw [readModes_of_next (Cursor.next?_within hnext)]
    simp only [hcolon]
    exact .ok _
  | case5 modes negated seen cur c mid hnext hswitch hhyphen hcolon hclose =>
    rw [readModes_of_next (Cursor.next?_within hnext)]
    simp only [hclose]
    exact .ok _
  | case6 modes negated seen cur c mid hnext hswitch hhyphen hcolon hclose =>
    rw [readModes_of_next (Cursor.next?_within hnext)]
    simp only [hswitch, hhyphen, if_false, hcolon, hclose]
    exact .error fun _ => rfl

theorem carries_readOpening {modes : Modes} {taken : List String} :
    CarriesRead k n (readOpening modes taken start cur)
      (readOpening modes taken (start + k) (cur.within k n)) := by
  fun_cases readOpening modes taken start cur with
  | case1 mid hnext m hm =>
    have hmark : nameMark? (mid.within k n).rest = some m := nameMark?_append_close.trans hm
    have hdrop : (mid.within k n).drop m = (mid.drop m).within k n :=
      Cursor.drop_within (length_of_nameMark? hm)
    simp only [readOpening, Cursor.next?_within hnext, hmark, hdrop]
    exact carries_readName
  | case2 mid hnext hm =>
    have hmark : nameMark? (mid.within k n).rest = none := nameMark?_append_close.trans hm
    simp only [readOpening, Cursor.next?_within hnext, hmark]
    exact carries_readModes
  | case3 hnext =>
    rw [readOpening]
    split
    · next h => exact absurd h (Cursor.next?_within_ne (by decide) hnext _)
    · exact .ok _

end Group

/-! ## Classes in brackets -/

namespace Bracket

variable {unicodeClasses fold : Bool}

theorem findClose_replicate {passed : Nat} : findClose passed (List.replicate n ')') = none := by
  induction n generalizing passed with
  | zero => rfl
  | succ n ih =>
    rw [List.replicate_succ, findClose]
    · exact ih
    · intro _ h
      cases h

theorem findClose_append_close {passed : Nat} :
    findClose passed (cs ++ List.replicate n ')') = findClose passed cs := by
  fun_induction findClose passed cs with
  | case1 => rfl
  | case2 passed => exact findClose_replicate
  | case3 passed c rest hclose ih =>
    rw [← ih, List.cons_append, findClose]
    intro rest' hc
    exact cons_append_close_ne (by decide) (fun rest' => hclose rest' hc) rest'

theorem posixName?_within :
    posixName? (cur.within k n) = (posixName? cur).map (Prod.map id (Cursor.within k n)) := by
  symm
  fun_cases posixName? cur with
  | case1 rest hrest =>
    have hrest' : (cur.within k n).rest = '[' :: ':' :: (rest ++ List.replicate n ')') := by
      rw [Cursor.within, hrest]
      rfl
    simp only [posixName?, hrest', findClose_append_close]
    cases hclose : findClose 0 rest with
    | none => rfl
    | some m =>
      obtain ⟨name, rest', rfl, rfl⟩ := exists_of_findClose hclose
      have hlength : 0 + name.length + 4 ≤ cur.rest.length := by
        rw [hrest, List.length_cons, List.length_cons, List.length_append, List.length_cons,
          List.length_cons]
        omega
      have hle : 0 + name.length ≤ (name ++ ':' :: ']' :: rest').length := by
        rw [List.length_append, Nat.zero_add]
        exact Nat.le_add_right _ _
      rw [Option.map_some, Option.map_some, Option.map_some, Cursor.drop_within hlength,
        List.take_append_of_le_length hle]
      rfl
  | case2 hrest =>
    rw [posixName?]
    split
    · next heq => exact absurd heq (cons_cons_append_close_ne (by decide) (by decide) hrest _)
    · rfl

theorem hyphenFollows_within : hyphenFollows (cur.within k n) = hyphenFollows cur := by
  symm
  fun_cases hyphenFollows cur with
  | case1 rest hrest =>
    rw [hyphenFollows, Cursor.within, hrest]
    rfl
  | case2 rest hclose hrest =>
    rw [hyphenFollows, Cursor.within, hrest, List.cons_append]
    split
    · next heq =>
      exact absurd (List.cons.inj heq).2 (cons_append_close_ne (by decide) hclose _)
    · rfl
    · next hnot => exact absurd rfl (hnot _)
  | case3 hclose hhyphen =>
    rw [hyphenFollows]
    split
    · rfl
    · next heq => exact absurd heq (cons_append_close_ne (by decide) hhyphen _)
    · rfl

theorem drop_of_hyphenFollows (h : hyphenFollows cur) :
    (cur.within k n).drop 1 = (cur.drop 1).within k n := by
  apply Cursor.drop_within
  unfold hyphenFollows at h
  split at h
  · cases h
  · next hrest =>
    rw [hrest]
    exact Nat.le_add_left 1 _
  · cases h

theorem carries_readChar :
    CarriesRead k n (readChar start cur) (readChar (start + k) (cur.within k n)) := by
  fun_cases readChar start cur with
  | case1 hnext =>
    refine .error fun hn => ?_
    subst hn
    simp only [readChar, Cursor.next?_within_zero hnext, Cursor.finish_within_zero]
    rfl
  | case2 mid hnext =>
    simp only [readChar, Cursor.next?_within hnext]
    exact Escape.carries_readChar
  | case3 c mid hbackslash hnext =>
    rw [readChar, Cursor.next?_within hnext]
    split
    · next h => cases h
    · next h =>
      cases h
      exact absurd rfl hbackslash
    · next h =>
      cases h
      exact .ok _

theorem carries_readRange :
    CarriesRead k n (readRange fold start cur) (readRange fold (start + k) (cur.within k n)) := by
  have hstarts : ∀ {upper : Cursor},
      Escape.startsClass (upper.within k n).rest = Escape.startsClass upper.rest :=
    Escape.startsClass_append_close
  fun_cases readRange fold start cur with
  | case1 fault hlo =>
    refine .error fun hn => ?_
    simp only [readRange, carries_readChar.of_error hlo hn]
  | case2 lo mid hlo hhyphen upper hclass =>
    have hupper : (mid.within k n).drop 1 = upper.within k n := drop_of_hyphenFollows hhyphen
    simp only [readRange, carries_readChar.of_ok hlo, Prod.map_apply, id_eq, hyphenFollows_within,
      hhyphen, if_true, hupper, hstarts, hclass]
    refine .error fun _ => ?_
    rw [Fault.shift, Nat.add_right_comm]
    rfl
  | case3 lo mid hlo hhyphen upper hclass fault hhi =>
    have hupper : (mid.within k n).drop 1 = upper.within k n := drop_of_hyphenFollows hhyphen
    refine .error fun hn => ?_
    simp only [readRange, carries_readChar.of_ok hlo, Prod.map_apply, id_eq, hyphenFollows_within,
      hhyphen, if_true, hupper, hstarts, hclass, carries_readChar.of_error hhi hn]
    rfl
  | case4 lo mid hlo hhyphen upper hclass hi after hhi hle =>
    have hupper : (mid.within k n).drop 1 = upper.within k n := drop_of_hyphenFollows hhyphen
    simp only [readRange, carries_readChar.of_ok hlo, Prod.map_apply, id_eq, hyphenFollows_within,
      hhyphen, if_true, hupper, hstarts, hclass, carries_readChar.of_ok hhi, dif_pos hle]
    exact .ok _
  | case5 lo mid hlo hhyphen upper hclass hi after hhi hle =>
    have hupper : (mid.within k n).drop 1 = upper.within k n := drop_of_hyphenFollows hhyphen
    simp only [readRange, carries_readChar.of_ok hlo, Prod.map_apply, id_eq, hyphenFollows_within,
      hhyphen, if_true, hupper, hstarts, hclass, carries_readChar.of_ok hhi, dif_neg hle]
    exact .error fun _ => rfl
  | case6 lo mid hlo hhyphen =>
    simp only [readRange, carries_readChar.of_ok hlo, Prod.map_apply, id_eq, hyphenFollows_within,
      hhyphen]
    exact .ok _

theorem drop_of_startsClass (h : Escape.startsClass cur.rest) :
    (cur.within k n).drop 1 = (cur.drop 1).within k n := by
  obtain ⟨c, rest, hrest, -⟩ := Escape.exists_of_startsClass h
  apply Cursor.drop_within
  rw [hrest]
  exact Nat.le_add_left 1 _

theorem carries_readItem :
    CarriesRead k n (readItem unicodeClasses fold start cur)
      (readItem unicodeClasses fold (start + k) (cur.within k n)) := by
  have hstarts : Escape.startsClass (cur.within k n).rest = Escape.startsClass cur.rest :=
    Escape.startsClass_append_close
  fun_cases readItem unicodeClasses fold start cur with
  | case1 written after hname negated name hcaret hranges =>
    simp only [readItem, posixName?_within, hname, Option.map_some, Prod.map_apply, id_eq, hcaret,
      hranges]
    exact .error fun _ => rfl
  | case2 written after hname negated name hcaret ranges hranges =>
    simp only [readItem, posixName?_within, hname, Option.map_some, Prod.map_apply, id_eq, hcaret,
      hranges]
    exact .ok _
  | case3 hname hclass fault hread =>
    refine .error fun hn => ?_
    have hread' : Escape.readClass unicodeClasses fold (cur.within k n).pos
        ((cur.drop 1).within k n) = .error (fault.shift k) :=
      Escape.carries_readClass.of_error hread hn
    simp only [readItem, posixName?_within, hname, Option.map_none, hstarts, hclass, if_true,
      drop_of_startsClass hclass, hread']
  | case4 hname hclass c after hread =>
    have hread' : Escape.readClass unicodeClasses fold (cur.within k n).pos
        ((cur.drop 1).within k n) = .ok (c, after.within k n) :=
      Escape.carries_readClass.of_ok hread
    simp only [readItem, posixName?_within, hname, Option.map_none, hstarts, hclass, if_true,
      drop_of_startsClass hclass, hread']
    exact .ok _
  | case5 hname hclass =>
    simp only [readItem, posixName?_within, hname, Option.map_none, hstarts, hclass]
    exact carries_readRange

theorem carries_readItems {read : List ClassItem} :
    CarriesRead k n (readItems unicodeClasses fold start read cur)
      (readItems unicodeClasses fold (start + k) read (cur.within k n)) := by
  fun_induction readItems unicodeClasses fold start read cur with
  | case1 read cur hnext =>
    refine .error fun hn => ?_
    subst hn
    rw [readItems, Cursor.next?_within_zero hnext, Cursor.finish_within_zero]
    rfl
  | case2 read cur c mid hnext hclose =>
    rw [readItems_of_next (Cursor.next?_within hnext), if_pos hclose]
    exact .ok _
  | case3 read cur c mid hnext hclose fault hitem =>
    refine .error fun hn => ?_
    rw [readItems_of_next (Cursor.next?_within hnext), if_neg hclose,
      carries_readItem.of_error hitem hn]
  | case4 read cur c mid hnext hclose item after hitem ih =>
    rw [readItems_of_next (Cursor.next?_within hnext), if_neg hclose,
      carries_readItem.of_ok hitem]
    exact ih

/-- A class that is not negated has its items from the beginning on. -/
theorem readClass_of_ne (h : ∀ mid, cur.next? ≠ some ('^', mid)) :
    readClass unicodeClasses fold start cur =
      match readItems unicodeClasses fold start [] cur with
      | .error fault => .error fault
      | .ok (items, after) => .ok (⟨false, items⟩, after) := by
  fun_cases readClass unicodeClasses fold start cur with
  | case1 negated first hfirst fault hitems =>
    split at hfirst
    · next hnext => exact absurd hnext (h _)
    · cases hfirst
      rw [hitems]
  | case2 negated first hfirst items after hitems =>
    split at hfirst
    · next hnext => exact absurd hnext (h _)
    · cases hfirst
      rw [hitems]

theorem carries_readClass :
    CarriesRead k n (readClass unicodeClasses fold start cur)
      (readClass unicodeClasses fold (start + k) (cur.within k n)) := by
  have hitems : ∀ first : Cursor, CarriesRead k n (readItems unicodeClasses fold start [] first)
      (readItems unicodeClasses fold (start + k) [] (first.within k n)) :=
    fun _ => carries_readItems
  by_cases hcaret : ∃ mid, cur.next? = some ('^', mid)
  · obtain ⟨mid, hnext⟩ := hcaret
    simp only [readClass, hnext, Cursor.next?_within hnext]
    rcases hitems mid with ⟨items, h, h'⟩ | ⟨fault, h, h'⟩
    · rw [h, h']
      exact .ok _
    · rw [h]
      exact .error fun hn => by rw [h' hn]
  · have hne : ∀ mid, cur.next? ≠ some ('^', mid) := fun mid hnext => hcaret ⟨mid, hnext⟩
    rw [readClass_of_ne hne, readClass_of_ne (Cursor.next?_within_ne (by decide) hne)]
    rcases hitems cur with ⟨items, h, h'⟩ | ⟨fault, h, h'⟩
    · rw [h, h']
      exact .ok _
    · rw [h]
      exact .error fun hn => by rw [h' hn]

end Bracket

end LinearRegex
