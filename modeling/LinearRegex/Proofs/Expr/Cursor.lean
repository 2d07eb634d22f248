import LinearRegex.Expr.Parser

/-!
# What cursors come to

A cursor counts bytes while it goes by characters.  Where all characters are ASCII, both counts are
the same (`Cursor.pos_drop_of_ascii`).  What the readers look ahead for is ASCII: digits, the letter
of a class, what closes a name.
-/

namespace LinearRegex
namespace Cursor

variable {a b cur mid after : Cursor} {c : Char} {text : List Char}

theorem reaches_finish (cur : Cursor) : cur.Reaches ⟨[], cur.finish⟩ := by
  refine ⟨cur.rest.length, ?_⟩
  rw [drop, List.drop_length, List.take_length, finish]

theorem pos_of_next? (h : cur.next? = some (c, mid)) : mid.pos = cur.pos + c.utf8Size := by
  unfold next? at h
  split at h
  · cases h
  · cases h
    rfl

/-- Nothing is next where nothing is left. -/
theorem next?_eq_none_iff : cur.next? = none ↔ cur.rest = [] := by
  unfold next?
  split
  · next hrest => exact iff_of_true rfl hrest
  · next hrest => exact iff_of_false nofun fun hnil => nomatch hrest.symm.trans hnil

theorem Reaches.pos_le (h : a.Reaches b) : a.pos ≤ b.pos := by
  obtain ⟨n, rfl⟩ := h
  exact Nat.le_add_right _ _

theorem Passes.pos_lt (h : a.Passes b) : a.pos < b.pos := by
  obtain ⟨c, mid, hnext, hreach⟩ := h
  apply Nat.lt_of_lt_of_le _ hreach.pos_le
  rw [pos_of_next? hnext]
  exact Nat.lt_add_of_pos_right c.utf8Size_pos

theorem next?_of_rest {rest : List Char} (h : cur.rest = c :: rest) :
    cur.next? = some (c, cur.drop 1) := by
  unfold next? drop
  simp only [h, List.drop_one, List.tail_cons, List.take_succ_cons, List.take_zero,
    Utf8.length_cons, Utf8.length_nil, Nat.add_zero]

theorem passes_drop {ds rest : List Char} (h : cur.rest = ds ++ rest) (hds : ds ≠ []) :
    cur.Passes (cur.drop ds.length) := by
  obtain ⟨d, ds, rfl⟩ := List.exists_cons_of_ne_nil hds
  refine ⟨d, cur.drop 1, next?_of_rest h, ds.length, ?_⟩
  rw [drop_drop, List.length_cons, Nat.add_comm]

/-- Where all characters are ASCII, characters can be counted instead of bytes. -/
theorem pos_drop_of_ascii {ds rest : List Char} (h : cur.rest = ds ++ rest)
    (hds : ∀ d ∈ ds, d.utf8Size = 1) : (cur.drop ds.length).pos = cur.pos + ds.length := by
  have hlength : Utf8.length ds = ds.length := by
    clear h
    induction ds with
    | nil => rfl
    | cons d ds ih =>
      obtain ⟨hd, hds⟩ := List.forall_mem_cons.mp hds
      rw [Utf8.length_cons, hd, ih hds, List.length_cons, Nat.add_comm]
  rw [drop, h, List.take_left, hlength]

/-! ## Up to a character -/

theorem exists_takeWhile_append {cs : List Char} (hc : c ∈ cs) :
    ∃ rest, cs = cs.takeWhile (· ≠ c) ++ c :: rest := by
  induction cs with
  | nil => cases hc
  | cons d cs ih =>
    by_cases hd : d = c
    · subst hd
      exact ⟨cs, by rw [List.takeWhile_cons_of_neg (by simp), List.nil_append]⟩
    · obtain ⟨rest, hrest⟩ := ih (List.mem_of_ne_of_mem (Ne.symm hd) hc)
      refine ⟨rest, ?_⟩
      rw [List.takeWhile_cons_of_pos (by simpa using hd), List.cons_append, ← hrest]

/-- What stands before the first `c` is next, and then that `c`. -/
theorem until?_eq_some_iff : cur.until? c = some (text, after) ↔
    c ∉ text ∧ (∃ rest, cur.rest = text ++ c :: rest) ∧ after = cur.drop (text.length + 1) := by
  constructor
  · intro h
    unfold until? at h
    split at h
    · next hc =>
      cases h
      refine ⟨?_, exists_takeWhile_append hc, rfl⟩
      intro hmem
      have hne := List.all_eq_true.mp List.all_takeWhile c hmem
      exact of_decide_eq_true hne rfl
    · cases h
  · rintro ⟨hc, ⟨rest, hrest⟩, rfl⟩
    have hmem : c ∈ cur.rest := by
      rw [hrest]
      exact List.mem_append_right text List.mem_cons_self
    have htext : ∀ d ∈ text, decide (d ≠ c) = true := by
      rintro d hd
      exact decide_eq_true (fun heq => hc (heq ▸ hd))
    have htake : cur.rest.takeWhile (· ≠ c) = text := by
      rw [hrest, List.takeWhile_append_of_pos htext, List.takeWhile_cons_of_neg (by simp),
        List.append_nil]
    rw [until?, if_pos hmem, htake]

theorem pos_of_until? (h : cur.until? c = some (text, after)) :
    after.pos = cur.pos + Utf8.length text + c.utf8Size := by
  obtain ⟨-, ⟨rest, hrest⟩, rfl⟩ := until?_eq_some_iff.mp h
  rw [drop, hrest, List.take_length_add_append, Utf8.length_append, Nat.add_assoc]
  rfl

end Cursor

/-! ## Looking ahead -/

theorem utf8Size_of_isDigit {c : Char} (h : c.isDigit) : c.utf8Size = 1 := by
  rw [Char.utf8Size_eq_one_iff]
  simp only [Char.isDigit, Bool.and_eq_true, decide_eq_true_eq, UInt32.le_iff_toNat_le] at h ⊢
  exact Nat.le_trans h.2 (by decide)

/-- All digits at the front of a text are ASCII. -/
theorem utf8Size_of_mem_takeWhile {cs : List Char} : ∀ d ∈ cs.takeWhile Char.isDigit,
    d.utf8Size = 1 :=
  fun d hd => utf8Size_of_isDigit (List.all_eq_true.mp List.all_takeWhile d hd)

theorem Escape.exists_of_startsClass {cs : List Char} (h : startsClass cs) :
    ∃ c rest, cs = '\\' :: c :: rest ∧ isClassLetter c := by
  unfold startsClass at h
  split at h
  · next c rest => exact ⟨c, rest, rfl, h⟩
  · cases h

theorem Bracket.exists_of_findClose {passed n : Nat} {cs : List Char}
    (h : findClose passed cs = some n) :
    ∃ name rest, cs = name ++ ':' :: ']' :: rest ∧ n = passed + name.length := by
  fun_induction findClose passed cs with
  | case1 passed rest =>
    cases h
    exact ⟨[], rest, rfl, rfl⟩
  | case2 => cases h
  | case3 passed c rest _ ih =>
    obtain ⟨name, rest', rfl, rfl⟩ := ih h
    refine ⟨c :: name, rest', rfl, ?_⟩
    rw [List.length_cons, Nat.add_right_comm, Nat.add_assoc]

end LinearRegex
