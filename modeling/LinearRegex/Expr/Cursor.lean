import LinearRegex.Text.Utf8

/-!
# Reading a pattern

A cursor stands between two characters of a pattern: it has what is left to read, and the byte
offset where that begins.  `Reaches` says that one cursor comes from another by reading on; every
reader in this folder returns a cursor that its argument reaches.
-/

namespace LinearRegex

/-- A position in a pattern. -/
structure Cursor where
  rest : List Char
  pos : Nat

namespace Cursor

/-- The start of a pattern. -/
def start (pattern : List Char) : Cursor :=
  ⟨pattern, 0⟩

/-- The byte offset of the end of the pattern. -/
def finish (cur : Cursor) : Nat :=
  cur.pos + Utf8.length cur.rest

/-- The next character, and the position after it. -/
def next? (cur : Cursor) : Option (Char × Cursor) :=
  match cur.rest with
  | [] => none
  | c :: rest => some (c, ⟨rest, cur.pos + c.utf8Size⟩)

/-- The position `n` characters on, or the end if it comes first. -/
def drop (n : Nat) (cur : Cursor) : Cursor :=
  ⟨cur.rest.drop n, cur.pos + Utf8.length (cur.rest.take n)⟩

/-- The characters before the first `c`, and the position after that `c`. -/
def until? (c : Char) (cur : Cursor) : Option (List Char × Cursor) :=
  if c ∈ cur.rest then
    some (cur.rest.takeWhile (· ≠ c), cur.drop ((cur.rest.takeWhile (· ≠ c)).length + 1))
  else none

/-- Reading on from `cur` leads to `cur'`. -/
def Reaches (cur cur' : Cursor) : Prop :=
  ∃ n, cur' = cur.drop n

/-- Reading on from `cur` by at least one character leads to `cur'`. -/
def Passes (cur cur' : Cursor) : Prop :=
  ∃ c mid, cur.next? = some (c, mid) ∧ mid.Reaches cur'

theorem drop_drop (m n : Nat) (cur : Cursor) : (cur.drop m).drop n = cur.drop (m + n) := by
  simp [drop, List.take_add, Nat.add_assoc]

theorem next?_eq_some {cur mid : Cursor} {c : Char} (h : cur.next? = some (c, mid)) :
    mid = cur.drop 1 ∧ cur.rest = c :: mid.rest := by
  unfold next? at h
  split at h
  · cases h
  · next c' rest hrest =>
    cases h
    exact ⟨by simp [drop, hrest], hrest⟩

@[refl] theorem Reaches.refl (cur : Cursor) : cur.Reaches cur :=
  ⟨0, by simp [drop]⟩

theorem Reaches.trans {a b c : Cursor} (hab : a.Reaches b) (hbc : b.Reaches c) : a.Reaches c := by
  obtain ⟨m, rfl⟩ := hab
  obtain ⟨n, rfl⟩ := hbc
  exact ⟨m + n, drop_drop m n a⟩

theorem reaches_drop (n : Nat) (cur : Cursor) : cur.Reaches (cur.drop n) :=
  ⟨n, rfl⟩

theorem reaches_next {cur mid : Cursor} {c : Char} (h : cur.next? = some (c, mid)) :
    cur.Reaches mid :=
  ⟨1, (next?_eq_some h).1⟩

theorem reaches_until {cur cur' : Cursor} {c : Char} {cs : List Char}
    (h : cur.until? c = some (cs, cur')) : cur.Reaches cur' := by
  unfold until? at h
  split at h
  · cases h
    exact reaches_drop _ _
  · cases h

theorem Passes.reaches {a b : Cursor} (h : a.Passes b) : a.Reaches b := by
  obtain ⟨c, mid, hnext, hreach⟩ := h
  exact (reaches_next hnext).trans hreach

theorem Passes.trans {a b c : Cursor} (hab : a.Passes b) (hbc : b.Reaches c) : a.Passes c := by
  obtain ⟨x, mid, hnext, hreach⟩ := hab
  exact ⟨x, mid, hnext, hreach.trans hbc⟩

theorem passes_next {cur mid : Cursor} {c : Char} (h : cur.next? = some (c, mid)) :
    cur.Passes mid :=
  ⟨c, mid, h, .refl mid⟩

theorem Reaches.length_le {a b : Cursor} (h : a.Reaches b) : b.rest.length ≤ a.rest.length := by
  obtain ⟨n, rfl⟩ := h
  simp [drop]

/-- Reading on leaves less to read, which is why reading ends. -/
theorem Passes.length_lt {a b : Cursor} (h : a.Passes b) : b.rest.length < a.rest.length := by
  obtain ⟨c, mid, hnext, hreach⟩ := h
  have := hreach.length_le
  rw [(next?_eq_some hnext).2, List.length_cons]
  omega

end Cursor
end LinearRegex
