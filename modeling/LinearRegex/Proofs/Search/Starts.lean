import LinearRegex.Proofs.Search.Reference

/-!
# Where a search may begin

A search that is not bound to its start tries the positions from there on where a character may
begin.  What it finds at one of them does not depend on where it began (`matchesAt_congr_start`),
so two searches with the same positions before them find the same (`best?_congr_start`).
-/

namespace LinearRegex

/-- From `start` and from `start'` on there are the same positions where a character may begin. -/
def Utf8.SameBoundaries (h : ByteArray) (start start' : Nat) : Prop :=
  ∀ pos ≤ h.size, isBoundary h pos → (start ≤ pos ↔ start' ≤ pos)

namespace Search

variable {p : Program} {input : Input} {start start' pos : Nat}

theorem admits_of_sameBoundaries (hfree : input.anchoredStart = false)
    (hsame : Utf8.SameBoundaries input.haystack start start')
    (hpos : Input.Admits { input with start } pos) :
    Input.Admits { input with start := start' } pos where
  le := (hsame pos hpos.le_size hpos.isBoundary).mp hpos.le
  le_size := hpos.le_size
  eq hanchored := absurd (hfree.symm.trans hanchored) Bool.false_ne_true
  isBoundary := hpos.isBoundary

/-- The matches from a position do not depend on where the search begins. -/
theorem matchesAt_congr_start (input : Input) (hstart : start ≤ pos) (hstart' : start' ≤ pos) :
    matchesAt p { input with start } pos = matchesAt p { input with start := start' } pos := by
  have hagree : ∀ j pos', pos ≤ pos' →
      ((j, pos') ∈ p.nodes { input with start } ↔
        (j, pos') ∈ p.nodes { input with start := start' }) := by
    intro j pos' hpos
    have hle : start ≤ pos' := hstart.trans hpos
    have hle' : start' ≤ pos' := hstart'.trans hpos
    rw [Program.mem_nodes, Program.mem_nodes]
    exact ⟨fun ⟨hj, _, hsize⟩ => ⟨hj, hle', hsize⟩, fun ⟨hj, _, hsize⟩ => ⟨hj, hle, hsize⟩⟩
  have htrails := Program.trails_congr_of_le (p := p) (h := input.haystack) (i := 0)
    (Slots.blank (input.slotsFor p)) hagree
  exact congrArg (fun as => (as.filter fun a => p.accepts input a.1).map (·.2)) htrails

theorem best?_eq_some_of_sameBoundaries (hs : p.Summarized) (hfree : input.anchoredStart = false)
    (hsame : Utf8.SameBoundaries input.haystack start start') {m : Slots}
    (hm : best? p { input with start } start = some m) :
    best? p { input with start := start' } start' = some m := by
  -- Wherever one search may find a match, so may the other, and it finds the same there.
  have hadmits : ∀ pos, Input.Admits { input with start } pos ↔
      Input.Admits { input with start := start' } pos := fun pos =>
    ⟨admits_of_sameBoundaries hfree hsame,
      admits_of_sameBoundaries hfree fun q hq hb => (hsame q hq hb).symm⟩
  have hmatches : ∀ pos, Input.Admits { input with start } pos →
      matchesAt p { input with start := start' } pos = matchesAt p { input with start } pos :=
    fun pos hpos => matchesAt_congr_start input ((hadmits pos).mp hpos).le hpos.le
  have hfound : best? p { input with start } (Input.start { input with start }) = some m := hm
  obtain ⟨pos, hpos, hkept, hbefore⟩ := (best?_start_eq_some_iff hs).mp hfound
  have hgoal : best? p { input with start := start' }
      (Input.start { input with start := start' }) = some m := by
    refine (best?_start_eq_some_iff hs).mpr
      ⟨pos, (hadmits pos).mp hpos, ?_, fun pos' hlt hpos' => ?_⟩
    · rw [hmatches pos hpos]
      exact hkept
    · have hpos' := (hadmits pos').mpr hpos'
      rw [hmatches pos' hpos']
      exact hbefore pos' hlt hpos'
  exact hgoal

/-- Searches find the same if the same starts are before them. -/
theorem best?_congr_start (hs : p.Summarized) (input : Input) (hfree : input.anchoredStart = false)
    (hsame : Utf8.SameBoundaries input.haystack start start') :
    best? p { input with start } start = best? p { input with start := start' } start' := by
  refine Option.ext fun m => ⟨best?_eq_some_of_sameBoundaries hs hfree hsame, ?_⟩
  exact best?_eq_some_of_sameBoundaries hs hfree fun pos hpos hb => (hsame pos hpos hb).symm

end Search
end LinearRegex
