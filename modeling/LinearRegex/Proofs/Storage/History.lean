import LinearRegex.Proofs.Search.Engine
import LinearRegex.Proofs.Storage.Lockstep
import LinearRegex.Storage.Basic

/-!
# Searches after other searches

Storage that any searches have been made with, and that has been reset any number of times, mirrors
the cache after the same history (`Storage.mirrors_after`): no thread and no task is left in it, and
it tells the same steps.  A cache, in turn, does not show in what a search answers, nor in the steps
that a search in lockstep takes (`Search.IsFresh`).  So every search with storage is as if it were
the first one (`Storage.query_after`).
-/

namespace LinearRegex

/-- A search by the engine that is chosen for it, or by the given one. -/
inductive Query where
  | chosen (p : Program) (input : Input)
  | forced (e : Engine) (p : Program) (input : Input)

/-- What can be done with storage: to search with it, or to release what it holds. -/
inductive Operation where
  | query (q : Query)
  | reset

/-- The engine cannot do the search, or is the one in lockstep. -/
def Engine.defers (e : Engine) (p : Program) (input : Input) : Bool :=
  match e with
  | literal => p.literal?.isNone
  | onePass => p.onePass?.isNone || !input.anchoredFor p
  | backtrack => !Backtrack.fits p.size input.length
  | lockstep => true

namespace Query

def inStorage : Query → Stored (Option Captures)
  | chosen p input => Storage.search p input
  | forced e p input => Storage.withEngine e p input

def inCache : Query → Cached (Option Captures)
  | chosen p input => Search.search p input
  | forced e p input => Search.withEngine e p input

/-- The search is made in lockstep, and does not start past the end. -/
def isInLockstep : Query → Bool
  | chosen p input =>
    (Search.engine? p input).any (·.defers p input) && !(p.anchored && 0 < input.start) &&
      Search.hasFirstByte p input
  | forced e p input => e.defers p input && input.start ≤ input.haystack.size

end Query

namespace Operation

def onStorage (s : Storage) : Operation → Storage
  | query q => (q.inStorage s).2
  | reset => (Storage.reset s).2

def onCache (c : Cache) : Operation → Cache
  | query q => (q.inCache c).2
  | reset => {}

end Operation

/-- Storage after the given operations. -/
def Storage.after (history : List Operation) : Storage :=
  history.foldl Operation.onStorage {}

/-- A cache after the given operations. -/
def Cache.after (history : List Operation) : Cache :=
  history.foldl Operation.onCache {}

variable {p : Program} {input : Input} {c : Cache} {s : Storage}

/-! ## A cache and a new one -/

namespace Search

/-- The search with a cache has the answer that it has with a new one, and the steps as well if it
counts them. -/
structure IsFresh (counted : Bool) (search : Cached (Option Captures)) (c : Cache) : Prop where
  answer : (search c).1 = (search {}).1
  steps : (search c).2.steps = if counted then (search {}).2.steps else c.steps

theorem isFresh_pure (captures? : Option Captures) (c : Cache) :
    IsFresh false (pure captures?) c :=
  ⟨rfl, rfl⟩

/-- The lists of a cache are as good as new ones for a search in lockstep. -/
theorem isFresh_inLockstep (h : c.scratch.IsMarked) (p : Program) (input : Input) :
    IsFresh (input.start ≤ input.haystack.size) (inLockstep p input) c := by
  by_cases hle : input.start ≤ input.haystack.size
  · have hsame : (inLockstep p input c) = (inLockstep p input {}) := by
      simp only [inLockstep, lockstep, if_neg (Nat.not_lt.mpr hle), h.begin_eq]
    refine ⟨congrArg Prod.fst hsame, ?_⟩
    rw [hsame, decide_eq_true hle]
    rfl
  · rw [decide_eq_false hle]
    have hlt : input.haystack.size < input.start := Nat.lt_of_not_le hle
    constructor
    · simp only [inLockstep, lockstep, if_pos hlt]
    · simp only [inLockstep, lockstep, if_pos hlt]
      rfl

theorem isFresh_withEngine (h : c.scratch.IsMarked) (e : Engine) (p : Program) (input : Input) :
    IsFresh (e.defers p input && input.start ≤ input.haystack.size) (withEngine e p input) c := by
  have hlockstep := isFresh_inLockstep h p input
  cases e with
  | literal =>
    simp only [withEngine, Engine.defers]
    cases p.literal? with
    | none => exact hlockstep
    | some lit => exact isFresh_pure _ c
  | onePass =>
    simp only [withEngine, Engine.defers]
    cases p.onePass? with
    | none => exact hlockstep
    | some t =>
      cases hanchored : input.anchoredFor p with
      | false => exact hlockstep
      | true => exact isFresh_pure _ c
  | backtrack =>
    simp only [withEngine, Engine.defers, backtrack, Backtrack.search]
    by_cases hlt : input.haystack.size < input.start
    · rw [if_pos hlt, decide_eq_false (Nat.not_le.mpr hlt), Bool.and_false]
      exact isFresh_pure _ c
    · rw [if_neg hlt]
      cases hfits : Backtrack.fits p.size input.length with
      | false => exact hlockstep
      | true => exact isFresh_pure _ c
  | lockstep => exact hlockstep

theorem isFresh_search (h : c.scratch.IsMarked) (p : Program) (input : Input) :
    IsFresh (Query.chosen p input).isInLockstep (search p input) c := by
  rw [search, Query.isInLockstep]
  cases hengine : engine? p input with
  | none => exact isFresh_pure none c
  | some e =>
    have hle : input.start ≤ input.haystack.size := by
      unfold engine? at hengine
      split at hengine
      · cases hengine
      · next hle => exact Nat.le_of_not_lt hle
    dsimp only [Option.any_some]
    split
    · next hanchored =>
      rw [hanchored, Bool.not_true, Bool.and_false, Bool.false_and]
      exact isFresh_pure none c
    · split
      · next hanchored hfirst =>
        have hfresh := isFresh_withEngine h e p input
        rw [decide_eq_true hle, Bool.and_true] at hfresh
        rw [Bool.eq_false_of_not_eq_true hanchored, hfirst, Bool.not_false, Bool.and_true,
          Bool.and_true]
        exact hfresh
      · next hfirst =>
        rw [Bool.eq_false_of_not_eq_true hfirst, Bool.and_false]
        exact isFresh_pure none c

end Search

/-! ## Storage and cache -/

namespace Storage

/-- No thread is left in the storage and no task, and it tells as many steps as the cache. -/
structure Mirrors (c : Cache) (s : Storage) : Prop where
  marked : c.scratch.IsMarked
  machine : s.machine.IsTidy
  tasks : s.backtracker.tasks = []
  steps : s.steps = c.steps

theorem mirrors_empty : Mirrors {} {} where
  marked := ⟨Lockstep.ThreadSet.isMarked_blank 0, Lockstep.ThreadSet.isMarked_blank 0⟩
  machine := Machine.isTidy_empty
  tasks := rfl
  steps := rfl

/-- A search in storage has the answer of one with a cache, and leaves storage as that leaves the
cache. -/
structure Agrees (r : Option Captures × Cache) (r' : Option Captures × Storage) : Prop where
  answer : r'.1 = r.1
  mirrors : r'.2.Mirrors r.2

theorem Mirrors.inLockstep (h : s.Mirrors c) (p : Program) (input : Input) :
    Agrees (Search.inLockstep p input c) (inLockstep p input s) := by
  obtain ⟨hanswer, htidy, hsteps⟩ := h.machine.lockstep p input
  have hfresh := Search.isFresh_inLockstep h.marked p input
  refine ⟨hanswer.trans hfresh.answer.symm, ?_, htidy, h.tasks, ?_⟩
  · exact Search.isMarked_lockstep h.marked p input
  · rw [hfresh.steps, ← h.steps]
    simp only [decide_eq_true_eq]
    exact hsteps

theorem Mirrors.withEngine (h : s.Mirrors c) (e : Engine) (p : Program) (input : Input) :
    Agrees (Search.withEngine e p input c) (withEngine e p input s) := by
  cases e with
  | literal =>
    simp only [Search.withEngine, Storage.withEngine]
    cases p.literal? with
    | none => exact h.inLockstep p input
    | some lit => exact ⟨rfl, h⟩
  | onePass =>
    simp only [Search.withEngine, Storage.withEngine]
    cases p.onePass? with
    | none => exact h.inLockstep p input
    | some t =>
      dsimp only
      split
      · exact ⟨rfl, h⟩
      · exact h.inLockstep p input
  | backtrack =>
    have hanswer := Backtrack.fst_search_eq p input h.tasks
    have hleft : Mirrors c { s with backtracker := (Backtrack.search p input s.backtracker).2 } :=
      ⟨h.marked, h.machine, Backtrack.tasks_search p input h.tasks, h.steps⟩
    simp only [Search.withEngine, Storage.withEngine, ← hanswer]
    cases hfound : Backtrack.search p input s.backtracker with
    | mk found b =>
      rw [hfound] at hleft
      cases found with
      | ok captures? => exact ⟨rfl, hleft⟩
      | error e => exact hleft.inLockstep p input
  | lockstep => exact h.inLockstep p input

theorem Mirrors.search (h : s.Mirrors c) (p : Program) (input : Input) :
    Agrees (Search.search p input c) (search p input s) := by
  rw [Search.search, Storage.search]
  cases Search.engine? p input with
  | none => exact ⟨rfl, h⟩
  | some e =>
    dsimp only
    split
    · exact ⟨rfl, h⟩
    · split
      · exact h.withEngine e p input
      · exact ⟨rfl, h⟩

end Storage

theorem Query.agrees (h : s.Mirrors c) (q : Query) : Storage.Agrees (q.inCache c) (q.inStorage s) :=
  match q with
  | chosen p input => h.search p input
  | forced e p input => h.withEngine e p input

theorem Operation.mirrors (h : s.Mirrors c) (op : Operation) :
    (op.onStorage s).Mirrors (op.onCache c) :=
  match op with
  | query q => (q.agrees h).mirrors
  | reset => Storage.mirrors_empty

/-- Storage and cache mirror each other after the same operations. -/
theorem Storage.mirrors_after (history : List Operation) :
    (Storage.after history).Mirrors (Cache.after history) := by
  have hrun : ∀ {s : Storage} {c : Cache}, s.Mirrors c →
      (history.foldl Operation.onStorage s).Mirrors (history.foldl Operation.onCache c) := by
    induction history with
    | nil => exact fun h => h
    | cons op history ih => exact fun h => ih (op.mirrors h)
  exact hrun mirrors_empty

theorem Query.isFresh (h : c.scratch.IsMarked) (q : Query) :
    Search.IsFresh q.isInLockstep q.inCache c :=
  match q with
  | chosen p input => Search.isFresh_search h p input
  | forced e p input => Search.isFresh_withEngine h e p input

/-- What was searched for before shows neither in the answer of a search nor, if it is made in
lockstep, in its steps; otherwise it leaves the steps as they were.  Storage and the cache, which
holds no slots, agree on both. -/
theorem Storage.query_after (history : List Operation) (q : Query) :
    (q.inStorage (Storage.after history)).1 = (q.inStorage {}).1 ∧
      (q.inStorage (Storage.after history)).2.steps =
        (if q.isInLockstep then (q.inStorage {}).2.steps else (Storage.after history).steps) ∧
      (q.inCache (Cache.after history)).1 = (q.inStorage {}).1 ∧
      (q.inCache (Cache.after history)).2.steps =
        (q.inStorage (Storage.after history)).2.steps := by
  have hmirrors := Storage.mirrors_after history
  have hold := q.agrees hmirrors
  have hnew := q.agrees Storage.mirrors_empty
  have hfresh := q.isFresh hmirrors.marked
  refine ⟨?_, ?_, ?_, hold.mirrors.steps.symm⟩
  · rw [hold.answer, hfresh.answer, hnew.answer]
  · rw [hold.mirrors.steps, hfresh.steps, hnew.mirrors.steps, hmirrors.steps]
  · rw [hfresh.answer, hnew.answer]

end LinearRegex
