import LinearRegex.Search.Engine
import LinearRegex.Storage.Lockstep

/-!
# Storage for searches

What searches work with is kept in storage, which any number of searches with any programs may use
one after the other.  Nothing that a search leaves there shows in the answer of another; of the
steps that it counts, only the last search in lockstep can be told.
-/

namespace LinearRegex

/-- What all engines keep from one search to the next. -/
structure Storage where
  machine : Storage.Machine := {}
  backtracker : Backtrack.Memory := {}

/-- The answer of a search, and the storage as it is left. -/
abbrev Stored (α : Type) := StateM Storage α

namespace Storage

/-- The steps of the last search in lockstep. -/
def steps (s : Storage) : Nat :=
  s.machine.walk.steps

/-- The first match, found in lockstep. -/
def inLockstep (p : Program) (input : Input) : Stored (Option Captures) := fun s =>
  let (captures?, machine) := lockstep p input s.machine
  (captures?, { s with machine })

/-- The first match, found by the given engine, or in lockstep if the engine cannot do it. -/
def withEngine (e : Engine) (p : Program) (input : Input) : Stored (Option Captures) :=
  match e with
  | .literal =>
    match p.literal? with
    | some lit => pure (Search.literal lit p.slotCount input)
    | none => inLockstep p input
  | .onePass =>
    match p.onePass? with
    | some t =>
      if input.anchoredFor p then pure (Search.onePass t p input) else inLockstep p input
    | none => inLockstep p input
  | .backtrack => fun s =>
    match Backtrack.search p input s.backtracker with
    | (.ok captures?, backtracker) => (captures?, { s with backtracker })
    | (.error _, backtracker) => inLockstep p input { s with backtracker }
  | .lockstep => inLockstep p input

/-- The first match, found by the cheapest engine, or by none if there can be no match. -/
def search (p : Program) (input : Input) : Stored (Option Captures) :=
  match Search.engine? p input with
  | none => pure none
  | some e =>
    if p.anchored && 0 < input.start then pure none
    else if Search.hasFirstByte p input then withEngine e p input
    else pure none

/-- Storage that nothing has been done with. -/
def reset : Stored Unit :=
  set ({} : Storage)

end Storage
end LinearRegex
