import LinearRegex.Search.Backtrack
import LinearRegex.Search.Literal
import LinearRegex.Search.Lockstep
import LinearRegex.Search.OnePass

/-!
# Choosing an engine

Four engines find the same matches at different costs.  The engine of a search is chosen by the
program, by the number of bytes to search, and by whether the start of the match is fixed.
-/

namespace LinearRegex

inductive Engine where
  | literal
  | onePass
  | backtrack
  | lockstep
deriving DecidableEq

/-- What the choice of an engine needs to know of a program. -/
structure Metrics where
  /-- The number of instructions. -/
  size : Nat
  onePass : Bool
  /-- The program amounts to a literal. -/
  literal : Bool
deriving DecidableEq

def Program.metrics (p : Program) : Metrics where
  size := p.size
  onePass := p.onePass?.isSome
  literal := p.literal?.isSome

/-- The cheapest engine for a search in `length` bytes. -/
def Engine.select (m : Metrics) (length : Nat) (anchored : Bool) : Engine :=
  if m.literal then literal
  else if m.onePass && anchored then onePass
  else if Backtrack.fits m.size length then backtrack
  else lockstep

/-- What searches leave for those that follow them. -/
structure Cache where
  scratch : Lockstep.Scratch := {}

/-- The steps of the last search in lockstep. -/
def Cache.steps (c : Cache) : Nat :=
  c.scratch.steps

/-- The answer of a search, and the cache it leaves. -/
abbrev Cached (α : Type) := StateM Cache α

namespace Search

/-- The first match, found in lockstep. -/
def inLockstep (p : Program) (input : Input) : Cached (Option Captures) := fun cache =>
  let (captures?, scratch) := lockstep p input cache.scratch
  (captures?, { cache with scratch })

/-- The first match, found by the given engine, or in lockstep if the engine cannot do it. -/
def withEngine (e : Engine) (p : Program) (input : Input) : Cached (Option Captures) :=
  match e with
  | .literal =>
    match p.literal? with
    | some lit => pure (literal lit p.slotCount input)
    | none => inLockstep p input
  | .onePass =>
    match p.onePass? with
    | some t =>
      if input.anchoredFor p then pure (onePass t p input) else inLockstep p input
    | none => inLockstep p input
  | .backtrack =>
    match backtrack p input with
    | .ok captures? => pure captures?
    | .error _ => inLockstep p input
  | .lockstep => inLockstep p input

/-- A byte that can come first in a match stands where one is needed. -/
def hasFirstByte (p : Program) (input : Input) : Bool :=
  p.firstBytes?.all fun bytes =>
    if input.anchoredFor p then bytes.containsAt input.haystack input.start
    else (bytes.find? input.haystack input.start).isSome

/-- The engine that a search would choose; `none` if it starts past the end. -/
def engine? (p : Program) (input : Input) : Option Engine :=
  if input.haystack.size < input.start then none
  else some (Engine.select p.metrics input.length (input.anchoredFor p))

/-- The first match, found by the cheapest engine, or by none if there can be no match. -/
def search (p : Program) (input : Input) : Cached (Option Captures) :=
  match engine? p input with
  | none => pure none
  | some e =>
    if p.anchored && 0 < input.start then pure none
    else if hasFirstByte p input then withEngine e p input
    else pure none

end Search
end LinearRegex
