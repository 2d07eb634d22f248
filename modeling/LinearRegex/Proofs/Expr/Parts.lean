import LinearRegex.Program.ByteExpr
import LinearRegex.Proofs.CharSet.Order
import LinearRegex.Proofs.Expr.WellFormed

/-!
# What expressions over bytes take from their parts

Sequences, alternations and repetitions are put together from a few forms.  A property that each
of these forms takes from its parts (`ByteExpr.IsInherited`) is one that sequences, alternations and
repetitions take from theirs.  If it also holds of what has no parts, and passes through groups and
loops (`ByteExpr.IsPervasive`), it holds of what every expression of a pattern becomes
(`Expr.forall_bytewise`).
-/

namespace LinearRegex
namespace ByteExpr

/-- The forms without a loop take the property from their parts. -/
structure IsInherited (P : ByteExpr → Prop) : Prop where
  fail : P .fail
  empty : P .empty
  seq : ∀ {first second : ByteExpr}, P first → P second → P (.seq first second)
  choice : ∀ {first second : ByteExpr}, P first → P second → P (.choice first second)
  times : ∀ {more : Nat} {body : ByteExpr}, P body → P (.times more body)
  atMost : ∀ {more : Nat} {greedy : Bool} {body : ByteExpr}, P body → P (.atMost more greedy body)

/-- The property holds of text, of characters and of assertions, and all other forms take it from
their parts. -/
structure IsPervasive (P : ByteExpr → Prop) : Prop extends IsInherited P where
  bytes : ∀ chars, P (.bytes (Utf8.encodeAll chars))
  char : ∀ {s : CharSet}, s.IsAscending → s.ranges ≠ [] → P (.char (ByteTrie.ofSet s))
  look : ∀ l, P (.look l)
  capture : ∀ {index : Nat} {body : ByteExpr}, 0 < index → P body → P (.capture index body)
  star : ∀ {greedy : Bool} {body : ByteExpr}, P body → P (.star greedy body)
  plus : ∀ {greedy : Bool} {body : ByteExpr}, P body → P (.plus greedy body)

namespace IsInherited

variable {P : ByteExpr → Prop} (hP : IsInherited P) {es : List ByteExpr} {e body : ByteExpr}

include hP

theorem ofSet {s : CharSet} (hchar : s.ranges ≠ [] → P (.char (ByteTrie.ofSet s))) :
    P (.ofSet s) := by
  unfold ByteExpr.ofSet
  split
  · exact hP.fail
  · next hne => exact hchar (mt List.isEmpty_iff.mpr hne)

theorem sequence (hes : ∀ e ∈ es, P e) : P (.sequence es) := by
  induction es with
  | nil => exact hP.empty
  | cons e es ih =>
    obtain ⟨he, hes⟩ := List.forall_mem_cons.mp hes
    cases es with
    | nil => exact he
    | cons e' es => exact hP.seq he (ih hes)

theorem alternatives (hes : ∀ e ∈ es, P e) : P (.alternatives es) := by
  induction es with
  | nil => exact hP.empty
  | cons e es ih =>
    obtain ⟨he, hes⟩ := List.forall_mem_cons.mp hes
    cases es with
    | nil => exact he
    | cons e' es => exact hP.choice he (ih hes)

theorem of_mem_exactly {n : Nat} (hbody : P body) (he : e ∈ exactly n body) : P e := by
  cases n with
  | zero => cases he
  | succ n =>
    obtain rfl := List.mem_singleton.mp he
    exact hP.times hbody

theorem of_mem_optional {n : Nat} {greedy : Bool} (hbody : P body)
    (he : e ∈ optional n greedy body) : P e := by
  cases n with
  | zero => cases he
  | succ n =>
    obtain rfl := List.mem_singleton.mp he
    exact hP.atMost hbody

/-- Only a repetition without an upper bound is put together with a loop. -/
theorem repeated {min : Nat} {max : Option Nat} {greedy : Bool} (hbody : P body)
    (hloop : max = none → P (.star greedy body) ∧ P (.plus greedy body)) :
    P (.repeated min max greedy body) := by
  unfold ByteExpr.repeated
  split
  · exact (hloop rfl).1
  · refine hP.sequence (List.forall_mem_append.mpr ⟨?_, ?_⟩)
    · exact fun e => hP.of_mem_exactly hbody
    · exact List.forall_mem_singleton.mpr (hloop rfl).2
  · refine hP.sequence (List.forall_mem_append.mpr ⟨?_, ?_⟩)
    · exact fun e => hP.of_mem_exactly hbody
    · exact fun e => hP.of_mem_optional hbody

end IsInherited
end ByteExpr

namespace Expr

mutual

/-- A pervasive property holds of what every expression of a pattern becomes. -/
theorem forall_bytewise {P : ByteExpr → Prop} (hP : ByteExpr.IsPervasive P) :
    ∀ {e : Expr}, e.WellFormed → P e.bytewise
  | empty, _ => hP.empty
  | literal chars false, _ => hP.bytes chars
  | literal chars true, _ => by
    refine hP.sequence fun e he => ?_
    obtain ⟨c, -, rfl⟩ := List.mem_map.mp he
    exact hP.ofSet (hP.char (CharSet.isAscending_caseOrbit c))
  | charClass c, _ => hP.ofSet (hP.char (CharSet.isAscending_toSet c))
  | look l, _ => hP.look l
  | repetition _ _ _ _, he =>
    have hbody := forall_bytewise hP he.2
    hP.repeated hbody fun _ => ⟨hP.star hbody, hP.plus hbody⟩
  | capture _ _ _, he => hP.capture he.1 (forall_bytewise hP he.2)
  | concat _, he => hP.sequence (forall_mem_bytewiseAll hP he)
  | alternation _, he => hP.alternatives (forall_mem_bytewiseAll hP he.2)

theorem forall_mem_bytewiseAll {P : ByteExpr → Prop} (hP : ByteExpr.IsPervasive P) :
    ∀ {es : List Expr}, WellFormedAll es → ∀ e ∈ bytewiseAll es, P e
  | [], _ => List.forall_mem_nil _
  | _ :: _, he =>
    List.forall_mem_cons.mpr ⟨forall_bytewise hP he.1, forall_mem_bytewiseAll hP he.2⟩

end

end Expr
end LinearRegex
