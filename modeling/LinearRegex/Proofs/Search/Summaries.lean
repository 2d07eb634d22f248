import LinearRegex.Proofs.Program.WellFormed
import LinearRegex.Proofs.Search.Literal

/-!
# What the summaries are worth

Searching skips every start that the summaries of a program exclude, and looks a literal up instead
of running the program.  That loses no match: what the summaries say holds of every run of the
program on every haystack, and a program that amounts to a literal runs just where the literal
stands (`Program.summariesHold_of_compile`).
-/

namespace LinearRegex

open LiteralPrefix (bytesAt)

/-- The bytes of the haystack from `start` to `stop` are the given ones. -/
def IsStretch (h : ByteArray) (bytes : List UInt8) (start stop : Nat) : Prop :=
  start ≤ stop ∧ stop ≤ h.size ∧ h.extract start stop = bytes.toByteArray

theorem isStretch_iff_bytesAt {h : ByteArray} {bytes : List UInt8} {start stop : Nat} :
    IsStretch h bytes start stop ↔ bytesAt h start bytes ∧ start + bytes.length = stop := by
  constructor
  · rintro ⟨hle, hstop, hbytes⟩
    have hsize := congrArg ByteArray.size hbytes
    rw [ByteArray.size_extract, List.size_toByteArray, Nat.min_eq_left hstop] at hsize
    have hstart : start ≤ h.size := Nat.le_trans hle hstop
    rw [← spells_iff_bytesAt hstart, spells_iff_extract hstart]
    exact ⟨by omega, hstop, hbytes⟩
  · rintro ⟨hat, rfl⟩
    have hstop := LiteralPrefix.le_size_of_bytesAt hat
    have hstart : start ≤ h.size := Nat.le_of_add_right_le hstop
    have hspells := (spells_iff_bytesAt hstart).mpr ⟨hat, rfl⟩
    obtain ⟨-, -, hbytes⟩ := (spells_iff_extract hstart).mp hspells
    exact ⟨Nat.le_add_right _ _, hstop, hbytes⟩

namespace Program

/-- A run of the program leads from the first instruction at `start` to a match at `stop`. -/
def HasRun (p : Program) (h : ByteArray) (start stop : Nat) : Prop :=
  start ≤ h.size ∧ ∃ i, p.Reaches h (0, start) (i, stop) ∧ p.instrs[i]? = some .accept

/-- What the summaries of a program say holds of its runs. -/
structure SummariesHold (p : Program) : Prop where
  literalPrefix : ∀ lit : LiteralPrefix, p.literalPrefix? = some lit → ∀ h start stop,
    p.HasRun h start stop → IsStretch h lit.bytes start (start + lit.bytes.length)
  firstBytes : ∀ bytes : ByteSet, p.firstBytes? = some bytes → ∀ h start stop,
    p.HasRun h start stop → start < stop ∧ ∃ b, h[start]? = some b ∧ bytes.contains b
  anchored : p.anchored → ∀ h start stop, p.HasRun h start stop → start = 0
  /-- A program that amounts to a literal has no groups. -/
  literal : ∀ lit : LiteralPrefix, p.literal? = some lit →
    (∀ h start stop, p.HasRun h start stop ↔ IsStretch h lit.bytes start stop) ∧
      p.slotCount = 2 ∧ ∀ i slot next : Nat, p.instrs[i]? = some (.save slot next) → slot < 2

variable {p : Program} {h : ByteArray} {start stop : Nat} {lit : LiteralPrefix}

/-- A run is as the only path from the start shows. -/
theorem HasRun.agrees (hrun : p.HasRun h start stop) :
    (Summary.lead p.instrs).Agrees h start stop := by
  obtain ⟨hstart, i, hreach, hat⟩ := hrun
  exact lead_agrees hstart hat hreach

theorem HasRun.isStretch (hs : p.Summarized) (hlit : p.literalPrefix? = some lit)
    (hrun : p.HasRun h start stop) :
    IsStretch h lit.bytes start (start + lit.bytes.length) := by
  rw [isStretch_iff_bytesAt]
  refine ⟨?_, rfl⟩
  rw [hs.literal, Summary.Lead.literal?] at hlit
  split at hlit
  · cases hlit
  · obtain rfl := Option.some.inj hlit
    exact hrun.agrees.bytes

theorem HasRun.exists_firstByte (hs : p.Summarized) {bytes : ByteSet}
    (hbytes : p.firstBytes? = some bytes) (hrun : p.HasRun h start stop) :
    start < stop ∧ ∃ b, h[start]? = some b ∧ bytes.contains b := by
  obtain ⟨-, i, hreach, hat⟩ := hrun
  exact Summary.exists_firstByte (hs.firstBytes ▸ hbytes) hat hreach

/-- A program that amounts to a literal runs just where the literal stands. -/
theorem hasRun_iff_isStretch (hamounts : Search.AmountsTo p lit) :
    p.HasRun h start stop ↔ IsStretch h lit.bytes start stop := by
  rw [isStretch_iff_bytesAt]
  constructor
  · intro hrun
    have hagrees := hrun.agrees
    have hbytes := hagrees.bytes
    have hstop := hagrees.ends hamounts.ends
    rw [← Array.length_toList, hamounts.bytes] at hstop
    rw [hamounts.bytes] at hbytes
    exact ⟨hbytes, hstop.symm⟩
  · rintro ⟨hat, rfl⟩
    have hstop := LiteralPrefix.le_size_of_bytesAt hat
    let input : Input := { haystack := h }
    have hat' : lit.isAt input.haystack start := hat
    obtain ⟨i, hreach, hi⟩ := Search.exists_reaches_of_isAt hamounts hat'
    exact ⟨Nat.le_of_add_right_le hstop, i, hreach, hi⟩

/-- What the summaries of a compiled program say holds of all its runs. -/
theorem summariesHold_of_compile {longest : Bool} {limit : Nat} {e : Expr}
    (hp : compile longest limit e = .ok p) : p.SummariesHold := by
  obtain rfl := eq_ofExpr_of_compile hp
  have hs := summarized_ofExpr longest e
  constructor
  case literalPrefix =>
    intro lit hlit h start stop hrun
    exact hrun.isStretch hs hlit
  case firstBytes =>
    intro bytes hbytes h start stop hrun
    exact hrun.exists_firstByte hs hbytes
  case anchored =>
    intro hanchored h start stop hrun
    exact hrun.agrees.anchored (hs.anchored ▸ hanchored)
  case literal =>
    intro lit hlit
    have hamounts := Search.amountsTo_of_literal? hs hlit
    refine ⟨fun h start stop => hasRun_iff_isStretch hamounts, hamounts.slotCount, ?_⟩
    intro i slot next hi
    exact hamounts.slotCount ▸ slot_lt hi

/-- The program of one character amounts to its encoding. -/
theorem summariesHold_accented :
    ∃ p, compile false 100 (.literal ['é'] false) = .ok p ∧
      p.literal? = some ⟨[0xC3, 0xA9], true⟩ ∧ p.SummariesHold := by
  have hcompile : compile false 100 (.literal ['é'] false) =
      .ok (ofExpr false (.literal ['é'] false)) := by
    rw [compile_eq]
    exact if_pos (by decide)
  exact ⟨_, hcompile, rfl, summariesHold_of_compile hcompile⟩

end Program
end LinearRegex
