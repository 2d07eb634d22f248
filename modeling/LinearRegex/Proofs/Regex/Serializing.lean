import LinearRegex.Proofs.Regex.Limits
import LinearRegex.Regex.Serialized

/-!
# Regular expressions that are written and read

What is written of a regular expression is enough to build it anew, but not under which limits it
was built: it is read under the limits that apply to everyone.  So it comes back as it was unless
its program is too large for these or its pattern nests too deeply, and otherwise that is the error
(`Regex.toRegex_serialized`).
-/

namespace LinearRegex

/-- The bits of flags say which they are. -/
theorem Flags.ofBits?_bits (f : Flags) : ofBits? f.bits = some f := by
  obtain ⟨ignoreCase, dotAll, multiLine, noUnicodeClasses, longest, unicodeWordBoundary⟩ := f
  revert ignoreCase dotAll multiLine noUnicodeClasses longest unicodeWordBoundary
  decide

namespace Expr

/-- The expression of a group repeated so often that its program is larger than usual. -/
def largeGroup : Expr :=
  .repetition 101 (some 101) true
    (.capture 1 none (.repetition 1000 (some 1000) true (.literal ['a'] false)))

theorem parse_largeGroup :
    parse (ParserOptions.ofFlags {} defaultNestLimit) "(a\x7b1000\x7d)\x7b101\x7d" =
      .ok largeGroup := by
  have hrun : (Parser.State.initial {} "(a\x7b1000\x7d)\x7b101\x7d".toList).run
      (ParserOptions.ofFlags {} defaultNestLimit) = .ok largeGroup :=
    (Parser.State.run_of_next rfl).trans <| (Parser.State.run_of_next rfl).trans <|
      (Parser.State.run_of_next rfl).trans <| Parser.State.run_of_finished rfl
  exact congrArg (Except.mapError (Fault.inPattern · "(a\x7b1000\x7d)\x7b101\x7d")) hrun

end Expr

namespace Regex

variable {flags : Flags} {limits : Limits} {pattern : String} {r : Regex}

/-- What is read is built of the same pattern and flags. -/
theorem toRegex_serialized_eq_build (r : Regex) :
    r.serialized.toRegex = build r.flags {} r.pattern := by
  have hflags : flagsOfBits r.serialized.flagBits = .ok r.flags := by
    rw [flagsOfBits, serialized, Flags.ofBits?_bits]
  rw [Serialized.toRegex, hflags]
  rfl

/-- What has been built keeps its pattern and flags, and its program is within the limit. -/
theorem exists_eq_of_build (hbuild : build flags limits pattern = .ok r) :
    ∃ e, Expr.parse (ParserOptions.ofFlags flags limits.nest) pattern = .ok e ∧
      r = ⟨pattern, flags, .ofExpr flags.longest e⟩ ∧ r.program.size ≤ limits.size := by
  obtain ⟨e, hparse, -, -⟩ := exists_program_eq_of_build hbuild
  rw [build_of_parse limits hparse] at hbuild
  split at hbuild
  · next hfits =>
    cases hbuild
    refine ⟨e, hparse, rfl, ?_⟩
    rwa [Program.size_ofExpr]
  · cases hbuild

/-- If the pattern can be read under the limit for all, the size decides. -/
theorem toRegex_serialized_of_parse (hbuild : build flags limits pattern = .ok r) {e : Expr}
    (hparse : Expr.parse (ParserOptions.ofFlags flags defaultNestLimit) pattern = .ok e) :
    r.serialized.toRegex =
      if r.program.size ≤ Program.defaultSizeLimit then .ok r
      else .error (.tooLarge Program.defaultSizeLimit) := by
  obtain ⟨e', hparse', rfl, -⟩ := exists_eq_of_build hbuild
  obtain rfl := eq_of_parse_ofFlags hparse hparse'
  rw [toRegex_serialized_eq_build, build_of_parse {} hparse, Program.size_ofExpr]
  rfl

/-- A pattern that has been read under some limit can only be too deep for another one. -/
theorem kind_eq_nestingDepth_of_parse {n n' : Nat} {e : Expr} {error : SyntaxError}
    (h : Expr.parse (ParserOptions.ofFlags flags n) pattern = .ok e)
    (h' : Expr.parse (ParserOptions.ofFlags flags n') pattern = .error error) :
    error.kind = .nestingDepth ∧ n' < n := by
  have hagree : ∀ {m m' : Nat}, m ≤ m' →
      Expr.parse (ParserOptions.ofFlags flags m) pattern =
          Expr.parse (ParserOptions.ofFlags flags m') pattern ∨
        ∃ error, Expr.parse (ParserOptions.ofFlags flags m) pattern = .error error ∧
          error.kind = .nestingDepth :=
    fun hle => Expr.parse_agreesUnlessDeep hle (ParserOptions.ofFlags flags 0) pattern
  rcases Nat.lt_or_ge n' n with hlt | hle
  · rcases hagree (Nat.le_of_lt hlt) with hsame | ⟨error', herror', hkind⟩
    · cases (h'.symm.trans hsame).trans h
    · cases herror'.symm.trans h'
      exact ⟨hkind, hlt⟩
  · rcases hagree hle with hsame | ⟨error', herror', -⟩
    · cases (h.symm.trans hsame).trans h'
    · cases herror'.symm.trans h

/-- A regular expression that is written and read comes back as it was, with the same program, if
this has no more instructions than allowed to everyone and the pattern nests no deeper.  Otherwise
the error is that it is too large, or that it nests too deeply.  One that was built under limits no
higher than those for everyone always comes back. -/
theorem toRegex_serialized (hbuild : build flags limits pattern = .ok r) :
    (∀ e, Expr.parse (ParserOptions.ofFlags flags defaultNestLimit) pattern = .ok e →
      r.serialized.toRegex =
        if r.program.size ≤ Program.defaultSizeLimit then .ok r
        else .error (.tooLarge Program.defaultSizeLimit)) ∧
    (∀ error, Expr.parse (ParserOptions.ofFlags flags defaultNestLimit) pattern = .error error →
      error.kind = .nestingDepth ∧ defaultNestLimit < limits.nest ∧
        r.serialized.toRegex = .error (.malformed error)) ∧
    (limits.size ≤ Program.defaultSizeLimit → limits.nest ≤ defaultNestLimit →
      r.serialized.toRegex = .ok r) := by
  obtain ⟨e, hparse, heq, hsize⟩ := exists_eq_of_build hbuild
  refine ⟨?_, ?_, ?_⟩
  · intro e' hparse'
    exact toRegex_serialized_of_parse hbuild hparse'
  · intro error herror
    obtain ⟨hkind, hlt⟩ := kind_eq_nestingDepth_of_parse hparse herror
    refine ⟨hkind, hlt, ?_⟩
    rw [toRegex_serialized_eq_build, heq, build, herror]
  · intro hsizes hnests
    cases hparse' : Expr.parse (ParserOptions.ofFlags flags defaultNestLimit) pattern with
    | ok e' =>
      rw [toRegex_serialized_of_parse hbuild hparse']
      exact if_pos (Nat.le_trans hsize hsizes)
    | error error =>
      obtain ⟨-, hlt⟩ := kind_eq_nestingDepth_of_parse hparse hparse'
      exact absurd hnests (Nat.not_le.mpr hlt)

/-- A higher limit does no harm to a small program. -/
theorem toRegex_serialized_repeatedGroup :
    ∃ r, build {} { size := 200000 } "(a|b)*" = .ok r ∧ r.serialized.toRegex = .ok r := by
  have hparse : Expr.parse (ParserOptions.ofFlags {} defaultNestLimit) "(a|b)*" =
      .ok .repeatedGroup := Expr.parse_repeatedGroup
  have hbuild := build_of_parse { size := 200000 } hparse
  obtain ⟨hfits, -, -⟩ := toRegex_serialized hbuild
  exact ⟨_, hbuild, hfits .repeatedGroup hparse⟩

/-- A program may be larger than allowed to everyone if it is built under a higher limit, but then
it is not read again. -/
theorem toRegex_serialized_largeGroup :
    ∃ r, build {} { size := 200000 } "(a\x7b1000\x7d)\x7b101\x7d" = .ok r ∧
      r.program.size = 101205 ∧ r.serialized.toRegex = .error (.tooLarge 100000) := by
  have hsize : Expr.largeGroup.bytewise.programSize = 101205 := by decide
  have hbuild := build_of_parse { size := 200000 } Expr.parse_largeGroup
  have hread := build_of_parse {} Expr.parse_largeGroup
  rw [hsize] at hbuild hread
  refine ⟨_, hbuild, ?_, ?_⟩
  · rw [Program.size_ofExpr]
    exact hsize
  · rw [toRegex_serialized_eq_build]
    exact hread

end Regex
end LinearRegex
