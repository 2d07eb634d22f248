import LinearRegex.Proofs.Expr.Nesting
import LinearRegex.Proofs.Regex.Span

/-!
# What limits decide

Limits decide whether a regular expression is built, and nothing else about it.  Equality does not
look at them, so that equal regular expressions may have been built under different ones; they have
the same program all the same, and find the same (`Regex.limits_are_gates`).
-/

namespace LinearRegex
namespace Regex

/-- The regular expression has been built under some limits. -/
def IsBuilt (r : Regex) : Prop :=
  ∃ limits, build r.flags limits r.pattern = .ok r

variable {flags : Flags} {limits : Limits} {pattern : String} {a b r : Regex}

theorem isBuilt_of_build (hbuild : build flags limits pattern = .ok r) : r.IsBuilt := by
  obtain ⟨e, hparse, -, -⟩ := exists_program_eq_of_build hbuild
  have hsame := hbuild
  rw [build_of_parse limits hparse] at hsame
  split at hsame
  · cases hsame
    exact ⟨limits, hbuild⟩
  · cases hsame

/-- The options of a parser but for the limit are told by the flags. -/
theorem eq_of_parse_ofFlags {n n' : Nat} {e e' : Expr}
    (h : Expr.parse (ParserOptions.ofFlags flags n) pattern = .ok e)
    (h' : Expr.parse (ParserOptions.ofFlags flags n') pattern = .ok e') : e = e' :=
  Expr.eq_of_parse (o := ParserOptions.ofFlags flags 0) h h'

theorem program_eq_of_beq (ha : a.IsBuilt) (hb : b.IsBuilt) (hab : a == b) :
    a.program = b.program := by
  obtain ⟨limits, ha⟩ := ha
  obtain ⟨limits', hb⟩ := hb
  have hsame : (a.flags == b.flags && a.pattern == b.pattern) = true := hab
  rw [Bool.and_eq_true, beq_iff_eq, beq_iff_eq] at hsame
  obtain ⟨hflags, hpattern⟩ := hsame
  rw [hflags, hpattern] at ha
  obtain ⟨e, hparse, -, hprogram⟩ := exists_program_eq_of_build ha
  obtain ⟨e', hparse', -, hprogram'⟩ := exists_program_eq_of_build hb
  rw [hprogram, hprogram', eq_of_parse_ofFlags hparse hparse']

/-- An expression has a program under just those limits that are not below its size, and always the
same one.  A pattern is read in the same way under every limit, or nests too deeply for it.  So
equal regular expressions have the same program, and find the same whatever they have been used
for. -/
theorem limits_are_gates :
    (∀ e, ∃ size, ∀ longest, ∃ program : Program, program.size = size ∧
      ∀ limit, Program.compile longest limit e =
        if size ≤ limit then .ok program else .error ⟨limit⟩) ∧
    (∀ (o : ParserOptions) (n n' : Nat) pattern, n ≤ n' →
      Expr.parse { o with nestLimit := n } pattern =
          Expr.parse { o with nestLimit := n' } pattern ∨
        ∃ error, Expr.parse { o with nestLimit := n } pattern = .error error ∧
          error.kind = .nestingDepth) ∧
    ∀ a b : Regex, a.IsBuilt → b.IsBuilt → a == b → a.program = b.program ∧
      ∀ (input : Input) (c c' : Cache), c.IsReachable → c'.IsReachable →
        (Search.search a.program input c).1 = (Search.search b.program input c').1 := by
  refine ⟨?_, ?_, ?_⟩
  · intro e
    refine ⟨e.bytewise.programSize, ?_⟩
    intro longest
    refine ⟨.ofExpr longest e, ?_, ?_⟩
    · show e.bytewise.programCode.toArray.size = e.bytewise.programSize
      rw [List.size_toArray, ByteExpr.length_programCode]
    · intro limit
      exact Program.compile_eq longest limit e
  · intro o n n' pattern hle
    exact Expr.parse_agreesUnlessDeep hle o pattern
  · intro a b ha hb hab
    have hprogram := program_eq_of_beq ha hb hab
    refine ⟨hprogram, ?_⟩
    intro input c c' hc hc'
    obtain ⟨limits, hbuild⟩ := ha
    rw [← hprogram, fst_search_eq hbuild input hc, fst_search_eq hbuild input hc']

/-- The empty pattern is built under the default limits, and under the lowest ones that allow its
four instructions, and the two are the same. -/
theorem limits_are_gates_empty :
    ∃ a b, build {} {} "" = .ok a ∧ build {} { size := 4, nest := 0 } "" = .ok b ∧
      a.program = b.program ∧ a.program.size = 4 := by
  have hparse : Expr.parse (ParserOptions.ofFlags {} 0) "" = .ok .empty := by
    rw [Expr.parse, Parser.State.run_of_finished (e := .empty) rfl]
    rfl
  have hlow := build_of_parse { size := 4, nest := 0 } hparse
  have hequal : (⟨"", {}, .ofExpr false .empty⟩ : Regex) == ⟨"", {}, .ofExpr false .empty⟩ := rfl
  obtain ⟨-, -, hsame⟩ := limits_are_gates
  exact ⟨_, _, build_empty, hlow,
    (hsame _ _ (isBuilt_of_build build_empty) (isBuilt_of_build hlow) hequal).1, rfl⟩

end Regex
end LinearRegex
