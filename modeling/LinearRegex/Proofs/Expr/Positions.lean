import LinearRegex.Proofs.Expr.Faults
import LinearRegex.Proofs.Text.Offsets
import LinearRegex.Proofs.Text.Slices

/-!
# Positions in a pattern

The readers go by characters and count bytes along with them.  Wherever they come to
(`Parser.Visits`), what they take from the pattern is what stands between the offsets that they
have counted, whatever characters the pattern has (`Parser.slice?_of_takes`).  The same holds of the
text that is shown with a fault, so the whole pattern is shown only if the fault is about all of it
(`Expr.pointsInto_of_parse`).
-/

namespace LinearRegex

theorem utf8ByteSize_ofList (cs : List Char) :
    (String.ofList cs).utf8ByteSize = Utf8.length cs := by
  rw [String.utf8ByteSize, String.toByteArray_ofList, Utf8.size_utf8Encode]

namespace Cursor

variable {pattern : String} {cur : Cursor} {text : List Char}

/-- What is next in a pattern occurs there. -/
theorem occursAt_of_isPrefix (hcur : (Cursor.start pattern.toList).Reaches cur)
    (htext : text <+: cur.rest) : OccursAt (String.ofList text) pattern cur.pos := by
  obtain ⟨m, rfl⟩ := hcur
  obtain ⟨rest, hrest⟩ := htext
  refine ⟨String.ofList (pattern.toList.take m), String.ofList rest, ?_, ?_⟩
  · have hsplit : pattern.toList.take m ++ (text ++ rest) = pattern.toList := by
      rw [hrest]
      exact List.take_append_drop m pattern.toList
    rw [← String.ofList_append, ← String.ofList_append, List.append_assoc, hsplit,
      String.ofList_toList]
  · rw [utf8ByteSize_ofList]
    exact (Nat.zero_add _).symm

/-- It stands between the offsets before and behind it. -/
theorem slice?_of_isPrefix (hcur : (Cursor.start pattern.toList).Reaches cur)
    (htext : text <+: cur.rest) :
    Utf8.slice? pattern.toUTF8 cur.pos (cur.pos + Utf8.length text) =
      some (String.ofList text) := by
  rw [← utf8ByteSize_ofList]
  exact (occursAt_of_isPrefix hcur htext).slice?_eq

theorem slice?_drop_of_isPrefix (hcur : (Cursor.start pattern.toList).Reaches cur)
    (htext : text <+: cur.rest) :
    Utf8.slice? pattern.toUTF8 cur.pos (cur.drop text.length).pos =
      some (String.ofList text) := by
  rw [drop, ← List.prefix_iff_eq_take.mp htext]
  exact slice?_of_isPrefix hcur htext

end Cursor

/-- The characters between `[:` and `:]` stand between these, which are ASCII. -/
theorem Bracket.posixName?_eq_some {cur after : Cursor} {name : List Char}
    (h : posixName? cur = some (name, after)) :
    name <+: (cur.drop 2).rest ∧ (cur.drop 2).pos = cur.pos + 2 ∧
      after.pos = cur.pos + 2 + Utf8.length name + 2 := by
  unfold posixName? at h
  split at h
  · next rest hrest =>
    obtain ⟨n, hclose, hn⟩ := Option.map_eq_some_iff.mp h
    obtain ⟨name', rest', rfl, rfl⟩ := exists_of_findClose hclose
    rw [Nat.zero_add, List.take_left] at hn
    cases hn
    refine ⟨?_, ?_, ?_⟩
    · rw [Cursor.drop, hrest]
      exact List.prefix_append _ _
    · rw [Cursor.drop, hrest]
      rfl
    · have htake : ('[' :: ':' :: (name ++ ':' :: ']' :: rest')).take (name.length + 4) =
          '[' :: ':' :: (name ++ [':', ']']) := by
        rw [List.take_succ_cons, List.take_succ_cons, List.take_length_add_append]
        rfl
      have hlength : Utf8.length ('[' :: ':' :: (name ++ [':', ']'])) =
          2 + Utf8.length name + 2 := by
        rw [Utf8.length_cons, Utf8.length_cons, Utf8.length_append, ← Nat.add_assoc,
          ← Nat.add_assoc]
        rfl
      rw [Cursor.drop, hrest, htake, hlength, Nat.add_assoc cur.pos, Nat.add_assoc cur.pos]
  · cases h

namespace Parser

/-- The positions that the readers come to: where the reader stands between two steps, and what they
come to from there by a character, by some characters, or by what one of them reads. -/
inductive Visits (o : ParserOptions) (pattern : List Char) : Cursor → Prop
  | state {s : State} (h : (State.initial o.modes pattern).LeadsTo o s) : Visits o pattern s.cur
  | next {cur after : Cursor} {c : Char} (hcur : Visits o pattern cur)
      (h : cur.next? = some (c, after)) : Visits o pattern after
  | drop {cur : Cursor} (hcur : Visits o pattern cur) (n : Nat) : Visits o pattern (cur.drop n)
  | upTo {cur after : Cursor} {c : Char} {text : List Char} (hcur : Visits o pattern cur)
      (h : cur.until? c = some (text, after)) : Visits o pattern after
  | quantifier {cur after : Cursor} {q : Quantifier} (hcur : Visits o pattern cur)
      (h : readQuantifier cur = .ok (some (q, after))) : Visits o pattern after
  | opening {cur after : Cursor} {modes : Modes} {taken : List String} {start : Nat}
      {opening : Group.Opening} (hcur : Visits o pattern cur)
      (h : Group.readOpening modes taken start cur = .ok (opening, after)) : Visits o pattern after
  | hexDigits {cur : Cursor} (hcur : Visits o pattern cur) :
    Visits o pattern (Escape.hexDigits cur).2
  | escapedChar {cur after : Cursor} {start : Nat} {c : Char} (hcur : Visits o pattern cur)
      (h : Escape.readChar start cur = .ok (c, after)) : Visits o pattern after
  | property {cur after : Cursor} {start : Nat} {name : List Char} (hcur : Visits o pattern cur)
      (h : Escape.readPropertyName start cur = .ok (name, after)) : Visits o pattern after
  | escapedClass {cur after : Cursor} {start : Nat} {fold : Bool} {k : Escape.NamedClass}
      (hcur : Visits o pattern cur)
      (h : Escape.readClass o.unicodeClasses fold start cur = .ok (k, after)) :
    Visits o pattern after
  | posixName {cur after : Cursor} {name : List Char} (hcur : Visits o pattern cur)
      (h : Bracket.posixName? cur = some (name, after)) : Visits o pattern after
  | classChar {cur after : Cursor} {start : Nat} {c : Char} (hcur : Visits o pattern cur)
      (h : Bracket.readChar start cur = .ok (c, after)) : Visits o pattern after
  | classItem {cur after : Cursor} {start : Nat} {fold : Bool} {item : ClassItem}
      (hcur : Visits o pattern cur)
      (h : Bracket.readItem o.unicodeClasses fold start cur = .ok (item, after)) :
    Visits o pattern after
  | bracket {cur after : Cursor} {start : Nat} {fold : Bool} {k : CharClass}
      (hcur : Visits o pattern cur)
      (h : Bracket.readClass o.unicodeClasses fold start cur = .ok (k, after)) :
    Visits o pattern after

/-- The readers take the characters `text` from the pattern, from one offset to another: all that is
left or the next of them, what stands before a character that is looked for, what is quoted, the
name of a class, the code of a character, a count or a number in it. -/
inductive Takes (o : ParserOptions) (pattern : List Char) : Nat → Nat → List Char → Prop
  | rest {cur : Cursor} (hcur : Visits o pattern cur) :
    Takes o pattern cur.pos cur.finish cur.rest
  | next {cur after : Cursor} {c : Char} (hcur : Visits o pattern cur)
      (h : cur.next? = some (c, after)) : Takes o pattern cur.pos after.pos [c]
  | upTo {cur after : Cursor} {c : Char} {text : List Char} (hcur : Visits o pattern cur)
      (h : cur.until? c = some (text, after)) :
    Takes o pattern cur.pos (after.pos - c.utf8Size) text
  | quoted {cur : Cursor} (hcur : Visits o pattern cur) :
    Takes o pattern cur.pos (cur.drop (quotedLength 0 cur.rest).1).pos
      (cur.rest.take (quotedLength 0 cur.rest).1)
  | posixName {cur after : Cursor} {name : List Char} (hcur : Visits o pattern cur)
      (h : Bracket.posixName? cur = some (name, after)) :
    Takes o pattern (cur.pos + 2) (after.pos - 2) name
  | hexDigits {cur : Cursor} {a b : Char} {rest : List Char} (hcur : Visits o pattern cur)
      (h : cur.rest = a :: b :: rest) : Takes o pattern cur.pos (cur.drop 2).pos [a, b]
  | octalDigits {cur : Cursor} (hcur : Visits o pattern cur) :
    Takes o pattern cur.pos (cur.drop (Escape.moreOctalDigits cur.rest).length).pos
      (Escape.moreOctalDigits cur.rest)
  | count {cur : Cursor} {count : Count} (hcur : Visits o pattern cur)
      (h : scanCount? cur.rest = some count) :
    Takes o pattern cur.pos (cur.pos + count.length) (cur.rest.take count.length)
  | digits {cur : Cursor} (hcur : Visits o pattern cur) :
    Takes o pattern cur.pos (cur.pos + (cur.rest.takeWhile Char.isDigit).length)
      (cur.rest.takeWhile Char.isDigit)

variable {o : ParserOptions} {pattern : String} {cur : Cursor} {start stop : Nat} {text : List Char}

/-- Where the readers come to, they come by reading on. -/
theorem Visits.reaches (h : Visits o pattern.toList cur) :
    (Cursor.start pattern.toList).Reaches cur := by
  induction h with
  | state h =>
    exact (h.keeps (State.standsBehind_initial _ _) fun _ _ => State.StandsBehind.step).cur
  | next _ h ih => exact ih.trans (Cursor.reaches_next h)
  | drop _ n ih => exact ih.trans (Cursor.reaches_drop n _)
  | upTo _ h ih => exact ih.trans (Cursor.reaches_until h)
  | quantifier _ h ih => exact ih.trans (reaches_readQuantifier h)
  | opening _ h ih => exact ih.trans (Group.reaches_readOpening h)
  | hexDigits _ ih => exact ih.trans (Escape.reaches_hexDigits _)
  | escapedChar _ h ih => exact ih.trans (Escape.passes_readChar h).reaches
  | property _ h ih => exact ih.trans (Escape.reaches_readPropertyName h)
  | escapedClass _ h ih => exact ih.trans (Escape.passes_readClass h).reaches
  | posixName _ h ih => exact ih.trans (Bracket.passes_posixName? h).reaches
  | classChar _ h ih => exact ih.trans (Bracket.passes_readChar h).reaches
  | classItem _ h ih => exact ih.trans (Bracket.passes_readItem h).reaches
  | bracket _ h ih => exact ih.trans (Bracket.reaches_readClass h)

/-- What the readers take from the pattern stands between the offsets that they have counted. -/
theorem slice?_of_takes (h : Takes o pattern.toList start stop text) :
    Utf8.slice? pattern.toUTF8 start stop = some (String.ofList text) := by
  cases h with
  | rest hcur => exact Cursor.slice?_of_isPrefix hcur.reaches (List.prefix_refl _)
  | next hcur h =>
    obtain ⟨-, hrest⟩ := Cursor.next?_eq_some h
    rw [Cursor.pos_of_next? h]
    have hfront : [_] <+: _ := ⟨_, hrest.symm⟩
    exact Cursor.slice?_of_isPrefix hcur.reaches hfront
  | upTo hcur h =>
    obtain ⟨-, ⟨rest, hrest⟩, -⟩ := Cursor.until?_eq_some_iff.mp h
    rw [Cursor.pos_of_until? h, Nat.add_sub_cancel]
    exact Cursor.slice?_of_isPrefix hcur.reaches ⟨_, hrest.symm⟩
  | quoted hcur => exact Cursor.slice?_of_isPrefix hcur.reaches (List.take_prefix _ _)
  | posixName hcur h =>
    obtain ⟨hfront, hstart, hstop⟩ := Bracket.posixName?_eq_some h
    rw [hstop, Nat.add_sub_cancel, ← hstart]
    exact Cursor.slice?_of_isPrefix (hcur.drop 2).reaches hfront
  | @hexDigits cur a b rest hcur h =>
    have hfront : [a, b] <+: cur.rest := ⟨rest, h.symm⟩
    exact Cursor.slice?_drop_of_isPrefix hcur.reaches hfront
  | @octalDigits cur hcur =>
    have hfront : Escape.moreOctalDigits cur.rest <+: cur.rest :=
      (List.takeWhile_prefix _).trans (List.take_prefix 2 _)
    exact Cursor.slice?_drop_of_isPrefix hcur.reaches hfront
  | count hcur h =>
    rw [← (passes_of_scanCount? h).2]
    exact Cursor.slice?_of_isPrefix hcur.reaches (List.take_prefix _ _)
  | digits hcur =>
    rw [← Cursor.pos_drop_of_ascii List.takeWhile_append_dropWhile.symm utf8Size_of_mem_takeWhile]
    exact Cursor.slice?_drop_of_isPrefix hcur.reaches (List.takeWhile_prefix _)

end Parser

/-- The error is about a part of the pattern that is not empty, begins and ends where a character
may begin, and is shown with the error. -/
structure SyntaxError.PointsInto (error : SyntaxError) (pattern : String) : Prop where
  start_lt_stop : error.start < error.stop
  stop_le : error.stop ≤ pattern.utf8ByteSize
  isBoundary_start : Utf8.isBoundary pattern.toUTF8 error.start
  isBoundary_stop : Utf8.isBoundary pattern.toUTF8 error.stop
  slice? : Utf8.slice? pattern.toUTF8 error.start error.stop = some error.fragment
  occurs : OccursAt error.fragment pattern error.start

/-- What a fault is about is a text that occurs there. -/
theorem Fault.LiesBehind.exists_occursAt {pattern : String} {fault : Fault}
    (h : fault.LiesBehind (Cursor.start pattern.toList)) :
    ∃ text, OccursAt text pattern fault.start ∧ fault.stop = fault.start + text.utf8ByteSize := by
  obtain ⟨kind, start, stop⟩ := fault
  obtain ⟨cur, ⟨b, hb, hpass, rfl⟩, rfl⟩ := h
  obtain ⟨n, rfl⟩ := hpass.reaches
  refine ⟨_, Cursor.occursAt_of_isPrefix hb (List.take_prefix n b.rest), ?_⟩
  rw [utf8ByteSize_ofList]
  rfl

/-- It is shown with the fault. -/
theorem Fault.inPattern_of_occursAt {pattern text : String} {fault : Fault}
    (hoccurs : OccursAt text pattern fault.start)
    (hstop : fault.stop = fault.start + text.utf8ByteSize) :
    fault.inPattern pattern = ⟨fault, text⟩ := by
  rw [inPattern, hstop, hoccurs.slice?_eq]
  rfl

theorem Fault.LiesBehind.start_lt_stop {a : Cursor} {fault : Fault} (h : fault.LiesBehind a) :
    fault.start < fault.stop := by
  obtain ⟨kind, start, stop⟩ := fault
  obtain ⟨cur, ⟨b, -, hpass, rfl⟩, rfl⟩ := h
  exact hpass.pos_lt

theorem Fault.LiesBehind.pointsInto {pattern : String} {fault : Fault}
    (h : fault.LiesBehind (Cursor.start pattern.toList)) :
    (fault.inPattern pattern).PointsInto pattern := by
  obtain ⟨text, hoccurs, hstop⟩ := h.exists_occursAt
  have hslice := hoccurs.slice?_eq
  rw [← hstop] at hslice
  obtain ⟨-, hsize, hboundary, hboundary'⟩ := Utf8.bounds_of_slice? hslice
  rw [Fault.inPattern_of_occursAt hoccurs hstop]
  exact ⟨h.start_lt_stop, hsize, hboundary, hboundary', hslice, hoccurs⟩

namespace Expr

/-- What the readers take from a pattern, they take from between two positions of it, and every
error points to a part of it. -/
theorem pointsInto_of_parse (o : ParserOptions) (pattern : String) :
    (∀ start stop text, Parser.Takes o pattern.toList start stop text →
      Utf8.slice? pattern.toUTF8 start stop = some (String.ofList text)) ∧
    ∀ error, parse o pattern = .error error → error.PointsInto pattern := by
  refine ⟨fun _ _ _ => Parser.slice?_of_takes, ?_⟩
  intro error herror
  rw [parse] at herror
  cases hrun : (Parser.State.initial o.modes pattern.toList).run o with
  | ok e =>
    rw [hrun] at herror
    cases herror
  | error fault =>
    rw [hrun] at herror
    cases herror
    have hinitial := Parser.State.standsBehind_initial o.modes pattern.toList
    exact (Parser.State.liesBehind_of_run hinitial hrun).pointsInto

/-- A group that is not closed, behind a character of two bytes. -/
theorem pointsInto_missingParen :
    ∃ error, parse {} "é(" = .error error ∧ error.toFault = ⟨.missingParen, 2, 3⟩ ∧
      error.PointsInto "é(" ∧ Utf8.slice? "é(".toUTF8 2 3 = some "(" := by
  have hrun : (Parser.State.initial (ParserOptions.modes {}) "é(".toList).run {} =
      .error ⟨.missingParen, 2, 3⟩ :=
    (Parser.State.run_of_next rfl).trans <| (Parser.State.run_of_next rfl).trans <|
      Parser.State.run_of_error rfl
  have hparse := congrArg (Except.mapError (Fault.inPattern · "é(")) hrun
  obtain ⟨hslices, hpoints⟩ := pointsInto_of_parse {} "é("
  have hstart : Parser.Visits {} "é(".toList (Cursor.start "é(".toList) := .state .refl
  have hmid : Parser.Visits {} "é(".toList ⟨['('], 2⟩ := hstart.next rfl
  have hafter : (⟨['('], 2⟩ : Cursor).next? = some ('(', ⟨[], 3⟩) := rfl
  exact ⟨_, hparse, rfl, hpoints _ hparse, hslices 2 3 ['('] (.next hmid hafter)⟩

end Expr
end LinearRegex
