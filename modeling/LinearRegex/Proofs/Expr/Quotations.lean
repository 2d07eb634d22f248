import LinearRegex.Proofs.Expr.Quoted
import Mathlib.Data.List.SplitBy

/-!
# Two ways to quote a text

What stands between `\Q` and `\E` is copied up to the first `\E`.  A text that contains none is
copied to its end, even one that ends in a backslash, for the backslash of the `\E` then stands
between that and the `E`.  The same text with a backslash in front of every character that means
something is read one character after the other.  Either way there is one item for each character,
and items that meet and agree on case become one literal, so that both stand for the longest
stretches of the text that agree on case (`Expr.parse_quotation`).
-/

namespace LinearRegex

open Regex (quoteChar)

namespace Expr

variable {fold : Char → Bool} {c d : Char} {text run : List Char} {runs : List (List Char)}

/-- The literals of the longest stretches of a text whose characters agree on case, in order. -/
def literalsOf (fold : Char → Bool) (text : List Char) : List Expr :=
  (text.splitBy fun c d => fold c == fold d).map fun run => .literal run (run.any fold)

/-- The expression that matches a text in which case is ignored for the characters in `fold`. -/
def ofRuns (fold : Char → Bool) (text : List Char) : Expr :=
  match literalsOf fold text with
  | [] => .empty
  | [e] => e
  | es => .concat es

/-- A character that agrees with the next one joins its stretch. -/
theorem splitBy_cons_cons {r : Char → Char → Bool} (hr : r c d = true)
    (h : (d :: text).splitBy r = (d :: run) :: runs) :
    (c :: d :: text).splitBy r = (c :: d :: run) :: runs := by
  obtain ⟨hflatten, hnil, hchains, hbreaks⟩ := List.splitBy_eq_iff.mp h
  obtain ⟨hchain, hchains⟩ := List.forall_mem_cons.mp hchains
  refine List.splitBy_eq_iff.mpr ⟨congrArg (c :: ·) hflatten, ?_, ?_, ?_⟩
  · intro hmem
    rcases List.mem_cons.mp hmem with hempty | hmem
    · cases hempty
    · exact hnil (List.mem_cons_of_mem _ hmem)
  · exact List.forall_mem_cons.mpr ⟨List.isChain_cons_cons.mpr ⟨hr, hchain⟩, hchains⟩
  · cases runs with
    | nil => exact List.isChain_singleton _
    | cons next runs =>
      obtain ⟨⟨_, hnext, hbreak⟩, hbreaks⟩ := List.isChain_cons_cons.mp hbreaks
      exact List.isChain_cons_cons.mpr ⟨⟨List.cons_ne_nil c _, hnext, hbreak⟩, hbreaks⟩

/-- The first stretch begins with the text. -/
theorem exists_splitBy_cons (r : Char → Char → Bool) (c : Char) (text : List Char) :
    ∃ run runs, (c :: text).splitBy r = (c :: run) :: runs := by
  have hhead := List.head_head_splitBy r (List.cons_ne_nil c text)
  cases hsplit : (c :: text).splitBy r with
  | nil => exact absurd (List.splitBy_eq_nil.mp hsplit) (List.cons_ne_nil c text)
  | cons first runs =>
    cases first with
    | nil => exact absurd (hsplit ▸ List.mem_cons_self) (List.nil_notMem_splitBy r (c :: text))
    | cons x run =>
      simp only [hsplit, List.head_cons] at hhead
      exact ⟨run, runs, by rw [hhead]⟩

theorem any_eq_of_isChain (h : (c :: text).IsChain fun c d => fold c == fold d) :
    (c :: text).any fold = fold c := by
  induction text generalizing c with
  | nil => rw [List.any_cons, List.any_nil, Bool.or_false]
  | cons d text ih =>
    obtain ⟨hagree, hchain⟩ := List.isChain_cons_cons.mp h
    rw [List.any_cons, ih hchain, ← eq_of_beq hagree, Bool.or_self]

/-- A literal in front of the others joins the first of them, if the two agree on case. -/
theorem prepend_literalsOf (fold : Char → Bool) (c : Char) (text : List Char) :
    Parser.prepend (literalsOf fold text) (.literal [c] (fold c)) =
      literalsOf fold (c :: text) := by
  let agree : Char → Char → Bool := fun c d => fold c == fold d
  have hsingle : [c].any fold = fold c := any_eq_of_isChain (List.isChain_singleton c)
  cases text with
  | nil => exact congrArg (fun fold => [literal [c] fold]) hsingle.symm
  | cons d text =>
    obtain ⟨run, runs, hsplit⟩ := exists_splitBy_cons agree d text
    have hchain : (d :: run).IsChain fun c d => agree c d :=
      List.isChain_of_mem_splitBy (hsplit ▸ List.mem_cons_self)
    have hfirst : literalsOf fold (d :: text) =
        .literal (d :: run) (fold d) :: runs.map fun run => .literal run (run.any fold) := by
      rw [literalsOf, hsplit, List.map_cons, any_eq_of_isChain hchain]
    rw [hfirst, Parser.prepend]
    by_cases hagree : fold c = fold d
    · have hjoined := splitBy_cons_cons (r := agree) (beq_iff_eq.mpr hagree) hsplit
      have hany : (c :: d :: run).any fold = fold c :=
        any_eq_of_isChain (List.isChain_cons_cons.mpr ⟨beq_iff_eq.mpr hagree, hchain⟩)
      rw [if_pos hagree, literalsOf, hjoined, List.map_cons, hany]
      rfl
    · have hapart : (c :: d :: text).splitBy agree = [c] :: (d :: text).splitBy agree := by
        refine List.splitBy_append_cons (l := [c]) text ?_
        intro x hx
        obtain rfl : c = x := Option.some.inj hx
        exact beq_eq_false_iff_ne.mpr hagree
      rw [if_neg hagree, ← hfirst, literalsOf, literalsOf, hapart, List.map_cons, hsingle]

end Expr

/-- Case is ignored for a character under some modes. -/
def Modes.folds (modes : Modes) (c : Char) : Bool :=
  modes.ignoreCase && Unicode.hasCaseVariants c

namespace Parser

variable {o : ParserOptions} {s : State} {cur : Cursor} {text : List Char}

/-- Items of one character each become the literals of the longest stretches. -/
theorem concatOf_map_literal (modes : Modes) (text : List Char) :
    concatOf (text.map (literal modes)).reverse = .ofRuns modes.folds text := by
  have hfold : (text.map (literal modes)).reverse.foldl prepend [] =
      Expr.literalsOf modes.folds text := by
    rw [List.foldl_reverse]
    induction text with
    | nil => rfl
    | cons c text ih =>
      rw [List.map_cons, List.foldr_cons, ih]
      exact Expr.prepend_literalsOf modes.folds c text
  rw [concatOf, hfold]
  rfl

/-- A text that contains no `\E` ends where one is put behind it. -/
theorem quotedLength_append (h : ¬ ['\\', 'E'] <:+: text) (passed : Nat) :
    quotedLength passed (text ++ ['\\', 'E']) =
      (passed + text.length, passed + text.length + 2) := by
  induction text generalizing passed with
  | nil => rfl
  | cons c text ih =>
    have hearly : ∀ rest, c = '\\' → text ++ ['\\', 'E'] = 'E' :: rest → False := by
      rintro rest rfl hrest
      cases text with
      | nil => exact absurd (List.cons.inj hrest).1 (by decide)
      | cons d text =>
        obtain rfl : d = 'E' := (List.cons.inj hrest).1
        exact h ⟨[], text, rfl⟩
    rw [List.cons_append, quotedLength.eq_3 _ _ _ hearly,
      ih fun hinfix => h (List.infix_cons hinfix), List.length_cons, Nat.add_right_comm]
    rfl

theorem alternationOf_singleton (e : Expr) : alternationOf [e] = e :=
  rfl

/-- What is quoted becomes items, one for each character. -/
theorem State.readQuoted_append (h : ¬ ['\\', 'E'] <:+: text) (s : State)
    (hrest : cur.rest = text ++ ['\\', 'E']) :
    ∃ after : Cursor, after.rest = [] ∧
      s.readQuoted cur =
        .ok { s with cur := after, items := (text.map (literal s.modes)).reverse ++ s.items } := by
  have hafter : (cur.drop (text.length + 2)).rest = [] := by
    rw [Cursor.drop, hrest]
    exact List.drop_of_length_le (Nat.le_of_eq List.length_append)
  have hplain : IsPlain (cur.drop (text.length + 2)).rest := by
    rw [hafter]
    exact isPlain_flatMap_quoteChar []
  refine ⟨cur.drop (text.length + 2), hafter, ?_⟩
  rw [State.readQuoted, hrest, quotedLength_append h, Nat.zero_add]
  dsimp only
  rw [List.take_left]
  rcases List.eq_nil_or_concat text with rfl | ⟨text, last, rfl⟩
  · rfl
  · rw [List.concat_eq_append] at hplain ⊢
    rw [List.getLast?_concat]
    dsimp only
    rw [State.push_of_isPlain hplain, List.dropLast_concat, List.map_append, List.reverse_append]
    rfl

/-- What stands behind a `\Q` is read as quoted. -/
theorem State.step_of_quotation {mid after : Cursor} {next : State}
    (hnext : s.cur.next? = some ('\\', mid)) (hnext' : mid.next? = some ('Q', after))
    (hread : s.readQuoted after = .ok next) : s.step o = .ok (.next next) := by
  have hbackslash : s.read o '\\' mid = .ok next := by
    rw [State.read, State.readBackslash, hnext']
    exact hread
  rw [State.step, hnext]
  dsimp only
  rw [hbackslash]

/-- A pattern that begins with `\Q` is read as the text up to its `\E`. -/
theorem State.run_of_quotation (h : ¬ ['\\', 'E'] <:+: text) (modes : Modes) :
    (State.initial modes ('\\' :: 'Q' :: (text ++ ['\\', 'E']))).run o =
      .ok (.ofRuns modes.folds text) := by
  let after : Cursor := ⟨text ++ ['\\', 'E'], '\\'.utf8Size + 'Q'.utf8Size⟩
  have hafter : after.rest = text ++ ['\\', 'E'] := rfl
  obtain ⟨last, hend, hread⟩ := State.readQuoted_append h
    (.initial modes ('\\' :: 'Q' :: (text ++ ['\\', 'E']))) hafter
  have hnothing : last.rest = [].flatMap quoteChar := hend
  rw [State.run_of_next (State.step_of_quotation rfl rfl hread),
    State.run_of_quoted _ rfl hnothing]
  dsimp only [State.initial]
  rw [List.map_nil, List.reverse_nil, List.nil_append, List.append_nil, alternationOf_singleton,
    concatOf_map_literal]

/-- A pattern in which every character that means something stands behind a backslash is read as
the text. -/
theorem State.run_of_escaped (modes : Modes) (text : List Char) :
    (State.initial modes (text.flatMap quoteChar)).run o = .ok (.ofRuns modes.folds text) := by
  rw [State.run_of_quoted _ rfl rfl]
  dsimp only [State.initial]
  rw [List.append_nil, alternationOf_singleton, concatOf_map_literal]

end Parser

/-- A text that contains no `\E` is read as the same expression between `\Q` and `\E` and with a
backslash in front of every character that means something, under all options: as the literals of
its longest stretches that agree on case. -/
theorem Expr.parse_quotation {text : String} (h : ¬ ['\\', 'E'] <:+: text.toList)
    (o : ParserOptions) :
    parse o ("\\Q" ++ text ++ "\\E") = .ok (ofRuns o.modes.folds text.toList) ∧
      parse o (Regex.quote text) = .ok (ofRuns o.modes.folds text.toList) := by
  have hquotation : ("\\Q" ++ text ++ "\\E").toList =
      '\\' :: 'Q' :: (text.toList ++ ['\\', 'E']) := by
    rw [String.toList_append, String.toList_append]
    rfl
  have hescaped : (Regex.quote text).toList = text.toList.flatMap quoteChar := by
    rw [Regex.quote, String.toList_ofList]
  constructor
  · rw [parse, hquotation, Parser.State.run_of_quotation h]
    rfl
  · rw [parse, hescaped, Parser.State.run_of_escaped]
    rfl

theorem Unicode.hasCaseVariants_backslash : hasCaseVariants '\\' = false := by
  decide +kernel

/-- Letters ignore case, and the backslash at the end of the text, which has no case, is quoted as
well. -/
theorem Expr.parse_quotation_trailingBackslash :
    ¬ ['\\', 'E'] <:+: "sk\\".toList ∧
      parse { modes := { ignoreCase := true } } ("\\Q" ++ "sk\\" ++ "\\E") =
        .ok (.concat [.literal ['s', 'k'] true, .literal ['\\'] false]) ∧
      parse { modes := { ignoreCase := true } } (Regex.quote "sk\\") =
        .ok (.concat [.literal ['s', 'k'] true, .literal ['\\'] false]) := by
  have htext : ¬ ['\\', 'E'] <:+: "sk\\".toList := by decide
  have hs : Modes.folds { ignoreCase := true } 's' = true := by decide +kernel
  have hk : Modes.folds { ignoreCase := true } 'k' = true := by decide +kernel
  have hbackslash : Modes.folds { ignoreCase := true } '\\' = false := by
    rw [Modes.folds, Unicode.hasCaseVariants_backslash, Bool.and_false]
  have hruns : ∀ fold : Char → Bool, fold 's' = true → fold 'k' = true → fold '\\' = false →
      ofRuns fold "sk\\".toList =
        .concat [.literal ['s', 'k'] true, .literal ['\\'] false] := by
    intro fold hs hk hbackslash
    simp [ofRuns, literalsOf, List.splitBy, List.splitBy.loop, hs, hk, hbackslash]
  have hboth := parse_quotation htext { modes := { ignoreCase := true } }
  rw [hruns _ hs hk hbackslash] at hboth
  exact ⟨htext, hboth⟩

end LinearRegex
