import CrossDoc.Proofs.ErrorLines
import CrossDoc.Proofs.LineEndings

/-!
# Carriage returns in listings and configurations

Listings and configurations are read the same with a carriage return in front of each
line feed.  To both readers it is a blank at the end of a line, and the readers of a
configuration stop in front of a line feed, whether there is a carriage return before it
or not.  One thing differs, and only for texts that are refused: behind a backslash the
carriage return takes the place of the line feed.
-/

namespace CrossDoc

namespace Text

variable {p : Char → Bool} {c : Char} {t : Text}

/-! ## Between a carriage return and its line feed -/

theorem withReturns_lineFeed (t : Text) : withReturns ('\n' :: t) = '\r' :: '\n' :: withReturns t :=
  rfl

theorem withReturns_cons (hc : c ≠ '\n') (t : Text) :
    withReturns (c :: t) = c :: withReturns t := by
  rw [withReturns, replaceChar, List.flatMap_cons, if_neg hc]
  rfl

/-- The text with carriage returns, without the one of a line feed with which it starts. -/
def behindReturn : Text → Text
  | [] => []
  | c :: rest => c :: withReturns rest

theorem withReturns_eq_behindReturn (h : t.head? ≠ some '\n') :
    withReturns t = behindReturn t := by
  cases t with
  | nil => rfl
  | cons c rest => exact withReturns_cons (fun hc => h (hc ▸ rfl)) rest

/-- A class that holds the carriage return and no line feed is left in front of the line feed. -/
theorem dropWhile_withReturns (hreturn : p '\r' = true) (hfeed : p '\n' = false) (t : Text) :
    (withReturns t).dropWhile p = behindReturn (t.dropWhile p) := by
  induction t with
  | nil => rfl
  | cons c rest ih =>
      by_cases hc : c = '\n'
      · subst hc
        rw [withReturns_lineFeed, List.dropWhile_cons_of_pos hreturn,
          List.dropWhile_cons_of_neg (by simp [hfeed]),
          List.dropWhile_cons_of_neg (by simp [hfeed]), behindReturn]
      · rw [withReturns_cons hc]
        by_cases hp : p c = true
        · rw [List.dropWhile_cons_of_pos hp, List.dropWhile_cons_of_pos hp, ih]
        · rw [List.dropWhile_cons_of_neg hp, List.dropWhile_cons_of_neg hp, behindReturn]

theorem dropWhile_behindReturn (hreturn : p '\r' = true) (hfeed : p '\n' = false) (t : Text) :
    (behindReturn t).dropWhile p = behindReturn (t.dropWhile p) := by
  cases t with
  | nil => rfl
  | cons c rest =>
      rw [behindReturn]
      by_cases hp : p c = true
      · rw [List.dropWhile_cons_of_pos hp, List.dropWhile_cons_of_pos hp,
          dropWhile_withReturns hreturn hfeed]
      · rw [List.dropWhile_cons_of_neg hp, List.dropWhile_cons_of_neg hp, behindReturn]

/-- A run of a class that no line feed ends is the same. -/
theorem takeWhile_withReturns (hend : (t.dropWhile p).head? ≠ some '\n')
    (hfeed : p '\n' = false) : (withReturns t).takeWhile p = t.takeWhile p := by
  induction t with
  | nil => rfl
  | cons c rest ih =>
      have hc : c ≠ '\n' := by
        rintro rfl
        rw [List.dropWhile_cons_of_neg (by simp [hfeed])] at hend
        exact hend rfl
      rw [withReturns_cons hc]
      by_cases hp : p c = true
      · rw [List.dropWhile_cons_of_pos hp] at hend
        rw [List.takeWhile_cons_of_pos hp, List.takeWhile_cons_of_pos hp, ih hend]
      · rw [List.takeWhile_cons_of_neg hp, List.takeWhile_cons_of_neg hp]

/-- So is a run of a class that holds neither of the two. -/
theorem span_withReturns (hreturn : p '\r' = false) (hfeed : p '\n' = false) (t : Text) :
    (withReturns t).takeWhile p = t.takeWhile p ∧
      (withReturns t).dropWhile p = withReturns (t.dropWhile p) := by
  induction t with
  | nil => exact ⟨rfl, rfl⟩
  | cons c rest ih =>
      by_cases hc : c = '\n'
      · subst hc
        rw [withReturns_lineFeed, List.takeWhile_cons_of_neg (by simp [hreturn]),
          List.takeWhile_cons_of_neg (by simp [hfeed]),
          List.dropWhile_cons_of_neg (by simp [hreturn]),
          List.dropWhile_cons_of_neg (by simp [hfeed]), withReturns_lineFeed]
        exact ⟨rfl, rfl⟩
      · rw [withReturns_cons hc]
        by_cases hp : p c = true
        · rw [List.takeWhile_cons_of_pos hp, List.takeWhile_cons_of_pos hp,
            List.dropWhile_cons_of_pos hp, List.dropWhile_cons_of_pos hp, ih.1, ih.2]
          exact ⟨rfl, rfl⟩
        · rw [List.takeWhile_cons_of_neg hp, List.takeWhile_cons_of_neg hp,
            List.dropWhile_cons_of_neg hp, List.dropWhile_cons_of_neg hp, withReturns_cons hc]
          exact ⟨rfl, rfl⟩

theorem length_le_withReturns (t : Text) : t.length ≤ (withReturns t).length := by
  induction t with
  | nil => exact Nat.le_refl 0
  | cons c rest ih =>
      by_cases hc : c = '\n'
      · subst hc
        rw [withReturns_lineFeed, List.length_cons, List.length_cons, List.length_cons]
        omega
      · rw [withReturns_cons hc, List.length_cons, List.length_cons]
        omega

end Text

/-! ## Listings -/

namespace Listing

open Text (withReturns)

theorem indentation_concat_return : ∀ raw : Text, indentation (raw ++ ['\r']) = indentation raw
  | [] => rfl
  | c :: rest => by
      have ih := indentation_concat_return rest
      rw [List.cons_append]
      unfold indentation
      split <;> simp_all

/-- A line is read the same with a carriage return at its end. -/
theorem readLine_concat_return (d : Draft) (raw : Text) (location : SourceLocation) :
    d.readLine (raw ++ ['\r']) location = d.readLine raw location := by
  have htrim : trim (raw ++ ['\r']) = trim raw := Text.trimBy_concat (by decide) raw
  unfold Draft.readLine
  rw [htrim, indentation_concat_return]

/-- By induction on the lines, all but the last of which a line feed ends. -/
theorem readLines_withReturns (file t : Text) (d : Draft) (line : Nat) :
    (Text.lines (withReturns t)).length = (Text.lines t).length ∧
      d.readLines file line (Text.lines (withReturns t)) =
        d.readLines file line (Text.lines t) := by
  induction t using Text.lines_induction generalizing d line with
  | last t ht =>
      rw [Text.withReturns_of_not_mem ht]
      exact ⟨rfl, rfl⟩
  | more l t hl ih =>
      have hline : '\n' ∉ l ++ ['\r'] := by simpa using hl
      obtain ⟨hlength, hread⟩ := ih (d.readLine l ⟨file, line⟩) (line + 1)
      rw [Text.withReturns_append_lineFeed hl, Text.lines_append _ hline, Text.lines_append _ hl,
        Draft.readLines, Draft.readLines, readLine_concat_return, List.length_cons,
        List.length_cons, hlength]
      exact ⟨rfl, hread⟩

theorem parse_withReturns (t file : Text) : parse (withReturns t) file = parse t file := by
  obtain ⟨hlength, hread⟩ := readLines_withReturns file t {} 1
  unfold parse
  dsimp only
  rw [hlength, hread]

end Listing

/-! ## Cursors -/

/-- What becomes of an error: a line feed behind a backslash is a carriage return, and the reading
is still on its line. -/
def ConfigError.withReturns (e : ConfigError) : ConfigError :=
  if e.problem = .unknownEscape '\n' then ⟨.unknownEscape '\r', e.line - 1⟩ else e

theorem ConfigError.withReturns_of_ne {e : ConfigError} (h : e.problem ≠ .unknownEscape '\n') :
    e.withReturns = e := if_neg h

namespace Cursor

variable {α β : Type} {p : Char → Bool} {c : Cursor} {x : Char}

/-- The same place in the text with carriage returns. -/
def withReturns (c : Cursor) : Cursor := ⟨c.rest.withReturns, c.line⟩

/-- The same place, but at the end of a line the one behind the carriage return. -/
def behindReturn (c : Cursor) : Cursor := ⟨c.rest.behindReturn, c.line⟩

theorem exists_of_peek_lineFeed (h : c.peek = '\n') : ∃ rest, c = ⟨'\n' :: rest, c.line⟩ := by
  obtain ⟨rest, line⟩ := c
  cases rest with
  | nil => exact absurd (show '\x00' = '\n' from h) (by decide)
  | cons x rest =>
      obtain rfl : x = '\n' := h
      exact ⟨rest, rfl⟩

theorem atEnd_withReturns (c : Cursor) : c.withReturns.atEnd = c.atEnd := by
  obtain ⟨rest, line⟩ := c
  cases rest with
  | nil => rfl
  | cons x rest =>
      by_cases hx : x = '\n'
      · rw [hx]
        rfl
      · rw [withReturns, Text.withReturns_cons hx]
        rfl

theorem withReturns_eq_behindReturn (h : c.peek ≠ '\n') : c.withReturns = c.behindReturn := by
  have hhead : c.rest.head? ≠ some '\n' := by
    intro hhead
    rw [peek, hhead] at h
    exact h rfl
  rw [withReturns, behindReturn, Text.withReturns_eq_behindReturn hhead]

theorem atEnd_behindReturn (c : Cursor) : c.behindReturn.atEnd = c.atEnd := by
  obtain ⟨rest, line⟩ := c
  cases rest <;> rfl

theorem peek_behindReturn (c : Cursor) : c.behindReturn.peek = c.peek := by
  obtain ⟨rest, line⟩ := c
  cases rest <;> rfl

theorem advance_behindReturn (c : Cursor) : c.behindReturn.advance = c.advance.withReturns := by
  obtain ⟨rest, line⟩ := c
  cases rest <;> rfl

/-- Only at the end of a line another character is seen. -/
theorem peek_withReturns_eq_iff (hfeed : x ≠ '\n') (hreturn : x ≠ '\r') :
    c.withReturns.peek = x ↔ c.peek = x := by
  by_cases h : c.peek = '\n'
  · obtain ⟨rest, hc⟩ := exists_of_peek_lineFeed h
    rw [hc]
    exact iff_of_false (fun h => hreturn h.symm) (fun h => hfeed h.symm)
  · rw [withReturns_eq_behindReturn h, peek_behindReturn]

theorem advance_withReturns (h : c.peek ≠ '\n') :
    c.withReturns.advance = c.advance.withReturns := by
  rw [withReturns_eq_behindReturn h, advance_behindReturn]

theorem skip_withReturns (hreturn : p '\r' = true) (hfeed : p '\n' = false) (c : Cursor) :
    c.withReturns.skip p = (c.skip p).behindReturn :=
  congrArg (Cursor.mk · c.line) (Text.dropWhile_withReturns hreturn hfeed c.rest)

theorem skip_behindReturn (hreturn : p '\r' = true) (hfeed : p '\n' = false) (c : Cursor) :
    c.behindReturn.skip p = (c.skip p).behindReturn :=
  congrArg (Cursor.mk · c.line) (Text.dropWhile_behindReturn hreturn hfeed c.rest)

theorem skipWord_withReturns (hreturn : p '\r' = false) (hfeed : p '\n' = false) (c : Cursor) :
    c.withReturns.skip p = (c.skip p).withReturns :=
  congrArg (Cursor.mk · c.line) (Text.span_withReturns hreturn hfeed c.rest).2

theorem skipBlanks_withReturns (c : Cursor) :
    c.withReturns.skipBlanks = c.skipBlanks.behindReturn :=
  skip_withReturns (by decide) (by decide) c

theorem skipComment_behindReturn (c : Cursor) :
    c.behindReturn.skipComment = c.skipComment.behindReturn := by
  unfold skipComment
  rw [peek_behindReturn]
  split
  · exact skip_behindReturn (by decide) (by decide) c
  · rfl

theorem lineEnd_withReturns (c : Cursor) : c.withReturns.lineEnd = c.lineEnd.map behindReturn := by
  unfold lineEnd
  dsimp only
  rw [skipBlanks_withReturns, skipComment_behindReturn, atEnd_behindReturn, peek_behindReturn]
  split <;> rfl

theorem withReturns_of_lineEnd_error {e : ConfigError} (h : c.lineEnd = .error e) :
    e.withReturns = e := by
  obtain ⟨x, hproblem⟩ := problem_of_lineEnd h
  exact ConfigError.withReturns_of_ne (by rw [hproblem]; exact nofun)

theorem skipSpaceFrom_withReturns (inComment : Bool) (t : Text) (line : Nat) :
    skipSpaceFrom inComment t.withReturns line = (skipSpaceFrom inComment t line).withReturns := by
  induction t generalizing inComment line with
  | nil => rfl
  | cons x rest ih =>
      by_cases hx : x = '\n'
      · subst hx
        have hblank : (inComment || Text.isLineBlank '\r') = true := Bool.or_true inComment
        rw [Text.withReturns_lineFeed, skipSpaceFrom, if_neg (by decide), if_pos hblank,
          skipSpaceFrom, if_pos rfl, skipSpaceFrom, if_pos rfl, ih]
      · rw [Text.withReturns_cons hx, skipSpaceFrom, skipSpaceFrom, if_neg hx, if_neg hx, ih, ih,
          ← Text.withReturns_cons hx]
        split
        · rfl
        · split <;> rfl

theorem skipSpace_withReturns (c : Cursor) : c.withReturns.skipSpace = c.skipSpace.withReturns :=
  skipSpaceFrom_withReturns false c.rest c.line

theorem skipSpace_behindReturn (c : Cursor) :
    c.behindReturn.skipSpace = c.skipSpace.withReturns := by
  by_cases h : c.peek = '\n'
  · -- The line feed is passed over on either side.
    obtain ⟨rest, hc⟩ := exists_of_peek_lineFeed h
    rw [hc]
    exact skipSpaceFrom_withReturns false rest (c.line + 1)
  · rw [← withReturns_eq_behindReturn h, skipSpace_withReturns]

/-! ## Answers -/

/-- What a reader answers to the text with carriage returns, where `move` leads from the place where
it stops to the one in that text. -/
def answerAt (move : Cursor → Cursor) :
    Except ConfigError (α × Cursor) → Except ConfigError (α × Cursor)
  | .ok (a, c) => .ok (a, move c)
  | .error e => .error e.withReturns

variable {move move' : Cursor → Cursor} {y : Except ConfigError (α × Cursor)}

theorem answerAt_map (f : α → β) :
    (answerAt move y).map (fun (a, c) => (f a, c)) =
      answerAt move (y.map fun (a, c) => (f a, c)) := by
  cases y <;> rfl

/-- Of two readers, one after the other, the second one starts where the first one stops. -/
theorem answerAt_bind {f f' : α × Cursor → Except ConfigError (β × Cursor)}
    (h : ∀ a c, y = .ok (a, c) → f' (a, move c) = answerAt move' (f (a, c))) :
    (answerAt move y >>= f') = answerAt move' (y >>= f) := by
  cases y with
  | error e => rfl
  | ok answer => exact h answer.1 answer.2 rfl

theorem error_answerAt {e : ConfigError} (h : e.problem ≠ .unknownEscape '\n') :
    (.error e : Except ConfigError (α × Cursor)) = answerAt move (.error e) :=
  congrArg Except.error (ConfigError.withReturns_of_ne h).symm

theorem fail_answerAt {c' : Cursor} {problem : ConfigProblem} (hline : c'.line = c.line)
    (h : problem ≠ .unknownEscape '\n') :
    (c'.fail problem : Except ConfigError (α × Cursor)) = answerAt move (c.fail problem) := by
  rw [fail, fail, hline]
  exact error_answerAt h

end Cursor

/-! ## Values -/

namespace ConfigValue

open Cursor (answerAt answerAt_map answerAt_bind error_answerAt fail_answerAt)

theorem unescape?_return : unescape? '\r' = none := by decide

theorem readString_withReturns (t : Text) (line : Nat) :
    readString t.withReturns line = answerAt Cursor.withReturns (readString t line) := by
  fun_induction readString t line with
  | case1 line => rfl
  | case2 line => rfl
  | case3 e rest line hnone =>
      rw [Text.withReturns_cons (by decide)]
      by_cases he : e = '\n'
      · subst he
        simp only [Text.withReturns_lineFeed, readString, unescape?_return]
        rfl
      · have hproblem : ConfigProblem.unknownEscape e ≠ .unknownEscape '\n' :=
          fun h => he (ConfigProblem.unknownEscape.inj h)
        simp only [Text.withReturns_cons he, readString, hnone]
        exact error_answerAt hproblem
  | case4 e rest line x hsome ih =>
      have he : e ≠ '\n' := by
        rintro rfl
        rw [unescape?_newline] at hsome
        cases hsome
      simp only [Text.withReturns_cons (show '\\' ≠ '\n' by decide), Text.withReturns_cons he,
        readString, hsome, ih]
      exact answerAt_map _
  | case5 rest line => rfl
  | case6 rest line => rfl
  | case7 x rest line hend hescape hnewline hquote ih =>
      have hx : x ≠ '\\' := by
        rintro rfl
        cases rest with
        | nil => exact hend rfl rfl
        | cons e rest => exact hescape e rest rfl rfl
      rw [Text.withReturns_cons hnewline, readString.eq_4 _ _ _ (fun h => absurd h hx)
        (fun _ _ h => absurd h hx), if_neg hnewline, if_neg hquote, ih]
      exact answerAt_map _

/-- What stands behind an item is seen alike, and a comma leads on to the next one. -/
theorem readMore_withReturns {fuel fuel' : Nat} (item : Text) {c : Cursor}
    (hitems : c.peek = ',' → readItems fuel' c.advance.withReturns =
      answerAt Cursor.withReturns (readItems fuel c.advance)) :
    readMore fuel' item c.withReturns = answerAt Cursor.withReturns (readMore fuel item c) := by
  unfold readMore
  simp only [Cursor.peek_withReturns_eq_iff (x := ',') (by decide) (by decide),
    Cursor.peek_withReturns_eq_iff (x := ']') (by decide) (by decide)]
  split
  · next hcomma =>
    rw [Cursor.advance_withReturns (by rw [hcomma]; decide), hitems hcomma]
    exact answerAt_map _
  · split
    · next hclose =>
      rw [Cursor.advance_withReturns (by rw [hclose]; decide)]
      rfl
    · exact fail_answerAt rfl (by simp)

/-- With more fuel as well, since the text with carriage returns is longer. -/
theorem readItems_withReturns {fuel fuel' : Nat} (c : Cursor) (henough : c.rest.length < fuel)
    (hfuel : fuel ≤ fuel') :
    readItems fuel' c.withReturns = answerAt Cursor.withReturns (readItems fuel c) := by
  induction fuel generalizing c fuel' with
  | zero => exact absurd henough (Nat.not_lt_zero _)
  | succ fuel ih =>
      obtain ⟨fuel', rfl⟩ : ∃ m, fuel' = m + 1 := ⟨fuel' - 1, by omega⟩
      have hline : c.skipSpace.withReturns.line = c.skipSpace.line := rfl
      have hspace := (Cursor.reaches_skipSpace c).length_le
      rw [readItems_succ, readItems_succ, Cursor.skipSpace_withReturns, Cursor.atEnd_withReturns,
        hline]
      simp only [Cursor.peek_withReturns_eq_iff (x := ']') (by decide) (by decide),
        Cursor.peek_withReturns_eq_iff (x := '"') (by decide) (by decide), ne_eq]
      split
      · exact fail_answerAt hline (by simp)
      · split
        · next hclose =>
          rw [Cursor.advance_withReturns (by rw [hclose]; decide)]
          rfl
        · split
          · exact fail_answerAt hline (by simp)
          · next hquote =>
            rw [not_not] at hquote
            have hshorter := Cursor.length_advance_lt (Cursor.atEnd_of_peek hquote (by decide))
            have hread := readString_withReturns c.skipSpace.advance.rest c.skipSpace.line
            rw [Cursor.advance_withReturns (by rw [hquote]; decide)]
            refine (congrArg (· >>= _) hread).trans (answerAt_bind fun item c₁ hitem => ?_)
            have hstop := (readString_stops _ _).eq_of_ok hitem
            have hstring := (reaches_stringStop c.skipSpace.advance.rest c.skipSpace.line).length_le
            rw [← hstop] at hstring
            have hbehind := (Cursor.reaches_skipSpace c₁).length_le
            dsimp only at hstring ⊢
            rw [Cursor.skipSpace_withReturns]
            refine readMore_withReturns item fun hcomma => ?_
            have hshorter := Cursor.length_advance_lt (Cursor.atEnd_of_peek hcomma (by decide))
            exact ih c₁.skipSpace.advance (by omega) (by omega)

/-- A value is looked for behind the blanks, where no carriage return is left. -/
theorem read_behindReturn (c : Cursor) :
    read c.behindReturn = answerAt Cursor.withReturns (read c) := by
  have hpeek := Cursor.peek_behindReturn c
  by_cases hquote : c.peek = '"'
  · rw [read_of_quote hquote, read_of_quote (hpeek.trans hquote), Cursor.advance_behindReturn]
    exact (congrArg (Except.map _) (readString_withReturns c.advance.rest c.line)).trans
      (answerAt_map _)
  by_cases hbracket : c.peek = '['
  · have hlength : c.rest.length ≤ c.behindReturn.rest.length := by
      rw [← Cursor.withReturns_eq_behindReturn (by rw [hbracket]; decide)]
      exact Text.length_le_withReturns c.rest
    have hshorter := Cursor.length_advance_lt (Cursor.atEnd_of_peek hbracket (by decide))
    have hitems := readItems_withReturns c.advance (Nat.lt_succ_of_lt hshorter)
      (Nat.succ_le_succ hlength)
    rw [read_of_bracket hbracket, read_of_bracket (hpeek.trans hbracket),
      Cursor.advance_behindReturn, hitems]
    exact answerAt_map _
  rw [read_of_ne hquote hbracket, read_of_ne (hpeek ▸ hquote) (hpeek ▸ hbracket)]
  by_cases hfeed : c.peek = '\n'
  · obtain ⟨rest, hc⟩ := Cursor.exists_of_peek_lineFeed hfeed
    rw [hc]
    rfl
  · have hword := (Text.span_withReturns (p := isWordChar) (by decide) (by decide) c.rest).1
    rw [← Cursor.withReturns_eq_behindReturn hfeed,
      Cursor.skipWord_withReturns (by decide) (by decide)]
    rw [show c.withReturns.rest = c.rest.withReturns from rfl, hword]
    split
    · rfl
    · exact fail_answerAt rfl (by simp)

end ConfigValue

/-! ## Headers and entries -/

namespace Cursor

theorem readName_withReturns {c : Cursor} (h : c.peek = '[') :
    c.withReturns.readName = answerAt withReturns c.readName := by
  have harray : ∀ c' : Cursor, (c'.withReturns.peek == '[') = (c'.peek == '[') := by
    intro c'
    rw [Bool.eq_iff_iff, beq_iff_eq, beq_iff_eq, peek_withReturns_eq_iff (by decide) (by decide)]
  have hclose : ∀ c' : Cursor, c'.withReturns.peek = ']' ↔ c'.peek = ']' :=
    fun c' => peek_withReturns_eq_iff (by decide) (by decide)
  have hstart : (if (c.advance.peek == '[') = true then c.advance.withReturns.advance
      else c.advance.withReturns) =
      (if (c.advance.peek == '[') = true then c.advance.advance else c.advance).withReturns := by
    split
    · next h' => exact advance_withReturns (by rw [beq_iff_eq.mp h']; decide)
    · rfl
  unfold readName
  dsimp only
  rw [advance_withReturns (by rw [h]; decide), harray, hstart]
  generalize (if (c.advance.peek == '[') = true then c.advance.advance else c.advance) = start
  generalize (c.advance.peek == '[') = isArray
  rw [skip_withReturns (by decide) (by decide), peek_behindReturn, advance_behindReturn]
  split
  · exact fail_answerAt rfl (by simp)
  · next hbracket =>
    rw [not_not] at hbracket
    have hend : (start.rest.dropWhile fun x => x != ']' && x != '\n').head? ≠ some '\n' := by
      intro hhead
      have hpeek : (start.skip fun x => x != ']' && x != '\n').peek = '\n' := by
        rw [peek, skip, hhead]
        rfl
      exact absurd (hpeek.symm.trans hbracket) (by decide)
    have hname := Text.takeWhile_withReturns hend (by decide)
    rw [show start.withReturns.rest = start.rest.withReturns from rfl, hname]
    cases isArray with
    | false => rfl
    | true =>
        simp only [Bool.true_and, bne_iff_ne, ne_eq, hclose]
        split
        · exact fail_answerAt rfl (by simp)
        · next hbracket' =>
          rw [not_not] at hbracket'
          rw [if_true, if_true, advance_withReturns (by rw [hbracket']; decide)]
          rfl

theorem readKey_withReturns (c : Cursor) :
    c.withReturns.readKey = answerAt behindReturn c.readKey := by
  have hkey := (Text.span_withReturns (p := ConfigDraft.isKeyChar) (by decide) (by decide) c.rest).1
  unfold readKey
  dsimp only
  rw [show c.withReturns.rest = c.rest.withReturns from rfl, hkey,
    skipWord_withReturns (by decide) (by decide), skipBlanks_withReturns, peek_behindReturn,
    advance_behindReturn, skipBlanks_withReturns]
  split
  · exact fail_answerAt rfl (by simp)
  · split
    · exact fail_answerAt rfl (by simp)
    · rfl

end Cursor

namespace ConfigDraft

open Cursor (answerAt answerAt_bind error_answerAt fail_answerAt)

variable {c c' : Cursor}

theorem readHeader_withReturns (d : ConfigDraft) (h : c.peek = '[') :
    d.readHeader c.withReturns = answerAt Cursor.behindReturn (d.readHeader c) := by
  rw [readHeader_eq, readHeader_eq, Cursor.readName_withReturns h]
  refine answerAt_bind fun header c₁ _ => ?_
  dsimp only
  cases hopen : d.openTable header.1 header.2 with
  | error problem =>
      exact fail_answerAt rfl fun he => d.openTable_noEscape _ _ _ (he ▸ hopen)
  | ok d' =>
      dsimp only
      rw [Cursor.lineEnd_withReturns]
      cases hend : c₁.lineEnd with
      | ok c₂ => rfl
      | error e => exact congrArg Except.error (Cursor.withReturns_of_lineEnd_error hend).symm

theorem addEntry_noEscape (d : ConfigDraft) (key : Text) (v : ConfigValue) (line : Nat) :
    NoEscape (d.addEntry key v line) := by
  refine (d.entry?_noEscape key v).bind fun answer => ?_
  cases answer <;> exact .ok _

theorem readEntry_withReturns (d : ConfigDraft) (c : Cursor) :
    d.readEntry c.withReturns = answerAt Cursor.behindReturn (d.readEntry c) := by
  rw [readEntry_eq, readEntry_eq, Cursor.readKey_withReturns]
  refine answerAt_bind fun key start _ => ?_
  dsimp only
  rw [ConfigValue.read_behindReturn]
  refine answerAt_bind fun v c₁ _ => ?_
  dsimp only
  have hline : ∀ c₂ : Cursor, c₂.behindReturn.line = c₂.line := fun _ => rfl
  rw [Cursor.lineEnd_withReturns]
  cases hend : c₁.lineEnd with
  | error e => exact congrArg Except.error (Cursor.withReturns_of_lineEnd_error hend).symm
  | ok c₂ =>
      simp only [Except.map, bind, Except.bind, hline]
      cases hadd : d.addEntry key v c₂.line with
      | ok d' => rfl
      | error problem =>
          exact error_answerAt fun (he : problem = _) =>
            d.addEntry_noEscape _ _ _ _ (he ▸ hadd)

theorem step_withReturns (d : ConfigDraft) (c : Cursor) :
    d.step c.withReturns = answerAt Cursor.behindReturn (d.step c) := by
  have hbracket : c.withReturns.peek = '[' ↔ c.peek = '[' :=
    Cursor.peek_withReturns_eq_iff (by decide) (by decide)
  unfold step
  simp only [hbracket]
  split
  · next h => exact d.readHeader_withReturns h
  · exact d.readEntry_withReturns c

/-- Wherever the two cursors stand in front of the next item, the same is read from there on. -/
theorem readAll_withReturns {d : ConfigDraft} {fuel fuel' : Nat} (hpass : HasPass d.table d.config)
    (hspace : c'.skipSpace = c.skipSpace.withReturns) (henough : c.rest.length < fuel)
    (hfuel : fuel ≤ fuel') :
    readAll fuel' d c' =
      ((readAll fuel d c).1, (readAll fuel d c).2.map ConfigError.withReturns) := by
  induction fuel generalizing d c c' fuel' with
  | zero => exact absurd henough (Nat.not_lt_zero _)
  | succ fuel ih =>
      obtain ⟨fuel', rfl⟩ : ∃ m, fuel' = m + 1 := ⟨fuel' - 1, by omega⟩
      rw [readAll, readAll, hspace]
      simp only [Cursor.atEnd_withReturns, step_withReturns]
      split
      · rfl
      · cases hstep : d.step c.skipSpace with
        | error e => rfl
        | ok answer =>
            obtain ⟨item, hitem, heffect⟩ := step_ok hpass hstep
            have hshorter := Cursor.length_lt_of_readItem hitem
            exact ih heffect.hasPass (Cursor.skipSpace_behindReturn _) (by omega) (by omega)

/-- The same is stored and passed over, and the same error ends the reading, but for the escape of
a line feed. -/
theorem ofText_withReturns (t : Text) :
    ofText t.withReturns = ((ofText t).1, (ofText t).2.map ConfigError.withReturns) := by
  have hpass : HasPass (ConfigDraft.table {}) (ConfigDraft.config {}) := fun h => nomatch h
  have hlength := Text.length_le_withReturns t
  exact readAll_withReturns (c := ⟨t, 1⟩) hpass (Cursor.skipSpace_withReturns ⟨t, 1⟩)
    (Nat.lt_succ_self _) (Nat.succ_le_succ hlength)

end ConfigDraft

theorem Config.parse_withReturns (t : Text) :
    parse t.withReturns = (parse t).mapError ConfigError.withReturns := by
  unfold parse
  rw [ConfigDraft.ofText_withReturns]
  obtain ⟨d, e | e⟩ := ConfigDraft.ofText t <;> rfl

/-- **Listings and configurations read the same with either line ending.**  A listing gives the same
file and the same diagnostics.  A configuration text is accepted with the same result, and if it is
refused then with the same error, in front of which the same has been read; only a line feed behind
a backslash becomes a carriage return. -/
theorem Text.parse_withReturns_same (t : Text) :
    (∀ file, Listing.parse t.withReturns file = Listing.parse t file) ∧
    (∀ c, Config.parse t.withReturns = .ok c ↔ Config.parse t = .ok c) ∧
    ConfigDraft.ofText t.withReturns =
      ((ConfigDraft.ofText t).1, (ConfigDraft.ofText t).2.map ConfigError.withReturns) := by
  refine ⟨Listing.parse_withReturns t, fun c => ?_, ConfigDraft.ofText_withReturns t⟩
  rw [Config.parse_withReturns]
  cases Config.parse t <;> simp [Except.mapError]

/-- A string may not go over the end of a line, with or without a backslash. -/
example : Config.parse (Text.withReturns "[docgen]\nformat = \"a\\\nb\"\n") =
      .error ⟨.unknownEscape '\r', 2⟩ ∧
    Config.parse "[docgen]\nformat = \"a\\\nb\"\n" = .error ⟨.unknownEscape '\n', 3⟩ := by
  decide +kernel

end CrossDoc
