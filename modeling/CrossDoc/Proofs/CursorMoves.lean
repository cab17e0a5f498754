import CrossDoc.Config.Value
import Mathlib.Data.List.TakeWhile

/-!
# Moving through a configuration text

The readers move a cursor over the text that they read.  However it came there,
a cursor knows the line on which it stands.  What a reader gives depends on the
text that it has moved over and on nothing behind it, so it gives the same when
more text follows.
-/

namespace CrossDoc

/-! ## Answers and errors -/

section

variable {ε α β : Type} {x : Except ε α} {e : ε} {b : β}

theorem map_eq_ok {f : α → β} : x.map f = .ok b ↔ ∃ a, x = .ok a ∧ f a = b := by
  cases x <;> simp [Except.map]

theorem map_eq_error {f : α → β} : x.map f = .error e ↔ x = .error e := by
  cases x <;> simp [Except.map]

theorem bind_eq_ok {f : α → Except ε β} : (x >>= f) = .ok b ↔ ∃ a, x = .ok a ∧ f a = .ok b := by
  cases x <;> simp [bind, Except.bind]

theorem bind_eq_error {f : α → Except ε β} :
    (x >>= f) = .error e ↔ x = .error e ∨ ∃ a, x = .ok a ∧ f a = .error e := by
  cases x <;> simp [bind, Except.bind]

end

namespace Cursor

variable {c c' c'' : Cursor} {p : Char → Bool}

/-! ## Lines -/

/-- The second cursor stands behind the first one, and the line feeds between them are counted. -/
def Reaches (c c' : Cursor) : Prop :=
  ∃ used, c.rest = used ++ c'.rest ∧ c'.line = c.line + used.count '\n'

theorem Reaches.refl (c : Cursor) : c.Reaches c := ⟨[], rfl, rfl⟩

theorem Reaches.trans (h : c.Reaches c') (h' : c'.Reaches c'') : c.Reaches c'' := by
  obtain ⟨used, hrest, hline⟩ := h
  obtain ⟨used', hrest', hline'⟩ := h'
  refine ⟨used ++ used', ?_, ?_⟩
  · rw [hrest, hrest', List.append_assoc]
  · rw [hline', hline, List.count_append, Nat.add_assoc]

theorem Reaches.line_le (h : c.Reaches c') : c.line ≤ c'.line := by
  obtain ⟨used, -, hline⟩ := h
  rw [hline]
  exact Nat.le_add_right _ _

theorem Reaches.length_le (h : c.Reaches c') : c'.rest.length ≤ c.rest.length := by
  obtain ⟨used, hrest, -⟩ := h
  rw [hrest, List.length_append]
  exact Nat.le_add_left _ _

theorem Reaches.isSuffix (h : c.Reaches c') : c'.rest <:+ c.rest := by
  obtain ⟨used, hrest, -⟩ := h
  exact ⟨used, hrest.symm⟩

/-- The line feeds of the text bound the lines. -/
theorem Reaches.line_le_count (h : c.Reaches c') : c'.line ≤ c.line + c.rest.count '\n' := by
  obtain ⟨used, hrest, hline⟩ := h
  rw [hline, hrest, List.count_append]
  omega

theorem reaches_cons {x : Char} (hx : x ≠ '\n') (rest : Text) (line : Nat) :
    Reaches ⟨x :: rest, line⟩ ⟨rest, line⟩ :=
  ⟨[x], rfl, by rw [List.count_singleton, if_neg (by simpa using hx)]; rfl⟩

theorem reaches_newline (rest : Text) (line : Nat) :
    Reaches ⟨'\n' :: rest, line⟩ ⟨rest, line + 1⟩ := ⟨['\n'], rfl, rfl⟩

theorem reaches_advance (c : Cursor) : c.Reaches c.advance := by
  obtain ⟨rest, line⟩ := c
  cases rest with
  | nil => exact .refl _
  | cons x rest =>
      show Reaches _ ⟨rest, if x = '\n' then line + 1 else line⟩
      split
      · next hx => exact hx ▸ reaches_newline rest line
      · next hx => exact reaches_cons hx rest line

theorem length_advance_lt (h : c.atEnd = false) : c.advance.rest.length < c.rest.length := by
  obtain ⟨rest, line⟩ := c
  cases rest with
  | nil => cases h
  | cons x rest => exact Nat.lt_succ_self _

theorem atEnd_of_length_lt (h : c'.rest.length < c.rest.length) : c.atEnd = false := by
  obtain ⟨rest, line⟩ := c
  cases rest with
  | nil => exact absurd h (Nat.not_lt_zero _)
  | cons x rest => rfl

theorem line_advance (h : c.peek ≠ '\n') : c.advance.line = c.line := by
  obtain ⟨rest, line⟩ := c
  cases rest with
  | nil => rfl
  | cons x rest => exact if_neg h

theorem reaches_skip (hp : p '\n' = false) (c : Cursor) : c.Reaches (c.skip p) := by
  refine ⟨c.rest.takeWhile p, List.takeWhile_append_dropWhile.symm, ?_⟩
  have hnone : '\n' ∉ c.rest.takeWhile p := fun hmem =>
    Bool.false_ne_true (hp.symm.trans (List.mem_takeWhile_imp hmem))
  rw [List.count_eq_zero_of_not_mem hnone]
  rfl

theorem reaches_skipBlanks (c : Cursor) : c.Reaches c.skipBlanks := reaches_skip (by decide) c

theorem reaches_skipComment (c : Cursor) : c.Reaches c.skipComment := by
  unfold skipComment
  split
  · exact reaches_skip (by decide) c
  · exact .refl c

theorem line_skipComment (c : Cursor) : c.skipComment.line = c.line := by
  unfold skipComment
  split <;> rfl

theorem reaches_skipSpaceFrom : ∀ (inComment : Bool) (t : Text) (line : Nat),
    Reaches ⟨t, line⟩ (skipSpaceFrom inComment t line)
  | _, [], line => .refl _
  | inComment, x :: rest, line => by
      rw [skipSpaceFrom]
      split
      · next hx =>
        subst hx
        exact (reaches_newline rest line).trans (reaches_skipSpaceFrom false rest (line + 1))
      · next hx =>
        split
        · exact (reaches_cons hx rest line).trans (reaches_skipSpaceFrom inComment rest line)
        · split
          · exact (reaches_cons hx rest line).trans (reaches_skipSpaceFrom true rest line)
          · exact .refl _

theorem reaches_skipSpace (c : Cursor) : c.Reaches c.skipSpace :=
  reaches_skipSpaceFrom false c.rest c.line

/-- The line ends here. -/
def AtLineEnd (c : Cursor) : Prop := c.atEnd = true ∨ c.peek = '\n'

theorem lineEnd_eq_ok : c.lineEnd = .ok c' ↔ c' = c.skipBlanks.skipComment ∧ c'.AtLineEnd := by
  unfold lineEnd AtLineEnd
  dsimp only
  split
  · next h =>
    rw [Bool.or_eq_true, beq_iff_eq] at h
    constructor
    · intro heq
      cases heq
      exact ⟨rfl, h⟩
    · rintro ⟨rfl, -⟩
      rfl
  · next h =>
    rw [Bool.or_eq_true, beq_iff_eq] at h
    constructor
    · intro heq
      cases heq
    · rintro ⟨rfl, hend⟩
      exact absurd hend h

theorem reaches_lineEnd (h : c.lineEnd = .ok c') : c.Reaches c' := by
  rw [(lineEnd_eq_ok.mp h).1]
  exact (reaches_skipBlanks c).trans (reaches_skipComment _)

theorem line_of_lineEnd_error {e : ConfigError} (h : c.lineEnd = .error e) : e.line = c.line := by
  unfold lineEnd at h
  dsimp only at h
  split at h
  · cases h
  · cases h
    exact line_skipComment _

/-- The cursor has moved on within its line. -/
def ReachesOnLine (c c' : Cursor) : Prop := c.Reaches c' ∧ c'.line = c.line

theorem ReachesOnLine.refl (c : Cursor) : c.ReachesOnLine c := ⟨.refl c, rfl⟩

theorem ReachesOnLine.trans (h : c.ReachesOnLine c') (h' : c'.ReachesOnLine c'') :
    c.ReachesOnLine c'' := ⟨h.1.trans h'.1, h'.2.trans h.2⟩

theorem reachesOnLine_advance (h : c.peek ≠ '\n') : c.ReachesOnLine c.advance :=
  ⟨reaches_advance c, line_advance h⟩

theorem reachesOnLine_skip (hp : p '\n' = false) (c : Cursor) : c.ReachesOnLine (c.skip p) :=
  ⟨reaches_skip hp c, rfl⟩

theorem reachesOnLine_skipBlanks (c : Cursor) : c.ReachesOnLine c.skipBlanks :=
  reachesOnLine_skip (by decide) c

/-! ## Answers and errors at a cursor -/

/-- The reading ends at the cursor, with an answer or with an error. -/
inductive StopsAt {α : Type} : Except ConfigError (α × Cursor) → Cursor → Prop
  | ok (a : α) (c : Cursor) : StopsAt (.ok (a, c)) c
  | fail (c : Cursor) (problem : ConfigProblem) : StopsAt (c.fail problem) c

theorem StopsAt.map {α β : Type} {x : Except ConfigError (α × Cursor)} (h : StopsAt x c)
    (f : α → β) : StopsAt (x.map fun (a, c) => (f a, c)) c := by
  cases h with
  | ok a => exact .ok _ _
  | fail problem => exact .fail _ _

theorem StopsAt.eq_of_ok {α : Type} {x : Except ConfigError (α × Cursor)} {a : α}
    (h : StopsAt x c) (hx : x = .ok (a, c')) : c' = c := by
  cases h <;> cases hx
  rfl

theorem StopsAt.of_error {α β : Type} {e : ConfigError} {x : Except ConfigError (α × Cursor)}
    (h : StopsAt x c) (hx : x = .error e) :
    StopsAt (.error e : Except ConfigError (β × Cursor)) c := by
  cases h <;> cases hx
  exact .fail c _

theorem StopsAt.line_of_error {α : Type} {e : ConfigError} {x : Except ConfigError (α × Cursor)}
    (h : StopsAt x c) (hx : x = .error e) : e.line = c.line := by
  cases h <;> cases hx
  rfl

/-! ## More text behind -/

/-- The cursor in a text that goes on behind the one it was in and starts some lines further
down. -/
def within (c : Cursor) (z : Text) (n : Nat) : Cursor := ⟨c.rest ++ z, c.line + n⟩

/-- Nothing follows, or the line ends first. -/
def EndsLine (z : Text) : Prop := ∀ x ∈ z.head?, x = '\n'

variable {z : Text}

theorem peek_within (h : c.atEnd = false) (z : Text) (n : Nat) : (c.within z n).peek = c.peek := by
  obtain ⟨rest, line⟩ := c
  cases rest with
  | nil => cases h
  | cons x rest => rfl

theorem atEnd_within (h : c.atEnd = false) (z : Text) (n : Nat) :
    (c.within z n).atEnd = false := by
  obtain ⟨rest, line⟩ := c
  cases rest with
  | nil => cases h
  | cons x rest => rfl

theorem atEnd_of_peek {x : Char} (h : c.peek = x) (hx : x ≠ '\x00') : c.atEnd = false := by
  obtain ⟨rest, line⟩ := c
  cases rest with
  | nil => exact absurd h.symm hx
  | cons y rest => rfl

/-- At the end of a line no other character is seen, wherever the text ends. -/
theorem peek_within_eq (hz : EndsLine z) {x : Char} (hx : x ≠ '\n') (hnul : x ≠ '\x00') (n : Nat) :
    (c.within z n).peek = x ↔ c.peek = x := by
  obtain ⟨rest, line⟩ := c
  cases rest with
  | cons y rest => exact Iff.rfl
  | nil =>
      have hpeek : peek ⟨[], line⟩ ≠ x := fun h => hnul h.symm
      refine ⟨fun h => absurd h ?_, fun h => absurd h hpeek⟩
      cases z with
      | nil => exact hpeek
      | cons y z => exact fun h => hx (h.symm.trans (hz y rfl))

theorem advance_within (h : c.atEnd = false) (z : Text) (n : Nat) :
    (c.within z n).advance = c.advance.within z n := by
  obtain ⟨rest, line⟩ := c
  cases rest with
  | nil => cases h
  | cons x rest =>
      have hline : (if x = '\n' then line + n + 1 else line + n) =
          (if x = '\n' then line + 1 else line) + n := by
        split
        · exact Nat.add_right_comm line n 1
        · rfl
      exact congrArg (Cursor.mk (rest ++ z)) hline

theorem takeWhile_endsLine (hz : EndsLine z) (hp : p '\n' = false) : z.takeWhile p = [] := by
  cases z with
  | nil => rfl
  | cons x z => rw [hz x rfl, List.takeWhile_cons_of_neg (by simp [hp])]

theorem takeWhile_append_endsLine (hz : EndsLine z) (hp : p '\n' = false) :
    ∀ t : Text, (t ++ z).takeWhile p = t.takeWhile p
  | [] => takeWhile_endsLine hz hp
  | x :: t => by
      rw [List.cons_append, List.takeWhile_cons, List.takeWhile_cons,
        takeWhile_append_endsLine hz hp t]

theorem skip_within (hz : EndsLine z) (hp : p '\n' = false) (n : Nat) :
    (c.within z n).skip p = (c.skip p).within z n := by
  have hdrop : (c.rest ++ z).dropWhile p = c.rest.dropWhile p ++ z := by
    have htake := takeWhile_append_endsLine hz hp c.rest
    have hall : (c.rest ++ z).takeWhile p ++ (c.rest ++ z).dropWhile p =
        c.rest.takeWhile p ++ c.rest.dropWhile p ++ z := by
      rw [List.takeWhile_append_dropWhile, List.takeWhile_append_dropWhile]
    rw [htake, List.append_assoc] at hall
    exact List.append_cancel_left hall
  exact congrArg (Cursor.mk · (c.line + n)) hdrop

theorem skipBlanks_within (hz : EndsLine z) (n : Nat) :
    (c.within z n).skipBlanks = c.skipBlanks.within z n := skip_within hz (by decide) n

theorem skipComment_within (hz : EndsLine z) (n : Nat) :
    (c.within z n).skipComment = c.skipComment.within z n := by
  have hpeek := peek_within_eq (c := c) hz (x := '#') (by decide) (by decide) n
  unfold skipComment
  split
  · next h => rw [if_pos (hpeek.mp h), skip_within hz (by decide)]
  · next h => rw [if_neg (mt hpeek.mpr h)]

theorem AtLineEnd.within (h : c.AtLineEnd) (hz : EndsLine z) (n : Nat) :
    (c.within z n).AtLineEnd := by
  obtain ⟨rest, line⟩ := c
  cases rest with
  | cons x rest => exact .inr (h.resolve_left (by simp [atEnd]))
  | nil =>
      cases z with
      | nil => exact .inl rfl
      | cons y z => exact .inr (hz y rfl)

theorem lineEnd_within (hz : EndsLine z) (h : c.lineEnd = .ok c') (n : Nat) :
    (c.within z n).lineEnd = .ok (c'.within z n) := by
  obtain ⟨rfl, hend⟩ := lineEnd_eq_ok.mp h
  rw [lineEnd_eq_ok, skipBlanks_within hz, skipComment_within hz]
  exact ⟨rfl, hend.within hz n⟩

theorem skipSpaceFrom_within : ∀ {inComment : Bool} {t : Text} {line : Nat},
    (skipSpaceFrom inComment t line).atEnd = false → ∀ (z : Text) (n : Nat),
      skipSpaceFrom inComment (t ++ z) (line + n) = (skipSpaceFrom inComment t line).within z n
  | _, [], _, h, _, _ => nomatch h
  | inComment, x :: rest, line, h, z, n => by
      rw [List.cons_append]
      unfold skipSpaceFrom at h ⊢
      split
      · next hx =>
        rw [if_pos hx] at h
        rw [Nat.add_right_comm]
        exact skipSpaceFrom_within h z n
      · next hx =>
        rw [if_neg hx] at h
        split
        · next hblank =>
          rw [if_pos hblank] at h
          exact skipSpaceFrom_within h z n
        · next hblank =>
          rw [if_neg hblank] at h
          split
          · next hcomment =>
            rw [if_pos hcomment] at h
            exact skipSpaceFrom_within h z n
          · rfl

theorem skipSpace_within (h : c.skipSpace.atEnd = false) (z : Text) (n : Nat) :
    (c.within z n).skipSpace = c.skipSpace.within z n := skipSpaceFrom_within h z n

/-- The end of a text is found on every line. -/
theorem atEnd_skipSpaceFrom : ∀ {inComment : Bool} {t : Text} {line : Nat},
    (skipSpaceFrom inComment t line).atEnd = true → ∀ line',
      (skipSpaceFrom inComment t line').atEnd = true
  | _, [], _, _, _ => rfl
  | inComment, x :: rest, line, h, line' => by
      unfold skipSpaceFrom at h ⊢
      split
      · next hx =>
        rw [if_pos hx] at h
        exact atEnd_skipSpaceFrom h (line' + 1)
      · next hx =>
        rw [if_neg hx] at h
        split
        · next hblank =>
          rw [if_pos hblank] at h
          exact atEnd_skipSpaceFrom h line'
        · next hblank =>
          rw [if_neg hblank] at h
          split
          · next hcomment =>
            rw [if_pos hcomment] at h
            exact atEnd_skipSpaceFrom h line'
          · next hcomment =>
            rw [if_neg hcomment] at h
            cases h

/-- Where the text has nothing more, what follows in the next line is next. -/
theorem skipSpaceFrom_newline : ∀ {inComment : Bool} {t : Text} {line : Nat},
    (skipSpaceFrom inComment t line).atEnd = true → ∀ (z : Text) (n : Nat), ∃ m,
      skipSpaceFrom inComment (t ++ '\n' :: z) (line + n) = skipSpace ⟨z, 1 + m⟩
  | inComment, [], line, _, z, n => ⟨line + n, by rw [Nat.add_comm 1]; rfl⟩
  | inComment, x :: rest, line, h, z, n => by
      rw [List.cons_append]
      unfold skipSpaceFrom at h ⊢
      split
      · next hx =>
        rw [if_pos hx] at h
        rw [Nat.add_right_comm]
        exact skipSpaceFrom_newline h z n
      · next hx =>
        rw [if_neg hx] at h
        split
        · next hblank =>
          rw [if_pos hblank] at h
          exact skipSpaceFrom_newline h z n
        · next hblank =>
          rw [if_neg hblank] at h
          split
          · next hcomment =>
            rw [if_pos hcomment] at h
            exact skipSpaceFrom_newline h z n
          · next hcomment =>
            rw [if_neg hcomment] at h
            cases h

end Cursor

end CrossDoc
