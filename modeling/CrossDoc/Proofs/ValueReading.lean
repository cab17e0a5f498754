import CrossDoc.Proofs.CursorMoves

/-!
# Reading configuration values

The reading of a value stops behind the value, or where the value is at fault.  A
string is at fault on the line on which it starts, with one exception: a line feed
behind a backslash is read before it is found to be no escape.  An array may take
several lines.
-/

namespace CrossDoc

namespace ConfigValue

open Cursor (StopsAt)

variable {c c' : Cursor} {z : Text} {v : ConfigValue} {e : ConfigError}

/-! ## Strings -/

/-- Where the reading of a string stops, behind its opening quote: behind the closing one, or where
it is at fault. -/
def stringStop : Text → Nat → Cursor
  | [], line => ⟨[], line⟩
  | '\\' :: [], line => ⟨[], line⟩
  | '\\' :: e :: rest, line =>
      match unescape? e with
      | none => ⟨rest, if e = '\n' then line + 1 else line⟩
      | some _ => stringStop rest line
  | x :: rest, line =>
      if x = '\n' then ⟨x :: rest, line⟩
      else if x = '"' then ⟨rest, line⟩
      else stringStop rest line

theorem unescape?_newline : unescape? '\n' = none := by decide

theorem reaches_stringStop (t : Text) (line : Nat) :
    Cursor.Reaches ⟨t, line⟩ (stringStop t line) := by
  fun_induction stringStop t line with
  | case1 line => exact .refl _
  | case2 line => exact Cursor.reaches_cons (by decide) [] line
  | case3 e rest line hnone =>
      exact (Cursor.reaches_cons (by decide) (e :: rest) line).trans (Cursor.reaches_advance _)
  | case4 e rest line x hsome ih =>
      have he : e ≠ '\n' := by
        rintro rfl
        rw [unescape?_newline] at hsome
        cases hsome
      exact ((Cursor.reaches_cons (by decide) (e :: rest) line).trans
        (Cursor.reaches_cons he rest line)).trans ih
  | case5 rest line => exact .refl _
  | case6 rest line => exact Cursor.reaches_cons (by decide) rest line
  | case7 x rest line _ _ hnewline _ ih => exact (Cursor.reaches_cons hnewline rest line).trans ih

theorem readString_stops (t : Text) (line : Nat) :
    StopsAt (readString t line) (stringStop t line) := by
  fun_induction readString t line with
  | case1 line => exact .fail ⟨[], line⟩ _
  | case2 line => exact .fail ⟨[], line⟩ _
  | case3 e rest line hnone =>
      simp only [stringStop, hnone]
      exact .fail ⟨rest, if e = '\n' then line + 1 else line⟩ _
  | case4 e rest line x hsome ih =>
      simp only [stringStop, hsome]
      exact ih.map _
  | case5 rest line => exact .fail ⟨'\n' :: rest, line⟩ _
  | case6 rest line => exact .ok _ _
  | case7 x rest line hend hescape hnewline hquote ih =>
      rw [stringStop.eq_4 _ _ _ hend hescape, if_neg hnewline, if_neg hquote]
      exact ih.map _

/-- A string ends on the line on which it starts. -/
theorem line_of_readString {t u : Text} {line : Nat} (h : readString t line = .ok (u, c)) :
    c.line = line := by
  fun_induction readString t line generalizing u c with
  | case1 line => cases h
  | case2 line => cases h
  | case3 e rest line hnone => cases h
  | case4 e rest line x hsome ih =>
      obtain ⟨⟨u', c'⟩, hread, heq⟩ := map_eq_ok.mp h
      cases heq
      exact ih hread
  | case5 rest line => cases h
  | case6 rest line =>
      cases h
      rfl
  | case7 x rest line hend hescape hnewline hquote ih =>
      obtain ⟨⟨u', c'⟩, hread, heq⟩ := map_eq_ok.mp h
      cases heq
      exact ih hread

/-- It is at fault there as well, unless it holds a backslash in front of the line feed. -/
theorem line_of_readString_error {t : Text} {line : Nat} (h : readString t line = .error e) :
    e.line = if e.problem = .unknownEscape '\n' then line + 1 else line := by
  fun_induction readString t line with
  | case1 line =>
      cases h
      rfl
  | case2 line =>
      cases h
      rfl
  | case3 x rest line hnone =>
      cases h
      simp
  | case4 x rest line y hsome ih => exact ih (map_eq_error.mp h)
  | case5 rest line =>
      cases h
      rfl
  | case6 rest line => cases h
  | case7 x rest line hend hescape hnewline hquote ih => exact ih (map_eq_error.mp h)

/-- A string is read up to its closing quote, whatever follows. -/
theorem readString_within {t u : Text} {line : Nat} (h : readString t line = .ok (u, c))
    (z : Text) (n : Nat) : readString (t ++ z) (line + n) = .ok (u, c.within z n) := by
  fun_induction readString t line generalizing u c with
  | case1 line => cases h
  | case2 line => cases h
  | case3 e rest line hnone => cases h
  | case4 e rest line x hsome ih =>
      obtain ⟨⟨u', c'⟩, hread, heq⟩ := map_eq_ok.mp h
      cases heq
      simp only [List.cons_append, readString, hsome, ih hread]
      rfl
  | case5 rest line => cases h
  | case6 rest line =>
      cases h
      rfl
  | case7 x rest line hend hescape hnewline hquote ih =>
      obtain ⟨⟨u', c'⟩, hread, heq⟩ := map_eq_ok.mp h
      cases heq
      have hx : x ≠ '\\' := by
        rintro rfl
        cases rest with
        | nil => exact hend rfl rfl
        | cons e rest => exact hescape e rest rfl rfl
      rw [List.cons_append, readString.eq_4 _ _ _ (fun h => absurd h hx)
        (fun _ _ h => absurd h hx), if_neg hnewline, if_neg hquote, ih hread]
      rfl

/-! ## Arrays -/

/-- Where the reading of an array stops, behind its opening bracket: behind the closing one, or
where it is at fault. -/
def itemsStop : Nat → Cursor → Cursor
  | 0, c => c
  | fuel + 1, c =>
      let c := c.skipSpace
      if c.atEnd then c
      else if c.peek = ']' then c.advance
      else if c.peek ≠ '"' then c
      else match readString c.advance.rest c.line with
        | .error _ => stringStop c.advance.rest c.line
        | .ok (_, c) =>
            let c := c.skipSpace
            if c.peek = ',' then itemsStop fuel c.advance
            else if c.peek = ']' then c.advance
            else c

/-- The text of a string starts behind a quote, on the same line. -/
theorem reaches_behindQuote (h : c.peek = '"') : c.Reaches ⟨c.advance.rest, c.line⟩ := by
  have hline : c.advance.line = c.line := Cursor.line_advance (by rw [h]; decide)
  have hreaches := Cursor.reaches_advance c
  rwa [← hline]

theorem reaches_itemsStop (fuel : Nat) (c : Cursor) : c.Reaches (itemsStop fuel c) := by
  induction fuel generalizing c with
  | zero => exact .refl c
  | succ fuel ih =>
      refine (Cursor.reaches_skipSpace c).trans ?_
      unfold itemsStop
      dsimp only
      split
      · exact .refl _
      · split
        · exact Cursor.reaches_advance _
        · split
          · exact .refl _
          · next hquote =>
            have hquote := reaches_behindQuote (not_not.mp hquote)
            split
            · exact hquote.trans (reaches_stringStop _ _)
            · next hread =>
              have hstring := hquote.trans (reaches_stringStop _ _)
              rw [← (readString_stops _ _).eq_of_ok hread] at hstring
              refine hstring.trans ((Cursor.reaches_skipSpace _).trans ?_)
              split
              · exact (Cursor.reaches_advance _).trans (ih _)
              · split
                · exact Cursor.reaches_advance _
                · exact .refl _

/-- What is left of an array behind its first string. -/
def readMore (fuel : Nat) (item : Text) (c : Cursor) : Except ConfigError (List Text × Cursor) :=
  if c.peek = ',' then (readItems fuel c.advance).map fun (items, c) => (item :: items, c)
  else if c.peek = ']' then .ok ([item], c.advance)
  else c.fail .arraySeparator

theorem readItems_succ (fuel : Nat) (c : Cursor) :
    readItems (fuel + 1) c =
      if c.skipSpace.atEnd then c.skipSpace.fail .unterminatedArray
      else if c.skipSpace.peek = ']' then .ok ([], c.skipSpace.advance)
      else if c.skipSpace.peek ≠ '"' then c.skipSpace.fail .arrayItem
      else (readString c.skipSpace.advance.rest c.skipSpace.line) >>= fun (item, c) =>
        readMore fuel item c.skipSpace := rfl

theorem readItems_stops (fuel : Nat) (c : Cursor) :
    StopsAt (readItems fuel c) (itemsStop fuel c) := by
  induction fuel generalizing c with
  | zero => exact .fail c _
  | succ fuel ih =>
      rw [readItems_succ]
      unfold itemsStop
      dsimp only
      split
      · exact .fail _ _
      · split
        · exact .ok _ _
        · split
          · exact .fail _ _
          · have hstring := readString_stops c.skipSpace.advance.rest c.skipSpace.line
            cases hread : readString c.skipSpace.advance.rest c.skipSpace.line with
            | error e => exact hstring.of_error hread
            | ok answer =>
                obtain ⟨item, c'⟩ := answer
                show StopsAt (readMore fuel item c'.skipSpace)
                  (if c'.skipSpace.peek = ',' then itemsStop fuel c'.skipSpace.advance
                    else if c'.skipSpace.peek = ']' then c'.skipSpace.advance
                    else c'.skipSpace)
                unfold readMore
                split
                · exact (ih _).map _
                · split
                  · exact .ok _ _
                  · exact .fail _ _

/-- An array is read up to its closing bracket, whatever follows, and more fuel changes nothing. -/
theorem readItems_within {fuel fuel' : Nat} {ts : List Text}
    (h : readItems fuel c = .ok (ts, c')) (hfuel : fuel ≤ fuel') (z : Text) (n : Nat) :
    readItems fuel' (c.within z n) = .ok (ts, c'.within z n) := by
  induction fuel generalizing c ts fuel' with
  | zero => cases h
  | succ fuel ih =>
      obtain ⟨fuel', rfl⟩ : ∃ m, fuel' = m + 1 := ⟨fuel' - 1, by omega⟩
      rw [readItems_succ] at h ⊢
      split at h
      · cases h
      · next hend =>
        rw [Bool.not_eq_true] at hend
        rw [Cursor.skipSpace_within hend, if_neg (by simp [Cursor.atEnd_within hend]),
          Cursor.peek_within hend, Cursor.advance_within hend]
        split at h
        · next hclose =>
          cases h
          rw [if_pos hclose]
        · next hclose =>
          rw [if_neg hclose]
          split at h
          · cases h
          · next hquote =>
            rw [if_neg hquote]
            obtain ⟨⟨item, c₁⟩, hread, hmore⟩ := bind_eq_ok.mp h
            refine bind_eq_ok.mpr ⟨(item, c₁.within z n), readString_within hread z n, ?_⟩
            change readMore fuel item c₁.skipSpace = _ at hmore
            show readMore fuel' item (c₁.within z n).skipSpace = _
            unfold readMore at hmore ⊢
            split at hmore
            · next hcomma =>
              have hmiddle := Cursor.atEnd_of_peek hcomma (by decide)
              obtain ⟨⟨items, c₂⟩, hitems, heq⟩ := map_eq_ok.mp hmore
              cases heq
              rw [Cursor.skipSpace_within hmiddle, Cursor.peek_within hmiddle, if_pos hcomma,
                Cursor.advance_within hmiddle, ih hitems (Nat.le_of_succ_le_succ hfuel)]
              rfl
            · next hcomma =>
              split at hmore
              · next hlast =>
                have hmiddle := Cursor.atEnd_of_peek hlast (by decide)
                cases hmore
                rw [Cursor.skipSpace_within hmiddle, Cursor.peek_within hmiddle, if_neg hcomma,
                  if_pos hlast, Cursor.advance_within hmiddle]
              · cases hmore

/-! ## Values -/

theorem read_of_quote (h : c.peek = '"') :
    read c = (readString c.advance.rest c.line).map fun (t, c) => (.text t, c) := if_pos h

theorem read_of_bracket (h : c.peek = '[') :
    read c = (readItems (c.rest.length + 1) c.advance).map fun (ts, c) => (.list ts, c) := by
  rw [read, if_neg (by rw [h]; decide), if_pos h]

theorem read_of_ne (hquote : c.peek ≠ '"') (hbracket : c.peek ≠ '[') :
    read c = match ofWord? (c.rest.takeWhile isWordChar) with
      | some v => .ok (v, c.skip isWordChar)
      | none => (c.skip isWordChar).fail (.invalidValue (c.rest.takeWhile isWordChar)) :=
  (if_neg hquote).trans (if_neg hbracket)

/-- Where the reading of a value stops. -/
def valueStop (c : Cursor) : Cursor :=
  if c.peek = '"' then stringStop c.advance.rest c.line
  else if c.peek = '[' then itemsStop (c.rest.length + 1) c.advance
  else c.skip isWordChar

theorem read_stops (c : Cursor) : StopsAt (read c) (valueStop c) := by
  unfold valueStop
  split
  · next hquote =>
    rw [read_of_quote hquote]
    exact (readString_stops _ _).map _
  · next hquote =>
    split
    · next hbracket =>
      rw [read_of_bracket hbracket]
      exact (readItems_stops _ _).map _
    · next hbracket =>
      rw [read_of_ne hquote hbracket]
      split
      · exact .ok _ _
      · exact .fail _ _

theorem reaches_valueStop (c : Cursor) : c.Reaches (valueStop c) := by
  unfold valueStop
  split
  · next hquote => exact (reaches_behindQuote hquote).trans (reaches_stringStop _ _)
  · split
    · exact (Cursor.reaches_advance c).trans (reaches_itemsStop _ _)
    · exact Cursor.reaches_skip (by decide) c

theorem reaches_read (h : read c = .ok (v, c')) : c.Reaches c' :=
  (read_stops c).eq_of_ok h ▸ reaches_valueStop c

/-- A value is read up to its end, whatever follows in the next line. -/
theorem read_within (hz : Cursor.EndsLine z) (h : read c = .ok (v, c')) (n : Nat) :
    read (c.within z n) = .ok (v, c'.within z n) := by
  have hpeek : ∀ x, x ≠ '\n' → x ≠ '\x00' → ((c.within z n).peek = x ↔ c.peek = x) :=
    fun x hx hnul => Cursor.peek_within_eq hz hx hnul n
  by_cases hquote : c.peek = '"'
  · have hend := Cursor.atEnd_of_peek hquote (by decide)
    rw [read_of_quote hquote] at h
    obtain ⟨⟨t, c₁⟩, hread, heq⟩ := map_eq_ok.mp h
    cases heq
    rw [read_of_quote ((hpeek _ (by decide) (by decide)).mpr hquote), Cursor.advance_within hend]
    exact map_eq_ok.mpr ⟨_, readString_within hread z n, rfl⟩
  by_cases hbracket : c.peek = '['
  · have hend := Cursor.atEnd_of_peek hbracket (by decide)
    rw [read_of_bracket hbracket] at h
    obtain ⟨⟨ts, c₁⟩, hread, heq⟩ := map_eq_ok.mp h
    cases heq
    rw [read_of_bracket ((hpeek _ (by decide) (by decide)).mpr hbracket),
      Cursor.advance_within hend]
    have hfuel : c.rest.length + 1 ≤ (c.within z n).rest.length + 1 := by
      simp [Cursor.within]
    exact map_eq_ok.mpr ⟨_, readItems_within hread hfuel z n, rfl⟩
  · rw [read_of_ne hquote hbracket] at h
    rw [read_of_ne (mt (hpeek _ (by decide) (by decide)).mp hquote)
      (mt (hpeek _ (by decide) (by decide)).mp hbracket), Cursor.skip_within hz (by decide)]
    have hword : (c.within z n).rest.takeWhile isWordChar = c.rest.takeWhile isWordChar :=
      Cursor.takeWhile_append_endsLine hz (by decide) c.rest
    rw [hword]
    cases hv : ofWord? (c.rest.takeWhile isWordChar) with
    | none =>
        rw [hv] at h
        cases h
    | some w =>
        rw [hv] at h
        cases h
        rfl

end ConfigValue

end CrossDoc
