import CrossDoc.Proofs.ConfigEffects

/-!
# The lines of configuration errors

A text that is not accepted has a first header or entry that cannot be read or stored,
and the error names a line of it: the line on which it starts, or one of the lines of
its array.  One error names a line too far: a line feed behind a backslash has been
read when it is found to be no escape.
-/

namespace CrossDoc

/-! ## The item at fault -/

namespace ConfigDraft

/-- Reading the text comes to the cursor, where the next header or entry is looked for. -/
inductive Arrives (t : Text) : ConfigDraft → Cursor → Prop
  | start : Arrives t {} ⟨t, 1⟩
  | step {d d' : ConfigDraft} {c c' : Cursor} (harrives : Arrives t d c)
      (hstep : d.step c.skipSpace = .ok (d', c')) : Arrives t d' c'

variable {t : Text} {d d' : ConfigDraft} {c c' : Cursor} {e : ConfigError}

theorem Arrives.hasPass (h : Arrives t d c) : HasPass d.table d.config := by
  induction h with
  | start => exact fun h => nomatch h
  | step harrives hstep ih =>
      obtain ⟨item, -, heffect⟩ := step_ok ih hstep
      exact heffect.hasPass

theorem Arrives.reaches (h : Arrives t d c) : Cursor.Reaches ⟨t, 1⟩ c := by
  induction h with
  | start => exact .refl _
  | @step d d' c c' harrives hstep ih =>
      obtain ⟨item, hitem, -⟩ := step_ok harrives.hasPass hstep
      exact (ih.trans (Cursor.reaches_skipSpace c)).trans (Cursor.reaches_readItem hitem).1

/-- From where the reading has come to, the rest of the text is read. -/
theorem Arrives.exists_ofText_eq (h : Arrives t d c) :
    ∃ fuel, c.rest.length < fuel ∧ ofText t = readAll fuel d c := by
  induction h with
  | start => exact ⟨t.length + 1, Nat.lt_succ_self _, rfl⟩
  | @step d d' c c' harrives hstep ih =>
      obtain ⟨fuel, hfuel, hread⟩ := ih
      obtain ⟨fuel, rfl⟩ := Nat.exists_eq_succ_of_ne_zero (Nat.ne_zero_of_lt hfuel)
      obtain ⟨item, hitem, -⟩ := step_ok harrives.hasPass hstep
      refine ⟨fuel, Nat.lt_of_lt_of_le (Cursor.length_lt_of_readItem hitem)
        (Nat.le_of_lt_succ hfuel), ?_⟩
      rw [hread, readAll]
      simp only [Cursor.atEnd_of_readItem hitem, Bool.false_eq_true, if_false, hstep]

theorem exists_of_readAll_error {fuel : Nat} (harrives : Arrives t d c)
    (h : readAll fuel d c = (d', some e)) :
    ∃ d c, Arrives t d c ∧ c.skipSpace.atEnd = false ∧ d.step c.skipSpace = .error e := by
  induction fuel generalizing d c with
  | zero => cases h
  | succ fuel ih =>
      rw [readAll] at h
      split at h
      · cases h
      · next hend =>
        split at h
        · next hstep =>
          cases h
          exact ⟨_, c, harrives, Bool.eq_false_iff.mpr hend, hstep⟩
        · next hstep => exact ih (harrives.step hstep) h

end ConfigDraft

open ConfigDraft (Arrives)

/-- A text is at fault where the first header or entry is. -/
theorem Config.parse_eq_error_iff {t : Text} {e : ConfigError} : parse t = .error e ↔
    ∃ d c, Arrives t d c ∧ c.skipSpace.atEnd = false ∧ d.step c.skipSpace = .error e := by
  constructor
  · intro h
    unfold parse at h
    split at h
    · cases h
    · next hread =>
      cases h
      exact ConfigDraft.exists_of_readAll_error .start hread
  · rintro ⟨d, c, harrives, hend, hstep⟩
    obtain ⟨fuel, hfuel, hread⟩ := harrives.exists_ofText_eq
    obtain ⟨fuel, rfl⟩ := Nat.exists_eq_succ_of_ne_zero (Nat.ne_zero_of_lt hfuel)
    rw [ConfigDraft.readAll] at hread
    simp only [hend, Bool.false_eq_true, if_false, hstep] at hread
    rw [parse, hread]

/-! ## Problems -/

/-- The problem, if there is one, is not that of an escape. -/
def NoEscape {α : Type} (x : Except ConfigProblem α) : Prop :=
  ∀ escaped, x ≠ .error (.unknownEscape escaped)

namespace NoEscape

variable {α β : Type} {x y : Except ConfigProblem α}

theorem ok (a : α) : NoEscape (.ok a : Except ConfigProblem α) := fun _ h => nomatch h

theorem bind (hx : NoEscape x) {f : α → Except ConfigProblem β} (hf : ∀ a, NoEscape (f a)) :
    NoEscape (x >>= f) := by
  intro escaped h
  rcases bind_eq_error.mp h with hx' | ⟨a, -, ha⟩
  · exact hx escaped hx'
  · exact hf a escaped ha

theorem store (hx : NoEscape x) {f : α → β} : NoEscape (x >>= fun a => pure (f a)) :=
  hx.bind fun _ => .ok _

theorem ite {P : Prop} [Decidable P] (hx : NoEscape x) (hy : NoEscape y) :
    NoEscape (if P then x else y) := by
  split
  · exact hx
  · exact hy

variable (key : Text) (v : ConfigValue)

theorem asText : NoEscape (v.asText key) := by
  cases v <;> exact fun _ h => nomatch h

theorem asBoolean : NoEscape (v.asBoolean key) := by
  cases v <;> exact fun _ h => nomatch h

theorem asInteger : NoEscape (v.asInteger key) := by
  cases v <;> exact fun _ h => nomatch h

theorem asList : NoEscape (v.asList key) := by
  cases v <;> exact fun _ h => nomatch h

theorem asFamily : NoEscape (v.asFamily key) := by
  refine (asText key v).bind fun name => ?_
  split
  · exact .ok _
  · exact fun _ h => nomatch h

theorem setLast {set? : α → Except ConfigProblem (Option α)} (h : ∀ a, NoEscape (set? a)) :
    ∀ as : List α, NoEscape (setLast? set? as)
  | [] => .ok _
  | [a] => (h a).store
  | _ :: b :: rest => (setLast h (b :: rest)).store

end NoEscape

section

variable (key : Text) (v : ConfigValue)

theorem PackageOptions.set?_noEscape (o : PackageOptions) : NoEscape (o.set? key v) := by
  unfold PackageOptions.set?
  refine .ite (NoEscape.asText key v).store ?_
  repeat refine .ite (NoEscape.asBoolean key v).store ?_
  exact .ok _

theorem SourceLink.set?_noEscape (l : SourceLink) : NoEscape (l.set? key v) := by
  unfold SourceLink.set?
  repeat refine .ite (NoEscape.asText key v).store ?_
  exact .ok _

theorem ExternalLink.set?_noEscape (l : ExternalLink) : NoEscape (l.set? key v) := by
  unfold ExternalLink.set?
  repeat refine .ite (NoEscape.asText key v).store ?_
  exact .ok _

theorem Pass.set?_noEscape (p : Pass) : NoEscape (p.set? key v) := by
  unfold Pass.set?
  refine .ite (NoEscape.asText key v).store ?_
  refine .ite (NoEscape.asFamily key v).store ?_
  repeat refine .ite (NoEscape.asList key v).store ?_
  refine .ite (NoEscape.asInteger key v).store ?_
  repeat refine .ite (NoEscape.asBoolean key v).store ?_
  repeat refine .ite (NoEscape.asText key v).store ?_
  exact .ok _

theorem Config.set?_noEscape (c : Config) : NoEscape (c.set? key v) := by
  unfold Config.set?
  repeat refine .ite (NoEscape.asText key v).store ?_
  refine .ite (NoEscape.asList key v).store ?_
  repeat refine .ite (NoEscape.asBoolean key v).store ?_
  refine .ite (NoEscape.asList key v).store ?_
  exact .ok _

theorem ConfigDraft.entry?_noEscape (d : ConfigDraft) : NoEscape (d.entry? key v) := by
  have hlast : ∀ {α : Type} {set? : α → Except ConfigProblem (Option α)} {β : Type}
      {as : List α} {f : List α → β}, (∀ a, NoEscape (set? a)) →
        NoEscape (do return (← setLast? set? as).map f) :=
    fun h => (NoEscape.setLast h _).store
  obtain ⟨config, table, ignored⟩ := d
  cases table with
  | outside => exact fun _ h => nomatch h
  | docgen => exact config.set?_noEscape key v
  | pass => exact hlast (Pass.set?_noEscape key v)
  | package => exact hlast fun p => hlast (PackageOptions.set?_noEscape key v)
  | sourceLink => exact hlast fun p => hlast (SourceLink.set?_noEscape key v)
  | externalLink => exact hlast fun p => hlast (ExternalLink.set?_noEscape key v)

end

theorem ConfigDraft.openTable_noEscape (d : ConfigDraft) (isArray : Bool) (name : Text) :
    NoEscape (d.openTable isArray name) := by
  have hpart : ∀ table add, NoEscape (d.openPart name table add) := by
    intro table add
    exact .ite (fun _ h => nomatch h) (.ok _)
  have hunknown : NoEscape (.error (.unknownTable name) : Except ConfigProblem ConfigDraft) :=
    fun _ h => nomatch h
  exact .ite (.ite (.ok _) hunknown) <| .ite (.ok _) <| .ite (hpart _ _) <| .ite (hpart _ _) <|
    .ite (hpart _ _) hunknown

namespace Cursor

variable {c : Cursor} {e : ConfigError}

theorem problem_of_readName (h : c.readName = .error e) :
    e.problem = .unterminatedHeader ∨ e.problem = .unclosedArrayHeader := by
  unfold readName at h
  dsimp only at h
  generalize (if (c.advance.peek == '[') = true then c.advance.advance else c.advance) = start at h
  split at h
  · cases h
    exact .inl rfl
  · split at h
    · cases h
      exact .inr rfl
    · cases h

theorem problem_of_readKey (h : c.readKey = .error e) :
    e.problem = .missingKey ∨ ∃ key, e.problem = .missingEquals key := by
  unfold readKey at h
  dsimp only at h
  split at h
  · cases h
    exact .inl rfl
  · split at h
    · cases h
      exact .inr ⟨_, rfl⟩
    · cases h

theorem problem_of_lineEnd (h : c.lineEnd = .error e) :
    ∃ x, e.problem = .unexpectedCharacter x := by
  unfold lineEnd at h
  dsimp only at h
  split at h
  · cases h
  · cases h
    exact ⟨_, rfl⟩

end Cursor

/-! ## Lines -/

namespace ConfigValue

variable {c c' : Cursor} {v : ConfigValue} {e : ConfigError}

/-- A line feed stands behind a backslash. -/
def EscapesNewline (t : Text) : Prop := ['\\', '\n'] <:+: t

theorem EscapesNewline.of_suffix {t u : Text} (h : EscapesNewline u) (hu : u <:+ t) :
    EscapesNewline t := h.trans hu.isInfix

theorem escapesNewline_of_readString {t : Text} {line : Nat} (h : readString t line = .error e)
    (hproblem : e.problem = .unknownEscape '\n') : EscapesNewline t := by
  fun_induction readString t line with
  | case1 line =>
      cases h
      cases hproblem
  | case2 line =>
      cases h
      exact absurd (ConfigProblem.unknownEscape.inj hproblem) (by decide)
  | case3 x rest line hnone =>
      cases h
      cases hproblem
      exact ⟨[], rest, rfl⟩
  | case4 x rest line y hsome ih =>
      exact (ih (map_eq_error.mp h)).of_suffix ⟨['\\', x], rfl⟩
  | case5 rest line =>
      cases h
      cases hproblem
  | case6 rest line => cases h
  | case7 x rest line hend hescape hnewline hquote ih =>
      exact (ih (map_eq_error.mp h)).of_suffix ⟨[x], rfl⟩

/-- A value that is no array ends on the line on which it starts. -/
theorem line_of_read (hbracket : c.peek ≠ '[') (h : read c = .ok (v, c')) : c'.line = c.line := by
  by_cases hquote : c.peek = '"'
  · rw [read_of_quote hquote] at h
    obtain ⟨⟨u, c₁⟩, hread, heq⟩ := map_eq_ok.mp h
    cases heq
    exact line_of_readString hread
  · have hstops := (read_stops c).eq_of_ok h
    rw [hstops, valueStop, if_neg hquote, if_neg hbracket]
    rfl

/-- It is at fault there, or one line further down at a line feed behind a backslash. -/
theorem line_of_read_error (hbracket : c.peek ≠ '[') (h : read c = .error e) :
    e.line = (if e.problem = .unknownEscape '\n' then c.line + 1 else c.line) ∧
      (e.problem = .unknownEscape '\n' → EscapesNewline c.rest) := by
  by_cases hquote : c.peek = '"'
  · rw [read_of_quote hquote] at h
    have hread := map_eq_error.mp h
    refine ⟨line_of_readString_error hread, fun hproblem => ?_⟩
    exact (escapesNewline_of_readString hread hproblem).of_suffix
      (Cursor.reaches_advance c).isSuffix
  · rw [read_of_ne hquote hbracket] at h
    split at h
    · cases h
    · cases h
      exact ⟨rfl, fun hproblem => nomatch hproblem⟩

end ConfigValue

/-- Where the value of an entry starts, if there is one. -/
def Cursor.valueStart? (c : Cursor) : Option Cursor :=
  if c.peek = '[' then none
  else match c.readKey with
    | .error _ => none
    | .ok (_, start) => some start

theorem Cursor.reachesOnLine_of_valueStart? {c start : Cursor} (h : start ∈ c.valueStart?) :
    c.ReachesOnLine start := by
  obtain ⟨c', hstops, hreaches⟩ := c.readKey_stops
  unfold valueStart? at h
  split at h
  · cases h
  · split at h
    · cases h
    · next hkey =>
      cases h
      exact hstops.eq_of_ok hkey ▸ hreaches

/-- The entry at the cursor has an array for its value. -/
def Cursor.AtArrayEntry (c : Cursor) : Prop := ∃ start ∈ c.valueStart?, start.peek = '['

namespace ConfigDraft

variable {d : ConfigDraft} {c : Cursor} {e : ConfigError}

/-- A header is at fault on its line. -/
theorem line_of_readHeader_error (hbracket : c.peek = '[') (h : d.readHeader c = .error e) :
    e.line = c.line ∧ e.problem ≠ .unknownEscape '\n' := by
  have hopen : c.advance.line = c.line := Cursor.line_advance (by rw [hbracket]; decide)
  obtain ⟨c', hstops, -, hline⟩ := Cursor.readName_stops c
  rw [hopen] at hline
  rw [readHeader_eq] at h
  rcases bind_eq_error.mp h with hname | ⟨⟨⟨isArray, name⟩, c₁⟩, hname, h⟩
  · refine ⟨(hstops.line_of_error hname).trans hline, ?_⟩
    rcases Cursor.problem_of_readName hname with hproblem | hproblem <;> simp [hproblem]
  obtain rfl := hstops.eq_of_ok hname
  dsimp only at h
  split at h
  · next problem htable =>
    cases h
    refine ⟨hline, ?_⟩
    rintro rfl
    exact d.openTable_noEscape isArray name _ htable
  · have hend := map_eq_error.mp h
    obtain ⟨x, hproblem⟩ := Cursor.problem_of_lineEnd hend
    exact ⟨(Cursor.line_of_lineEnd_error hend).trans hline, by simp [hproblem]⟩

/-- An entry is at fault on its line, in its value or behind it. -/
theorem line_of_readEntry_error (hbracket : c.peek ≠ '[') (h : d.readEntry c = .error e) :
    (e.line = c.line ∧ e.problem ≠ .unknownEscape '\n') ∨
      ∃ start ∈ c.valueStart?, ConfigValue.read start = .error e ∨
        ∃ v c', ConfigValue.read start = .ok (v, c') ∧ c'.lineEnd = .error e := by
  obtain ⟨c', hstops, hreaches⟩ := Cursor.readKey_stops c
  rw [readEntry_eq] at h
  rcases bind_eq_error.mp h with hkey | ⟨⟨key, start⟩, hkey, h⟩
  · refine .inl ⟨(hstops.line_of_error hkey).trans hreaches.2, ?_⟩
    rcases Cursor.problem_of_readKey hkey with hproblem | ⟨key, hproblem⟩ <;> simp [hproblem]
  have hstart : start ∈ c.valueStart? := by
    rw [Cursor.valueStart?, if_neg hbracket, hkey]
    rfl
  rcases bind_eq_error.mp h with hread | ⟨⟨v, c₁⟩, hread, h⟩
  · exact .inr ⟨start, hstart, .inl hread⟩
  rcases bind_eq_error.mp h with hend | ⟨c₂, hend, h⟩
  · exact .inr ⟨start, hstart, .inr ⟨v, c₁, hread, hend⟩⟩
  split at h
  · next problem hadd =>
    cases h
    -- the line is the one noted before the key, not that of the cursor
    refine .inl ⟨rfl, ?_⟩
    rintro rfl
    cases hentry : d.entry? key v with
    | error problem =>
        rw [addEntry_error hentry] at hadd
        cases hadd
        exact d.entry?_noEscape key v _ hentry
    | ok answer =>
        obtain ⟨d', hd', -⟩ := addEntry_of_entry? hentry c₂.line
        rw [hd'] at hadd
        cases hadd
  · cases h

/-- Where a value or what follows it is at fault, the error stands where the reading of the value
stops. -/
theorem line_of_step_error (h : d.step c = .error e) :
    (e.line = c.line ∧ e.problem ≠ .unknownEscape '\n') ∨
      ∃ start ∈ c.valueStart?, e.line = (ConfigValue.valueStop start).line ∧
        (start.peek ≠ '[' →
          e.line = (if e.problem = .unknownEscape '\n' then start.line + 1 else start.line) ∧
          (e.problem = .unknownEscape '\n' → ConfigValue.EscapesNewline start.rest)) := by
  unfold step at h
  split at h
  · next hbracket => exact .inl (line_of_readHeader_error hbracket h)
  · next hbracket =>
    obtain hline | ⟨start, hstart, hread | ⟨v, c', hread, hend⟩⟩ :=
      line_of_readEntry_error hbracket h
    · exact .inl hline
    · exact .inr ⟨start, hstart, (ConfigValue.read_stops start).line_of_error hread,
        fun hvalue => ConfigValue.line_of_read_error hvalue hread⟩
    · have hline := Cursor.line_of_lineEnd_error hend
      obtain ⟨x, hproblem⟩ := Cursor.problem_of_lineEnd hend
      refine .inr ⟨start, hstart, ?_, fun hvalue => ⟨?_, fun hescape => ?_⟩⟩
      · rw [hline, (ConfigValue.read_stops start).eq_of_ok hread]
      · rw [if_neg (by simp [hproblem]), hline, ConfigValue.line_of_read hvalue hread]
      · cases hproblem.symm.trans hescape

end ConfigDraft

/-- The error names the line of the item at the cursor, or one of the lines of its array. -/
structure NamesLine (t : Text) (e : ConfigError) (c : Cursor) : Prop where
  reaches : Cursor.Reaches ⟨t, 1⟩ c
  line_of_noArray : ¬ c.AtArrayEntry →
    e.line = if e.problem = .unknownEscape '\n' then c.line + 1 else c.line
  escapesNewline : ¬ c.AtArrayEntry → e.problem = .unknownEscape '\n' →
    ConfigValue.EscapesNewline t
  line_of_array : ∀ start ∈ c.valueStart?, start.peek = '[' →
    c.line ≤ e.line ∧ e.line ≤ (ConfigValue.valueStop start).line
  pos : 1 ≤ e.line
  le_count : e.line ≤ 1 + t.count '\n'

/-- A text that is not accepted is at fault in its first header or entry that cannot be read or
stored, and on a line of it. -/
theorem Config.parse_error_line {t : Text} {e : ConfigError} (h : parse t = .error e) :
    ∃ d c, Arrives t d c ∧ c.skipSpace.atEnd = false ∧ d.step c.skipSpace = .error e ∧
      NamesLine t e c.skipSpace := by
  obtain ⟨d, c, harrives, hend, hstep⟩ := parse_eq_error_iff.mp h
  have hreaches := harrives.reaches.trans (Cursor.reaches_skipSpace c)
  refine ⟨d, c, harrives, hend, hstep, ?_⟩
  generalize c.skipSpace = item at *
  have hfirst : 1 ≤ item.line := hreaches.line_le
  have hvalue : ∀ start ∈ item.valueStart?, item.line ≤ (ConfigValue.valueStop start).line :=
    fun start hstart => ((Cursor.reachesOnLine_of_valueStart? hstart).1.trans
      (ConfigValue.reaches_valueStop start)).line_le
  obtain ⟨hline, hproblem⟩ | ⟨start, hstart, hline, hnoArray⟩ :=
    ConfigDraft.line_of_step_error hstep
  · exact {
      reaches := hreaches
      line_of_noArray := fun _ => by rw [if_neg hproblem, hline]
      escapesNewline := fun _ hescape => absurd hescape hproblem
      line_of_array := fun start hstart _ => ⟨hline.ge, hline.le.trans (hvalue start hstart)⟩
      pos := hline ▸ hfirst
      le_count := hline ▸ hreaches.line_le_count }
  · have hon := Cursor.reachesOnLine_of_valueStart? hstart
    have hstop := (hreaches.trans hon.1).trans (ConfigValue.reaches_valueStop start)
    have hle : item.line ≤ e.line := hline ▸ hvalue start hstart
    have hbracket : ¬ item.AtArrayEntry → start.peek ≠ '[' :=
      fun harray hbracket => harray ⟨start, hstart, hbracket⟩
    exact {
      reaches := hreaches
      line_of_noArray := fun harray => hon.2 ▸ (hnoArray (hbracket harray)).1
      escapesNewline := fun harray hescape =>
        ((hnoArray (hbracket harray)).2 hescape).of_suffix (hreaches.trans hon.1).isSuffix
      line_of_array := fun start' hstart' _ => by
        obtain rfl := Option.mem_unique hstart hstart'
        exact ⟨hle, hline.le⟩
      pos := hfirst.trans hle
      le_count := hline ▸ hstop.line_le_count }

/-- The array starts on the second line and is at fault on the fourth. -/
theorem Config.parse_error_line_mixedArray :
    let t : Text := "[docgen]\nimplied_platforms = [\n  \"jvm\",\n  8\n]\n"
    parse t = .error ⟨.arrayItem, 4⟩ ∧
      ∃ d c, Arrives t d c ∧ c.skipSpace.atEnd = false ∧
        d.step c.skipSpace = .error ⟨.arrayItem, 4⟩ ∧ NamesLine t ⟨.arrayItem, 4⟩ c.skipSpace := by
  intro t
  have hparse : parse t = .error ⟨.arrayItem, 4⟩ := by decide +kernel
  exact ⟨hparse, parse_error_line hparse⟩

/-- The string of the second line has a backslash at the end of the line. -/
def escapedNewlineText : Text := "[docgen]\nformat = \"a\\\nb\"\n"

/-- The error names the line behind that of the entry. -/
theorem Config.parse_error_line_escapedNewline :
    parse escapedNewlineText = .error ⟨.unknownEscape '\n', 3⟩ ∧
      ∃ d c, Arrives escapedNewlineText d c ∧
        d.step c.skipSpace = .error ⟨.unknownEscape '\n', 3⟩ ∧ c.skipSpace.line = 2 ∧
        ¬ c.skipSpace.AtArrayEntry := by
  have hparse : parse escapedNewlineText = .error ⟨.unknownEscape '\n', 3⟩ := by decide +kernel
  let c : Cursor := ⟨escapedNewlineText.drop 8, 1⟩
  have hheader : ConfigDraft.step {} (Cursor.skipSpace ⟨escapedNewlineText, 1⟩) =
      .ok ({ table := .docgen }, c) := by decide +kernel
  have hvalue : c.skipSpace.valueStart? = some ⟨escapedNewlineText.drop 18, 2⟩ := by
    decide +kernel
  refine ⟨hparse, _, c, .step .start hheader, by decide +kernel, by decide +kernel, ?_⟩
  rintro ⟨start, hstart, hbracket⟩
  rw [hvalue] at hstart
  cases hstart
  exact absurd hbracket (by decide +kernel)

end CrossDoc
