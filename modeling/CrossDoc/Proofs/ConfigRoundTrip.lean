import CrossDoc.Proofs.WrittenConfig

/-!
# Reading a written configuration

Each line of a written configuration opens a table or stores an entry in the
table that was opened last.  What a table stores is the part of the
configuration that its entries were made of, so reading the lines one after
the other builds the configuration up again.
-/

namespace CrossDoc

/-! ## Storing entries -/

/-- Stores entries one after the other, up to a key that is not known or a value that does not
fit. -/
def setAll {α : Type} (set? : α → Text → ConfigValue → Except ConfigProblem (Option α)) :
    α → List ConfigEntry → Except ConfigProblem (Option α)
  | a, [] => .ok (some a)
  | a, (key, v) :: rest =>
      match set? a key v with
      | .ok (some b) => setAll set? b rest
      | answer => answer

theorem PackageOptions.setAll_entries (o : PackageOptions) :
    setAll PackageOptions.set? {} o.entries = .ok (some o) := rfl

theorem SourceLink.setAll_entries (l : SourceLink) :
    setAll SourceLink.set? {} l.entries = .ok (some l) := rfl

variable (names : KeyNames)

theorem ExternalLink.setAll_entries (l : ExternalLink) :
    setAll ExternalLink.set? {} (ExternalLink.entries names l) = .ok (some l) := by
  unfold ExternalLink.entries
  rcases names.packageList_mem with h | h
  all_goals
    rw [h]
    rfl

/-- A number of 32 bits stays as it is. -/
theorem narrow_of_inRange {n : Int} (h : Int32.minValue.toInt ≤ n)
    (h' : n ≤ Int32.maxValue.toInt) : narrow n = n :=
  Int.bmod_eq_of_le (by simpa using h) (Int.lt_add_one_of_le h')

/-- A pass stores what is its own, without the tables that follow it. -/
theorem Pass.setAll_entries {p : Pass} (h : p.IsWritable) :
    setAll Pass.set? {} (Pass.entries names p) =
      .ok (some { p with packageOptions := [], sourceLinks := [], externalLinks := [] }) := by
  have hstored : setAll Pass.set? {} (Pass.entries names p) =
      .ok (some { p with
        jdkVersion := narrow p.jdkVersion
        packageOptions := [], sourceLinks := [], externalLinks := [] }) := by
    unfold Pass.entries
    rcases names.module_mem with hmodule | hmodule
    all_goals
      rcases names.platform_mem with hplatform | hplatform
      all_goals
        rw [hmodule, hplatform]
        cases hfamily : p.family <;> rfl
  rw [hstored, narrow_of_inRange h.1 h.2]

theorem Config.setAll_entries (c : Config) :
    setAll Config.set? {} (Config.entries names c) = .ok (some { c with passes := [] }) := by
  unfold Config.entries
  rcases names.output_mem with h | h
  all_goals
    rw [h]
    cases c with
    | mk _ _ root => cases root <;> rfl

/-! ## Lines -/

namespace ConfigDraft

/-- Reading the text takes the draft further, one step for each of its lines. -/
def Reads (t : Text) (d d' : ConfigDraft) : Prop :=
  ∃ n ≤ t.length, ∀ fuel rest line,
    readAll (n + fuel) d ⟨t ++ rest, line⟩ = readAll fuel d' ⟨rest, line + n⟩

variable {t u : Text} {d d' d'' : ConfigDraft}

theorem Reads.nil (d : ConfigDraft) : Reads [] d d :=
  ⟨0, Nat.le_refl 0, fun fuel rest line => by rw [Nat.zero_add]; rfl⟩

theorem Reads.append (h : Reads t d d') (h' : Reads u d' d'') : Reads (t ++ u) d d'' := by
  obtain ⟨m, hm, hread⟩ := h
  obtain ⟨n, hn, hread'⟩ := h'
  refine ⟨m + n, ?_, fun fuel rest line => ?_⟩
  · rw [List.length_append]
    exact Nat.add_le_add hm hn
  · rw [Nat.add_assoc, List.append_assoc, hread, hread', Nat.add_assoc]

theorem readAll_newline (fuel : Nat) (d : ConfigDraft) (rest : Text) (line : Nat) :
    readAll fuel d ⟨'\n' :: rest, line⟩ = readAll fuel d ⟨rest, line + 1⟩ := by
  cases fuel <;> rfl

/-- Neither blank space nor a comment starts with the character. -/
def IsStart (c : Char) : Prop := c ≠ '\n' ∧ c ≠ '#' ∧ Text.isLineBlank c = false

theorem reads_line {x : Char} {l : Text} (hx : IsStart x)
    (h : ∀ rest line, d.step ⟨x :: (l ++ '\n' :: rest), line⟩ = .ok (d', ⟨'\n' :: rest, line⟩)) :
    Reads (x :: (l ++ ['\n'])) d d' := by
  refine ⟨1, by simp, fun fuel rest line => ?_⟩
  obtain ⟨hnewline, hcomment, hblank⟩ := hx
  have hspace : (⟨x :: (l ++ '\n' :: rest), line⟩ : Cursor).skipSpace =
      ⟨x :: (l ++ '\n' :: rest), line⟩ := by
    simp [Cursor.skipSpace, Cursor.skipSpaceFrom, hnewline, hcomment, hblank]
  have hend : (⟨x :: (l ++ '\n' :: rest), line⟩ : Cursor).atEnd = false := rfl
  rw [List.cons_append, List.append_assoc, Nat.add_comm, readAll]
  simp only [List.singleton_append, hspace, hend, Bool.false_eq_true, if_false, h]
  exact readAll_newline fuel d' rest line

/-! ### Entries -/

def isKey (key : Text) : Bool := !key.isEmpty && key.all isKeyChar

/-- The key and the value of the entry can be written. -/
structure IsEntry (e : ConfigEntry) : Prop where
  key : isKey e.1 = true
  writable : e.2.IsWritable

theorem isEntry_of_keys {es : List ConfigEntry} (hkeys : (es.map Prod.fst).all isKey = true)
    (hvalues : ∀ e ∈ es, e.2.IsWritable) : ∀ e ∈ es, IsEntry e := fun e he =>
  ⟨List.all_eq_true.mp hkeys e.1 (List.mem_map_of_mem he), hvalues e he⟩

theorem exists_of_isKey {key : Text} (h : isKey key = true) :
    ∃ x xs, key = x :: xs ∧ ∀ c ∈ x :: xs, isKeyChar c = true := by
  cases key with
  | nil => cases h
  | cons x xs => exact ⟨x, xs, rfl, by simpa [isKey] using h⟩

theorem isLineBlank_eq_true {c : Char} (h : Text.isLineBlank c = true) :
    c = ' ' ∨ c = '\t' ∨ c = '\r' := by
  simpa [Text.isLineBlank, Text.isBlank, or_assoc] using h

theorem isLineBlank_of_isWordChar {c : Char} (h : ConfigValue.isWordChar c = true) :
    Text.isLineBlank c = false := by
  refine Bool.eq_false_iff.mpr fun hblank => ?_
  rcases isLineBlank_eq_true hblank with rfl | rfl | rfl <;> exact absurd h (by decide)

/-- No blank stands in front of a written value. -/
theorem exists_head_write (v : ConfigValue) :
    ∃ x xs, v.write = x :: xs ∧ Text.isLineBlank x = false := by
  cases v with
  | text t => exact ⟨_, _, rfl, rfl⟩
  | list ts => exact ⟨_, _, rfl, rfl⟩
  | boolean b => cases b <;> exact ⟨_, _, rfl, rfl⟩
  | integer n =>
      cases hn : Text.ofInt n with
      | nil =>
          have hread := Text.toInt?_ofInt n
          rw [hn] at hread
          cases hread
      | cons x xs =>
          exact ⟨x, xs, hn, isLineBlank_of_isWordChar
            (ConfigValue.isWordChar_of_mem_ofInt (hn ▸ List.mem_cons_self))⟩

theorem isStart_of_isKeyChar {c : Char} (h : isKeyChar c = true) : IsStart c ∧ c ≠ '[' := by
  refine ⟨⟨?_, ?_, Bool.eq_false_iff.mpr fun hblank => ?_⟩, ?_⟩
  · rintro rfl
    exact absurd h (by decide)
  · rintro rfl
    exact absurd h (by decide)
  · rcases isLineBlank_eq_true hblank with rfl | rfl | rfl <;> exact absurd h (by decide)
  · rintro rfl
    exact absurd h (by decide)

theorem skipBlanks_write (v : ConfigValue) (rest : Text) (line : Nat) :
    Cursor.skipBlanks ⟨' ' :: (v.write ++ rest), line⟩ = ⟨v.write ++ rest, line⟩ := by
  obtain ⟨x, xs, hx, hblank⟩ := exists_head_write v
  have hspace : Text.isLineBlank ' ' = true := rfl
  rw [Cursor.skipBlanks, Cursor.skip, hx]
  simp only [List.cons_append, List.dropWhile_cons, hspace, hblank, if_true, Bool.false_eq_true,
    if_false]

/-- The step of an entry whose key is known and whose value fits. -/
theorem step_entry {key : Text} {v : ConfigValue} {config : Config} (he : IsEntry (key, v))
    (h : d.entry? key v = .ok (some config)) (rest : Text) (line : Nat) :
    d.step ⟨key ++ ' ' :: '=' :: ' ' :: (v.write ++ '\n' :: rest), line⟩ =
      .ok ({ d with config := config }, ⟨'\n' :: rest, line⟩) := by
  obtain ⟨hkey, hwritable⟩ := he
  obtain ⟨x, xs, rfl, hchars⟩ := exists_of_isKey hkey
  have hblank : isKeyChar ' ' = false := by decide
  have hadd : ∀ line, d.addEntry (x :: xs) v line = .ok { d with config := config } := by
    intro line
    rw [addEntry, h]
    rfl
  have hheader : Cursor.peek ⟨(x :: xs) ++ ' ' :: '=' :: ' ' :: (v.write ++ '\n' :: rest), line⟩ ≠
      '[' := (isStart_of_isKeyChar (hchars x List.mem_cons_self)).2
  rw [step, if_neg hheader, readEntry]
  have hread : ConfigValue.read (Cursor.skipBlanks
      ⟨' ' :: '=' :: ' ' :: (v.write ++ '\n' :: rest), line⟩).advance.skipBlanks =
        .ok (v, ⟨'\n' :: rest, line⟩) := by
    show ConfigValue.read (Cursor.skipBlanks ⟨' ' :: (v.write ++ '\n' :: rest), line⟩) = _
    rw [skipBlanks_write]
    exact ConfigValue.read_write hwritable rest line
  have hequals : Cursor.peek (Cursor.skipBlanks
      ⟨' ' :: '=' :: ' ' :: (v.write ++ '\n' :: rest), line⟩) = '=' := rfl
  have hend : Cursor.lineEnd ⟨'\n' :: rest, line⟩ = .ok ⟨'\n' :: rest, line⟩ := rfl
  simp only [Cursor.takeWhile_word hchars hblank, Cursor.skip_word hchars hblank, hread]
  rw [if_neg (by simp), if_neg (not_not_intro hequals)]
  dsimp only [bind, Except.bind]
  simp only [hend, hadd]
  rfl

theorem reads_entry {e : ConfigEntry} {config : Config} (he : IsEntry e)
    (h : d.entry? e.1 e.2 = .ok (some config)) :
    Reads e.write d { d with config := config } := by
  obtain ⟨key, v⟩ := e
  have hstep := step_entry he h
  obtain ⟨x, xs, rfl, hchars⟩ := exists_of_isKey he.key
  have hwrite : ConfigEntry.write (x :: xs, v) =
      x :: ((xs ++ ' ' :: '=' :: ' ' :: v.write) ++ ['\n']) := by
    simp [ConfigEntry.write]
  rw [hwrite]
  refine reads_line (isStart_of_isKeyChar (hchars x List.mem_cons_self)).1 fun rest line => ?_
  rw [← hstep rest line]
  simp

/-- A draft keeps an object: the entries of its table are stored in the object alone. -/
structure Keeps {α : Type} (set? : α → Text → ConfigValue → Except ConfigProblem (Option α))
    (draft : α → ConfigDraft) : Prop where
  entry : ∀ a key v,
    entry? (draft a) key v = (set? a key v).map (Option.map fun b => (draft b).config)
  same : ∀ a b, draft b = { draft a with config := (draft b).config }

theorem reads_entries {α : Type} {set? : α → Text → ConfigValue → Except ConfigProblem (Option α)}
    {draft : α → ConfigDraft} (hkeeps : Keeps set? draft) :
    ∀ {es : List ConfigEntry} {a b : α}, (∀ e ∈ es, IsEntry e) → setAll set? a es = .ok (some b) →
      Reads (es.flatMap ConfigEntry.write) (draft a) (draft b)
  | [], a, b, _, h => by
      cases h
      exact .nil _
  | (key, v) :: rest, a, b, hes, h => by
      obtain ⟨he, hrest⟩ := List.forall_mem_cons.mp hes
      rw [setAll] at h
      split at h
      · next a' ha' =>
        have hentry : entry? (draft a) key v = .ok (some (draft a').config) := by
          rw [hkeeps.entry, ha']
          rfl
        have hread := reads_entry he hentry
        rw [← hkeeps.same a a'] at hread
        exact hread.append (reads_entries hkeeps hrest h)
      · next hnot => exact absurd h (hnot b)

/-! ### Headers -/

/-- A character of a table name. -/
def isNameChar (c : Char) : Bool := c != ']' && c != '\n'

/-- A header is read as the name between its brackets. -/
theorem readHeader_brackets {name : Text} (hname : name.all isNameChar = true)
    (hhead : (name.head? == some '[') = false) (htrim : Text.trimBy Text.isBlank name = name) {isArray : Bool}
    (h : d.openTable isArray name = .ok d') (rest : Text) (line : Nat) :
    d.readHeader ⟨if isArray then '[' :: '[' :: (name ++ ']' :: ']' :: '\n' :: rest)
      else '[' :: (name ++ ']' :: '\n' :: rest), line⟩ = .ok (d', ⟨'\n' :: rest, line⟩) := by
  have hbracket : isNameChar ']' = false := by decide
  have htake : ∀ more, (name ++ ']' :: more).takeWhile (fun x => x != ']' && x != '\n') = name :=
    Cursor.takeWhile_word (List.all_eq_true.mp hname) hbracket
  have hskip : ∀ more line, Cursor.skip (fun x => x != ']' && x != '\n')
      ⟨name ++ ']' :: more, line⟩ = ⟨']' :: more, line⟩ :=
    Cursor.skip_word (List.all_eq_true.mp hname) hbracket
  have hopen : ∀ more, Cursor.advance ⟨'[' :: more, line⟩ = ⟨more, line⟩ := fun _ => rfl
  have hclose : ∀ more, Cursor.advance ⟨']' :: more, line⟩ = ⟨more, line⟩ := fun _ => rfl
  have hpeek : ∀ (x : Char) (more : Text), Cursor.peek ⟨x :: more, line⟩ = x := fun _ _ => rfl
  have hend : Cursor.lineEnd ⟨'\n' :: rest, line⟩ = .ok ⟨'\n' :: rest, line⟩ := rfl
  cases isArray with
  | true =>
      show d.readHeader ⟨'[' :: '[' :: (name ++ ']' :: ']' :: '\n' :: rest), line⟩ = _
      unfold readHeader
      simp only [hopen, hclose, hpeek, htake, hskip, htrim, h, hend, beq_self_eq_true, if_true]
      rfl
  | false =>
      have hsingle : (Cursor.peek ⟨name ++ ']' :: '\n' :: rest, line⟩ == '[') = false := by
        cases name with
        | nil => rfl
        | cons x xs => exact hhead
      show d.readHeader ⟨'[' :: (name ++ ']' :: '\n' :: rest), line⟩ = _
      unfold readHeader
      simp only [hopen, hclose, hpeek, htake, hskip, htrim, h, hend, hsingle, Bool.false_eq_true,
        if_false]
      rfl

theorem step_header {table : ConfigTable} (htable : table ≠ .outside)
    (h : d.openTable (table != .docgen) table.name = .ok d') (rest : Text) (line : Nat) :
    d.step ⟨table.header ++ '\n' :: rest, line⟩ = .ok (d', ⟨'\n' :: rest, line⟩) := by
  have hheader := readHeader_brackets (by cases table <;> rfl) (by cases table <;> rfl)
    (by cases table <;> rfl) h rest line
  cases table with
  | outside => exact absurd rfl htable
  | _ => exact hheader

theorem reads_header {table : ConfigTable} (htable : table ≠ .outside)
    (h : d.openTable (table != .docgen) table.name = .ok d') :
    Reads (table.header ++ ['\n']) d d' := by
  have hstep := step_header htable h
  obtain ⟨l, hl⟩ : ∃ l, table.header = '[' :: l := by
    unfold ConfigTable.header
    split <;> exact ⟨_, rfl⟩
  rw [hl] at hstep ⊢
  refine reads_line ⟨by decide, by decide, rfl⟩ fun rest line => ?_
  rw [← hstep rest line]
  rfl

/-! ## Tables -/

theorem setLast?_append {α : Type} (set? : α → Except ConfigProblem (Option α)) (a : α) :
    ∀ as : List α, setLast? set? (as ++ [a]) = (set? a).map (Option.map fun b => as ++ [b])
  | [] => by
      show (do return (← set? a).map fun b => [b]) = _
      cases set? a <;> rfl
  | [b] => by
      show (do return (← setLast? set? ([] ++ [a])).map fun more => b :: more) = _
      rw [setLast?_append set? a []]
      cases set? a with
      | error e => rfl
      | ok c => cases c <;> rfl
  | b :: b' :: as => by
      show (do return (← setLast? set? ((b' :: as) ++ [a])).map fun more => b :: more) = _
      rw [setLast?_append set? a (b' :: as)]
      cases set? a with
      | error e => rfl
      | ok c => cases c <;> rfl

theorem modifyLast_append {α : Type} (f : α → α) (a : α) :
    ∀ as : List α, modifyLast f (as ++ [a]) = as ++ [f a]
  | [] => rfl
  | [_] => rfl
  | b :: b' :: as => congrArg (b :: ·) (modifyLast_append f a (b' :: as))

/-- Where only the last element changes, the others are carried along. -/
theorem map_setLast? {α β : Type} (set? : α → Except ConfigProblem (Option α)) (put : List α → β)
    (as : List α) (a : α) :
    (do return (← setLast? set? (as ++ [a])).map put : Except ConfigProblem (Option β)) =
      (set? a).map (Option.map fun b => put (as ++ [b])) := by
  rw [setLast?_append]
  cases set? a with
  | error e => rfl
  | ok b => cases b <;> rfl

/-- The draft of a configuration so far, with a table open. -/
def draft (c : Config) (ps : List Pass) (table : ConfigTable) : ConfigDraft :=
  { config := { c with passes := ps }, table := table }

variable (c : Config) (ps : List Pass) (p : Pass)

theorem keeps_docgen : Keeps Config.set? fun c => { config := c, table := .docgen } where
  entry c key v := by
    show c.set? key v = _
    cases c.set? key v with
    | error e => rfl
    | ok c => cases c <;> rfl
  same _ _ := rfl

theorem keeps_pass : Keeps Pass.set? fun p => draft c (ps ++ [p]) .pass where
  entry p key v :=
    map_setLast? (fun p : Pass => p.set? key v) (fun ps => ({ c with passes := ps } : Config)) ps p
  same _ _ := rfl

/-! ### Parts of a pass -/

variable {α : Type}

/-- How the tables of a kind that belongs to a pass are opened and filled: `get` tells what the pass
has of that kind, and `put` changes it. -/
structure IsPart (table : ConfigTable) (empty : α)
    (set? : α → Text → ConfigValue → Except ConfigProblem (Option α))
    (get : Pass → List α) (put : Pass → List α → Pass) : Prop where
  isTable : table ≠ .outside ∧ table ≠ .docgen
  get_put : ∀ p as, get (put p as) = as
  put_put : ∀ p as bs, put (put p as) bs = put p bs
  opens : ∀ d : ConfigDraft, d.openTable true table.name =
    d.openPart table.name table fun p => put p (get p ++ [empty])
  entry : ∀ (d : ConfigDraft) key v, d.table = table → d.entry? key v =
    (do
      let ps ← setLast? (fun p => do return (← setLast? (set? · key v) (get p)).map (put p))
        d.config.passes
      return ps.map fun ps => { d.config with passes := ps })

theorem isPart_package : IsPart .package {} PackageOptions.set? (·.packageOptions)
    fun p os => { p with packageOptions := os } where
  isTable := by decide
  get_put _ _ := rfl
  put_put _ _ _ := rfl
  opens _ := rfl
  entry d key v h := by
    obtain ⟨config, table, ignored⟩ := d
    cases h
    rfl

theorem isPart_sourceLink : IsPart .sourceLink {} SourceLink.set? (·.sourceLinks)
    fun p ls => { p with sourceLinks := ls } where
  isTable := by decide
  get_put _ _ := rfl
  put_put _ _ _ := rfl
  opens _ := rfl
  entry d key v h := by
    obtain ⟨config, table, ignored⟩ := d
    cases h
    rfl

theorem isPart_externalLink : IsPart .externalLink {} ExternalLink.set? (·.externalLinks)
    fun p ls => { p with externalLinks := ls } where
  isTable := by decide
  get_put _ _ := rfl
  put_put _ _ _ := rfl
  opens _ := rfl
  entry d key v h := by
    obtain ⟨config, table, ignored⟩ := d
    cases h
    rfl

variable {table : ConfigTable} {empty : α}
  {set? : α → Text → ConfigValue → Except ConfigProblem (Option α)}
  {get : Pass → List α} {put : Pass → List α → Pass}

theorem IsPart.opened (h : IsPart table empty set? get put) (t : ConfigTable) (as : List α) :
    (draft c (ps ++ [put p as]) t).openTable true table.name =
      .ok (draft c (ps ++ [put p (as ++ [empty])]) table) := by
  have hpasses : (ps ++ [put p as]).isEmpty = false := by simp
  rw [h.opens, openPart, if_neg (by simp [draft, hpasses]), modifyLastPass]
  simp only [draft, modifyLast_append, h.get_put, h.put_put]

theorem IsPart.keeps (h : IsPart table empty set? get put) (as : List α) :
    Keeps set? fun a => draft c (ps ++ [put p (as ++ [a])]) table where
  entry a key v := by
    have hpart : (do
        let stored ← setLast? (set? · key v) (get (put p (as ++ [a])))
        return stored.map (put (put p (as ++ [a])))) =
          (set? a key v).map (Option.map fun b => put p (as ++ [b])) := by
      rw [h.get_put, map_setLast?]
      simp only [h.put_put]
    rw [h.entry _ _ _ rfl]
    refine (map_setLast? _ (fun ps => ({ c with passes := ps } : Config)) ps _).trans ?_
    rw [hpart]
    cases set? a key v with
    | error e => rfl
    | ok b => cases b <;> rfl
  same _ _ := rfl

/-- Reading the tables of a kind one after the other adds to the last pass what they were written
from. -/
theorem IsPart.reads (h : IsPart table empty set? get put) {entries : α → List ConfigEntry}
    (hentries : ∀ a, ∀ e ∈ entries a, IsEntry e)
    (hset : ∀ a, setAll set? empty (entries a) = .ok (some a)) :
    ∀ (more as : List α) (t : ConfigTable), ∃ t',
      Reads (more.flatMap fun a => table.write (entries a)) (draft c (ps ++ [put p as]) t)
        (draft c (ps ++ [put p (as ++ more)]) t')
  | [], as, t => ⟨t, by rw [List.append_nil]; exact .nil _⟩
  | a :: more, as, t => by
      have hopened := h.opened c ps p t as
      have hheader := reads_header (d := draft c (ps ++ [put p as]) t) h.isTable.1 (by
        rw [show (table != .docgen) = true by simp [h.isTable.2]]
        exact hopened)
      have hbody := reads_entries (h.keeps c ps p as) (hentries a) (hset a)
      obtain ⟨t', hmore⟩ := h.reads hentries hset more (as ++ [a]) table
      rw [List.append_assoc] at hmore
      exact ⟨t', (hheader.append hbody).append hmore⟩

/-! ### The whole text -/

variable (names : KeyNames)

theorem isEntry_package (o : PackageOptions) : ∀ e ∈ o.entries, IsEntry e :=
  isEntry_of_keys rfl (by simp [PackageOptions.entries, ConfigValue.IsWritable])

theorem isEntry_sourceLink (l : SourceLink) : ∀ e ∈ l.entries, IsEntry e :=
  isEntry_of_keys rfl (by simp [SourceLink.entries, ConfigValue.IsWritable])

theorem isEntry_externalLink (l : ExternalLink) :
    ∀ e ∈ ExternalLink.entries names l, IsEntry e := by
  refine isEntry_of_keys ?_ (by simp [ExternalLink.entries, ConfigValue.IsWritable])
  unfold ExternalLink.entries
  rcases names.packageList_mem with h | h
  all_goals
    rw [h]
    rfl

theorem isEntry_pass {p : Pass} (h : p.IsWritable) : ∀ e ∈ Pass.entries names p, IsEntry e := by
  have hrange : ConfigValue.isIntegerRange p.jdkVersion = true := by
    obtain ⟨hlower, hupper⟩ := h
    have hmin : Int64.minValue.toInt ≤ Int32.minValue.toInt := by decide
    have hmax : Int32.maxValue.toInt ≤ Int64.maxValue.toInt := by decide
    rw [ConfigValue.isIntegerRange, Bool.and_eq_true, decide_eq_true_eq, decide_eq_true_eq]
    exact ⟨Int.le_trans hmin hlower, Int.le_trans hupper hmax⟩
  refine isEntry_of_keys ?_ (by simp [Pass.entries, ConfigValue.IsWritable, hrange])
  unfold Pass.entries
  rcases names.module_mem with hmodule | hmodule
  all_goals
    rcases names.platform_mem with hplatform | hplatform
    all_goals
      rw [hmodule, hplatform]
      rfl

theorem isEntry_docgen (c : Config) : ∀ e ∈ Config.entries names c, IsEntry e := by
  obtain ⟨_, _, root, _, _, _, _, _, _⟩ := c
  refine isEntry_of_keys ?_ ?_
  · unfold Config.entries
    rcases names.output_mem with h | h
    all_goals
      rw [h]
      cases root <;> rfl
  · cases root <;> simp [Config.entries, cacheRootEntries, ConfigValue.IsWritable]

theorem reads_docgen (c : Config) :
    Reads (ConfigTable.docgen.write (Config.entries names c)) {} (draft c [] .docgen) := by
  have hheader : Reads (ConfigTable.docgen.header ++ ['\n']) {} { table := .docgen } :=
    reads_header (by decide) rfl
  exact hheader.append
    (reads_entries keeps_docgen (isEntry_docgen names c) (Config.setAll_entries names c))

/-- A pass is added to those that were read before. -/
theorem reads_pass {p : Pass} (h : p.IsWritable) (c : Config) (ps : List Pass) (t : ConfigTable) :
    ∃ t', Reads (p.write names) (draft c ps t) (draft c (ps ++ [p]) t') := by
  have hheader : Reads (ConfigTable.pass.header ++ ['\n']) (draft c ps t)
      (draft c (ps ++ [({} : Pass)]) .pass) := reads_header (by decide) rfl
  have hbody := reads_entries (keeps_pass c ps) (isEntry_pass names h)
    (Pass.setAll_entries names h)
  obtain ⟨t₁, hpackages⟩ := isPart_package.reads c ps
    { p with packageOptions := [], sourceLinks := [], externalLinks := [] }
    isEntry_package PackageOptions.setAll_entries p.packageOptions [] .pass
  obtain ⟨t₂, hsourceLinks⟩ := isPart_sourceLink.reads c ps
    { p with sourceLinks := [], externalLinks := [] }
    isEntry_sourceLink SourceLink.setAll_entries p.sourceLinks [] t₁
  obtain ⟨t₃, hexternalLinks⟩ := isPart_externalLink.reads c ps { p with externalLinks := [] }
    (isEntry_externalLink names) (ExternalLink.setAll_entries names) p.externalLinks [] t₂
  exact ⟨t₃, (((hheader.append hbody).append hpackages).append hsourceLinks).append hexternalLinks⟩

theorem reads_passes : ∀ {qs : List Pass}, (∀ q ∈ qs, q.IsWritable) →
    ∀ (c : Config) (ps : List Pass) (t : ConfigTable), ∃ t',
      Reads (qs.flatMap (Pass.write names)) (draft c ps t) (draft c (ps ++ qs) t')
  | [], _, c, ps, t => ⟨t, by rw [List.append_nil]; exact .nil _⟩
  | q :: qs, h, c, ps, t => by
      obtain ⟨hq, hqs⟩ := List.forall_mem_cons.mp h
      obtain ⟨t₁, hfirst⟩ := reads_pass names hq c ps t
      obtain ⟨t₂, hmore⟩ := reads_passes hqs c (ps ++ [q]) t₁
      rw [List.append_assoc] at hmore
      exact ⟨t₂, hfirst.append hmore⟩

/-- A text that is read as a whole leaves its last draft, and no error. -/
theorem Reads.ofText {t : Text} {d : ConfigDraft} (h : Reads t {} d) :
    ConfigDraft.ofText t = (d, none) := by
  obtain ⟨n, hn, hread⟩ := h
  obtain ⟨fuel, hfuel⟩ := Nat.exists_eq_add_of_le hn
  have hall := hread (fuel + 1) [] 1
  rw [List.append_nil, ← Nat.add_assoc, ← hfuel] at hall
  exact hall

end ConfigDraft

theorem Config.parse_of_ofText {t : Text} {d : ConfigDraft}
    (h : ConfigDraft.ofText t = (d, none)) :
    Config.parse t = .ok d.config ∧ Config.ignoredKeys t = d.ignored := by
  rw [Config.parse, Config.ignoredKeys, h]
  exact ⟨rfl, rfl⟩

/-- **Reading a written configuration gives it back.**  Whatever the strings hold, however many
passes, options and links there are, and under whichever of its names a key is written, nothing is
lost, changed or passed over. -/
theorem Config.parse_written (names : KeyNames) (c : Config)
    (h : ∀ p ∈ c.passes, p.IsWritable) :
    Config.parse (c.write names) = .ok c ∧ Config.ignoredKeys (c.write names) = [] := by
  obtain ⟨t, hpasses⟩ := ConfigDraft.reads_passes names h c [] .docgen
  exact Config.parse_of_ofText ((ConfigDraft.reads_docgen names c).append hpasses).ofText

/-- Strings that could be taken for the syntax around them, and the least and the greatest of the
version numbers. -/
def quotingConfig : Config where
  outputDir := "a \"b\" \\n # c"
  cacheRoot := some []
  impliedPlatforms := ["", "]\n[[pass]]", "\t,\r"]
  skip := true
  disabledPlugins := ["x = \"y\""]
  passes := [
    { moduleName := "[docgen]\n"
      family := .native
      jdkVersion := -2147483648
      targets := ["b", "a", "b"]
      packageOptions := [{ packagePrefix := "p.q" }, { suppress := true }]
      sourceLinks := [{ path := "src", url := "http://\\", lineSuffix := "#L" }] },
    {},
    { moduleName := ['\x00', 'é']
      jdkVersion := 2147483647
      externalLinks := [{ url := "u" }, { url := "v", packageListUrl := "\"" }] }]

theorem Config.parse_written_quotingConfig :
    (∀ p ∈ quotingConfig.passes, p.IsWritable) ∧
      Config.parse (quotingConfig.write { output := "output" }) = .ok quotingConfig ∧
      Config.ignoredKeys (quotingConfig.write { output := "output" }) = [] :=
  have hwritable : ∀ p ∈ quotingConfig.passes, p.IsWritable := by decide
  ⟨hwritable, Config.parse_written { output := "output" } quotingConfig hwritable⟩

end CrossDoc
