import CrossDoc.Proofs.ConfigItems
import CrossDoc.Proofs.ConfigRoundTrip
import Mathlib.Data.List.Basic

/-!
# What headers and entries do

What a header or an entry does to a configuration is told by the table that is open
and by the configuration so far.  Reading a text is reading its headers and entries
and doing what they do, one after the other.
-/

namespace CrossDoc

/-! ## Tables -/

namespace ConfigTable

/-- The entries of the table are about the last pass. -/
def isOfPass : ConfigTable → Bool
  | .pass | .package | .sourceLink | .externalLink => true
  | .outside | .docgen => false

/-- The table adds something to the last pass. -/
def isPart : ConfigTable → Bool
  | .package | .sourceLink | .externalLink => true
  | .outside | .docgen | .pass => false

/-- What the header of the table adds to the last pass. -/
def addPart : ConfigTable → Pass → Pass
  | .package, p => { p with packageOptions := p.packageOptions ++ [{}] }
  | .sourceLink, p => { p with sourceLinks := p.sourceLinks ++ [{}] }
  | .externalLink, p => { p with externalLinks := p.externalLinks ++ [{}] }
  | .outside, p | .docgen, p | .pass, p => p

/-- Stores an entry of the table in the last pass. -/
def setInPass? : ConfigTable → Pass → Text → ConfigValue → Except ConfigProblem (Option Pass)
  | .pass, p, key, v => p.set? key v
  | .package, p, key, v => do
      return (← setLast? (·.set? key v) p.packageOptions).map fun os =>
        { p with packageOptions := os }
  | .sourceLink, p, key, v => do
      return (← setLast? (·.set? key v) p.sourceLinks).map fun ls => { p with sourceLinks := ls }
  | .externalLink, p, key, v => do
      return (← setLast? (·.set? key v) p.externalLinks).map fun ls =>
        { p with externalLinks := ls }
  | .outside, _, _, _ | .docgen, _, _, _ => .ok none

end ConfigTable

/-! ## What an item does -/

/-- What an item does to the open table and to the configuration so far.  An entry with an unknown
key changes nothing. -/
inductive ConfigItem.Effect : ConfigItem → ConfigTable → Config → ConfigTable → Config → Prop
  | docgen {table : ConfigTable} {c : Config} :
      Effect (.header .docgen) table c .docgen c
  | pass {table : ConfigTable} {c : Config} :
      Effect (.header .pass) table c .pass { c with passes := c.passes ++ [{}] }
  | part {table part : ConfigTable} {c : Config} {ps : List Pass} {p : Pass}
      (hpart : part.isPart = true) (hpasses : c.passes = ps ++ [p]) :
      Effect (.header part) table c part { c with passes := ps ++ [part.addPart p] }
  | setting {c : Config} {key written : Text} {v : ConfigValue} {answer : Option Config}
      (hset : c.set? key v = .ok answer) :
      Effect (.entry key written v) .docgen c .docgen (answer.getD c)
  | inPass {table : ConfigTable} {c : Config} {ps : List Pass} {p : Pass} {key written : Text}
      {v : ConfigValue} {answer : Option Pass} (htable : table.isOfPass = true)
      (hpasses : c.passes = ps ++ [p]) (hset : table.setInPass? p key v = .ok answer) :
      Effect (.entry key written v) table c table { c with passes := ps ++ [answer.getD p] }

/-- The table that is open behind an item. -/
def ConfigItem.tableAfter : ConfigTable → ConfigItem → ConfigTable
  | _, .header table => table
  | table, .entry _ _ _ => table

theorem ConfigItem.Effect.eq_tableAfter {item : ConfigItem} {table table' : ConfigTable}
    {c c' : Config} (h : item.Effect table c table' c') : table' = tableAfter table item := by
  cases h <;> rfl

/-- What a list of items does. -/
inductive Builds : ConfigTable → Config → List ConfigItem → ConfigTable → Config → Prop
  | nil {table : ConfigTable} {c : Config} : Builds table c [] table c
  | cons {table table' table'' : ConfigTable} {c c' c'' : Config} {item : ConfigItem}
      {items : List ConfigItem} (heffect : item.Effect table c table' c')
      (hrest : Builds table' c' items table'' c'') : Builds table c (item :: items) table'' c''

theorem Builds.append {table table' table'' : ConfigTable} {c c' c'' : Config}
    {items more : List ConfigItem} (h : Builds table c items table' c')
    (h' : Builds table' c' more table'' c'') : Builds table c (items ++ more) table'' c'' := by
  induction h with
  | nil => exact h'
  | cons heffect _ ih => exact .cons heffect (ih h')

theorem Builds.exists_of_append {table table'' : ConfigTable} {c c'' : Config}
    {items more : List ConfigItem} (h : Builds table c (items ++ more) table'' c'') :
    ∃ table' c', Builds table c items table' c' ∧ Builds table' c' more table'' c'' := by
  induction items generalizing table c with
  | nil => exact ⟨table, c, .nil, h⟩
  | cons item items ih =>
      cases h with
      | cons heffect hrest =>
          obtain ⟨table', c', hitems, hmore⟩ := ih hrest
          exact ⟨table', c', .cons heffect hitems, hmore⟩

/-- A table of a pass is open only when there is a pass. -/
def HasPass (table : ConfigTable) (c : Config) : Prop := table.isOfPass = true → c.passes ≠ []

theorem ConfigItem.Effect.hasPass {item : ConfigItem} {table table' : ConfigTable} {c c' : Config}
    (h : item.Effect table c table' c') : HasPass table' c' := by
  cases h with
  | docgen => exact fun h => nomatch h
  | pass => exact fun _ => by simp
  | part hpart hpasses => exact fun _ => by simp
  | setting hset => exact fun h => nomatch h
  | inPass htable hpasses hset => exact fun _ => by simp

namespace ConfigDraft

variable {d d' : ConfigDraft} {c c' : Cursor}

/-- A header opens its table before the end of its line is looked at. -/
theorem readHeader_eq (d : ConfigDraft) (c : Cursor) :
    d.readHeader c = c.readName >>= fun ((isArray, name), c) =>
      match d.openTable isArray name with
      | .error problem => c.fail problem
      | .ok d => c.lineEnd.map fun c => (d, c) := by
  unfold readHeader Cursor.readName
  dsimp only
  generalize (if (c.advance.peek == '[') = true then c.advance.advance else c.advance) = start
  generalize (c.advance.peek == '[') = isArray
  split
  · rfl
  · split
    · rfl
    · dsimp only [bind, Except.bind]
      generalize d.openTable isArray _ = opened
      cases opened with
      | error problem => rfl
      | ok d' =>
          dsimp only
          generalize Cursor.lineEnd _ = answer
          cases answer <;> rfl

/-- An entry is stored when the end of its line has been looked at. -/
theorem readEntry_eq (d : ConfigDraft) (c : Cursor) :
    d.readEntry c = c.readKey >>= fun (key, start) =>
      ConfigValue.read start >>= fun (v, c₁) =>
        c₁.lineEnd >>= fun c₂ =>
          match d.addEntry key v c₂.line with
          | .error problem => .error ⟨problem, c.line⟩
          | .ok d => .ok (d, c₂) := by
  unfold readEntry Cursor.readKey
  dsimp only
  split
  · rfl
  · split
    · rfl
    · rfl

/-! ### Headers -/

theorem openPart_of_passes {ps : List Pass} {p : Pass} (hpasses : d.config.passes = ps ++ [p])
    (name : Text) (table : ConfigTable) (add : Pass → Pass) :
    d.openPart name table add =
      .ok { d with config := { d.config with passes := ps ++ [add p] }, table := table } := by
  rw [openPart, if_neg (by simp [hpasses]), modifyLastPass, hpasses, modifyLast_append]

theorem openPart_ok {name : Text} {part : ConfigTable} (hpart : part.isPart = true)
    (h : d.openPart name part part.addPart = .ok d') :
    (ConfigItem.header part).Effect d.table d.config d'.table d'.config := by
  rcases List.eq_nil_or_concat' d.config.passes with hnil | ⟨ps, p, hpasses⟩
  · rw [openPart, if_pos (by rw [hnil]; rfl)] at h
    cases h
  · rw [openPart_of_passes hpasses] at h
    cases h
    exact .part hpart hpasses

theorem openTable_ok {isArray : Bool} {name : Text} (h : d.openTable isArray name = .ok d') :
    ∃ table, ConfigTable.ofHeader? isArray name = some table ∧
      (ConfigItem.header table).Effect d.table d.config d'.table d'.config := by
  unfold openTable at h
  split at h
  · next hsingle =>
    obtain rfl : isArray = false := by simpa using hsingle
    split at h
    · next hname =>
      subst hname
      cases h
      exact ⟨.docgen, rfl, .docgen⟩
    · cases h
  · next hdouble =>
    obtain rfl : isArray = true := by simpa using hdouble
    split at h
    · next hname =>
      subst hname
      cases h
      exact ⟨.pass, rfl, .pass⟩
    · split at h
      · next hname =>
        subst hname
        exact ⟨.package, rfl, openPart_ok rfl h⟩
      · split at h
        · next hname =>
          subst hname
          exact ⟨.sourceLink, rfl, openPart_ok rfl h⟩
        · split at h
          · next hname =>
            subst hname
            exact ⟨.externalLink, rfl, openPart_ok rfl h⟩
          · cases h

theorem openTable_of_effect {isArray : Bool} {name : Text} {table table' : ConfigTable}
    {config' : Config} (htable : ConfigTable.ofHeader? isArray name = some table)
    (h : (ConfigItem.header table).Effect d.table d.config table' config') :
    d.openTable isArray name = .ok { d with config := config', table := table' } := by
  obtain ⟨-, rfl, rfl⟩ := ConfigTable.ofHeader?_eq_some.mp htable
  cases h with
  | docgen => rfl
  | pass => rfl
  | part hpart hpasses =>
      have hopen := fun name add => openPart_of_passes hpasses name table add
      cases table with
      | outside | docgen | pass => cases hpart
      | package => exact hopen _ _
      | sourceLink => exact hopen _ _
      | externalLink => exact hopen _ _

/-! ### Entries -/

theorem entry?_of_isOfPass {ps : List Pass} {p : Pass} (htable : d.table.isOfPass = true)
    (hpasses : d.config.passes = ps ++ [p]) (key : Text) (v : ConfigValue) :
    d.entry? key v = (d.table.setInPass? p key v).map
      (Option.map fun p => { d.config with passes := ps ++ [p] }) := by
  have hlast : ∀ set? : Pass → Except ConfigProblem (Option Pass),
      (do return (← setLast? set? d.config.passes).map fun ps => { d.config with passes := ps }) =
        (set? p).map (Option.map fun p => { d.config with passes := ps ++ [p] }) := by
    intro set?
    rw [hpasses]
    exact map_setLast? set? (fun ps => { d.config with passes := ps }) ps p
  obtain ⟨config, table, ignored⟩ := d
  cases table with
  | outside | docgen => cases htable
  | pass => exact hlast _
  | package => exact hlast _
  | sourceLink => exact hlast _
  | externalLink => exact hlast _

theorem entry?_ok {key : Text} {v : ConfigValue} {answer : Option Config}
    (hpass : HasPass d.table d.config) (h : d.entry? key v = .ok answer) (written : Text) :
    (ConfigItem.entry key written v).Effect d.table d.config d.table (answer.getD d.config) := by
  have hofPass : d.table.isOfPass = true →
      (ConfigItem.entry key written v).Effect d.table d.config d.table
        (answer.getD d.config) := by
    intro htable
    obtain ⟨ps, p, hpasses⟩ := (List.eq_nil_or_concat' _).resolve_left (hpass htable)
    rw [entry?_of_isOfPass htable hpasses] at h
    obtain ⟨stored, hstored, rfl⟩ := map_eq_ok.mp h
    have heffect : (ConfigItem.entry key written v).Effect d.table d.config d.table
        { d.config with passes := ps ++ [stored.getD p] } := .inPass htable hpasses hstored
    cases stored with
    | some p' => exact heffect
    | none =>
        rw [Option.getD_none, ← hpasses] at heffect
        exact heffect
  obtain ⟨config, table, ignored⟩ := d
  cases table with
  | outside => cases h
  | docgen => exact .setting h
  | pass | package | sourceLink | externalLink => exact hofPass rfl

theorem entry?_of_effect {key written : Text} {v : ConfigValue} {table' : ConfigTable}
    {config' : Config}
    (h : (ConfigItem.entry key written v).Effect d.table d.config table' config') :
    table' = d.table ∧ ∃ answer, d.entry? key v = .ok answer ∧ answer.getD d.config = config' := by
  obtain ⟨config, table, ignored⟩ := d
  cases h with
  | setting hset => exact ⟨rfl, _, hset, rfl⟩
  | @inPass _ _ ps p _ _ _ stored htable hpasses hset =>
      have hentry := entry?_of_isOfPass htable hpasses key v
      rw [hset] at hentry
      refine ⟨rfl, _, hentry, ?_⟩
      cases stored with
      | some p' => rfl
      | none =>
          show config = { config with passes := ps ++ [p] }
          rw [← hpasses]

theorem addEntry_of_entry? {key : Text} {v : ConfigValue} {answer : Option Config}
    (h : d.entry? key v = .ok answer) (line : Nat) :
    ∃ d', d.addEntry key v line = .ok d' ∧ d'.table = d.table ∧
      d'.config = answer.getD d.config := by
  unfold addEntry
  rw [h]
  cases answer <;> exact ⟨_, rfl, rfl, rfl⟩

theorem addEntry_error {key : Text} {v : ConfigValue} {line : Nat} {problem : ConfigProblem}
    (h : d.entry? key v = .error problem) : d.addEntry key v line = .error problem := by
  unfold addEntry
  rw [h]
  rfl

/-! ### Steps -/

/-- Reading a header or an entry is reading an item and doing what it does. -/
theorem step_ok (hpass : HasPass d.table d.config) (h : d.step c = .ok (d', c')) :
    ∃ item, c.readItem = .ok (item, c') ∧ item.Effect d.table d.config d'.table d'.config := by
  unfold step at h
  split at h
  · next hbracket =>
    rw [readHeader_eq] at h
    obtain ⟨⟨⟨isArray, name⟩, c₁⟩, hname, h⟩ := bind_eq_ok.mp h
    dsimp only at h
    cases hopen : d.openTable isArray name with
    | error problem =>
        rw [hopen] at h
        cases h
    | ok d₁ =>
        rw [hopen] at h
        obtain ⟨c₂, hend, heq⟩ := map_eq_ok.mp h
        cases heq
        obtain ⟨table, htable, heffect⟩ := openTable_ok hopen
        exact ⟨.header table, (Cursor.readItem_of_bracket hbracket).mpr
          ⟨isArray, name, table, c₁, c', hname, htable, hend, rfl⟩, heffect⟩
  · next hbracket =>
    rw [readEntry_eq] at h
    obtain ⟨⟨key, start⟩, hkey, h⟩ := bind_eq_ok.mp h
    obtain ⟨⟨v, c₁⟩, hread, h⟩ := bind_eq_ok.mp h
    obtain ⟨c₂, hend, h⟩ := bind_eq_ok.mp h
    cases hentry : d.entry? key v with
    | error problem =>
        rw [addEntry_error hentry] at h
        cases h
    | ok answer =>
        obtain ⟨d₁, hadd, htable, hconfig⟩ := addEntry_of_entry? hentry c₂.line
        rw [hadd] at h
        cases h
        rw [htable, hconfig]
        exact ⟨.entry key (start.textTo c₁) v, (Cursor.readItem_of_ne hbracket).mpr
          ⟨key, start, v, c₁, c', hkey, hread, hend, rfl⟩, entry?_ok hpass hentry _⟩

theorem step_of_effect {item : ConfigItem} {table' : ConfigTable} {config' : Config}
    (hitem : c.readItem = .ok (item, c')) (h : item.Effect d.table d.config table' config') :
    ∃ d', d.step c = .ok (d', c') ∧ d'.table = table' ∧ d'.config = config' := by
  by_cases hbracket : c.peek = '['
  · obtain ⟨isArray, name, table, c₁, c₂, hname, htable, hend, heq⟩ :=
      (Cursor.readItem_of_bracket hbracket).mp hitem
    cases heq
    refine ⟨{ d with config := config', table := table' }, ?_, rfl, rfl⟩
    rw [step, if_pos hbracket, readHeader_eq]
    refine bind_eq_ok.mpr ⟨_, hname, ?_⟩
    simp only [openTable_of_effect htable h]
    exact map_eq_ok.mpr ⟨c', hend, rfl⟩
  · obtain ⟨key, start, v, c₁, c₂, hkey, hread, hend, heq⟩ :=
      (Cursor.readItem_of_ne hbracket).mp hitem
    cases heq
    obtain ⟨rfl, answer, hentry, rfl⟩ := entry?_of_effect h
    obtain ⟨d', hadd, htable, hconfig⟩ := addEntry_of_entry? hentry c'.line
    refine ⟨d', ?_, htable, hconfig⟩
    rw [step, if_neg hbracket, readEntry_eq]
    refine bind_eq_ok.mpr ⟨_, hkey, ?_⟩
    refine bind_eq_ok.mpr ⟨_, hread, ?_⟩
    refine bind_eq_ok.mpr ⟨_, hend, ?_⟩
    simp only [hadd]

end ConfigDraft

/-! ## Whole texts -/

namespace ConfigDraft

variable {d d' : ConfigDraft} {c : Cursor} {items : List ConfigItem}

theorem readAll_of_yields (h : c.Yields items) : ∀ {d : ConfigDraft} {table' : ConfigTable}
    {config' : Config} {fuel : Nat}, Builds d.table d.config items table' config' →
      c.rest.length < fuel →
      ∃ d', readAll fuel d c = (d', none) ∧ d'.table = table' ∧ d'.config = config' := by
  induction h with
  | nil hend =>
      intro d table' config' fuel hbuilds hfuel
      obtain ⟨fuel, rfl⟩ := Nat.exists_eq_succ_of_ne_zero (Nat.ne_zero_of_lt hfuel)
      cases hbuilds
      exact ⟨d, by rw [readAll, if_pos hend], rfl, rfl⟩
  | cons hitem hrest ih =>
      intro d table' config' fuel hbuilds hfuel
      obtain ⟨fuel, rfl⟩ := Nat.exists_eq_succ_of_ne_zero (Nat.ne_zero_of_lt hfuel)
      cases hbuilds with
      | cons heffect hbuilds =>
          obtain ⟨d₁, hstep, rfl, rfl⟩ := step_of_effect hitem heffect
          obtain ⟨d', hread, htable, hconfig⟩ := ih hbuilds (Nat.lt_of_lt_of_le
            (Cursor.length_lt_of_readItem hitem) (Nat.le_of_lt_succ hfuel))
          refine ⟨d', ?_, htable, hconfig⟩
          rw [readAll]
          simp only [Cursor.atEnd_of_readItem hitem, Bool.false_eq_true, if_false, hstep]
          exact hread

theorem yields_of_readAll {fuel : Nat} (hfuel : c.rest.length < fuel)
    (hpass : HasPass d.table d.config) (h : readAll fuel d c = (d', none)) :
    ∃ items, c.Yields items ∧ Builds d.table d.config items d'.table d'.config := by
  induction fuel generalizing d c with
  | zero => exact absurd hfuel (Nat.not_lt_zero _)
  | succ fuel ih =>
      rw [readAll] at h
      split at h
      · next hend =>
        cases h
        exact ⟨[], .nil hend, .nil⟩
      · split at h
        · cases h
        · next d₁ c₁ hstep =>
          obtain ⟨item, hitem, heffect⟩ := step_ok hpass hstep
          obtain ⟨items, hyields, hbuilds⟩ := ih (Nat.lt_of_lt_of_le
            (Cursor.length_lt_of_readItem hitem) (Nat.le_of_lt_succ hfuel)) heffect.hasPass h
          exact ⟨item :: items, .cons hitem hyields, .cons heffect hbuilds⟩

end ConfigDraft

namespace Config

/-- A text is accepted when it consists of headers and entries of which each can do what it
does. -/
theorem parse_eq_ok_iff {t : Text} {c : Config} : parse t = .ok c ↔
    ∃ items table, Cursor.Yields ⟨t, 1⟩ items ∧ Builds .outside {} items table c := by
  have hfuel : (⟨t, 1⟩ : Cursor).rest.length < t.length + 1 := Nat.lt_succ_self _
  constructor
  · intro h
    unfold parse at h
    split at h
    · next d hread =>
      cases h
      have hpass : HasPass .outside {} := fun h => nomatch h
      obtain ⟨items, hyields, hbuilds⟩ := ConfigDraft.yields_of_readAll hfuel hpass hread
      exact ⟨items, d.table, hyields, hbuilds⟩
    · cases h
  · rintro ⟨items, table, hyields, hbuilds⟩
    obtain ⟨d, hread, -, rfl⟩ := ConfigDraft.readAll_of_yields (d := {}) hyields hbuilds hfuel
    exact (parse_of_ofText hread).1

/-- The items of an accepted text are all it holds. -/
theorem items_of_parse {t : Text} {c : Config} (h : parse t = .ok c) :
    Cursor.Yields ⟨t, 1⟩ (items t) ∧ ∃ table, Builds .outside {} (items t) table c := by
  obtain ⟨is, table, hyields, hbuilds⟩ := parse_eq_ok_iff.mp h
  have heq : items t = is := hyields.items_eq (Nat.lt_succ_self _)
  exact ⟨heq ▸ hyields, table, heq ▸ hbuilds⟩

end Config

end CrossDoc
