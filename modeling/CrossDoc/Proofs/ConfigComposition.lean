import CrossDoc.Proofs.ConfigEffects
import Mathlib.Tactic.SplitIfs

/-!
# Configuration texts one below the other

A text that stands below another one is read as it is read alone: it adds its own
passes behind those that are there, and it changes the settings that it names and no
others.  Of the passes, an item changes the last one at most, and the items of a
`[docgen]` table change none.
-/

namespace CrossDoc

/-! ## Settings -/

/-- What a configuration says about the whole run, besides the passes. -/
inductive Setting where
  | outputDir
  | format
  | cacheRoot
  | impliedPlatforms
  | generateIndexPages
  | skip
  | failOnError
  | disabledPlugins
deriving DecidableEq, Repr

namespace Setting

def Value : Setting → Type
  | .outputDir | .format => Text
  | .cacheRoot => Option Text
  | .impliedPlatforms | .disabledPlugins => List Text
  | .generateIndexPages | .skip | .failOnError => Bool

def get : (s : Setting) → Config → s.Value
  | .outputDir, c => c.outputDir
  | .format, c => c.format
  | .cacheRoot, c => c.cacheRoot
  | .impliedPlatforms, c => c.impliedPlatforms
  | .generateIndexPages, c => c.generateIndexPages
  | .skip, c => c.skip
  | .failOnError, c => c.failOnError
  | .disabledPlugins, c => c.disabledPlugins

def put : (s : Setting) → s.Value → Config → Config
  | .outputDir, x, c => { c with outputDir := x }
  | .format, x, c => { c with format := x }
  | .cacheRoot, x, c => { c with cacheRoot := x }
  | .impliedPlatforms, x, c => { c with impliedPlatforms := x }
  | .generateIndexPages, x, c => { c with generateIndexPages := x }
  | .skip, x, c => { c with skip := x }
  | .failOnError, x, c => { c with failOnError := x }
  | .disabledPlugins, x, c => { c with disabledPlugins := x }

/-- The setting that an entry of a `[docgen]` table names. -/
def ofKey? (key : Text) : Option Setting :=
  if key = "output_dir" ∨ key = "output" then some .outputDir
  else if key = "format" then some .format
  else if key = "cache_root" then some .cacheRoot
  else if key = "implied_platforms" then some .impliedPlatforms
  else if key = "generate_index_pages" then some .generateIndexPages
  else if key = "skip" then some .skip
  else if key = "fail_on_error" then some .failOnError
  else if key = "disabled_plugins" then some .disabledPlugins
  else none

/-- The value for the setting. -/
def read (key : Text) (v : ConfigValue) : (s : Setting) → Except ConfigProblem s.Value
  | .outputDir | .format => v.asText key
  | .cacheRoot => (v.asText key).map some
  | .impliedPlatforms | .disabledPlugins => v.asList key
  | .generateIndexPages | .skip | .failOnError => v.asBoolean key

variable {s s' : Setting} {c : Config}

theorem get_put (x : s.Value) : s.get (s.put x c) = x := by
  cases s <;> rfl

theorem get_put_of_ne (h : s' ≠ s) (x : s.Value) : s'.get (s.put x c) = s'.get c := by
  cases s <;> cases s' <;> first | rfl | exact absurd rfl h

theorem passes_put (x : s.Value) : (s.put x c).passes = c.passes := by
  cases s <;> rfl

end Setting

/-- A configuration is its passes and its settings. -/
theorem Config.eq_of_settings {c c' : Config} (hpasses : c.passes = c'.passes)
    (hsettings : ∀ s : Setting, s.get c = s.get c') : c = c' := by
  obtain ⟨⟩ := c
  obtain ⟨⟩ := c'
  rw [Config.mk.injEq]
  exact ⟨hsettings .outputDir, hsettings .format, hsettings .cacheRoot,
    hsettings .impliedPlatforms, hsettings .generateIndexPages, hsettings .skip,
    hsettings .failOnError, hpasses, hsettings .disabledPlugins⟩

theorem Config.set?_eq (c : Config) (key : Text) (v : ConfigValue) :
    c.set? key v = match Setting.ofKey? key with
      | none => .ok none
      | some s => (s.read key v).map fun x => some (s.put x c) := by
  unfold Config.set? Setting.ofKey?
  -- one case for each known key, and one for all others
  split_ifs
  all_goals cases v <;> rfl

/-- An entry of a `[docgen]` table stores the setting of its key or, if the key is not known,
nothing. -/
theorem Config.set?_ok {c : Config} {key : Text} {v : ConfigValue} {answer : Option Config}
    (h : c.set? key v = .ok answer) :
    Setting.ofKey? key = none ∧ answer = none ∨
      ∃ s x, Setting.ofKey? key = some s ∧ s.read key v = .ok x ∧ answer = some (s.put x c) := by
  rw [Config.set?_eq] at h
  cases hsetting : Setting.ofKey? key with
  | none =>
      rw [hsetting] at h
      cases h
      exact .inl ⟨rfl, rfl⟩
  | some s =>
      rw [hsetting] at h
      obtain ⟨x, hread, rfl⟩ := map_eq_ok.mp h
      exact .inr ⟨s, x, rfl, hread, rfl⟩

theorem Config.passes_of_set? {c : Config} {key : Text} {v : ConfigValue} {answer : Option Config}
    (h : c.set? key v = .ok answer) : (answer.getD c).passes = c.passes := by
  obtain ⟨-, rfl⟩ | ⟨s, x, -, -, rfl⟩ := Config.set?_ok h
  · rfl
  · exact s.passes_put x

/-! ## Settings and items -/

theorem Setting.get_passes (s : Setting) (c : Config) (ps : List Pass) :
    s.get { c with passes := ps } = s.get c := by
  cases s <;> rfl

/-- The settings to which an item gives a value. -/
def ConfigItem.assigns (table : ConfigTable) : ConfigItem → List Setting
  | .header _ => []
  | .entry key _ _ => if table = .docgen then (Setting.ofKey? key).toList else []

/-- The settings to which some item gives a value. -/
def assigns : ConfigTable → List ConfigItem → List Setting
  | _, [] => []
  | table, item :: items => item.assigns table ++ assigns (item.tableAfter table) items

/-- The settings to which a text gives a value. -/
def Config.assigns (t : Text) : List Setting := CrossDoc.assigns .outside (items t)

section

variable {item : ConfigItem} {items : List ConfigItem} {table table' table₁ : ConfigTable}
  {c c' c₁ : Config} {more : List Pass} {s : Setting}

/-- A setting to which the item gives no value stays. -/
theorem ConfigItem.Effect.get_of_not_mem (h : item.Effect table c table₁ c₁)
    (hs : s ∉ item.assigns table) : s.get c₁ = s.get c := by
  cases h with
  | docgen => rfl
  | pass => exact s.get_passes _ _
  | part hpart hpasses => exact s.get_passes _ _
  | inPass htable hpasses hset => exact s.get_passes _ _
  | @setting c key written v answer hset =>
      obtain ⟨-, rfl⟩ | ⟨s₀, x, hsetting, -, rfl⟩ := Config.set?_ok hset
      · rfl
      · rw [ConfigItem.assigns, if_pos rfl, hsetting] at hs
        exact Setting.get_put_of_ne (by simpa using hs) x

/-- An item does the same to another configuration that ends with the same passes.  An entry does
it where its table is open. -/
theorem ConfigItem.Effect.replay (h : item.Effect table c table₁ c₁)
    (htable : item.tableAfter table' = table₁) (hpasses : c'.passes = more ++ c.passes) :
    ∃ c₁', item.Effect table' c' table₁ c₁' ∧ c₁'.passes = more ++ c₁.passes ∧
      ∀ s ∈ item.assigns table, s.get c₁' = s.get c₁ := by
  cases h with
  | docgen => exact ⟨c', .docgen, hpasses, fun s hs => nomatch hs⟩
  | pass =>
      refine ⟨_, .pass, ?_, fun s hs => nomatch hs⟩
      rw [hpasses, List.append_assoc]
  | part hpart hlast =>
      rw [hlast, ← List.append_assoc] at hpasses
      exact ⟨_, .part hpart hpasses, List.append_assoc _ _ _, fun s hs => nomatch hs⟩
  | inPass hofPass hlast hset =>
      obtain rfl : table' = _ := htable
      rw [hlast, ← List.append_assoc] at hpasses
      refine ⟨_, .inPass hofPass hpasses hset, List.append_assoc _ _ _, fun s hs => ?_⟩
      have hdocgen : table' ≠ .docgen := by
        rintro rfl
        cases hofPass
      rw [ConfigItem.assigns, if_neg hdocgen] at hs
      cases hs
  | @setting c key written v answer hset =>
      obtain rfl : table' = _ := htable
      have hset' := c'.set?_eq key v
      have hassigns : ConfigItem.assigns .docgen (.entry key written v) =
          (Setting.ofKey? key).toList := rfl
      obtain ⟨hsetting, rfl⟩ | ⟨s₀, x, hsetting, hread, rfl⟩ := Config.set?_ok hset
      · rw [hsetting] at hset' hassigns
        exact ⟨c', .setting hset', hpasses, fun s hs => nomatch hassigns ▸ hs⟩
      · rw [hsetting] at hset' hassigns
        refine ⟨s₀.put x c', .setting (hset'.trans (map_eq_ok.mpr ⟨x, hread, rfl⟩)), ?_,
          fun s hs => ?_⟩
        · rw [Option.getD_some, s₀.passes_put, s₀.passes_put, hpasses]
        · rw [hassigns] at hs
          obtain rfl : s = s₀ := List.mem_singleton.mp hs
          exact (s.get_put x).trans (s.get_put x).symm

/-! ## Lists of items -/

theorem Builds.get_of_not_mem (h : Builds table c items table₁ c₁)
    (hs : s ∉ assigns table items) : s.get c₁ = s.get c := by
  induction h with
  | nil => rfl
  | cons heffect hrest ih =>
      rw [assigns, List.mem_append, not_or, ← heffect.eq_tableAfter] at hs
      exact (ih hs.2).trans (heffect.get_of_not_mem hs.1)

/-- An item that can do something needs the table only if it is an entry, and then some table is
open. -/
theorem ConfigItem.Effect.opens (h : item.Effect table c table₁ c₁)
    (htable : table ≠ .outside → table' = table) :
    item.tableAfter table' = table₁ ∧ item.assigns table' = item.assigns table := by
  cases h with
  | docgen | pass | part => exact ⟨rfl, rfl⟩
  | setting =>
      obtain rfl := htable (by decide)
      exact ⟨rfl, rfl⟩
  | inPass hofPass =>
      obtain rfl := htable (by rintro rfl; cases hofPass)
      exact ⟨rfl, rfl⟩

/-- Items that do something to begin with do it behind other ones as well: they start with a
header, so the table that was open is of no account. -/
theorem Builds.replay (h : Builds table c items table₁ c₁) :
    ∀ {table' : ConfigTable} {c' : Config}, (table ≠ .outside → table' = table) →
      c'.passes = more ++ c.passes → ∃ table₁' c₁', Builds table' c' items table₁' c₁' ∧
        c₁'.passes = more ++ c₁.passes ∧
        ∀ s : Setting, s.get c₁' = if s ∈ assigns table items then s.get c₁ else s.get c' := by
  induction h with
  | @nil table c =>
      intro table' c' htable hpasses
      exact ⟨table', c', .nil, hpasses, fun s => rfl⟩
  | @cons table table₁ table₂ c c₁ c₂ item items heffect hrest ih =>
      intro table' c' htable hpasses
      obtain ⟨hopen, hassigns⟩ := heffect.opens htable
      obtain ⟨c₁', heffect', hpasses', hsame⟩ := heffect.replay hopen hpasses
      obtain ⟨table₂', c₂', hbuilds, hpasses₂, hsettings⟩ := ih (fun _ => rfl) hpasses'
      refine ⟨table₂', c₂', .cons heffect' hbuilds, hpasses₂, fun s => ?_⟩
      rw [hsettings s, assigns, ← heffect.eq_tableAfter]
      by_cases hlater : s ∈ assigns table₁ items
      · rw [if_pos hlater, if_pos (List.mem_append_right _ hlater)]
      by_cases hhere : s ∈ item.assigns table
      · -- assigned here for the last time: both runs keep the value from now on
        rw [if_neg hlater, if_pos (List.mem_append_left _ hhere), hsame s hhere,
          hrest.get_of_not_mem hlater]
      · rw [if_neg hlater, if_neg (by simp [hlater, hhere])]
        exact heffect'.get_of_not_mem (hassigns ▸ hhere)

/-! ### Passes -/

theorem ConfigItem.Effect.dropLast_isPrefix (h : item.Effect table c table₁ c₁) :
    c.passes.dropLast <+: c₁.passes.dropLast := by
  cases h with
  | docgen => exact List.prefix_refl _
  | pass =>
      rw [List.dropLast_concat]
      exact List.dropLast_prefix _
  | part hpart hpasses => simp [hpasses]
  | inPass htable hpasses hset => simp [hpasses]
  | setting hset => simp [Config.passes_of_set? hset]

/-- Only the last pass is changed. -/
theorem Builds.dropLast_isPrefix (h : Builds table c items table₁ c₁) :
    c.passes.dropLast <+: c₁.passes.dropLast := by
  induction h with
  | nil => exact List.prefix_refl _
  | cons heffect hrest ih => exact heffect.dropLast_isPrefix.trans ih

/-- The items that stand in no `[docgen]` table. -/
def withoutDocgen : ConfigTable → List ConfigItem → List ConfigItem
  | _, [] => []
  | table, item :: items =>
      let rest := withoutDocgen (item.tableAfter table) items
      if item.tableAfter table = .docgen then rest else item :: rest

theorem ConfigItem.Effect.passes_of_docgen (h : item.Effect table c .docgen c₁) :
    c₁.passes = c.passes := by
  cases h with
  | docgen => rfl
  | part hpart => cases hpart
  | inPass htable => cases htable
  | setting hset => exact Config.passes_of_set? hset

theorem Builds.replay_withoutDocgen (h : Builds table c items table₁ c₁) :
    ∀ {table' : ConfigTable} {c' : Config}, (table ≠ .docgen → table' = table) →
      c'.passes = c.passes → ∃ table₁' c₁',
        Builds table' c' (withoutDocgen table items) table₁' c₁' ∧ c₁'.passes = c₁.passes := by
  induction h with
  | @nil table c =>
      intro table' c' htable hpasses
      exact ⟨table', c', .nil, hpasses⟩
  | @cons table table₁ table₂ c c₁ c₂ item items heffect hrest ih =>
      intro table' c' htable hpasses
      have hafter := heffect.eq_tableAfter
      unfold withoutDocgen
      dsimp only
      rw [← hafter]
      split
      · next hdocgen =>
        subst hdocgen
        exact ih (fun h => absurd rfl h) (hpasses.trans heffect.passes_of_docgen.symm)
      · next hdocgen =>
        have hopen : item.tableAfter table' = table₁ := by
          cases item with
          | header => exact hafter.symm
          | entry =>
              obtain rfl : table₁ = table := hafter
              exact htable hdocgen
        have hnoMore : c'.passes = [] ++ c.passes := hpasses
        obtain ⟨c₁', heffect', hpasses', -⟩ := heffect.replay hopen hnoMore
        obtain ⟨table₂', c₂', hbuilds, hpasses₂⟩ := ih (fun _ => rfl) hpasses'
        exact ⟨table₂', c₂', .cons heffect' hbuilds, hpasses₂⟩

end

/-! ## Texts -/

/-- Two accepted texts, one below the other, are accepted as well.  The passes are those of the
first and those of the second, and the second overrides the settings that it gives a value to.  What
stands behind the header of a later pass leaves the earlier passes alone, and the passes are the
same without the `[docgen]` tables. -/
theorem Config.parse_composes :
    (∀ {a b : Text} {c₁ c₂ : Config}, parse a = .ok c₁ → parse b = .ok c₂ →
      ∃ c, parse (a ++ '\n' :: b) = .ok c ∧ c.passes = c₁.passes ++ c₂.passes ∧
        ∀ s : Setting, s.get c = if s ∈ assigns b then s.get c₂ else s.get c₁) ∧
    ∀ {t : Text} {c : Config}, parse t = .ok c →
      (∀ before after, items t = before ++ .header .pass :: after →
        ∃ table d, Builds .outside {} before table d ∧ d.passes <+: c.passes) ∧
      ∃ table d, Builds .outside {} (withoutDocgen .outside (items t)) table d ∧
        d.passes = c.passes := by
  constructor
  · intro a b c₁ c₂ ha hb
    obtain ⟨hyields, table₁, hbuilds⟩ := items_of_parse ha
    obtain ⟨hyields', table₂, hbuilds'⟩ := items_of_parse hb
    have hnone : c₁.passes = c₁.passes ++ ({} : Config).passes := (List.append_nil _).symm
    have hclosed : ConfigTable.outside ≠ .outside → table₁ = .outside := fun h => absurd rfl h
    obtain ⟨table, c, hmore, hpasses, hsettings⟩ := hbuilds'.replay hclosed hnone
    -- the items of the second text are read further down, from wherever the first one ends
    have hall := hyields.append hyields' 0
    exact ⟨c, parse_eq_ok_iff.mpr ⟨_, table, hall, hbuilds.append hmore⟩, hpasses, hsettings⟩
  · intro t c ht
    obtain ⟨-, table, hbuilds⟩ := items_of_parse ht
    refine ⟨fun before after hitems => ?_, ?_⟩
    · rw [hitems] at hbuilds
      obtain ⟨table', d, hbefore, hafter⟩ := hbuilds.exists_of_append
      refine ⟨table', d, hbefore, ?_⟩
      cases hafter with
      | cons heffect hrest =>
          cases heffect with
          | part hpart => cases hpart
          | pass =>
              have hkept := hrest.dropLast_isPrefix
              rw [List.dropLast_concat] at hkept
              exact hkept.trans <| List.dropLast_prefix _
    · exact hbuilds.replay_withoutDocgen (fun _ => rfl) rfl

/-- A text with a pass that has package options of its own. -/
def coreText : Text :=
  "[docgen]\nformat = \"html\"\nskip = true\n[[pass]]\nmodule = \"core\"\n" ++
    "[[pass.package]]\nprefix = \"core.api\""

def corePass : Pass :=
  { moduleName := "core", packageOptions := [{ packagePrefix := "core.api" }] }

/-- A text that sets the format behind its pass. -/
def appText : Text := "# more\n[[pass]]\nmodule = \"app\"\n[docgen]\nformat = \"json\"\n"

def appPass : Pass := { moduleName := "app" }

/-- The second text says nothing of `skip` and of the package options of the first pass, and its
`[docgen]` table says nothing of passes. -/
theorem Config.parse_composes_coreText :
    parse coreText = .ok { format := "html", skip := true, passes := [corePass] } ∧
      parse appText = .ok { format := "json", passes := [appPass] } ∧
      parse (coreText ++ '\n' :: appText) =
        .ok { format := "json", skip := true, passes := [corePass, appPass] } ∧
      (∃ table d, Builds .outside {} (items coreText) table d ∧
        d.passes <+: [corePass, appPass]) ∧
      ∃ table d,
        Builds .outside {} [.header .pass, .entry "module" "\"app\"" (.text "app")] table d ∧
          d.passes = [appPass] := by
  have hcore : parse coreText = .ok { format := "html", skip := true, passes := [corePass] } := by
    decide +kernel
  have happ : parse appText = .ok { format := "json", passes := [appPass] } := by decide +kernel
  have hassigns : assigns appText = [.format] := by decide +kernel
  have hitems : items (coreText ++ '\n' :: appText) = items coreText ++ .header .pass ::
      [.entry "module" "\"app\"" (.text "app"), .header .docgen,
        .entry "format" "\"json\"" (.text "json")] := by decide +kernel
  have hwithout : withoutDocgen .outside (items appText) =
      [.header .pass, .entry "module" "\"app\"" (.text "app")] := by decide +kernel
  obtain ⟨c, hc, hpasses, hsettings⟩ := parse_composes.1 hcore happ
  have hall : c = { format := "json", skip := true, passes := [corePass, appPass] } := by
    refine eq_of_settings hpasses fun s => ?_
    rw [hsettings, hassigns]
    cases s <;> rfl
  rw [hall] at hc
  exact ⟨hcore, happ, hc, (parse_composes.2 hc).1 _ _ hitems, hwithout ▸ (parse_composes.2 happ).2⟩

end CrossDoc
