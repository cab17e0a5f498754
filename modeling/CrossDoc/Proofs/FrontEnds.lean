import CrossDoc.Proofs.RepeatedSymbols

/-!
# Symbol listings and source files

A listing can reach the module of a pass in two ways: its symbols join the group
of their package, or it is kept as a file of its own.  The groups stand in the
order in which the listings name their packages first, and each holds what the
listings say about its package, in their order.  This is all that a pass makes of
either, so it does not matter which way the listings take: the module is the same,
and so are the reports, though not their order.
-/

namespace CrossDoc

open FirstOccurrence

namespace SymbolGroup

/-- The groups hold by package what the listings have one after the other. -/
structure Gathers (gs ls : List SymbolGroup) : Prop where
  packages : gs.map (·.package) = (ls.map (·.package)).eraseDups
  symbols : ∀ name, symbolsOf name gs = symbolsOf name ls

variable {gs ls : List SymbolGroup} {name package : Text} {symbols : List Symbol}

theorem symbolsOf_cons (name : Text) (g : SymbolGroup) (gs : List SymbolGroup) :
    symbolsOf name (g :: gs) =
      (if g.package = name then g.symbols else []) ++ symbolsOf name gs := by
  unfold symbolsOf
  by_cases h : g.package = name <;> simp [h]

/-- Symbols join the group of their package, or a new one behind all others. -/
theorem packages_addToGroup : ∀ (gs : List SymbolGroup),
    (Environment.addToGroup package symbols gs).map (·.package) =
      if package ∈ gs.map (·.package) then gs.map (·.package)
      else gs.map (·.package) ++ [package]
  | [] => rfl
  | g :: rest => by
      rw [Environment.addToGroup]
      by_cases h : g.package = package
      · rw [if_pos h, if_pos (List.mem_map.mpr ⟨g, List.mem_cons_self, h⟩)]
        rfl
      · have hmem : package ∈ (g :: rest).map (·.package) ↔ package ∈ rest.map (·.package) := by
          rw [List.map_cons, List.mem_cons, or_iff_right (Ne.symm h)]
        simp only [if_neg h, hmem]
        rw [List.map_cons, packages_addToGroup rest]
        split <;> rfl

/-- What joins a group stands behind what its package has; no other package sees it. -/
theorem symbolsOf_addToGroup : ∀ {gs : List SymbolGroup}, (gs.map (·.package)).Nodup →
    symbolsOf name (Environment.addToGroup package symbols gs) =
      symbolsOf name gs ++ if package = name then symbols else []
  | [], _ => symbolsOf_concat name [] ⟨package, symbols⟩
  | g :: rest, h => by
      obtain ⟨hg, hrest⟩ := List.nodup_cons.mp h
      rw [Environment.addToGroup]
      by_cases hp : g.package = package
      · rw [if_pos hp, symbolsOf_cons, symbolsOf_cons, ← hp]
        by_cases hname : g.package = name
        · -- No later group has the package, so its symbols end with this one.
          have hnone : symbolsOf name rest = [] := symbolsOf_eq_nil (hname ▸ hg)
          simp [hname, hnone]
        · simp [hname]
      · rw [if_neg hp, symbolsOf_cons, symbolsOf_cons, symbolsOf_addToGroup hrest,
          List.append_assoc]

theorem Gathers.addToGroup (h : Gathers gs ls) (package : Text) (symbols : List Symbol) :
    Gathers (Environment.addToGroup package symbols gs) (ls ++ [⟨package, symbols⟩]) where
  packages := by
    rw [packages_addToGroup, h.packages, List.map_append, List.map_singleton,
      eraseDups_append_singleton]
    simp only [List.mem_eraseDups]
  symbols name := by
    have hnodup : (gs.map (·.package)).Nodup := by
      rw [h.packages]
      exact nodup_eraseDups _
    rw [symbolsOf_addToGroup hnodup, symbolsOf_concat, h.symbols]

end SymbolGroup

namespace Environment

open SymbolGroup

/-- The listings as symbol listings, added one by one. -/
def ofSymbolListings (fs : List SourceFile) : Environment := fs.foldl addSymbolListing {}

/-- The listings as source files, added one by one. -/
def ofSourceFiles (fs : List SourceFile) : Environment := fs.foldl addSourceFile {}

theorem gathers_ofSymbolListings (fs : List SourceFile) :
    Gathers (ofSymbolListings fs).groups (fs.map (·.group)) := by
  induction fs using List.reverseRecOn with
  | nil => exact ⟨rfl, fun _ => rfl⟩
  | append_singleton fs f ih =>
      rw [ofSymbolListings, List.foldl_append, List.map_append]
      exact ih.addToGroup f.package f.symbols

theorem files_ofSourceFiles (fs : List SourceFile) : (ofSourceFiles fs).files = fs := by
  induction fs using List.reverseRecOn with
  | nil => rfl
  | append_singleton fs f ih =>
      rw [ofSourceFiles, List.foldl_append]
      exact congrArg (· ++ [f]) ih

end Environment

namespace Assembly

open SymbolGroup Traced

variable {gs ls : List SymbolGroup}

/-- Skipped packages apart, the groups name what the listings name. -/
theorem packageNames_of_gathers (pass : Pass) (h : Gathers gs ls) :
    packageNames pass gs = packageNames pass ls := by
  rw [packageNames, packageNames, eraseDups_filter, eraseDups_filter, h.packages,
    eraseDups_of_nodup (nodup_eraseDups _)]

/-- A module shows of its groups only what they hold by package. -/
theorem moduleOf_of_gathers (a : AnalyzedPass) (h : Gathers gs ls) :
    moduleOf a gs = moduleOf a ls := by
  have hpackage : packageOf a.platform gs = packageOf a.platform ls := by
    funext name
    rw [packageOf, packageOf, h.symbols]
  rw [moduleOf, moduleOf, packageNames_of_gathers a.pass h, hpackage]

/-- So do its reports. -/
theorem duplicates_of_gathers (pass : Pass) (h : Gathers gs ls) :
    ((packageNames pass gs).flatMap fun name =>
        Symbol.duplicatesAll (.ofPackage name) [] (symbolsOf name gs)) =
      (packageNames pass ls).flatMap fun name =>
        Symbol.duplicatesAll (.ofPackage name) [] (symbolsOf name ls) := by
  rw [packageNames_of_gathers pass h]
  exact List.flatMap_congr fun name _ => by rw [h.symbols]

/-- Source files are reported about as groups are. -/
theorem diagnostics_addFiles (a : AnalyzedPass) : ∀ (fs : List SourceFile) (m : DocModule),
    (addFiles a m fs).diagnostics = (addGroups a m (fs.map (·.group))).diagnostics
  | [], _ => rfl
  | f :: rest, m => by
      rw [addFiles, diagnostics_bind, diagnostics_log, List.nil_append, diagnostics_bind,
        List.map_cons, addGroups, diagnostics_bind, diagnostics_addFiles a rest]
      rfl

theorem diagnostics_ofFiles {a : AnalyzedPass} {e : Environment} (h : a.environment = some e)
    (c : RunContext) : (ofFiles a c).diagnostics =
      (addGroups a (.ofPass a) (e.files.map (·.group))).diagnostics := by
  unfold ofFiles
  rw [h, ← diagnostics_addFiles]
  exact (diagnostics_bind _ _).trans (List.append_nil _)

/-- **The two ways agree.**  A pass makes one module of some listings, whether they
are gathered by package or kept as files, and finds the same repeated symbols. -/
theorem ofGroups_agrees_ofFiles (a : AnalyzedPass) (fs : List SourceFile) (c : RunContext) :
    ∃ m, (ofGroups { a with environment := some (.ofSymbolListings fs) } c).value = .ok m ∧
      (ofFiles { a with environment := some (.ofSourceFiles fs) } c).value = .ok m ∧
      (ofGroups { a with environment := some (.ofSymbolListings fs) } c).diagnostics.Perm
        (ofFiles { a with environment := some (.ofSourceFiles fs) } c).diagnostics := by
  have hgroups := Environment.gathers_ofSymbolListings fs
  have hfiles := Environment.files_ofSourceFiles fs
  refine ⟨moduleOf a (fs.map (·.group)), ?_, ?_, ?_⟩
  · rw [value_ofGroups rfl c]
    exact congrArg Except.ok (moduleOf_of_gathers a hgroups)
  · rw [value_ofFiles rfl c, hfiles]
    rfl
  · -- The order differs: groups report by package, files as the listings come.
    rw [diagnostics_ofGroups rfl, diagnostics_ofFiles rfl, hfiles]
    refine (diagnostics_addGroups _ _).trans (List.Perm.trans ?_ (diagnostics_addGroups _ _).symm)
    exact .of_eq (duplicates_of_gathers a.pass hgroups)

end Assembly

end CrossDoc
