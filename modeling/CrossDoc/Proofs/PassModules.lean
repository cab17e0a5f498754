import CrossDoc.Proofs.Merging
import CrossDoc.Proofs.Translation

/-!
# The modules of a pass in closed form

Symbols reach the module of a pass group by group, and each group adds to what
its package has already.  The result does not show the steps: packages stand
in the order in which they are named first, and the members of each are those
of all its symbols, of which the first with an identity counts.  A pass has two
such modules, one of its symbol groups and one of its source files, and what
merging makes of them is described in the same way.
-/

namespace CrossDoc

open Declaration FirstOccurrence

namespace Symbol

variable {p : Platform} {owner : DeclId}

/-! ## Siblings -/

/-- Of the identities seen before, only the set counts. -/
theorem translateAll_congr : ∀ (ss : List Symbol) {seen seen' : List DeclId},
    (∀ id, id ∈ seen ↔ id ∈ seen') → translateAll p owner seen ss = translateAll p owner seen' ss
  | [], _, _, _ => rfl
  | s :: rest, seen, seen', h => by
      have hrest : ∀ id, id ∈ s.idIn owner :: seen ↔ id ∈ s.idIn owner :: seen' := by
        intro id
        rw [List.mem_cons, List.mem_cons, h]
      rw [translateAll, translateAll, translateAll_congr rest h, translateAll_congr rest hrest]
      simp [h]

/-- Later symbols are looked at with what the earlier ones gave. -/
theorem translateAll_append : ∀ (xs ys : List Symbol) (seen : List DeclId),
    translateAll p owner seen (xs ++ ys) = translateAll p owner seen xs ++
      translateAll p owner (seen ++ (translateAll p owner seen xs).map (·.id)) ys
  | [], ys, seen => by simp [translateAll]
  | s :: rest, ys, seen => by
      rw [List.cons_append, translateAll, translateAll]
      split
      · exact translateAll_append rest ys seen
      · have hid : (translate p owner s).id = s.idIn owner := by rw [translate_eq]
        rw [List.cons_append, translateAll_append rest ys, List.map_cons, hid]
        congr 2
        apply translateAll_congr
        intro id
        simp only [List.mem_append, List.mem_cons]
        rw [or_assoc, or_left_comm]

/-- One more symbol is translated unless its identity has occurred. -/
theorem translateAll_concat (ss : List Symbol) (s : Symbol) :
    translateAll p owner [] (ss ++ [s]) = translateAll p owner [] ss ++
      if s.idIn owner ∈ (translateAll p owner [] ss).map (·.id) then []
      else [translate p owner s] := by
  rw [translateAll_append, List.nil_append, translateAll, translateAll, translateAll]
  simp

/-- Translated siblings stand in order of first occurrence. -/
theorem ids_translateAll (p : Platform) (owner : DeclId) (ss : List Symbol) :
    (translateAll p owner [] ss).map (·.id) = (ss.map (idIn owner)).eraseDups := by
  induction ss using List.reverseRecOn with
  | nil => rfl
  | append_singleton ss s ih =>
      have hid : (translate p owner s).id = s.idIn owner := by rw [translate_eq]
      rw [translateAll_concat, List.map_append, ih, List.map_append, List.map_singleton,
        eraseDups_append_singleton]
      by_cases h : s.idIn owner ∈ ss.map (idIn owner)
      · rw [if_pos h, if_pos (List.mem_eraseDups.mpr h), List.map_nil, List.append_nil]
      · rw [if_neg h, if_neg (fun h' => h (List.mem_eraseDups.mp h')), List.map_singleton, hid]

theorem find?_translateAll_of_seen (id : DeclId) : ∀ (ss : List Symbol) (seen : List DeclId),
    (translateAll p owner seen ss).find? (fun d => d.id == id) =
      if id ∈ seen then none
      else (ss.find? fun s => s.idIn owner == id).map (translate p owner)
  | [], seen => by simp [translateAll]
  | s :: rest, seen => by
      have hid : (translate p owner s).id = s.idIn owner := by rw [translate_eq]
      rw [translateAll]
      by_cases hs : s.idIn owner = id
      · subst hs
        by_cases hseen : s.idIn owner ∈ seen
        · simp [hseen, find?_translateAll_of_seen]
        · simp [hseen, hid]
      · have hrest := fun seen => find?_translateAll_of_seen id rest seen
        have hne : ¬ id = s.idIn owner := fun h => hs h.symm
        by_cases hseen : s.idIn owner ∈ seen <;> simp [hseen, hs, hne, hid, hrest]

/-- Of several symbols with one identity the first is translated. -/
theorem find?_translateAll (p : Platform) (owner : DeclId) (ss : List Symbol) (id : DeclId) :
    (translateAll p owner [] ss).find? (fun d => d.id == id) =
      (ss.find? fun s => s.idIn owner == id).map (translate p owner) := by
  rw [find?_translateAll_of_seen, if_neg List.not_mem_nil]

/-- The members of the first sibling symbol with an identity. -/
def membersOf (owner id : DeclId) (ss : List Symbol) : List Symbol :=
  ((ss.find? fun s => s.idIn owner == id).map (·.members)).getD []

theorem membersOf_translateAll (p : Platform) (owner id : DeclId) (ss : List Symbol) :
    Declaration.membersOf id (translateAll p owner [] ss) =
      translateAll p id [] (membersOf owner id ss) := by
  unfold Declaration.membersOf membersOf
  rw [find?_translateAll]
  cases h : ss.find? fun s => s.idIn owner == id with
  | none => rfl
  | some s =>
      have hid : s.idIn owner = id := by simpa using List.find?_some h
      rw [Option.map_some, Option.map_some, Option.map_some, translate_eq, hid]
      rfl

end Symbol

/-! ## Packages -/

namespace SymbolGroup

/-- All symbols that some groups have for a package. -/
def symbolsOf (name : Text) (gs : List SymbolGroup) : List Symbol :=
  (gs.filter fun g => g.package == name).flatMap (·.symbols)

theorem symbolsOf_concat (name : Text) (gs : List SymbolGroup) (g : SymbolGroup) :
    symbolsOf name (gs ++ [g]) =
      symbolsOf name gs ++ if g.package = name then g.symbols else [] := by
  unfold symbolsOf
  by_cases h : g.package = name <;> simp [h]

theorem symbolsOf_eq_nil {name : Text} {gs : List SymbolGroup}
    (h : name ∉ gs.map (·.package)) : symbolsOf name gs = [] := by
  have hnone : (gs.filter fun g => g.package == name) = [] := by
    rw [List.filter_eq_nil_iff]
    intro g hg hname
    exact h (List.mem_map.mpr ⟨g, hg, beq_iff_eq.mp hname⟩)
  rw [symbolsOf, hnone, List.flatMap_nil]

end SymbolGroup

/-- The symbols of a source file, as a group. -/
def SourceFile.group (f : SourceFile) : SymbolGroup := ⟨f.package, f.symbols⟩

namespace DocModule

variable {p : Platform} {name : Text}

/-- Where every name has one package, changing the package of a name changes
this one, or adds one at the end. -/
theorem updatePackage_map {F : Text → Declaration} (hF : ∀ k, (F k).id.package = k)
    (f : Declaration → Declaration) :
    ∀ {names : List Text}, names.Nodup → updatePackage p name f (names.map F) =
      if name ∈ names then names.map fun k => if k = name then f (F k) else F k
      else names.map F ++ [f (emptyPackage p name)]
  | [], _ => rfl
  | k :: rest, h => by
      obtain ⟨hk, hrest⟩ := List.nodup_cons.mp h
      rw [List.map_cons, updatePackage, hF]
      by_cases hname : k = name
      · subst hname
        have hothers : (rest.map fun j => if j = k then f (F j) else F j) = rest.map F := by
          apply List.map_congr_left
          intro j hj
          have hne : j ≠ k := fun he => hk (he ▸ hj)
          rw [if_neg hne]
        simp [hothers]
      · rw [if_neg hname, updatePackage_map hF f hrest]
        have hne : ¬ name = k := fun h => hname h.symm
        by_cases hmem : name ∈ rest <;> simp [hmem, hname, hne]

end DocModule

namespace Assembly

open SymbolGroup

/-- A package with the members that some groups have for it. -/
def packageOf (p : Platform) (gs : List SymbolGroup) (name : Text) : Declaration :=
  { DocModule.emptyPackage p name with
    children := Symbol.translateAll p (.ofPackage name) [] (symbolsOf name gs) }

/-- The packages that a pass documents, in the order in which they are named
first. -/
def packageNames (pass : Pass) (gs : List SymbolGroup) : List Text :=
  ((gs.map (·.package)).filter fun name => !skips pass name).eraseDups

/-- The module of a pass over some groups. -/
def moduleOf (a : AnalyzedPass) (gs : List SymbolGroup) : DocModule :=
  { DocModule.ofPass a with packages := (packageNames a.pass gs).map (packageOf a.platform gs) }

variable {p : Platform}

theorem mem_packageNames {pass : Pass} {gs : List SymbolGroup} {name : Text} :
    name ∈ packageNames pass gs ↔ name ∈ gs.map (·.package) ∧ skips pass name = false := by
  rw [packageNames, List.mem_eraseDups, List.mem_filter, Bool.not_eq_true']

theorem nodup_packageNames (pass : Pass) (gs : List SymbolGroup) : (packageNames pass gs).Nodup :=
  nodup_eraseDups _

theorem packageNames_concat (pass : Pass) (gs : List SymbolGroup) (g : SymbolGroup) :
    packageNames pass (gs ++ [g]) =
      if skips pass g.package || (packageNames pass gs).contains g.package then
        packageNames pass gs
      else packageNames pass gs ++ [g.package] := by
  unfold packageNames
  rw [List.map_append, List.filter_append]
  by_cases hskip : skips pass g.package
  · simp [hskip]
  · have hone : ([g].map (·.package)).filter (fun name => !skips pass name) = [g.package] := by
      simp [hskip]
    rw [hone, eraseDups_append_singleton]
    simp [hskip]

theorem packageOf_concat (gs : List SymbolGroup) (g : SymbolGroup) (name : Text) :
    packageOf p (gs ++ [g]) name =
      if name = g.package then
        { packageOf p gs name with
          children := (packageOf p gs name).children ++ Symbol.translateAll p (.ofPackage name)
            ((packageOf p gs name).children.map (·.id)) g.symbols }
      else packageOf p gs name := by
  unfold packageOf
  by_cases h : name = g.package
  · subst h
    rw [symbolsOf_concat, if_pos rfl, if_pos rfl, Symbol.translateAll_append, List.nil_append]
  · rw [symbolsOf_concat, if_neg h, if_neg (fun h' => h h'.symm), List.append_nil]

theorem symbolsOf_eq_nil_of_not_mem {pass : Pass} {gs : List SymbolGroup} {name : Text}
    (hskip : skips pass name = false) (h : name ∉ packageNames pass gs) :
    symbolsOf name gs = [] :=
  symbolsOf_eq_nil fun hmem => h (mem_packageNames.mpr ⟨hmem, hskip⟩)

theorem find?_packageNames (pass : Pass) (gs : List SymbolGroup) (name : Text) :
    ((packageNames pass gs).find? fun k => k == name) =
      if name ∈ packageNames pass gs then some name else none := by
  split
  · next hmem =>
    obtain ⟨k, hk⟩ := Option.isSome_iff_exists.mp
      (List.find?_isSome (p := fun k => k == name) |>.mpr ⟨name, hmem, by simp⟩)
    obtain rfl : k = name := by simpa using List.find?_some hk
    exact hk
  · next hmem =>
    rw [List.find?_eq_none]
    intro k hk hname
    exact hmem (beq_iff_eq.mp hname ▸ hk)

/-- What a package has already is what its groups gave. -/
theorem childIds_moduleOf (a : AnalyzedPass) (gs : List SymbolGroup) {name : Text}
    (hskip : skips a.pass name = false) :
    (moduleOf a gs).childIds name = (packageOf a.platform gs name).children.map (·.id) := by
  unfold DocModule.childIds DocModule.findPackage? moduleOf
  rw [List.find?_map]
  have hpackage : ((fun d : Declaration => d.id.package == name) ∘ packageOf a.platform gs) =
      fun k => k == name := rfl
  rw [hpackage, find?_packageNames]
  by_cases hmem : name ∈ packageNames a.pass gs
  · rw [if_pos hmem]
    rfl
  · rw [if_neg hmem, packageOf, symbolsOf_eq_nil_of_not_mem hskip hmem]
    rfl

/-- Adding one more group gives the module over one more group. -/
theorem addSymbols_moduleOf (a : AnalyzedPass) (gs : List SymbolGroup) (g : SymbolGroup)
    (hskip : skips a.pass g.package = false) :
    (moduleOf a gs).addSymbols a.platform g.package g.symbols = moduleOf a (gs ++ [g]) := by
  unfold DocModule.addSymbols
  rw [childIds_moduleOf a gs hskip]
  unfold moduleOf
  dsimp only
  rw [DocModule.updatePackage_map (fun _ => rfl) _ (nodup_packageNames a.pass gs),
    packageNames_concat, hskip, Bool.false_or]
  congr 1
  by_cases hmem : g.package ∈ packageNames a.pass gs
  · rw [if_pos hmem, if_pos (by simpa using hmem)]
    apply List.map_congr_left
    intro k _
    rw [packageOf_concat]
    by_cases hk : k = g.package
    · subst hk
      rw [if_pos rfl]
    · rw [if_neg hk, if_neg hk]
  · -- No group was about the package, so it starts empty.
    have hothers : (packageNames a.pass gs).map (packageOf a.platform (gs ++ [g])) =
        (packageNames a.pass gs).map (packageOf a.platform gs) := by
      apply List.map_congr_left
      intro k hk
      have hne : k ≠ g.package := fun he => hmem (he ▸ hk)
      rw [packageOf_concat, if_neg hne]
    have hempty : packageOf a.platform gs g.package =
        DocModule.emptyPackage a.platform g.package := by
      rw [packageOf, symbolsOf_eq_nil_of_not_mem hskip hmem]
      rfl
    rw [if_neg hmem, if_neg (by simpa using hmem), List.map_append, hothers, List.map_singleton,
      packageOf_concat, if_pos rfl, hempty]

/-- A package that is skipped leaves no trace. -/
theorem moduleOf_concat_of_skips {a : AnalyzedPass} (gs : List SymbolGroup) {g : SymbolGroup}
    (hskip : skips a.pass g.package = true) : moduleOf a (gs ++ [g]) = moduleOf a gs := by
  have hpackages : (packageNames a.pass gs).map (packageOf a.platform (gs ++ [g])) =
      (packageNames a.pass gs).map (packageOf a.platform gs) := by
    apply List.map_congr_left
    intro k hk
    have hne : k ≠ g.package := by
      rintro rfl
      rw [(mem_packageNames.mp hk).2] at hskip
      cases hskip
    rw [packageOf_concat, if_neg hne]
  unfold moduleOf
  rw [packageNames_concat, hskip, Bool.true_or, if_pos rfl, hpackages]

theorem addGroups_append (a : AnalyzedPass) : ∀ (gs hs : List SymbolGroup) (m : DocModule),
    (addGroups a m (gs ++ hs)).value = (addGroups a (addGroups a m gs).value hs).value
  | [], _, _ => rfl
  | g :: rest, hs, m => by
      rw [List.cons_append, addGroups, addGroups, Traced.value_bind, Traced.value_bind,
        addGroups_append a rest hs]

theorem value_addGroups (a : AnalyzedPass) (gs : List SymbolGroup) :
    (addGroups a (.ofPass a) gs).value = moduleOf a gs := by
  induction gs using List.reverseRecOn with
  | nil => rfl
  | append_singleton gs g ih =>
      have hlast : (addGroups a (.ofPass a) (gs ++ [g])).value =
          (addPackage a (moduleOf a gs) g.package g.symbols).value := by
        rw [addGroups_append, ih]
        rfl
      rw [hlast, value_addPackage]
      split
      · next hskip => exact (moduleOf_concat_of_skips gs hskip).symm
      · next hskip => exact addSymbols_moduleOf a gs g (by simpa using hskip)

/-- Source files are added as groups are. -/
theorem value_addFiles (a : AnalyzedPass) : ∀ (fs : List SourceFile) (m : DocModule),
    (addFiles a m fs).value = (addGroups a m (fs.map (·.group))).value
  | [], _ => rfl
  | f :: rest, m => by
      rw [addFiles, Traced.value_bind, Traced.value_bind, List.map_cons, addGroups,
        Traced.value_bind, value_addFiles a rest]
      rfl

end Assembly

/-! ## Two modules of one pass -/

/-- Siblings as one pass gives them: all of them on its platform alone, and no
two with one identity, nor two of their members. -/
structure Declaration.OfPass (p : Platform) (ds : List Declaration) : Prop where
  unique : (ds.map (·.id)).Nodup
  members : ∀ d ∈ ds, (d.children.map (·.id)).Nodup
  facts : ∀ d ∈ ds, ∃ f, d.facts = .singleton p f

namespace Declaration

variable {p : Platform} {ds es : List Declaration}

theorem mergedFacts_pair {d e : Declaration} {f g : Facts} (hd : d.facts = .singleton p f)
    (he : e.facts = .singleton p g) : mergedFacts [d, e] = d.facts := by
  simp [mergedFacts, hd, he, PlatformMap.merge, PlatformMap.insert, PlatformMap.singleton,
    PlatformMap.empty, PlatformMap.find?]

/-- Of two lists of siblings from one pass, the first declaration with an
identity counts, with the members of both lists. -/
theorem OfPass.joined (hds : OfPass p ds) (hes : OfPass p es) (id : DeclId) :
    Declaration.joined ((ds ++ es).filter fun d => d.id == id) =
      ((ds ++ es).find? fun d => d.id == id).map fun d =>
        { d with children := union (membersOf id ds ++ membersOf id es) } := by
  have alone : ∀ d : Declaration, (d.children.map (·.id)).Nodup →
      ({ d with children := union d.children } : Declaration) = d := by
    intro d hd
    rw [union_of_nodup hd]
    cases d
    rfl
  rw [List.filter_append, filter_key_of_nodup id hds.unique, filter_key_of_nodup id hes.unique,
    List.find?_append]
  unfold membersOf
  cases hd : ds.find? fun d => d.id == id with
  | none =>
      cases he : es.find? fun d => d.id == id with
      | none => rfl
      | some e =>
          have hmem := List.mem_of_find?_eq_some he
          simpa [Declaration.joined, joinWith] using (alone e (hes.members e hmem)).symm
  | some d =>
      have hmem := List.mem_of_find?_eq_some hd
      cases he : es.find? fun d => d.id == id with
      | none => simpa [Declaration.joined, joinWith] using (alone d (hds.members d hmem)).symm
      | some e =>
          obtain ⟨f, hf⟩ := hds.facts d hmem
          obtain ⟨g, hg⟩ := hes.facts e (List.mem_of_find?_eq_some he)
          simp [Declaration.joined, joinWith, mergedFacts_pair hf hg, allChildren]

end Declaration

namespace Symbol

variable {p : Platform} {owner : DeclId}

theorem ofPass_translateAll (ss : List Symbol) : OfPass p (translateAll p owner [] ss) where
  unique := by
    rw [ids_translateAll]
    exact nodup_eraseDups _
  members d hd := by
    obtain ⟨s, _, rfl⟩ := mem_translateAll hd
    rw [translate_eq, ids_translateAll]
    exact nodup_eraseDups _
  facts d hd := by
    obtain ⟨s, _, rfl⟩ := mem_translateAll hd
    exact ⟨s.facts, by rw [translate_eq]⟩

/-- What becomes of the symbols that groups and files have for one owner. -/
def documented (p : Platform) (owner : DeclId) (gs fs : List Symbol) : List Declaration :=
  union (translateAll p owner [] gs ++ translateAll p owner [] fs)

/-- The first symbol with an identity counts, with the members that it has
among groups and among files. -/
theorem documented_eq (p : Platform) (owner : DeclId) (gs fs : List Symbol) :
    documented p owner gs fs = ((gs ++ fs).map (idIn owner)).eraseDups.filterMap fun id =>
      ((gs ++ fs).find? fun s => s.idIn owner == id).map fun s =>
        { translate p owner s with
          children := documented p id (membersOf owner id gs) (membersOf owner id fs) } := by
  have hids : ((translateAll p owner [] gs ++ translateAll p owner [] fs).map (·.id)).eraseDups =
      ((gs ++ fs).map (idIn owner)).eraseDups := by
    rw [List.map_append, ids_translateAll, ids_translateAll, eraseDups_eraseDups_append,
      eraseDups_append_eraseDups, List.map_append]
  rw [documented, union_eq_filterMap, hids]
  apply List.filterMap_congr
  intro id _
  rw [(ofPass_translateAll gs).joined (ofPass_translateAll fs), List.find?_append,
    find?_translateAll, find?_translateAll, ← Option.map_or, ← List.find?_append, Option.map_map,
    membersOf_translateAll, membersOf_translateAll]
  rfl

end Symbol

namespace Assembly

open SymbolGroup

variable {a : AnalyzedPass}

theorem ids_packages (a : AnalyzedPass) (gs : List SymbolGroup) :
    (moduleOf a gs).packages.map (·.id) = (packageNames a.pass gs).map DeclId.ofPackage := by
  rw [moduleOf, List.map_map]
  rfl

theorem ofPackage_injective : Function.Injective DeclId.ofPackage :=
  fun _ _ h => congrArg DeclId.package h

theorem ofPass_packages (gs : List SymbolGroup) : OfPass a.platform (moduleOf a gs).packages where
  unique := by
    rw [ids_packages]
    exact (nodup_packageNames a.pass gs).map ofPackage_injective
  members d hd := by
    obtain ⟨name, _, rfl⟩ := List.mem_map.mp hd
    exact (Symbol.ofPass_translateAll (symbolsOf name gs)).unique
  facts d hd := by
    obtain ⟨name, _, rfl⟩ := List.mem_map.mp hd
    exact ⟨{}, rfl⟩

theorem find?_packages (gs : List SymbolGroup) (name : Text) :
    ((moduleOf a gs).packages.find? fun d => d.id == DeclId.ofPackage name) =
      if name ∈ packageNames a.pass gs then some (packageOf a.platform gs name) else none := by
  have hid : ((fun d : Declaration => d.id == DeclId.ofPackage name) ∘ packageOf a.platform gs) =
      fun k => k == name := by
    funext k
    rw [Bool.eq_iff_iff, beq_iff_eq, Function.comp_apply, beq_iff_eq]
    exact ofPackage_injective.eq_iff
  rw [moduleOf, List.find?_map, hid, find?_packageNames]
  split <;> rfl

theorem membersOf_packages (gs : List SymbolGroup) {name : Text}
    (hskip : skips a.pass name = false) :
    Declaration.membersOf (.ofPackage name) (moduleOf a gs).packages =
      Symbol.translateAll a.platform (.ofPackage name) [] (symbolsOf name gs) := by
  unfold Declaration.membersOf
  rw [find?_packages]
  split
  · rfl
  · next hmem =>
    rw [symbolsOf_eq_nil_of_not_mem hskip hmem]
    rfl

/-- The packages of the two modules of a pass, merged. -/
theorem union_packages (gs fs : List SymbolGroup) :
    union ((moduleOf a gs).packages ++ (moduleOf a fs).packages) =
      (packageNames a.pass gs ++ packageNames a.pass fs).eraseDups.map fun name =>
        { DocModule.emptyPackage a.platform name with
          children := Symbol.documented a.platform (.ofPackage name) (symbolsOf name gs)
            (symbolsOf name fs) } := by
  have hids : (((moduleOf a gs).packages ++ (moduleOf a fs).packages).map (·.id)).eraseDups =
      (packageNames a.pass gs ++ packageNames a.pass fs).eraseDups.map DeclId.ofPackage := by
    rw [List.map_append, ids_packages, ids_packages, ← List.map_append,
      eraseDups_map ofPackage_injective]
  rw [union_eq_filterMap, hids, List.filterMap_map, ← List.filterMap_eq_map]
  apply List.filterMap_congr
  intro name hname
  rw [List.mem_eraseDups, List.mem_append] at hname
  have hskip : skips a.pass name = false := by
    rcases hname with hname | hname
    · exact (mem_packageNames.mp hname).2
    · exact (mem_packageNames.mp hname).2
  rw [Function.comp_apply, (ofPass_packages gs).joined (ofPass_packages fs), List.find?_append,
    find?_packages, find?_packages, membersOf_packages gs hskip, membersOf_packages fs hskip]
  by_cases hmem : name ∈ packageNames a.pass gs
  · rw [if_pos hmem]
    rfl
  · rw [if_neg hmem, if_pos (hname.resolve_left hmem)]
    rfl

/-- Both modules of a pass, merged. -/
def passModule (a : AnalyzedPass) (e : Environment) : DocModule :=
  .merged [moduleOf a e.groups, moduleOf a (e.files.map (·.group))]

theorem name_passModule (a : AnalyzedPass) (e : Environment) :
    (passModule a e).name = a.pass.moduleName := by
  show (List.find? (fun m : DocModule => !m.name.isEmpty) _).elim [] (·.name) = a.pass.moduleName
  cases h : a.pass.moduleName <;> simp [moduleOf, DocModule.ofPass, h]

theorem packages_passModule (a : AnalyzedPass) (e : Environment) :
    (passModule a e).packages =
      (packageNames a.pass e.groups ++ packageNames a.pass (e.files.map (·.group))).eraseDups.map
        fun name => { DocModule.emptyPackage a.platform name with
          children := Symbol.documented a.platform (.ofPackage name) (symbolsOf name e.groups)
            (symbolsOf name (e.files.map (·.group))) } := by
  rw [← union_packages, passModule, DocModule.merged_packages]
  simp

theorem value_ofGroups {a : AnalyzedPass} {e : Environment} (h : a.environment = some e)
    (c : RunContext) : (ofGroups a c).value = .ok (moduleOf a e.groups) := by
  unfold ofGroups
  rw [h, ← value_addGroups]
  rfl

theorem value_ofFiles {a : AnalyzedPass} {e : Environment} (h : a.environment = some e)
    (c : RunContext) : (ofFiles a c).value = .ok (moduleOf a (e.files.map (·.group))) := by
  unfold ofFiles
  rw [h, ← value_addGroups, ← value_addFiles]
  rfl

end Assembly

end CrossDoc
