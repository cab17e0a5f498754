import CrossDoc.Proofs.FilterOrder
import CrossDoc.Proofs.Isolation
import CrossDoc.Proofs.PassModules

/-!
# Internal and private symbols

A run that does not ask for what is not exposed leaves internal and private
declarations out at the very end.  Until then they take part: of several
symbols with one identity the first counts, whether it is exposed or not.  So
such a symbol can keep an exposed one out of the documentation.  It can also
bring something in: what a source file has below it joins what stands below an
exposed symbol of the groups with its identity.  Where neither happens, leaving
internal and private symbols out beforehand makes no difference.
-/

namespace CrossDoc

open Declaration FirstOccurrence

namespace Symbol

/-- Whether a symbol is public or protected. -/
def isExposed (s : Symbol) : Bool := s.visibility.isExposed

mutual

/-- A symbol without the internal and private symbols below it. -/
def stripped : Symbol → Symbol
  | ⟨kind, keyword, name, tail, visibility, deprecation, annotations, doc, location, members⟩ =>
      ⟨kind, keyword, name, tail, visibility, deprecation, annotations, doc, location,
        strippedAll members⟩

/-- Siblings without internal and private symbols, at any depth. -/
def strippedAll : List Symbol → List Symbol
  | [] => []
  | s :: rest => if s.isExposed then s.stripped :: strippedAll rest else strippedAll rest

end

theorem stripped_eq (s : Symbol) : s.stripped = { s with members := strippedAll s.members } := by
  cases s
  rw [stripped]

theorem strippedAll_eq (ss : List Symbol) :
    strippedAll ss = (ss.filter isExposed).map stripped := by
  induction ss with
  | nil => rfl
  | cons s rest ih =>
      rw [strippedAll, ih]
      cases h : s.isExposed <;> simp [h]

theorem strippedAll_eq_nil {ss : List Symbol} (h : ∀ s ∈ ss, s.isExposed = false) :
    strippedAll ss = [] := by
  rw [strippedAll_eq, List.filter_eq_nil_iff.mpr fun s hs => by simp [h s hs], List.map_nil]

theorem strippedAll_append (xs ys : List Symbol) :
    strippedAll (xs ++ ys) = strippedAll xs ++ strippedAll ys := by
  simp [strippedAll_eq]

variable {owner id : DeclId}

theorem idIn_stripped (owner : DeclId) (s : Symbol) : s.stripped.idIn owner = s.idIn owner := by
  rw [stripped_eq]
  rfl

theorem translate_stripped (p : Platform) (owner : DeclId) (s : Symbol) :
    translate p owner s.stripped =
      { translate p owner s with
        children := translateAll p (s.idIn owner) [] (strippedAll s.members) } := by
  rw [translate_eq, translate_eq, stripped_eq]
  rfl

theorem map_idIn_strippedAll (ss : List Symbol) :
    (strippedAll ss).map (idIn owner) = (ss.filter isExposed).map (idIn owner) := by
  rw [strippedAll_eq, List.map_map]
  exact List.map_congr_left fun s _ => idIn_stripped owner s

theorem find?_strippedAll (ss : List Symbol) :
    ((strippedAll ss).find? fun s => s.idIn owner == id) =
      ((ss.filter isExposed).find? fun s => s.idIn owner == id).map stripped := by
  rw [strippedAll_eq, List.find?_map]
  congr 2
  funext s
  rw [Function.comp_apply, idIn_stripped]

/-- The first symbol with an identity is the first exposed one, if it is
exposed. -/
theorem find?_strippedAll_of_exposed {ss : List Symbol} {s : Symbol}
    (h : (ss.find? fun s => s.idIn owner == id) = some s) (hs : s.isExposed = true) :
    ((strippedAll ss).find? fun s => s.idIn owner == id) = some s.stripped := by
  rw [find?_strippedAll, find?_filter_of_find? hs h, Option.map_some]

/-- Nothing internal or private stands in the way of what groups and files have
for one owner: an exposed symbol has its identity from the start, and no
exposed member of a symbol that is not exposed itself comes in below it. -/
inductive Unobstructed : DeclId → List Symbol → List Symbol → Prop where
  | intro {owner : DeclId} {gs fs : List Symbol}
      (first : ∀ t ∈ gs ++ fs, t.isExposed = true →
        ((gs ++ fs).find? fun s => s.idIn owner == t.idIn owner).any isExposed = true)
      (files : ∀ t ∈ gs ++ fs, t.isExposed = true →
        (fs.find? fun s => s.idIn owner == t.idIn owner).all isExposed = true ∨
          ∀ s ∈ fs, s.idIn owner = t.idIn owner → ∀ m ∈ s.members, m.isExposed = false)
      (below : ∀ t ∈ gs ++ fs, t.isExposed = true → Unobstructed (t.idIn owner)
        (membersOf owner (t.idIn owner) gs) (membersOf owner (t.idIn owner) fs)) :
      Unobstructed owner gs fs

/-- Stripping goes on below an identity whose first symbol is exposed, or which
has no exposed member at all. -/
theorem membersOf_strippedAll {ss : List Symbol}
    (h : (ss.find? fun s => s.idIn owner == id).all isExposed = true ∨
      ∀ s ∈ ss, s.idIn owner = id → ∀ m ∈ s.members, m.isExposed = false) :
    membersOf owner id (strippedAll ss) = strippedAll (membersOf owner id ss) := by
  unfold membersOf
  cases hs : ss.find? fun s => s.idIn owner == id with
  | none =>
      have hnone : (ss.filter isExposed).find? (fun s => s.idIn owner == id) = none := by
        rw [List.find?_eq_none] at hs ⊢
        exact fun s hmem => hs s (List.mem_of_mem_filter hmem)
      rw [find?_strippedAll, hnone]
      rfl
  | some s =>
      rw [hs] at h
      have hid : s.idIn owner = id := by simpa using List.find?_some hs
      rcases h with hexposed | hinner
      · rw [find?_strippedAll_of_exposed hs hexposed, Option.map_some, stripped_eq]
        rfl
      · rw [Option.map_some, Option.getD_some,
          strippedAll_eq_nil (hinner s (List.mem_of_find?_eq_some hs) hid), find?_strippedAll]
        -- Whatever takes the place of `s` has nothing exposed below it either.
        cases ht : (ss.filter isExposed).find? fun s => s.idIn owner == id with
        | none => rfl
        | some t =>
            have hmem := List.mem_of_mem_filter (List.mem_of_find?_eq_some ht)
            have htid : t.idIn owner = id := by simpa using List.find?_some ht
            rw [Option.map_some, Option.map_some, stripped_eq]
            exact strippedAll_eq_nil (hinner t hmem htid)

variable {p : Platform} {keep : KeepTest}
  (hkeep : ∀ d f, keep d p f = f.visibility.isExposed)
include hkeep

/-- What is made of a symbol is kept if the symbol is exposed. -/
theorem filter_translate (owner : DeclId) (s : Symbol) (children : List Declaration) :
    Declaration.filter keep [] { translate p owner s with children := children } =
      if s.isExposed then
        some { translate p owner s with children := filterAll keep [] children }
      else none := by
  have hfacts : Declaration.facts { translate p owner s with children := children } =
      .singleton p s.facts := by
    rw [translate_eq]
  rw [filter_of_singleton hfacts, hkeep]
  rfl

/-- Where nothing stands in the way, internal and private symbols may be left
out before translating and merging or after it. -/
theorem Unobstructed.documented_strippedAll {gs fs : List Symbol} (h : Unobstructed owner gs fs) :
    documented p owner (strippedAll gs) (strippedAll fs) =
      filterAll keep [] (documented p owner gs fs) := by
  induction h with
  | @intro owner gs fs first files below ih =>
      rw [documented_eq, documented_eq, filterAll_eq_filterMap, List.filterMap_filterMap,
        ← strippedAll_append, map_idIn_strippedAll, eraseDups_map_filter first,
        List.filterMap_filter]
      apply List.filterMap_congr
      intro id _
      cases hs : (gs ++ fs).find? fun s => s.idIn owner == id with
      | none => rfl
      | some s =>
          have hmem := List.mem_of_find?_eq_some hs
          have hid : s.idIn owner = id := by simpa using List.find?_some hs
          rw [Option.map_some, Option.bind_some, filter_translate hkeep]
          cases hexposed : s.isExposed with
          | false => simp [hexposed]
          | true =>
              have hgs := all_find?_of_append hs hexposed
              have hfs := files s hmem hexposed
              have hbelow := ih s hmem hexposed
              rw [hid] at hfs hbelow
              rw [find?_strippedAll_of_exposed hs hexposed, Option.map_some, translate_stripped,
                membersOf_strippedAll (Or.inl hgs), membersOf_strippedAll hfs, hbelow]
              simp [hexposed]

end Symbol

/-! ## Environments -/

/-- A group without its internal and private symbols. -/
def SymbolGroup.stripped (g : SymbolGroup) : SymbolGroup :=
  { g with symbols := Symbol.strippedAll g.symbols }

/-- A source file without its internal and private symbols. -/
def SourceFile.stripped (f : SourceFile) : SourceFile :=
  { f with symbols := Symbol.strippedAll f.symbols }

/-- An environment without internal and private symbols, and without what
stands below them. -/
def Environment.stripped (e : Environment) : Environment where
  groups := e.groups.map SymbolGroup.stripped
  files := e.files.map SourceFile.stripped

/-- A run over stripped environments. -/
def RunContext.stripped (c : RunContext) : RunContext :=
  { c with
    passes := c.passes.map fun a => { a with environment := a.environment.map (·.stripped) } }

/-- Nothing internal or private stands in the way in a package that is
documented. -/
def Environment.Unobstructed (e : Environment) (pass : Pass) : Prop :=
  ∀ name, Assembly.skips pass name = false →
    Symbol.Unobstructed (.ofPackage name) (SymbolGroup.symbolsOf name e.groups)
      (SymbolGroup.symbolsOf name (e.files.map (·.group)))

namespace Assembly

open SymbolGroup

theorem symbolsOf_stripped (name : Text) (gs : List SymbolGroup) :
    symbolsOf name (gs.map SymbolGroup.stripped) = Symbol.strippedAll (symbolsOf name gs) := by
  induction gs with
  | nil => rfl
  | cons g rest ih =>
      unfold symbolsOf at *
      by_cases h : g.package = name
      · simp [h, SymbolGroup.stripped, Symbol.strippedAll_append, ih]
      · simp [h, SymbolGroup.stripped, ih]

theorem packageNames_stripped (pass : Pass) (gs : List SymbolGroup) :
    packageNames pass (gs.map SymbolGroup.stripped) = packageNames pass gs := by
  unfold packageNames
  rw [List.map_map]
  rfl

/-- A package that is public is kept with what is exposed in it. -/
theorem filter_emptyPackage {p : Platform} {keep : KeepTest}
    (hkeep : ∀ d f, keep d p f = f.visibility.isExposed) (name : Text)
    (children : List Declaration) :
    Declaration.filter keep [] { DocModule.emptyPackage p name with children := children } =
      some { DocModule.emptyPackage p name with children := filterAll keep [] children } := by
  have hfacts : Declaration.facts { DocModule.emptyPackage p name with children := children } =
      .singleton p {} := rfl
  rw [filter_of_singleton hfacts, hkeep]
  rfl

/-- Where nothing stands in the way, symbols may be left out before the modules
of a pass are made or afterwards. -/
theorem passModule_stripped {a : AnalyzedPass} {e : Environment} {keep : KeepTest}
    (hkeep : ∀ d f, keep d a.platform f = f.visibility.isExposed)
    (he : e.Unobstructed a.pass) :
    passModule a e.stripped = (passModule a e).filter keep := by
  have hfiles : e.stripped.files.map (·.group) =
      (e.files.map (·.group)).map SymbolGroup.stripped := by
    unfold Environment.stripped
    rw [List.map_map, List.map_map]
    rfl
  have hpackages : (passModule a e.stripped).packages =
      filterAll keep [] (passModule a e).packages := by
    rw [packages_passModule, packages_passModule, hfiles, Environment.stripped,
      packageNames_stripped, packageNames_stripped, filterAll_eq_filterMap, List.filterMap_map,
      ← List.filterMap_eq_map]
    apply List.filterMap_congr
    intro name hname
    have hskip : skips a.pass name = false := by
      rw [List.mem_eraseDups, List.mem_append] at hname
      exact hname.elim (fun h => (mem_packageNames.mp h).2) fun h => (mem_packageNames.mp h).2
    rw [Function.comp_apply, Function.comp_apply, filter_emptyPackage hkeep, symbolsOf_stripped,
      symbolsOf_stripped, (he name hskip).documented_strippedAll hkeep]
  have hname : (passModule a e.stripped).name = (passModule a e).name := by
    rw [name_passModule, name_passModule]
  calc passModule a e.stripped
      = ⟨(passModule a e.stripped).name, (passModule a e).facts,
          (passModule a e.stripped).packages⟩ := rfl
    _ = (passModule a e).filter keep := by rw [hname, hpackages]; rfl

end Assembly

namespace Declaration

mutual

/-- What a tree says: the way to each declaration, with a platform and the
facts there. -/
def statements (above : List DeclId) : Declaration → List (List DeclId × Platform × Facts)
  | ⟨_, _, id, _, facts, children⟩ =>
      facts.entries.map (fun e => (above ++ [id], e)) ++ statementsAll (above ++ [id]) children

def statementsAll (above : List DeclId) :
    List Declaration → List (List DeclId × Platform × Facts)
  | [] => []
  | d :: rest => d.statements above ++ statementsAll above rest

end

end Declaration

/-- What a module says about its declarations. -/
def DocModule.statements (m : DocModule) : List (List DeclId × Platform × Facts) :=
  Declaration.statementsAll [] m.packages

namespace RunContext

/-- The module that a run documents: the modules of the symbols of all passes
and those of their files, merged and refined by the base transforms. -/
def documentation (c : RunContext) : Except Fault DocModule := do
  let symbols ← c.passes.mapM fun a => (Assembly.ofGroups a c).value
  let files ← c.passes.mapM fun a => (Assembly.ofFiles a c).value
  match (DocModule.merge (symbols ++ files)).value with
  | .ok m => (BaseTransform.applyAll BaseTransform.all m c).value
  | .error failure => .error (.failed failure)

/-- A run with one pass that asks for nothing internal or private, not even
for some packages, and whose include files can be read. -/
structure IsPlainPass (c : RunContext) (a : AnalyzedPass) (e : Environment) : Prop where
  passes : c.passes = [a]
  environment : a.environment = some e
  nonPublic : a.pass.includeNonPublic = false
  options : a.pass.packageOptions = []
  readable : c.IncludesReadable

variable {c c' : RunContext} {a : AnalyzedPass} {e : Environment}

theorem IsPlainPass.documentation_eq (h : c.IsPlainPass a e) :
    c.documentation =
      (BaseTransform.applyAll BaseTransform.all (Assembly.passModule a e) c).value := by
  unfold documentation
  rw [h.passes, List.mapM_cons, List.mapM_nil, List.mapM_cons, List.mapM_nil,
    Assembly.value_ofGroups h.environment, Assembly.value_ofFiles h.environment]
  rfl

theorem IsPlainPass.stripped (h : c.IsPlainPass a e) :
    c.stripped.IsPlainPass { a with environment := some e.stripped } e.stripped where
  passes := by
    rw [RunContext.stripped, h.passes, List.map_singleton, h.environment]
    rfl
  environment := rfl
  nonPublic := h.nonPublic
  options := h.options
  readable := by
    intro b hb
    obtain ⟨b, hmem, rfl⟩ := List.mem_map.mp hb
    exact h.readable b hmem

theorem IsPlainPass.keepsVisibility (h : c.IsPlainPass a e) (d : Declaration) (f : Facts) :
    c.keepsVisibility d a.platform f = f.visibility.isExposed := by
  have hpass : c.passFor? a.platform = some a.pass := by
    rw [passFor?, h.passes]
    simp
  have hoptions : (a.pass.optionsFor d.id.package).includeNonPublic = false := by
    unfold Pass.optionsFor
    rw [h.options]
    exact h.nonPublic
  rw [RunContext.keepsVisibility, optionsFor?, hpass, Option.map_some, Option.all_some, hoptions,
    Bool.or_false]

/-- What is not exposed may go before the other filters do their work. -/
theorem refined_filter_keepsVisibility (c : RunContext) (m : DocModule) :
    c.refined (m.filter c.keepsVisibility) = c.refined m := by
  rw [refined, DocModule.filter_comm (byLabel_keepsVisibility c) (byLabel_keepsSuppression c),
    DocModule.filter_self (byLabel_keepsVisibility c)]
  rfl

theorem refined_congr (h : ∀ p, c'.passFor? p = c.passFor? p) (m : DocModule) :
    c'.refined m = c.refined m := by
  have hoptions : ∀ p package, c'.optionsFor? p package = c.optionsFor? p package := by
    intro p package
    rw [optionsFor?, optionsFor?, h]
  have hsuppression : c'.keepsSuppression = c.keepsSuppression := by
    funext d p f
    simp only [keepsSuppression, h]
  have hvisibility : c'.keepsVisibility = c.keepsVisibility := by
    funext d p f
    simp only [RunContext.keepsVisibility, hoptions]
  have hdeprecation : c'.keepsDeprecation = c.keepsDeprecation := by
    funext d p f
    simp only [keepsDeprecation, hoptions]
  have hpackage : c'.keepsPackage = c.keepsPackage := by
    funext d p f
    simp only [keepsPackage, h]
  have hlink : c'.linkSource = c.linkSource := by
    funext d p f
    simp only [linkSource, h]
  rw [refined, refined, hsuppression, hvisibility, hdeprecation, hpackage, hlink]

theorem passFor?_stripped (c : RunContext) (p : Platform) :
    c.stripped.passFor? p = c.passFor? p := by
  unfold passFor? RunContext.stripped
  rw [List.find?_map, Option.map_map]
  rfl

/-- **What is internal or private does not influence what is documented,**
unless it stands in the way of what is exposed: a run over the environment
without such symbols documents the very same module. -/
theorem documentation_stripped (h : c.IsPlainPass a e) (he : e.Unobstructed a.pass) :
    ∃ r, c.documentation = .ok r ∧ c.stripped.documentation = .ok r := by
  obtain ⟨d, hd⟩ := DocModule.applyAllIncludes_ok (Assembly.passModule a e) h.readable
  refine ⟨c.refined d, ?_, ?_⟩
  · rw [h.documentation_eq, BaseTransform.value_applyAll_all,
      BaseTransform.value_moduleDocumentation, hd]
  · -- The include files see no difference, and what they leave has lost the same symbols.
    have hsection : ∀ (m : DocModule) s, (m.applySection a.platform s).filter c.keepsVisibility =
        (m.filter c.keepsVisibility).applySection a.platform s := fun m s =>
      DocModule.filter_applySection (byLabel_keepsVisibility c) (fun _ _ _ _ => rfl) m a.platform s
    have hincludes : (DocModule.applyAllIncludes c.stripped.disk
        ((Assembly.passModule a e).filter c.keepsVisibility) c.stripped.passes).run.value =
          .ok (d.filter c.keepsVisibility) := by
      rw [h.passes, DocModule.value_applyAllIncludes_singleton] at hd
      rw [h.stripped.passes, DocModule.value_applyAllIncludes_singleton]
      show (DocModule.applyIncludes c.disk a.platform _ a.pass.includes).run.value = _
      rw [DocModule.value_applyIncludes_map hsection _ fun _ _ => rfl, hd]
      rfl
    have hmodule : Assembly.passModule { a with environment := some e.stripped } e.stripped =
        (Assembly.passModule a e).filter c.keepsVisibility :=
      Assembly.passModule_stripped h.keepsVisibility he
    rw [h.stripped.documentation_eq, BaseTransform.value_applyAll_all,
      BaseTransform.value_moduleDocumentation, hmodule, hincludes]
    show Except.ok (c.stripped.refined _) = _
    rw [refined_congr (passFor?_stripped c), refined_filter_keepsVisibility]

/-! ### Runs over some symbols of a package -/

/-- A pass over an environment, with the options a pass has by itself. -/
def plainPass (e : Environment) : AnalyzedPass :=
  let pass : Pass := { moduleName := "m" }
  ⟨pass.platform, pass, some e⟩

def plainRun (e : Environment) : RunContext := { passes := [plainPass e] }

theorem plainRun_isPlainPass (e : Environment) : (plainRun e).IsPlainPass (plainPass e) e where
  passes := rfl
  environment := rfl
  nonPublic := rfl
  options := rfl
  readable := by
    intro a ha
    obtain rfl := List.mem_singleton.mp ha
    exact fun path hpath => absurd hpath List.not_mem_nil

/-- The symbols of a package among groups and among files. -/
def packageSymbols (gs fs : List Symbol) : Environment where
  groups := [⟨"p", gs⟩]
  files := [⟨"a.japi", "p", fs⟩]

def classC (visibility : Visibility) (members : List Symbol) : Symbol :=
  { name := "C", visibility := visibility, members := members }

def functionOf (name : Text) (visibility : Visibility) : Symbol :=
  { kind := .function, name := name, visibility := visibility }

/-- A class with a private member, and a private class of the same name that
has an internal one. -/
def quietEnvironment : Environment :=
  packageSymbols [classC .publicDecl [functionOf "f" .privateDecl, functionOf "g" .publicDecl]]
    [classC .privateDecl [functionOf "g" .internalDecl], functionOf "h" .internalDecl]

theorem unobstructed_nil (owner : DeclId) : Symbol.Unobstructed owner [] [] :=
  .intro (by simp) (by simp) (by simp)

/-- Symbols of one package do not stand in the way in others. -/
theorem packageSymbols_unobstructed {gs fs : List Symbol}
    (h : Symbol.Unobstructed (.ofPackage "p") gs fs) (pass : Pass) :
    (packageSymbols gs fs).Unobstructed pass := by
  intro name _
  by_cases hname : name = "p"
  · subst hname
    have hgroups : SymbolGroup.symbolsOf "p" (packageSymbols gs fs).groups = gs :=
      List.append_nil gs
    have hfiles : SymbolGroup.symbolsOf "p" ((packageSymbols gs fs).files.map (·.group)) = fs :=
      List.append_nil fs
    rw [hgroups, hfiles]
    exact h
  · rw [SymbolGroup.symbolsOf_eq_nil (by simpa [packageSymbols] using hname),
      SymbolGroup.symbolsOf_eq_nil (by simpa [packageSymbols, SourceFile.group] using hname)]
    exact unobstructed_nil _

theorem quiet_unobstructed (pass : Pass) : quietEnvironment.Unobstructed pass := by
  apply packageSymbols_unobstructed
  refine .intro (by decide) (by decide) fun t ht hexposed => ?_
  rcases List.mem_cons.mp ht with rfl | ht
  · -- Of the members of the class only the public `g` is exposed, and it has none itself.
    refine .intro (by decide) (by decide) fun s hs hexposed => ?_
    rcases List.mem_cons.mp hs with rfl | hs
    · cases hexposed
    · rcases List.mem_cons.mp hs with rfl | hs
      · exact unobstructed_nil _
      · obtain rfl := List.mem_singleton.mp (show s ∈ [functionOf "g" .internalDecl] from hs)
        cases hexposed
  · have hfiles : ∀ s ∈ [classC .privateDecl [functionOf "g" .internalDecl],
        functionOf "h" .internalDecl], s.isExposed = false := by
      decide
    rw [hfiles t ht] at hexposed
    cases hexposed

theorem documentation_stripped_quiet :
    (plainRun quietEnvironment).IsPlainPass (plainPass quietEnvironment) quietEnvironment ∧
      quietEnvironment.Unobstructed (plainPass quietEnvironment).pass ∧
      ∃ r, (plainRun quietEnvironment).documentation = .ok r ∧
        (plainRun quietEnvironment).stripped.documentation = .ok r :=
  ⟨plainRun_isPlainPass _, quiet_unobstructed _,
    documentation_stripped (plainRun_isPlainPass _) (quiet_unobstructed _)⟩

/-! ### What stands in the way -/

/-- A private class before a public one. -/
def hidingRun : RunContext :=
  plainRun (packageSymbols [classC .privateDecl [], classC .publicDecl []] [])

/-- A public class, and in a file a private one that has a public member. -/
def leakingRun : RunContext :=
  plainRun (packageSymbols [classC .publicDecl []]
    [classC .privateDecl [functionOf "f" .publicDecl]])

/-- The ways to what a run documents. -/
def documentedWays (c : RunContext) : Option (List (List DeclId)) :=
  c.documentation.toOption.map fun m => m.statements.map (·.1)

theorem exists_of_documentedWays {ways : List (List DeclId)}
    (h : c.documentedWays = some ways) :
    ∃ r, c.documentation = .ok r ∧ r.statements.map (·.1) = ways := by
  unfold documentedWays at h
  cases hr : c.documentation with
  | error fault =>
      rw [hr] at h
      cases h
  | ok r =>
      rw [hr] at h
      exact ⟨r, rfl, Option.some.inj h⟩

theorem exists_statement_of_ways {r s : DocModule} (way : List DeclId)
    (hs : way ∈ s.statements.map (·.1)) (hr : way ∉ r.statements.map (·.1)) :
    ∃ t ∈ s.statements, t ∉ r.statements := by
  obtain ⟨t, ht, rfl⟩ := List.mem_map.mp hs
  exact ⟨t, ht, fun hmem => hr (List.mem_map_of_mem hmem)⟩

/-- A private symbol can keep a public one with its identity out of the
documentation, and what stands below a private symbol can get into it. -/
theorem documentation_stripped_ne :
    (∃ a e, hidingRun.IsPlainPass a e ∧ ∃ r s, hidingRun.documentation = .ok r ∧
      hidingRun.stripped.documentation = .ok s ∧ ∃ t ∈ s.statements, t ∉ r.statements) ∧
    ∃ a e, leakingRun.IsPlainPass a e ∧ ∃ r s, leakingRun.documentation = .ok r ∧
      leakingRun.stripped.documentation = .ok s ∧ ∃ t ∈ r.statements, t ∉ s.statements := by
  let p : DeclId := .ofPackage "p"
  let classId : DeclId := p.withClass "C"
  constructor
  · obtain ⟨r, hr, hways⟩ :=
      exists_of_documentedWays (show hidingRun.documentedWays = some [] by decide +kernel)
    obtain ⟨s, hs, hways'⟩ := exists_of_documentedWays
      (show hidingRun.stripped.documentedWays = some [[p], [p, classId]] by decide +kernel)
    refine ⟨_, _, plainRun_isPlainPass _, r, s, hr, hs,
      exists_statement_of_ways [p, classId] ?_ ?_⟩
    · simp [hways']
    · simp [hways]
  · obtain ⟨r, hr, hways⟩ := exists_of_documentedWays
      (show leakingRun.documentedWays =
        some [[p], [p, classId], [p, classId, classId.withCallable "f" "()"]] by decide +kernel)
    obtain ⟨s, hs, hways'⟩ := exists_of_documentedWays
      (show leakingRun.stripped.documentedWays = some [[p], [p, classId]] by decide +kernel)
    refine ⟨_, _, plainRun_isPlainPass _, r, s, hr, hs,
      exists_statement_of_ways [p, classId, classId.withCallable "f" "()"] ?_ ?_⟩
    · simp [hways]
    · simp [hways']

end RunContext

end CrossDoc
