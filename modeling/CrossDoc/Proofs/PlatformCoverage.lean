import CrossDoc.Proofs.Production
import CrossDoc.Proofs.Regrouping
import CrossDoc.Proofs.Survival

/-!
# Platforms on the way down a module

A declaration exists only on platforms of what encloses it.  The stages of a run
change platform maps in different ways: translation starts with one platform,
merging unites maps, filters take platforms away from whole subtrees and module
sections may add one to the module.  All of them keep platforms nested, leave no
declaration without platforms and repeat no platform in a map.
-/

namespace CrossDoc

namespace PlatformMap

variable {α : Type}

/-- Setting a value takes no platform away. -/
theorem subset_platforms_set (m : PlatformMap α) (p : Platform) (v : α) :
    m.platforms ⊆ (m.set p v).platforms := by
  unfold set
  split
  · intro q hq
    rw [platforms, map_fst_replaceFirst]
    exact hq
  · intro q hq
    rw [platforms, List.map_append]
    exact List.mem_append_left _ hq

theorem platforms_filter_subset (m : PlatformMap α) (keep : Platform → α → Bool) :
    (m.filter keep).platforms ⊆ m.platforms :=
  (List.filter_sublist.map Prod.fst).subset

end PlatformMap

namespace DocModule

open Declaration

/-- Every declaration of the module exists on some platform. -/
def PlatformsInhabited (m : DocModule) : Prop := ∀ d ∈ m.declarations, d.platforms ≠ []

/-- Platforms become fewer on the way down the module, but no declaration is
without any, and no map repeats one. -/
structure Covered (m : DocModule) : Prop where
  rooted : m.platforms ≠ []
  packages : ∀ d ∈ m.packages, d.platforms ⊆ m.platforms
  members : m.PlatformsNested
  inhabited : m.PlatformsInhabited
  distinct : m.PlatformsDistinct

/-! ## Translation -/

/-- All that the module says is about one platform. -/
def Solely (p : Platform) (m : DocModule) : Prop :=
  (∃ f, m.facts = .singleton p f) ∧ ∀ d ∈ m.declarations, ∃ f, d.facts = .singleton p f

variable {m r : DocModule} {p : Platform}

theorem Solely.covered (h : m.Solely p) : m.Covered := by
  obtain ⟨⟨f, hf⟩, hall⟩ := h
  have hmodule : m.platforms = [p] := by rw [platforms, hf]; rfl
  have hdeclarations : ∀ d ∈ m.declarations, d.platforms = [p] := by
    intro d hd
    obtain ⟨g, hg⟩ := hall d hd
    rw [Declaration.platforms, hg]
    rfl
  have hdistinct : ∀ facts : FactsMap, facts.platforms = [p] → facts.Distinct := by
    intro facts hfacts
    rw [PlatformMap.Distinct, hfacts]
    exact List.nodup_singleton p
  refine ⟨by simp [hmodule], fun d hd => ?_, fun q hq n hn => ?_, fun d hd => ?_,
    hdistinct _ hmodule, fun d hd => hdistinct _ (hdeclarations d hd)⟩
  · rw [hdeclarations d (mem_flattenAll_self hd), hmodule]
    exact List.Subset.refl _
  · rw [hdeclarations n (mem_flattenAll_child hq hn), hdeclarations q hq]
    exact List.Subset.refl _
  · simp [hdeclarations d hd]

theorem exists_facts_of_mem_translateAll {owner : DeclId} {ss : List Symbol} {seen : List DeclId}
    {d : Declaration} (hd : d ∈ flattenAll (Symbol.translateAll p owner seen ss)) :
    ∃ f, d.facts = .singleton p f := by
  have hsymbol : ∃ owner s, d = Symbol.translate p owner s := by
    refine reachInduction (motive := fun d => ∃ owner s, d = Symbol.translate p owner s)
      ?_ ?_ d hd
    · intro t ht
      obtain ⟨s, -, rfl⟩ := Symbol.mem_translateAll ht
      exact ⟨owner, s, rfl⟩
    · rintro _ _ ⟨owner, s, rfl⟩ n hn
      rw [Symbol.translate_eq] at hn
      obtain ⟨t, -, rfl⟩ := Symbol.mem_translateAll hn
      exact ⟨s.idIn owner, t, rfl⟩
  obtain ⟨owner, s, rfl⟩ := hsymbol
  exact ⟨s.facts, by rw [Symbol.translate_eq]⟩

theorem Solely.addSymbols (h : m.Solely p) (package : Text) (symbols : List Symbol) :
    (m.addSymbols p package symbols).Solely p := by
  refine ⟨h.1, fun x hx => ?_⟩
  -- The package that gets the symbols keeps its facts, or is new.
  have hadded : ∀ d : Declaration, (∀ y ∈ d.flatten, ∃ f, y.facts = .singleton p f) →
      ∀ y ∈ Declaration.flatten { d with
        children := d.children ++
          Symbol.translateAll p (.ofPackage package) (m.childIds package) symbols },
        ∃ f, y.facts = .singleton p f := by
    intro d hd y hy
    rw [flatten_eq] at hd hy
    rcases List.mem_cons.mp hy with rfl | hy
    · exact hd d List.mem_cons_self
    · rw [flattenAll_append] at hy
      rcases List.mem_append.mp hy with hy | hy
      · exact hd y (List.mem_cons_of_mem d hy)
      · exact exists_facts_of_mem_translateAll hy
  have hall := h.2
  unfold declarations DocModule.addSymbols at hx
  unfold declarations at hall
  dsimp only at hx
  rcases updatePackage_cases p package (fun d => { d with
      children := d.children ++
        Symbol.translateAll p (.ofPackage package) (m.childIds package) symbols }) m.packages
    with ⟨before, d, after, hds, -, -, hup⟩ | ⟨-, hup⟩
  · rw [hup] at hx
    rw [hds] at hall
    simp only [flattenAll_append, flattenAll, List.mem_append] at hx hall
    rcases hx with hx | hx | hx
    · exact hall x (.inl hx)
    · exact hadded d (fun y hy => hall y (.inr (.inl hy))) x hx
    · exact hall x (.inr (.inr hx))
  · rw [hup] at hx
    simp only [flattenAll_append, flattenAll, List.append_nil, List.mem_append] at hx
    rcases hx with hx | hx
    · exact hall x hx
    · refine hadded (emptyPackage p package) (fun y hy => ?_) x hx
      obtain rfl := List.mem_singleton.mp hy
      exact ⟨{}, rfl⟩

end DocModule

namespace Assembly

open DocModule

variable {a : AnalyzedPass} {c : RunContext} {m : DocModule}

theorem solely_ofPass (a : AnalyzedPass) : (ofPass a).Solely a.platform :=
  ⟨⟨{}, rfl⟩, fun _ hd => nomatch hd⟩

theorem solely_addPackage (h : m.Solely a.platform) (package : Text) (symbols : List Symbol) :
    (addPackage a m package symbols).value.Solely a.platform := by
  rw [value_addPackage]
  split
  · exact h
  · exact h.addSymbols package symbols

theorem solely_addGroups (a : AnalyzedPass) :
    ∀ {gs : List SymbolGroup} {m : DocModule}, m.Solely a.platform →
      (addGroups a m gs).value.Solely a.platform
  | [], _, h => h
  | g :: rest, m, h => by
      rw [addGroups, Traced.value_bind]
      exact solely_addGroups a (solely_addPackage h g.package g.symbols)

theorem solely_addFiles (a : AnalyzedPass) :
    ∀ {fs : List SourceFile} {m : DocModule}, m.Solely a.platform →
      (addFiles a m fs).value.Solely a.platform
  | [], _, h => h
  | f :: rest, m, h => by
      rw [addFiles, Traced.value_bind, Traced.value_bind]
      exact solely_addFiles a (solely_addPackage h f.package f.symbols)

theorem solely_ofGroups (h : (ofGroups a c).value = .ok m) : m.Solely a.platform := by
  unfold ofGroups at h
  split at h
  · cases h
  · obtain rfl := Except.ok.inj h
    exact solely_addGroups a (solely_ofPass a)

theorem solely_ofFiles (h : (ofFiles a c).value = .ok m) : m.Solely a.platform := by
  unfold ofFiles at h
  split at h
  · cases h
  · obtain rfl := Except.ok.inj h
    exact solely_addFiles a (solely_ofPass a)

end Assembly

/-! ## Merging -/

namespace Declaration

variable {ds group : List Declaration} {d n : Declaration} {p : Platform}

/-- A group is on the platforms of all of it. -/
theorem mem_platforms_joined (h : joined group = some d) :
    p ∈ d.platforms ↔ ∃ e ∈ group, p ∈ e.platforms := by
  have hfind := joined_facts_find? group p
  rw [h, Option.bind_some] at hfind
  rw [platforms, ← PlatformMap.isSome_find?, hfind, List.findSome?_isSome_iff]
  simp only [PlatformMap.isSome_find?]
  rfl

theorem mem_platforms_of_mem_union (h : d ∈ union ds) (hp : p ∈ d.platforms) :
    ∃ e ∈ ds, p ∈ e.platforms := by
  rw [union_eq_filterMap] at h
  obtain ⟨id, -, hjoined⟩ := List.mem_filterMap.mp h
  obtain ⟨e, he, hpe⟩ := (mem_platforms_joined hjoined).mp hp
  exact ⟨e, List.mem_of_mem_filter he, hpe⟩

/-- A platform of a member of a joined declaration is one of a member of the
group. -/
theorem mem_platforms_of_mem_joined (h : joined group = some d) (hn : n ∈ d.children)
    (hp : p ∈ n.platforms) : ∃ e ∈ group, ∃ b ∈ e.children, p ∈ b.platforms := by
  match group with
  | [] => simp [joined, joinWith] at h
  | [e] =>
      obtain rfl : e = d := by simpa [joined, joinWith] using h
      exact ⟨e, by simp, n, hn, hp⟩
  | e :: e' :: rest =>
      obtain rfl := Option.some.inj h
      obtain ⟨b, hb, hpb⟩ := mem_platforms_of_mem_union hn hp
      obtain ⟨x, hx, hbx⟩ := List.mem_flatMap.mp hb
      exact ⟨x, hx, b, hbx, hpb⟩

end Declaration

namespace DocModule

open Declaration

variable {ms : List DocModule} {m r : DocModule} {p : Platform}

theorem mem_platforms_merged : p ∈ (merged ms).platforms ↔ ∃ m ∈ ms, p ∈ m.platforms := by
  rw [platforms, ← PlatformMap.isSome_find?, find?_facts_merged, List.findSome?_isSome_iff]
  simp only [PlatformMap.isSome_find?]
  rfl

/-- A declaration of the merged module is joined of declarations of the
modules. -/
theorem exists_group_of_mem_merged {d : Declaration} (hd : d ∈ (merged ms).declarations) :
    ∃ group : List Declaration, (∀ e ∈ group, ∃ m ∈ ms, e ∈ m.declarations) ∧
      joined group = some d := by
  unfold declarations at hd
  rw [merged_packages] at hd
  obtain ⟨group, hgroup, -, hjoined⟩ := exists_group_of_mem_union hd
  exact ⟨group, fun e he => exists_module_of_mem (hgroup he), hjoined⟩

theorem platformsNested_merged (h : ∀ m ∈ ms, m.PlatformsNested) :
    (merged ms).PlatformsNested := by
  intro q hq n hn p hp
  obtain ⟨group, hgroup, hjoined⟩ := exists_group_of_mem_merged hq
  obtain ⟨e, he, b, hb, hpb⟩ := mem_platforms_of_mem_joined hjoined hn hp
  obtain ⟨m, hm, hem⟩ := hgroup e he
  exact (mem_platforms_joined hjoined).mpr ⟨e, he, h m hm e hem b hb hpb⟩

theorem platformsInhabited_merged (h : ∀ m ∈ ms, m.PlatformsInhabited) :
    (merged ms).PlatformsInhabited := by
  intro d hd
  obtain ⟨group, hgroup, hjoined⟩ := exists_group_of_mem_merged hd
  have hne : group ≠ [] := joined_isSome.mp (by rw [hjoined]; rfl)
  obtain ⟨e, he⟩ := List.exists_mem_of_ne_nil _ hne
  obtain ⟨m, hm, hem⟩ := hgroup e he
  obtain ⟨p, hp⟩ := List.exists_mem_of_ne_nil _ (h m hm e hem)
  exact List.ne_nil_of_mem ((mem_platforms_joined hjoined).mpr ⟨e, he, hp⟩)

theorem covered_merged (hne : ms ≠ []) (h : ∀ m ∈ ms, m.Covered) : (merged ms).Covered where
  rooted := by
    obtain ⟨m, rest, rfl⟩ := List.exists_cons_of_ne_nil hne
    obtain ⟨p, hp⟩ := List.exists_mem_of_ne_nil _ (h m (by simp)).rooted
    exact List.ne_nil_of_mem (mem_platforms_merged.mpr ⟨m, by simp, hp⟩)
  packages d hd p hp := by
    rw [merged_packages] at hd
    obtain ⟨e, he, hpe⟩ := mem_platforms_of_mem_union hd hp
    obtain ⟨l, hl, hel⟩ := List.mem_flatten.mp he
    obtain ⟨m, hm, rfl⟩ := List.mem_map.mp hl
    exact mem_platforms_merged.mpr ⟨m, hm, (h m hm).packages e hel hpe⟩
  members := platformsNested_merged fun m hm => (h m hm).members
  inhabited := platformsInhabited_merged fun m hm => (h m hm).inhabited
  distinct := platformsDistinct_merged fun m hm => (h m hm).distinct

theorem covered_merge (h : ∀ m ∈ ms, m.Covered) (hr : (merge ms).value = .ok r) : r.Covered := by
  have hne : ms ≠ [] := by
    rintro rfl
    cases hr
  obtain ⟨s, hs, hcases⟩ := merge_ok hne
  obtain rfl := Except.ok.inj (hr.symm.trans hs)
  rcases hcases with rfl | rfl
  · exact h r (by simp)
  · exact covered_merged hne h

/-! ## Transforming -/

/-- A section takes no platform away from the module, and packages keep
theirs. -/
theorem subset_platforms_applySection (m : DocModule) (p : Platform) (s : IncludeSection) :
    m.platforms ⊆ (m.applySection p s).platforms := by
  unfold applySection
  split
  · cases s.kind with
    | module => exact PlatformMap.subset_platforms_set m.facts p _
    | package => exact List.Subset.refl _
  · exact List.Subset.refl _

theorem distinct_applySection (h : m.facts.Distinct) (p : Platform) (s : IncludeSection) :
    (m.applySection p s).facts.Distinct := by
  unfold applySection
  split
  · cases s.kind with
    | module => exact h.set p _
    | package => exact h
  · exact h

theorem Covered.applySection (h : m.Covered) (p : Platform) (s : IncludeSection) :
    (m.applySection p s).Covered := by
  have hsame := m.annotates_applySection p s
  have hsubset := subset_platforms_applySection m p s
  refine ⟨fun hnil => ?_, fun d hd => ?_, hsame.platformsNested h.members, fun d hd => ?_,
    distinct_applySection h.distinct.1 p s, fun d hd => ?_⟩
  · exact h.rooted (List.subset_nil.mp (hnil ▸ hsubset))
  · obtain ⟨g, hg, hr⟩ := hsame
    rw [hr] at hd
    obtain ⟨e, he, rfl⟩ := List.mem_map.mp hd
    rw [(hg e).platforms]
    exact List.Subset.trans (h.packages e he) hsubset
  · obtain ⟨e, he, hed⟩ := hsame.exists_of_mem hd
    rw [hed.platforms]
    exact h.inhabited e he
  · obtain ⟨e, he, hed⟩ := hsame.exists_of_mem hd
    have hnodup : e.platforms.Nodup := h.distinct.2 e he
    rw [← hed.platforms] at hnodup
    exact hnodup

/-- A member that a filter leaves is on platforms that it leaves to the owner,
because a platform that goes from the owner goes from all below it. -/
theorem platformsNested_filter (h : m.PlatformsNested) (keep : KeepTest) :
    (m.filter keep).PlatformsNested := by
  intro q hq n hn p hp
  obtain ⟨d, hd, above, hdq⟩ := exists_of_mem_filterAll hq
  obtain ⟨-, hfacts, hchildren⟩ := eq_of_filter hdq
  rw [hchildren, filterAll_eq_filterMap] at hn
  obtain ⟨b, hb, hbn⟩ := List.mem_filterMap.mp hn
  obtain ⟨g, hg⟩ := mem_platforms_iff.mp hp
  rw [(eq_of_filter hbn).2.1, mem_keptFacts, List.mem_append, mem_droppedPlatforms] at hg
  obtain ⟨hgb, hstays, -⟩ := hg
  obtain ⟨f, hf⟩ := mem_platforms_iff.mp (h d hd b hb (mem_platforms_iff.mpr ⟨g, hgb⟩))
  refine mem_platforms_iff.mpr ⟨f, ?_⟩
  rw [hfacts, mem_keptFacts]
  refine ⟨hf, fun habove => hstays (.inl habove), ?_⟩
  by_contra hkeep
  exact hstays (.inr ⟨f, hf, .inr (by simpa using hkeep)⟩)

theorem platformsDistinct_filter (h : m.PlatformsDistinct) (keep : KeepTest) :
    (m.filter keep).PlatformsDistinct := by
  refine ⟨h.1, fun n hn => ?_⟩
  obtain ⟨d, hd, above, hdn⟩ := exists_of_mem_filterAll hn
  rw [(eq_of_filter hdn).2.1]
  exact (h.2 d hd).filter _

/-- A filter leaves nothing without platforms. -/
theorem platformsInhabited_filter (m : DocModule) (keep : KeepTest) :
    (m.filter keep).PlatformsInhabited := by
  intro n hn
  obtain ⟨d, hd, above, hdn⟩ := exists_of_mem_filterAll hn
  rw [filter_eq] at hdn
  split at hdn
  · cases hdn
  · next hkept =>
    obtain rfl := Option.some.inj hdn
    simpa [Declaration.platforms, PlatformMap.platforms] using hkept

theorem platforms_subset_of_filter {keep : KeepTest} {removed : List Platform}
    {d n : Declaration} (h : d.filter keep removed = some n) : n.platforms ⊆ d.platforms := by
  rw [Declaration.platforms, (eq_of_filter h).2.1]
  exact PlatformMap.platforms_filter_subset d.facts _

theorem Covered.filter (h : m.Covered) (keep : KeepTest) : (m.filter keep).Covered where
  rooted := h.rooted
  packages d hd := by
    unfold DocModule.filter at hd
    rw [filterAll_eq_filterMap] at hd
    obtain ⟨e, he, hed⟩ := List.mem_filterMap.mp hd
    exact List.Subset.trans (platforms_subset_of_filter hed) (h.packages e he)
  members := platformsNested_filter h.members keep
  inhabited := platformsInhabited_filter m keep
  distinct := platformsDistinct_filter h.distinct keep

theorem Covered.mapFacts (h : m.Covered) (f : FactsChange) : (m.mapFacts f).Covered where
  rooted := h.rooted
  packages d hd := by
    unfold DocModule.mapFacts at hd
    rw [mapFactsAll_eq_map] at hd
    obtain ⟨e, he, rfl⟩ := List.mem_map.mp hd
    rw [platforms_mapFacts]
    exact h.packages e he
  members q hq n hn := by
    obtain ⟨d, hd, rfl⟩ := exists_of_mem_mapFactsAll hq
    rw [children_mapFacts] at hn
    obtain ⟨b, hb, rfl⟩ := List.mem_map.mp hn
    rw [platforms_mapFacts, platforms_mapFacts]
    exact h.members d hd b hb
  inhabited n hn := by
    obtain ⟨d, hd, rfl⟩ := exists_of_mem_mapFactsAll hn
    rw [platforms_mapFacts]
    exact h.inhabited d hd
  distinct := by
    refine ⟨h.distinct.1, fun n hn => ?_⟩
    obtain ⟨d, hd, rfl⟩ := exists_of_mem_mapFactsAll hn
    have hnodup : d.platforms.Nodup := h.distinct.2 d hd
    rw [← platforms_mapFacts (f := f)] at hnodup
    exact hnodup

end DocModule

theorem BaseTransform.covered_apply {t : BaseTransform} {m r : DocModule} {c : RunContext}
    (hr : (t.apply m c).value = .ok r) (h : m.Covered) : r.Covered := by
  cases t with
  | moduleDocumentation =>
      exact DocModule.applyAllIncludes_induction (motive := DocModule.Covered)
        (fun p _ s hm => hm.applySection p s) hr h
  | suppression => exact Except.ok.inj hr ▸ h.filter c.keepsSuppression
  | visibility => exact Except.ok.inj hr ▸ h.filter c.keepsVisibility
  | deprecation => exact Except.ok.inj hr ▸ h.filter c.keepsDeprecation
  | emptyPackages => exact Except.ok.inj hr ▸ h.filter c.keepsPackage
  | sourceLinks => exact Except.ok.inj hr ▸ h.mapFacts c.linkSource
  | undocumented => exact Except.ok.inj hr ▸ h

/-- Whatever a run comes to, whatever its passes found. -/
theorem RunContext.Produces.covered {c : RunContext} {m : DocModule} (h : c.Produces m) :
    m.Covered := by
  induction h with
  | symbols _ hm => exact (Assembly.solely_ofGroups hm).covered
  | files _ hm => exact (Assembly.solely_ofFiles hm).covered
  | merged _ hr ih => exact DocModule.covered_merge ih hr
  | transformed t _ hr ih => exact BaseTransform.covered_apply hr ih

end CrossDoc
