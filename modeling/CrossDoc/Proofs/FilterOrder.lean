import CrossDoc.Proofs.Filtering
import CrossDoc.Proofs.PlatformUnion
import CrossDoc.Proofs.Transforming

/-!
# Filters after filters

A test that looks at the label of a declaration and at its facts gives the same
answer whatever a filter has left of the declaration.  Filters by such tests
make up one filter, so their order does not matter, and they may be applied
before or after include files.
-/

namespace CrossDoc

theorem PlatformMap.filter_map {α β : Type} (m : PlatformMap α) (change : Platform → α → β)
    (keep : Platform → β → Bool) :
    (m.map change).filter keep = (m.filter fun p v => keep p (change p v)).map change := by
  simp only [PlatformMap.map, PlatformMap.filter, List.filter_map]
  rfl

namespace Declaration

/-- The test looks at nothing of a declaration but its label. -/
def ByLabel (keep : KeepTest) : Prop :=
  ∀ d e : Declaration, d.label = e.label → keep d = keep e

/-- Both tests hold. -/
def both (keep keep' : KeepTest) : KeepTest := fun d p f => keep d p f && keep' d p f

variable {keep keep' : KeepTest}

/-! ## Two filters -/

section Both

variable {removed removed' all : List Platform} {d e : Declaration} (h : ByLabel keep')
  (hall : ∀ p, p ∈ all ↔ p ∈ removed ∨ p ∈ removed') (hd : e.label = d.label)
  (hfacts : e.facts = d.keptFacts keep removed)
include h hall hd hfacts

theorem keptFacts_keptFacts : e.keptFacts keep' removed' = d.keptFacts (both keep keep') all := by
  apply PlatformMap.eq_of_entries
  unfold keptFacts PlatformMap.filter at *
  rw [hfacts, List.filter_filter]
  apply List.filter_congr
  rintro ⟨p, f⟩ -
  have hcontains : all.contains p = (removed.contains p || removed'.contains p) := by
    rw [Bool.eq_iff_iff]
    simp [hall]
  simp only [dropsFrom, both, h e d hd, hcontains]
  cases removed.contains p <;> cases removed'.contains p <;> cases keep d p f <;>
    cases keep' d p f <;> rfl

/-- A platform is dropped by one of the filters exactly if it is dropped by
both tests together. -/
theorem mem_droppedPlatforms_both (p : Platform) :
    p ∈ all ++ d.droppedPlatforms (both keep keep') all ↔
      p ∈ removed ++ d.droppedPlatforms keep removed ∨
        p ∈ removed' ++ e.droppedPlatforms keep' removed' := by
  have hkept : ∀ f, (p, f) ∈ e.facts.entries ↔
      (p, f) ∈ d.facts.entries ∧ p ∉ removed ∧ keep d p f = true := by
    intro f
    rw [hfacts, mem_keptFacts]
  simp only [List.mem_append, mem_droppedPlatforms, both, h e d hd, hkept, hall,
    Bool.and_eq_false_iff]
  constructor
  · rintro ((hp | hp) | ⟨f, hf, (hp | hp) | hkeep | hkeep⟩)
    · exact Or.inl (Or.inl hp)
    · exact Or.inr (Or.inl hp)
    · exact Or.inl (Or.inl hp)
    · exact Or.inr (Or.inl hp)
    · exact Or.inl (Or.inr ⟨f, hf, Or.inr hkeep⟩)
    · -- The second test comes too late if the first filter has dropped the platform.
      by_cases hp : p ∈ removed
      · exact Or.inl (Or.inl hp)
      · cases hfirst : keep d p f with
        | false => exact Or.inl (Or.inr ⟨f, hf, Or.inr hfirst⟩)
        | true => exact Or.inr (Or.inr ⟨f, ⟨hf, hp, hfirst⟩, Or.inr hkeep⟩)
  · rintro ((hp | ⟨f, hf, hp | hkeep⟩) | (hp | ⟨f, ⟨hf, -, -⟩, hp | hkeep⟩))
    · exact Or.inl (Or.inl hp)
    · exact Or.inl (Or.inl hp)
    · exact Or.inr ⟨f, hf, Or.inr (Or.inl hkeep)⟩
    · exact Or.inl (Or.inr hp)
    · exact Or.inl (Or.inr hp)
    · exact Or.inr ⟨f, hf, Or.inr (Or.inr hkeep)⟩

end Both

/-- What a filter leaves of a declaration, even if this is nothing. -/
def remains (keep : KeepTest) (removed : List Platform) (d : Declaration) : Declaration :=
  { d with
    facts := d.keptFacts keep removed
    children := filterAll keep (removed ++ d.droppedPlatforms keep removed) d.children }

theorem bind_filter (d : Declaration) (removed removed' : List Platform) :
    (d.filter keep removed).bind (filter keep' removed') =
      (d.remains keep removed).filter keep' removed' := by
  rw [filter_eq keep removed]
  by_cases hempty : (d.keptFacts keep removed).entries = []
  · rw [if_pos (by simp [hempty]), Option.bind_none, filter_eq, if_pos]
    rw [keptFacts, PlatformMap.filter, remains, hempty]
    rfl
  · rw [if_neg (by simpa using hempty), Option.bind_some]
    rfl

/-- What two filters leave one after the other is what both tests leave. -/
theorem filter_filter (h : ByLabel keep') (d : Declaration) :
    ∀ {removed removed' all : List Platform}, (∀ p, p ∈ all ↔ p ∈ removed ∨ p ∈ removed') →
      (d.filter keep removed).bind (filter keep' removed') = d.filter (both keep keep') all := by
  induction d using memberInduction with
  | step d ih =>
      intro removed removed' all hall
      have hlabel : (d.remains keep removed).label = d.label := rfl
      have hfacts : (d.remains keep removed).facts = d.keptFacts keep removed := rfl
      -- Below, either filter drops what it dropped above or drops here.
      have hmembers : filterAll keep'
          (removed' ++ (d.remains keep removed).droppedPlatforms keep' removed')
          (d.remains keep removed).children =
            filterAll (both keep keep') (all ++ d.droppedPlatforms (both keep keep') all)
              d.children := by
        rw [remains, filterAll_eq_filterMap, filterAll_eq_filterMap, filterAll_eq_filterMap,
          List.filterMap_filterMap]
        apply List.filterMap_congr
        intro c hc
        exact ih c hc (mem_droppedPlatforms_both h hall hlabel hfacts)
      rw [bind_filter, filter_eq keep', filter_eq (both keep keep'), hmembers,
        keptFacts_keptFacts h hall hlabel hfacts]
      rfl

theorem filterAll_filterAll (h : ByLabel keep') (ds : List Declaration) :
    filterAll keep' [] (filterAll keep [] ds) = filterAll (both keep keep') [] ds := by
  rw [filterAll_eq_filterMap, filterAll_eq_filterMap, filterAll_eq_filterMap,
    List.filterMap_filterMap]
  exact List.filterMap_congr fun d _ => filter_filter h d (by simp)

/-! ## Changed facts -/

/-- A change of facts that a test does not see goes with the filter. -/
theorem filter_withFacts {change : Platform → Facts → Facts} (h : ByLabel keep)
    (hchange : ∀ d p f, keep d p (change p f) = keep d p f) (d : Declaration)
    (removed : List Platform) :
    Declaration.filter keep removed { d with facts := d.facts.map change } =
      (d.filter keep removed).map fun e => { e with facts := e.facts.map change } := by
  have hdrops : ∀ p f, Declaration.dropsFrom keep removed
      { d with facts := d.facts.map change } p (change p f) = d.dropsFrom keep removed p f := by
    intro p f
    unfold dropsFrom
    rw [h { d with facts := d.facts.map change } d rfl, hchange]
  have hkept : Declaration.keptFacts keep removed { d with facts := d.facts.map change } =
      (d.keptFacts keep removed).map change := by
    rw [keptFacts, PlatformMap.filter_map]
    simp only [hdrops]
    rfl
  have hdropped : Declaration.droppedPlatforms keep removed { d with facts := d.facts.map change } =
      d.droppedPlatforms keep removed := by
    rw [droppedPlatforms, PlatformMap.filter_map, PlatformMap.platforms_map]
    simp only [hdrops]
    rfl
  rw [filter_eq, filter_eq, hkept, hdropped]
  by_cases hempty : (d.keptFacts keep removed).entries = [] <;> simp [PlatformMap.map, hempty]

end Declaration

namespace DocModule

open Declaration

variable {keep keep' : KeepTest}

theorem filter_filter (h : ByLabel keep') (m : DocModule) :
    (m.filter keep).filter keep' = m.filter (both keep keep') := by
  rw [filter, filter, filter, filterAll_filterAll h]

/-- The order of two filters does not matter, nor does a filter applied
twice. -/
theorem filter_comm (h : ByLabel keep) (h' : ByLabel keep') (m : DocModule) :
    (m.filter keep).filter keep' = (m.filter keep').filter keep := by
  have hboth : both keep keep' = both keep' keep := by
    funext d p f
    exact Bool.and_comm _ _
  rw [filter_filter h', filter_filter h, hboth]

theorem filter_self (h : ByLabel keep) (m : DocModule) :
    (m.filter keep).filter keep = m.filter keep := by
  have hboth : both keep keep = keep := by
    funext d p f
    exact Bool.and_self _
  rw [filter_filter h, hboth]

/-- A filter that does not look at comments may be applied before the
sections of an include file. -/
theorem filter_applySection (h : ByLabel keep)
    (hcomment : ∀ d p f text, keep d p (Facts.applyComment f text) = keep d p f) (m : DocModule)
    (p : Platform) (s : IncludeSection) :
    (m.applySection p s).filter keep = (m.filter keep).applySection p s := by
  cases hkind : s.kind with
  | module =>
      have hmatch : (m.filter keep).matchesSection s = m.matchesSection s := by
        simp only [matchesSection, hkind, filter]
      unfold applySection
      rw [hmatch, hkind]
      dsimp only
      split <;> rfl
  | package =>
      rw [applySection_package m hkind, applySection_package (m.filter keep) hkind]
      have hname : ∀ d e, Declaration.filter keep [] d = some e → e.name = d.name := by
        intro d e he
        exact congrArg Label.name (eq_of_filter he).1
      have hchange : ∀ (d : Declaration) q f,
          keep d q (if q = p then Facts.applyComment f s.text else f) = keep d q f := by
        intro d q f
        split
        · exact hcomment d q f s.text
        · rfl
      unfold filter
      rw [filterAll_eq_filterMap, filterAll_eq_filterMap,
        filterMap_applyPackageSection hname fun d => filter_withFacts h hchange d []]
      rfl

end DocModule

/-! ## The filters of a run -/

namespace RunContext

open Declaration

theorem byLabel_keepsSuppression (c : RunContext) : ByLabel c.keepsSuppression := by
  intro d e h
  funext p f
  rw [keepsSuppression, keepsSuppression, id_eq_of_label h]

theorem byLabel_keepsVisibility (c : RunContext) : ByLabel c.keepsVisibility := by
  intro d e h
  funext p f
  rw [keepsVisibility, keepsVisibility, id_eq_of_label h]

theorem byLabel_keepsDeprecation (c : RunContext) : ByLabel c.keepsDeprecation := by
  intro d e h
  funext p f
  rw [keepsDeprecation, keepsDeprecation, id_eq_of_label h]

end RunContext

namespace BaseTransform

open Declaration

/-- The filters that look at labels and facts only. -/
def labelFilters : List BaseTransform := [.suppression, .visibility, .deprecation]

/-- What such a filter tests; the other transforms test nothing. -/
def labelTest (c : RunContext) : BaseTransform → KeepTest
  | .suppression => c.keepsSuppression
  | .visibility => c.keepsVisibility
  | .deprecation => c.keepsDeprecation
  | .moduleDocumentation | .emptyPackages | .sourceLinks | .undocumented => fun _ _ _ => true

/-- All of the tests hold. -/
def labelTests (c : RunContext) (ts : List BaseTransform) : KeepTest := fun d p f =>
  ts.all fun t => t.labelTest c d p f

variable {c : RunContext} {t : BaseTransform} {ts us : List BaseTransform}

theorem apply_of_mem_labelFilters (ht : t ∈ labelFilters) (m : DocModule) (c : RunContext) :
    t.apply m c = pure (.ok (m.filter (t.labelTest c))) := by
  simp only [labelFilters, List.mem_cons, List.not_mem_nil, or_false] at ht
  rcases ht with rfl | rfl | rfl <;> rfl

theorem byLabel_labelTest (c : RunContext) : ∀ t : BaseTransform, ByLabel (t.labelTest c)
  | .suppression => c.byLabel_keepsSuppression
  | .visibility => c.byLabel_keepsVisibility
  | .deprecation => c.byLabel_keepsDeprecation
  | .moduleDocumentation | .emptyPackages | .sourceLinks | .undocumented => fun _ _ _ => rfl

theorem byLabel_labelTests (c : RunContext) (ts : List BaseTransform) :
    ByLabel (labelTests c ts) := by
  intro d e h
  funext p f
  unfold labelTests
  simp only [byLabel_labelTest c _ d e h]

theorem labelTests_congr (h : ∀ t, t ∈ ts ↔ t ∈ us) : labelTests c ts = labelTests c us := by
  funext d p f
  rw [Bool.eq_iff_iff, labelTests, labelTests, List.all_eq_true, List.all_eq_true]
  simp only [h]

/-- Filters applied in turn make up the one that asks for all of their tests. -/
theorem applyAll_labelFilters : ∀ {ts : List BaseTransform} (m : DocModule), ts ≠ [] →
    (∀ t ∈ ts, t ∈ labelFilters) → applyAll ts m c = pure (.ok (m.filter (labelTests c ts)))
  | [], _, hne, _ => absurd rfl hne
  | [t], m, _, hts => by
      have hone : labelTests c [t] = t.labelTest c := by
        funext d p f
        simp [labelTests]
      rw [applyAll, apply_of_mem_labelFilters (hts t (by simp)), hone]
      rfl
  | t :: u :: rest, m, _, hts => by
      have hrest := applyAll_labelFilters (m.filter (t.labelTest c)) (List.cons_ne_nil u rest)
        fun v hv => hts v (List.mem_cons_of_mem t hv)
      rw [DocModule.filter_filter (byLabel_labelTests c (u :: rest))] at hrest
      rw [applyAll, apply_of_mem_labelFilters (hts t (by simp))]
      exact hrest

end BaseTransform

namespace DocModule

open Declaration BaseTransform

/-- **Filters compose.**  A filter after any other filter leaves what one filter by
both tests leaves, if its answer depends on the label of a declaration, on the
platform and on the facts there.  In every context the suppression, visibility and
deprecation filters are of this kind: applied in turn, they give one module however
often each of them comes and in whatever order. -/
theorem filters_compose (m : DocModule) :
    (∀ keep keep' : KeepTest, ByLabel keep' →
      (m.filter keep).filter keep' = m.filter (both keep keep')) ∧
    ∀ (c : RunContext) (ts us : List BaseTransform), (∀ t ∈ ts, t ∈ labelFilters) →
      (∀ t, t ∈ ts ↔ t ∈ us) →
        ∃ r, applyAll ts m c = pure (.ok r) ∧ applyAll us m c = pure (.ok r) := by
  refine ⟨fun keep keep' h => filter_filter h m, fun c ts us hts hsame => ?_⟩
  have hus : ∀ t ∈ us, t ∈ labelFilters := fun t ht => hts t ((hsame t).mpr ht)
  cases ts with
  | nil =>
      have hnone : us = [] := List.eq_nil_iff_forall_not_mem.mpr fun t ht => by
        simpa using (hsame t).mpr ht
      exact ⟨m, rfl, by rw [hnone]; rfl⟩
  | cons t rest =>
      have hsome : us ≠ [] := List.ne_nil_of_mem ((hsame t).mp (by simp))
      refine ⟨m.filter (labelTests c (t :: rest)), ?_, ?_⟩
      · exact applyAll_labelFilters m (by simp) hts
      · rw [labelTests_congr hsame]
        exact applyAll_labelFilters m hsome hus

/-- A package that is private on one of two platforms, with a function that is
deprecated on the other. -/
def mixedModule : DocModule :=
  let jvm : Platform := ⟨"m", .jvm, []⟩
  let js : Platform := ⟨"m", .js, []⟩
  let a : DeclId := .ofPackage "a"
  { name := "m", facts := ⟨[(jvm, {}), (js, {})]⟩
    packages := [
      { name := "a", id := a, facts := ⟨[(jvm, {}), (js, { visibility := .privateDecl })]⟩
        children := [
          { kind := .function, name := "f", id := a.withCallable "f" [], parent := some a
            facts := ⟨[(jvm, { deprecation := some {} }), (js, {})]⟩ }] }] }

/-- Passes for both platforms that leave out what is deprecated. -/
def mixedContext : RunContext where
  passes := [
    { platform := ⟨"m", .jvm, []⟩, pass := { skipDeprecated := true } },
    { platform := ⟨"m", .js, []⟩, pass := { skipDeprecated := true } }]

theorem filters_compose_mixedModule :
    ByLabel mixedContext.keepsDeprecation ∧
      (mixedModule.filter mixedContext.keepsVisibility).filter mixedContext.keepsDeprecation =
        mixedModule.filter (both mixedContext.keepsVisibility mixedContext.keepsDeprecation) ∧
    (∀ t ∈ [.visibility, .deprecation, .visibility], t ∈ labelFilters) ∧
      (∀ t : BaseTransform,
        t ∈ [.visibility, .deprecation, .visibility] ↔ t ∈ [.deprecation, .visibility]) ∧
      ∃ r, applyAll [.visibility, .deprecation, .visibility] mixedModule mixedContext =
          pure (.ok r) ∧
        applyAll [.deprecation, .visibility] mixedModule mixedContext = pure (.ok r) := by
  have hlabel := mixedContext.byLabel_keepsDeprecation
  have hfilters : ∀ t ∈ [BaseTransform.visibility, .deprecation, .visibility],
      t ∈ labelFilters := by
    decide
  have hsame : ∀ t : BaseTransform,
      t ∈ [.visibility, .deprecation, .visibility] ↔ t ∈ [.deprecation, .visibility] := by
    intro t
    cases t <;> decide
  obtain ⟨hboth, horder⟩ := filters_compose mixedModule
  exact ⟨hlabel, hboth _ _ hlabel, hfilters, hsame, horder mixedContext _ _ hfilters hsame⟩

/-- Keeps the platforms of one family. -/
def onJvm : KeepTest := fun _ p _ => p.family == .jvm

/-- Asks a declaration for its other platforms. -/
def besideJs : KeepTest := fun d _ _ => d.platforms.any fun p => p.family == .js

/-- It is not enough that the tests do not look at the members of a declaration: the first filter
may have dropped a platform that the second test asks for. -/
theorem filters_compose_besideJs :
    (∀ (d : Declaration) ds, onJvm { d with children := ds } = onJvm d) ∧
      (∀ (d : Declaration) ds, besideJs { d with children := ds } = besideJs d) ∧
      (mixedModule.filter onJvm).filter besideJs ≠ mixedModule.filter (both onJvm besideJs) := by
  refine ⟨fun _ _ => rfl, fun _ _ => rfl, fun h => ?_⟩
  have hcount : ((mixedModule.filter onJvm).filter besideJs).count ≠
      (mixedModule.filter (both onJvm besideJs)).count := by decide
  exact hcount (congrArg count h)

end DocModule

end CrossDoc
