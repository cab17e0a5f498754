import CrossDoc.Proofs.PlatformUnion
import CrossDoc.Proofs.Survival

/-!
# One platform among others

`onlyOn q` is a module as the platform `q` alone has it.  The base transforms
can be looked at one platform at a time: what they leave for `q` depends on
what the module says about `q`, on the pass of `q` and on its include files,
and on nothing else.
-/

namespace CrossDoc

namespace PlatformMap

variable {α : Type}

/-- The entries of one platform. -/
def onlyOn (q : Platform) (m : PlatformMap α) : PlatformMap α := m.filter fun p _ => p == q

theorem mem_onlyOn {q p : Platform} {m : PlatformMap α} {v : α} :
    (p, v) ∈ (m.onlyOn q).entries ↔ (p, v) ∈ m.entries ∧ p = q := by
  simp [onlyOn, filter]

theorem onlyOn_onlyOn (q : Platform) (m : PlatformMap α) : (m.onlyOn q).onlyOn q = m.onlyOn q := by
  simp [onlyOn, filter]

theorem find?_onlyOn (q : Platform) (m : PlatformMap α) : (m.onlyOn q).find? q = m.find? q := by
  simp only [onlyOn, filter, find?, List.find?_filter]
  congr 2
  funext e
  by_cases he : e.1 = q <;> simp [he]

theorem onlyOn_entries_eq_nil {q : Platform} {m : PlatformMap α} :
    (m.onlyOn q).entries = [] ↔ m.find? q = none := by
  simp [onlyOn, filter, find?]

theorem onlyOn_map (q : Platform) (m : PlatformMap α) (f : Platform → α → α) :
    (m.map f).onlyOn q = (m.onlyOn q).map f := by
  simp only [onlyOn, filter, map, List.filter_map]
  rfl

/-- Of a change, only what it makes on the one platform counts. -/
theorem map_onlyOn_congr {β : Type} {q : Platform} (m : PlatformMap α) {f g : Platform → α → β}
    (h : ∀ v, f q v = g q v) : (m.onlyOn q).map f = (m.onlyOn q).map g := by
  apply eq_of_entries
  apply List.map_congr_left
  rintro ⟨p, v⟩ he
  obtain ⟨-, rfl⟩ := mem_onlyOn.mp he
  rw [h]

/-- What happens on other platforms is not seen. -/
theorem onlyOn_map_of_eq {q : Platform} (m : PlatformMap α) {f : Platform → α → α}
    (hf : ∀ v, f q v = v) : (m.map f).onlyOn q = m.onlyOn q := by
  rw [onlyOn_map, map_onlyOn_congr m (g := fun _ v => v) hf]
  exact eq_of_entries (List.map_id' _)

theorem filter_replaceFirst_self (q : Platform) (v : α) :
    ∀ es : List (Platform × α), (replaceFirst q v es).filter (fun e => e.1 == q) =
      replaceFirst q v (es.filter fun e => e.1 == q)
  | [] => rfl
  | e :: rest => by
      by_cases he : e.1 = q
      · simp [replaceFirst, he]
      · simp [replaceFirst, he, filter_replaceFirst_self q v rest]

theorem filter_replaceFirst_of_ne {q p : Platform} (hne : p ≠ q) (v : α) :
    ∀ es : List (Platform × α), (replaceFirst p v es).filter (fun e => e.1 == q) =
      es.filter fun e => e.1 == q
  | [] => rfl
  | e :: rest => by
      have ih := filter_replaceFirst_of_ne hne v rest
      by_cases he : e.1 = p
      · simp [replaceFirst, he, hne]
      · simp [replaceFirst, he, List.filter_cons, ih]

theorem onlyOn_set_self (q : Platform) (m : PlatformMap α) (v : α) :
    (m.set q v).onlyOn q = (m.onlyOn q).set q v := by
  unfold set
  rw [find?_onlyOn]
  split
  · exact eq_of_entries (filter_replaceFirst_self q v m.entries)
  · simp [onlyOn, filter]

theorem onlyOn_set_of_ne {q p : Platform} (hne : p ≠ q) (m : PlatformMap α) (v : α) :
    (m.set p v).onlyOn q = m.onlyOn q := by
  unfold set
  split
  · exact eq_of_entries (filter_replaceFirst_of_ne hne v m.entries)
  · simp [onlyOn, filter, hne]

end PlatformMap

namespace Declaration

mutual

/-- A declaration as one platform has it; none if the platform does not have
it. -/
def onlyOn (q : Platform) : Declaration → Option Declaration
  | ⟨kind, name, id, parent, facts, children⟩ =>
      if (facts.onlyOn q).entries.isEmpty then none
      else some ⟨kind, name, id, parent, facts.onlyOn q, onlyOnAll q children⟩

def onlyOnAll (q : Platform) : List Declaration → List Declaration
  | [] => []
  | d :: rest =>
      match d.onlyOn q with
      | some own => own :: onlyOnAll q rest
      | none => onlyOnAll q rest

end

variable {q : Platform} {d e : Declaration}

theorem onlyOn_eq (q : Platform) (d : Declaration) :
    d.onlyOn q = if (d.facts.onlyOn q).entries.isEmpty then none
      else some { d with facts := d.facts.onlyOn q, children := onlyOnAll q d.children } := by
  cases d
  rw [onlyOn]

theorem onlyOnAll_eq_filterMap (q : Platform) (ds : List Declaration) :
    onlyOnAll q ds = ds.filterMap (onlyOn q) := by
  induction ds with
  | nil => rfl
  | cons d rest ih =>
      rw [onlyOnAll, ih, List.filterMap_cons]
      cases d.onlyOn q <;> rfl

theorem onlyOn_eq_none_iff : d.onlyOn q = none ↔ (d.facts.onlyOn q).entries = [] := by
  rw [onlyOn_eq]
  simp

/-- What one platform has of a declaration. -/
theorem eq_of_onlyOn (h : d.onlyOn q = some e) :
    e = { d with facts := d.facts.onlyOn q, children := onlyOnAll q d.children } := by
  rw [onlyOn_eq] at h
  split at h
  · cases h
  · exact (Option.some.inj h).symm

theorem isSome_onlyOn (q : Platform) (d : Declaration) :
    (d.onlyOn q).isSome = (d.facts.find? q).isSome := by
  rw [Bool.eq_iff_iff, Option.isSome_iff_ne_none, Option.isSome_iff_ne_none, ne_eq, ne_eq,
    onlyOn_eq_none_iff, PlatformMap.onlyOn_entries_eq_nil]

theorem onlyOn_onlyOn (q : Platform) (d : Declaration) :
    (d.onlyOn q).bind (onlyOn q) = d.onlyOn q := by
  induction d using memberInduction with
  | step d ih =>
      cases h : d.onlyOn q with
      | none => rfl
      | some e =>
          have hne : ¬ (d.facts.onlyOn q).entries.isEmpty := by
            rw [List.isEmpty_iff, ← onlyOn_eq_none_iff, h]
            simp
          have hbelow : onlyOnAll q (onlyOnAll q d.children) = onlyOnAll q d.children := by
            rw [onlyOnAll_eq_filterMap, onlyOnAll_eq_filterMap, List.filterMap_filterMap]
            exact List.filterMap_congr ih
          rw [Option.bind_some, eq_of_onlyOn h, onlyOn_eq, PlatformMap.onlyOn_onlyOn, if_neg hne,
            hbelow]

/-- The members that a platform has are those it is said to have. -/
theorem any_find?_onlyOnAll (q : Platform) (ds : List Declaration) :
    (onlyOnAll q ds).any (fun d => (d.facts.find? q).isSome) =
      ds.any fun d => (d.facts.find? q).isSome := by
  rw [onlyOnAll_eq_filterMap]
  induction ds with
  | nil => rfl
  | cons d rest ih =>
      rw [List.any_cons, ← ih, List.filterMap_cons, ← isSome_onlyOn q d]
      cases hd : d.onlyOn q with
      | none => rfl
      | some e =>
          have hfind : e.facts.find? q = d.facts.find? q := by
            rw [eq_of_onlyOn hd, PlatformMap.find?_onlyOn]
          rw [List.any_cons, hfind, ← isSome_onlyOn, hd]

/-! ## Filters -/

/-- Two tests agree on a platform, where the second is about declarations as
the platform has them. -/
def AgreeOn (q : Platform) (keep keep' : KeepTest) : Prop :=
  ∀ d e, d.onlyOn q = some e → ∀ f, keep' e q f = keep d q f

section Filter

variable {keep keep' : KeepTest} {removed removed' : List Platform}

theorem AgreeOn.dropsFrom (h : AgreeOn q keep keep') (hd : d.onlyOn q = some e)
    (hremoved : q ∈ removed ↔ q ∈ removed') (f : Facts) :
    e.dropsFrom keep' removed' q f = d.dropsFrom keep removed q f := by
  unfold Declaration.dropsFrom
  rw [h d e hd, Bool.eq_iff_iff]
  simp [hremoved]

theorem AgreeOn.keptFacts (h : AgreeOn q keep keep') (hd : d.onlyOn q = some e)
    (hremoved : q ∈ removed ↔ q ∈ removed') :
    e.keptFacts keep' removed' = (d.keptFacts keep removed).onlyOn q := by
  have hfacts : e.facts = d.facts.onlyOn q := by rw [eq_of_onlyOn hd]
  apply PlatformMap.eq_of_entries
  unfold Declaration.keptFacts
  rw [hfacts]
  simp only [PlatformMap.onlyOn, PlatformMap.filter, List.filter_filter]
  apply List.filter_congr
  rintro ⟨p, f⟩ -
  by_cases hp : p = q
  · subst hp
    simp [h.dropsFrom hd hremoved]
  · have hne : (p == q) = false := by simpa using hp
    simp [hne]

theorem AgreeOn.mem_droppedPlatforms (h : AgreeOn q keep keep') (hd : d.onlyOn q = some e)
    (hremoved : q ∈ removed ↔ q ∈ removed') :
    q ∈ d.droppedPlatforms keep removed ↔ q ∈ e.droppedPlatforms keep' removed' := by
  have hfacts : e.facts = d.facts.onlyOn q := by rw [eq_of_onlyOn hd]
  simp only [Declaration.mem_droppedPlatforms, hfacts, PlatformMap.mem_onlyOn, h d e hd, hremoved,
    and_true]

/-- A filter and the view of one platform can be exchanged. -/
theorem AgreeOn.filter (h : AgreeOn q keep keep') (d : Declaration) :
    ∀ {removed removed' : List Platform}, (q ∈ removed ↔ q ∈ removed') →
      (d.filter keep removed).bind (onlyOn q) = (d.onlyOn q).bind (filter keep' removed') := by
  induction d using memberInduction with
  | step d ih =>
      intro removed removed' hremoved
      cases hd : d.onlyOn q with
      | none =>
          cases hf : d.filter keep removed with
          | none => rfl
          | some k =>
              rw [onlyOn_eq_none_iff] at hd
              show k.onlyOn q = none
              rw [onlyOn_eq_none_iff, (eq_of_filter hf).2.1]
              rw [PlatformMap.onlyOn, PlatformMap.filter, List.filter_eq_nil_iff] at hd ⊢
              exact fun x hx => hd x (List.mem_of_mem_filter hx)
      | some e =>
          have hfacts := h.keptFacts hd hremoved
          have hchildren : e.children = d.children.filterMap (onlyOn q) := by
            rw [eq_of_onlyOn hd, onlyOnAll_eq_filterMap]
          have hmembers : onlyOnAll q
              (filterAll keep (removed ++ d.droppedPlatforms keep removed) d.children) =
                filterAll keep' (removed' ++ e.droppedPlatforms keep' removed') e.children := by
            rw [onlyOnAll_eq_filterMap, filterAll_eq_filterMap, filterAll_eq_filterMap, hchildren,
              List.filterMap_filterMap, List.filterMap_filterMap]
            apply List.filterMap_congr
            intro c hc
            apply ih c hc
            rw [List.mem_append, List.mem_append, hremoved, h.mem_droppedPlatforms hd hremoved]
          rw [Option.bind_some, filter_eq keep', hfacts, ← hmembers]
          by_cases hempty : (d.keptFacts keep removed).entries = []
          · rw [filter_eq, if_pos (by simp [hempty]), Option.bind_none, if_pos]
            simp [PlatformMap.onlyOn, PlatformMap.filter, hempty]
          · rw [filter_eq, if_neg (by simpa using hempty), Option.bind_some, onlyOn_eq,
              eq_of_onlyOn hd]

theorem AgreeOn.filterAll (h : AgreeOn q keep keep') (hremoved : q ∈ removed ↔ q ∈ removed')
    (ds : List Declaration) :
    onlyOnAll q (filterAll keep removed ds) = filterAll keep' removed' (onlyOnAll q ds) := by
  rw [onlyOnAll_eq_filterMap, onlyOnAll_eq_filterMap, filterAll_eq_filterMap,
    filterAll_eq_filterMap, List.filterMap_filterMap, List.filterMap_filterMap]
  exact List.filterMap_congr fun d _ => h.filter d hremoved

end Filter

/-! ## Rewritings -/

/-- A rewriting and the view of one platform can be exchanged. -/
theorem onlyOn_mapFacts {f f' : FactsChange}
    (hf : ∀ d e, d.onlyOn q = some e → ∀ g, f' e q g = f d q g) (d : Declaration) :
    (d.mapFacts f).onlyOn q = (d.onlyOn q).map (mapFacts f') := by
  induction d using memberInduction with
  | step d ih =>
      have hentries : ((d.mapFacts f).facts.onlyOn q) = (d.facts.onlyOn q).map (f d) := by
        rw [mapFacts_eq, PlatformMap.onlyOn_map]
      cases hd : d.onlyOn q with
      | none =>
          rw [onlyOn_eq_none_iff] at hd
          rw [Option.map_none, onlyOn_eq_none_iff, hentries, PlatformMap.map, hd, List.map_nil]
      | some e =>
          have hchildren : e.children = d.children.filterMap (onlyOn q) := by
            rw [eq_of_onlyOn hd, onlyOnAll_eq_filterMap]
          have hmembers : onlyOnAll q (mapFactsAll f d.children) = mapFactsAll f' e.children := by
            rw [onlyOnAll_eq_filterMap, mapFactsAll_eq_map, mapFactsAll_eq_map, hchildren,
              List.filterMap_map, List.map_filterMap]
            exact List.filterMap_congr ih
          have hfacts : (d.facts.onlyOn q).map (f d) = e.facts.map (f' e) := by
            have heq : e.facts = d.facts.onlyOn q := by rw [eq_of_onlyOn hd]
            rw [heq]
            exact PlatformMap.map_onlyOn_congr d.facts fun g => (hf d e hd g).symm
          have hne : ¬ ((d.facts.onlyOn q).map (f d)).entries.isEmpty := by
            have hsome : (d.facts.onlyOn q).entries ≠ [] := by
              rw [ne_eq, ← onlyOn_eq_none_iff, hd]
              simp
            simpa [PlatformMap.map] using hsome
          rw [onlyOn_eq, hentries, if_neg hne, Option.map_some, mapFacts_eq, mapFacts_eq, hfacts,
            hmembers]
          rw [eq_of_onlyOn hd]

theorem onlyOnAll_mapFactsAll {f f' : FactsChange}
    (hf : ∀ d e, d.onlyOn q = some e → ∀ g, f' e q g = f d q g) (ds : List Declaration) :
    onlyOnAll q (mapFactsAll f ds) = mapFactsAll f' (onlyOnAll q ds) := by
  rw [onlyOnAll_eq_filterMap, onlyOnAll_eq_filterMap, mapFactsAll_eq_map, mapFactsAll_eq_map,
    List.filterMap_map, List.map_filterMap]
  exact List.filterMap_congr fun d _ => onlyOn_mapFacts hf d

/-- A change of the facts of a declaration itself. -/
theorem onlyOn_withFacts (d : Declaration) (f : Platform → Facts → Facts) :
    Declaration.onlyOn q { d with facts := d.facts.map f } =
      (d.onlyOn q).map fun e => { e with facts := e.facts.map f } := by
  rw [onlyOn_eq, onlyOn_eq, PlatformMap.onlyOn_map]
  by_cases h : (d.facts.onlyOn q).entries = [] <;> simp [PlatformMap.map, h]

end Declaration

/-! ## Modules -/

namespace DocModule

open Declaration

variable {q : Platform}

/-- A module as one platform has it, with the facts about the module itself. -/
def onlyOn (q : Platform) (m : DocModule) : DocModule :=
  { m with facts := m.facts.onlyOn q, packages := onlyOnAll q m.packages }

theorem onlyOn_onlyOn (q : Platform) (m : DocModule) : (m.onlyOn q).onlyOn q = m.onlyOn q := by
  have hpackages : onlyOnAll q (onlyOnAll q m.packages) = onlyOnAll q m.packages := by
    rw [onlyOnAll_eq_filterMap, onlyOnAll_eq_filterMap, List.filterMap_filterMap]
    exact List.filterMap_congr fun d _ => Declaration.onlyOn_onlyOn q d
  rw [onlyOn, onlyOn, PlatformMap.onlyOn_onlyOn, hpackages]

theorem onlyOn_filter {keep keep' : KeepTest} (h : AgreeOn q keep keep') (m : DocModule) :
    (m.filter keep).onlyOn q = (m.onlyOn q).filter keep' := by
  rw [filter, onlyOn, h.filterAll Iff.rfl]
  rfl

theorem onlyOn_mapFacts {f f' : FactsChange}
    (hf : ∀ d e, d.onlyOn q = some e → ∀ g, f' e q g = f d q g) (m : DocModule) :
    (m.mapFacts f).onlyOn q = (m.onlyOn q).mapFacts f' := by
  rw [mapFacts, onlyOn, onlyOnAll_mapFactsAll hf]
  rfl

/-! ### Include files -/

theorem onlyOn_applyPackageSection (m : DocModule) (p : Platform) (name text : Text) :
    (m.applyPackageSection p name text).onlyOn q =
      (m.onlyOn q).applyPackageSection p name text := by
  have hname : ∀ d e : Declaration, d.onlyOn q = some e → e.name = d.name := by
    intro d e he
    rw [eq_of_onlyOn he]
  unfold onlyOn
  rw [onlyOnAll_eq_filterMap, onlyOnAll_eq_filterMap,
    filterMap_applyPackageSection hname fun d => onlyOn_withFacts d _]
  rfl

/-- What a platform has of a module with a section of this platform. -/
theorem onlyOn_applySection_self (m : DocModule) (s : IncludeSection) :
    (m.applySection q s).onlyOn q = (m.onlyOn q).applySection q s := by
  cases hkind : s.kind with
  | module =>
      have hmatch : (m.onlyOn q).matchesSection s = m.matchesSection s := by
        simp only [matchesSection, hkind, onlyOn]
      unfold applySection
      rw [hmatch, hkind]
      dsimp only
      split
      · simp only [applyModuleSection, onlyOn, PlatformMap.onlyOn_set_self, PlatformMap.find?_onlyOn]
      · rfl
  | package =>
      rw [applySection_package m hkind, applySection_package (m.onlyOn q) hkind,
        onlyOn_applyPackageSection]

/-- A platform sees nothing of the sections of another one. -/
theorem onlyOn_applySection_of_ne {p : Platform} (hne : p ≠ q) (m : DocModule)
    (s : IncludeSection) : (m.applySection p s).onlyOn q = m.onlyOn q := by
  unfold applySection
  split
  · split
    · simp only [applyModuleSection, onlyOn, PlatformMap.onlyOn_set_of_ne hne]
    · unfold onlyOn applyPackageSection
      congr 1
      rw [onlyOnAll_eq_filterMap, onlyOnAll_eq_filterMap, List.filterMap_map]
      apply List.filterMap_congr
      intro d _
      dsimp only [Function.comp_apply]
      split
      · rw [onlyOn_eq, PlatformMap.onlyOn_map_of_eq, ← onlyOn_eq]
        intro f
        rw [if_neg fun h => hne h.symm]
      · rfl
  · rfl

/-- Of the include files of all passes, a platform sees those of its own
pass. -/
theorem onlyOn_applyAllIncludes {disk : Disk} :
    ∀ {passes : List AnalyzedPass} {m r : DocModule}, (passes.map (·.platform)).Nodup →
      (applyAllIncludes disk m passes).run.value = .ok r →
      (applyIncludes disk q (m.onlyOn q)
        (((passes.find? fun a => a.platform == q).map (·.pass.includes)).getD [])).run.value =
          .ok (r.onlyOn q)
  | [], m, _, _, h => Except.ok.inj h ▸ rfl
  | a :: rest, m, r, hdistinct, h => by
      rw [List.map_cons, List.nodup_cons] at hdistinct
      rw [value_applyAllIncludes_cons] at h
      split at h
      · next next hnext =>
        have ih := onlyOn_applyAllIncludes hdistinct.2 h
        by_cases ha : a.platform = q
        · have hrest : rest.find? (fun a => a.platform == q) = none := by
            rw [List.find?_eq_none]
            intro b hb hbq
            exact hdistinct.1 (List.mem_map.mpr ⟨b, hb, (beq_iff_eq.mp hbq).trans ha.symm⟩)
          rw [hrest] at ih
          subst ha
          rw [List.find?_cons_of_pos (by simp), Option.map_some, Option.getD_some,
            value_applyIncludes_map onlyOn_applySection_self m fun _ _ => rfl, hnext]
          exact ih
        · have hkeep : next.onlyOn q = m.onlyOn q :=
            applyIncludes_induction (motive := fun x => x.onlyOn q = m.onlyOn q)
              (fun x s hx => (onlyOn_applySection_of_ne ha x s).trans hx) hnext rfl
          rw [List.find?_cons_of_neg (by simpa using ha), ← hkeep]
          exact ih
      · cases h

end DocModule

/-! ## Contexts -/

namespace RunContext

open Declaration

/-- Two runs have the same pass for a platform, and the same texts in its
include files. -/
structure AgreesOn (c c' : RunContext) (q : Platform) : Prop where
  pass : c'.passFor? q = c.passFor? q
  texts : ∀ pass, c.passFor? q = some pass → ∀ path ∈ pass.includes,
    c'.disk.read? path = c.disk.read? path

variable {c c' : RunContext} {q : Platform}

theorem AgreesOn.refl (c : RunContext) (q : Platform) : c.AgreesOn c q :=
  ⟨rfl, fun _ _ _ _ => rfl⟩

/-- What the transforms after the first leave for a platform is told by what
they are given for it. -/
theorem onlyOn_refined (hpass : c'.passFor? q = c.passFor? q) (m : DocModule) :
    (c.refined m).onlyOn q = c'.refined (m.onlyOn q) := by
  have hoptions : ∀ package, c'.optionsFor? q package = c.optionsFor? q package := by
    intro package
    rw [optionsFor?, optionsFor?, hpass]
  have hsuppression : AgreeOn q c.keepsSuppression c'.keepsSuppression := by
    intro d e hd f
    rw [eq_of_onlyOn hd]
    simp only [keepsSuppression, hpass]
  have hvisibility : AgreeOn q c.keepsVisibility c'.keepsVisibility := by
    intro d e hd f
    rw [eq_of_onlyOn hd]
    simp only [keepsVisibility, hoptions]
  have hdeprecation : AgreeOn q c.keepsDeprecation c'.keepsDeprecation := by
    intro d e hd f
    rw [eq_of_onlyOn hd]
    simp only [keepsDeprecation, hoptions]
  have hpackage : AgreeOn q c.keepsPackage c'.keepsPackage := by
    intro d e hd f
    rw [eq_of_onlyOn hd]
    simp only [keepsPackage, hpass, any_find?_onlyOnAll]
  have hlink : ∀ d e, d.onlyOn q = some e → ∀ f, c'.linkSource e q f = c.linkSource d q f := by
    intro d e _ f
    simp only [linkSource, hpass]
  rw [refined, refined, DocModule.onlyOn_mapFacts hlink, DocModule.onlyOn_filter hpackage,
    DocModule.onlyOn_filter hdeprecation, DocModule.onlyOn_filter hvisibility,
    DocModule.onlyOn_filter hsuppression]

theorem applyAll_ok (m : DocModule) (hread : c.IncludesReadable) :
    ∃ r, (BaseTransform.applyAll BaseTransform.all m c).value = .ok r := by
  obtain ⟨d, hd⟩ := DocModule.applyAllIncludes_ok m hread
  refine ⟨c.refined d, ?_⟩
  rw [BaseTransform.value_applyAll_all, BaseTransform.value_moduleDocumentation, hd]

theorem exists_of_value_applyAll {m r : DocModule}
    (h : (BaseTransform.applyAll BaseTransform.all m c).value = .ok r) :
    ∃ d, (m.applyAllIncludes c.disk c.passes).run.value = .ok d ∧ r = c.refined d := by
  rw [BaseTransform.value_applyAll_all, BaseTransform.value_moduleDocumentation] at h
  split at h
  · next d hd => exact ⟨d, hd, (Except.ok.inj h).symm⟩
  · cases h

/-- Of a module and a context, what they say about a platform tells what the
base transforms leave for it. -/
theorem onlyOn_eq_of_agreesOn {m m' r r' : DocModule}
    (hdistinct : (c.passes.map (·.platform)).Nodup) (hdistinct' : (c'.passes.map (·.platform)).Nodup)
    (hagrees : c.AgreesOn c' q) (hm : m'.onlyOn q = m.onlyOn q)
    (hr : (BaseTransform.applyAll BaseTransform.all m c).value = .ok r)
    (hr' : (BaseTransform.applyAll BaseTransform.all m' c').value = .ok r') :
    r'.onlyOn q = r.onlyOn q := by
  obtain ⟨d, hd, rfl⟩ := exists_of_value_applyAll hr
  obtain ⟨d', hd', rfl⟩ := exists_of_value_applyAll hr'
  -- Both runs apply the same texts to the same view of the module.
  have hown := DocModule.onlyOn_applyAllIncludes (q := q) hdistinct hd
  have hown' := DocModule.onlyOn_applyAllIncludes (q := q) hdistinct' hd'
  have hincludes : ∀ c : RunContext,
      (c.passes.find? fun a => a.platform == q).map (·.pass.includes) =
        (c.passFor? q).map (·.includes) := by
    intro c
    rw [passFor?, Option.map_map]
    rfl
  rw [hincludes, hagrees.pass, hm] at hown'
  rw [hincludes] at hown
  have hread : ∀ path ∈ ((c.passFor? q).map (·.includes)).getD [],
      c'.disk.read? path = c.disk.read? path := by
    cases hpass : c.passFor? q with
    | none => simp
    | some pass => exact hagrees.texts pass hpass
  have hsame := DocModule.value_applyIncludes_congr (p := q) (m.onlyOn q) hread
  rw [hown, hown'] at hsame
  rw [onlyOn_refined rfl d, onlyOn_refined hagrees.pass.symm d', Except.ok.inj hsame]

/-- **The base transforms treat platforms apart.**  What they leave of a module
for a platform is what they leave of the module as this platform has it.  It
stays the same when facts about other platforms change, or the passes, options
and include files of these. -/
theorem applyAll_onlyOn (c : RunContext) (m : DocModule) (q : Platform)
    (hdistinct : (c.passes.map (·.platform)).Nodup) (hread : c.IncludesReadable) :
    ∃ r own, (BaseTransform.applyAll BaseTransform.all m c).value = .ok r ∧
      (BaseTransform.applyAll BaseTransform.all (m.onlyOn q) c).value = .ok own ∧
      r.onlyOn q = own.onlyOn q ∧
      ∀ c' m', (c'.passes.map (·.platform)).Nodup → c'.IncludesReadable → c.AgreesOn c' q →
        m'.onlyOn q = m.onlyOn q →
        ∃ s, (BaseTransform.applyAll BaseTransform.all m' c').value = .ok s ∧
          s.onlyOn q = r.onlyOn q := by
  obtain ⟨r, hr⟩ := applyAll_ok m hread
  obtain ⟨own, hown⟩ := applyAll_ok (m.onlyOn q) hread
  refine ⟨r, own, hr, hown, ?_, ?_⟩
  · exact (onlyOn_eq_of_agreesOn hdistinct hdistinct (.refl c q) (DocModule.onlyOn_onlyOn q m)
      hr hown).symm
  · intro c' m' hdistinct' hread' hagrees hm
    obtain ⟨s, hs⟩ := applyAll_ok m' hread'
    exact ⟨s, hs, onlyOn_eq_of_agreesOn hdistinct hdistinct' hagrees hm hr hs⟩

/-- Two passes with include files and options of their own. -/
def twoPassContext : RunContext :=
  let jvm : Pass := { moduleName := "m", includes := ["jvm.md"], skipDeprecated := true }
  let js : Pass :=
    { moduleName := "m", family := .js, includes := ["js.md"], suppressedFiles := ["a.js"] }
  { passes := [⟨jvm.platform, jvm, none⟩, ⟨js.platform, js, none⟩]
    disk := ⟨.file "js.md" "# Module\nin the browser\n"
      (.file "jvm.md" "# Package p\nshared\n" .empty)⟩ }

/-- The first of the passes alone. -/
def onePassContext : RunContext :=
  { twoPassContext with passes := twoPassContext.passes.take 1 }

/-- A class of both platforms, and one that only the second has, which the
facts `other` are about. -/
def twoPassModule (other : Facts) : DocModule :=
  let jvm : Platform := ⟨"m", .jvm, []⟩
  let js : Platform := ⟨"m", .js, []⟩
  let a : DeclId := .ofPackage "p"
  let shared : Declaration :=
    { kind := .classType, name := "C", id := a.withClass "C", parent := some a
      facts := ⟨[(js, other), (jvm, {})]⟩ }
  let single : Declaration :=
    { kind := .classType, name := "D", id := a.withClass "D", parent := some a
      facts := .singleton js other }
  { name := "m"
    facts := ⟨[(jvm, {}), (js, other)]⟩
    packages := [{ name := "p", id := a, facts := ⟨[(jvm, {}), (js, other)]⟩
                   children := [shared, single] }] }

/-- What is said about the second platform does not matter for the first, nor
does its pass. -/
theorem applyAll_onlyOn_twoPasses :
    (twoPassContext.passes.map (·.platform)).Nodup ∧ twoPassContext.IncludesReadable ∧
      ∃ r s,
        (BaseTransform.applyAll BaseTransform.all (twoPassModule {}) twoPassContext).value =
          .ok r ∧
        (BaseTransform.applyAll BaseTransform.all
          (twoPassModule { visibility := .privateDecl }) onePassContext).value = .ok s ∧
        s.onlyOn ⟨"m", .jvm, []⟩ = r.onlyOn ⟨"m", .jvm, []⟩ := by
  obtain ⟨r, _, hr, _, _, hothers⟩ :=
    applyAll_onlyOn twoPassContext (twoPassModule {}) ⟨"m", .jvm, []⟩ (by decide) (by decide)
  obtain ⟨s, hs, hsame⟩ := hothers onePassContext (twoPassModule { visibility := .privateDecl })
    (by decide) (by decide) ⟨rfl, fun _ _ _ _ => rfl⟩ rfl
  exact ⟨by decide, by decide, r, s, hr, hs, hsame⟩

end RunContext

end CrossDoc
