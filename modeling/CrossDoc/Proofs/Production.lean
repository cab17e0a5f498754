import CrossDoc.Proofs.Filtering
import CrossDoc.Proofs.Merging
import CrossDoc.Proofs.Transforming
import CrossDoc.Proofs.Translation
import CrossDoc.Run.Generator

/-!
# The modules of a run

A run *produces* a module when it translates one, merges some or transforms
one, in whatever order.  Merging and transforming keep modules coherent, since
neither of them makes up a label: so whatever a run over listings produces is
coherent, and its declarations can be told by their identities.
-/

namespace CrossDoc

namespace DocModule

open Declaration

/-! ## Merging -/

theorem coherent_merged {ms : List DocModule} (h : ∀ m ∈ ms, m.Coherent) :
    (merged ms).Coherent := by
  have hroots : ∀ e ∈ (ms.map (·.packages)).flatten, e.label.IsPackage := by
    intro e he
    obtain ⟨l, hl, hel⟩ := List.mem_flatten.mp he
    obtain ⟨m, hm, rfl⟩ := List.mem_map.mp hl
    exact (h m hm).packages e hel
  have hmembers : ∀ q ∈ flattenAll (ms.map (·.packages)).flatten, ∀ n ∈ q.children,
      n.label.IsMemberOf q.id := by
    intro q hq
    obtain ⟨m, hm, hqm⟩ := exists_module_of_mem hq
    exact (h m hm).members q hqm
  refine ⟨merged_unique fun m hm => (h m hm).unique, ?_, ?_⟩
  · intro d hd
    rw [merged_packages] at hd
    obtain ⟨e, he, hlabel⟩ := exists_of_mem_union hd
    exact hlabel ▸ hroots e he
  · -- The owner is made of a group with its identity, and the member has the label of
    -- a member of the group.
    intro q hq n hn
    unfold declarations at hq
    rw [merged_packages] at hq
    obtain ⟨group, hgroup, hids, hjoined⟩ := exists_group_of_mem_union hq
    obtain ⟨e, he, c, hc, hlabel⟩ := exists_of_mem_joined hjoined hn
    rw [← hlabel, ← hids e he]
    exact hmembers e (hgroup he) c hc

theorem coherent_merge {ms : List DocModule} {r : DocModule} (h : ∀ m ∈ ms, m.Coherent)
    (hr : (merge ms).value = .ok r) : r.Coherent := by
  match ms with
  | [] => cases hr
  | [m] =>
      obtain rfl := Except.ok.inj hr
      exact h m (by simp)
  | m :: m' :: rest =>
      obtain rfl := Except.ok.inj hr
      exact coherent_merged h

/-! ## Transforming -/

/-- `r` has some of the declarations of `m`, in their places. -/
structure Prunes (m r : DocModule) : Prop where
  packages : (r.packages.map label).Sublist (m.packages.map label)
  members : ∀ n ∈ r.declarations, ∃ d ∈ m.declarations, d.label = n.label ∧
    (n.children.map label).Sublist (d.children.map label)

theorem exists_of_labels_sublist {ds es : List Declaration}
    (h : (ds.map label).Sublist (es.map label)) {d : Declaration} (hd : d ∈ ds) :
    ∃ e ∈ es, e.label = d.label :=
  List.mem_map.mp (h.subset (List.mem_map_of_mem hd))

theorem ids_sublist_of_labels {ds es : List Declaration}
    (h : (ds.map label).Sublist (es.map label)) :
    (ds.map (·.id)).Sublist (es.map (·.id)) := by
  have hid : ∀ xs : List Declaration, xs.map (·.id) = (xs.map label).map Label.id := by
    intro xs
    rw [List.map_map]
    rfl
  rw [hid, hid]
  exact h.map Label.id

theorem Coherent.of_prunes {m r : DocModule} (h : m.Coherent) (hr : m.Prunes r) :
    r.Coherent := by
  refine ⟨⟨(ids_sublist_of_labels hr.packages).nodup h.unique.1, ?_⟩, ?_, ?_⟩
  · intro n hn
    obtain ⟨d, hd, _, hchildren⟩ := hr.members n hn
    exact (ids_sublist_of_labels hchildren).nodup (h.unique.2 d hd)
  · intro n hn
    obtain ⟨d, hd, hlabel⟩ := exists_of_labels_sublist hr.packages hn
    exact hlabel ▸ h.packages d hd
  · intro q hq n hn
    obtain ⟨d, hd, hlabel, hchildren⟩ := hr.members q hq
    obtain ⟨c, hc, hcn⟩ := exists_of_labels_sublist hchildren hn
    rw [← hcn, ← id_eq_of_label hlabel]
    exact h.members d hd c hc

theorem prunes_filter (m : DocModule) (keep : KeepTest) : m.Prunes (m.filter keep) where
  packages := labels_filterAll_sublist keep [] m.packages
  members n hn := by
    obtain ⟨d, hd, above, hdn⟩ := exists_of_mem_filterAll hn
    obtain ⟨hlabel, _, hchildren⟩ := eq_of_filter hdn
    refine ⟨d, hd, hlabel.symm, ?_⟩
    rw [hchildren]
    exact labels_filterAll_sublist keep _ d.children

theorem prunes_mapFacts (m : DocModule) (f : FactsChange) : m.Prunes (m.mapFacts f) where
  packages := (labels_mapFactsAll f m.packages).symm ▸ .refl _
  members n hn := by
    obtain ⟨d, hd, rfl⟩ := exists_of_mem_mapFactsAll hn
    refine ⟨d, hd, (label_mapFacts d).symm, ?_⟩
    rw [children_mapFacts, ← mapFactsAll_eq_map, labels_mapFactsAll]

theorem Annotates.prunes {m r : DocModule} (h : m.Annotates r) : m.Prunes r := by
  constructor
  · obtain ⟨g, hg, hr⟩ := h
    have hsame : m.packages.map (label ∘ g) = m.packages.map label :=
      List.map_congr_left fun d _ => (hg d).label
    rw [hr, List.map_map, hsame]
  · intro n hn
    obtain ⟨d, hd, hdn⟩ := h.exists_of_mem hn
    exact ⟨d, hd, hdn.label.symm, hdn.children ▸ .refl _⟩

end DocModule

/-- No base transform makes up a declaration or moves one. -/
theorem BaseTransform.prunes_apply {t : BaseTransform} {m r : DocModule} {c : RunContext}
    (h : (t.apply m c).value = .ok r) : m.Prunes r := by
  cases t with
  | moduleDocumentation => exact (DocModule.annotates_applyAllIncludes h).prunes
  | suppression => exact Except.ok.inj h ▸ m.prunes_filter c.keepsSuppression
  | visibility => exact Except.ok.inj h ▸ m.prunes_filter c.keepsVisibility
  | deprecation => exact Except.ok.inj h ▸ m.prunes_filter c.keepsDeprecation
  | emptyPackages => exact Except.ok.inj h ▸ m.prunes_filter c.keepsPackage
  | sourceLinks => exact Except.ok.inj h ▸ m.prunes_mapFacts c.linkSource
  | undocumented => exact Except.ok.inj h ▸ (DocModule.Annotates.refl m).prunes

/-! ## Runs -/

namespace RunContext

/-- The modules that a run can come to: those of its passes, and what merging
and the base transforms make of such modules. -/
inductive Produces (c : RunContext) : DocModule → Prop where
  | symbols {a : AnalyzedPass} {m : DocModule} :
      a ∈ c.passes → (Assembly.ofGroups a c).value = .ok m → Produces c m
  | files {a : AnalyzedPass} {m : DocModule} :
      a ∈ c.passes → (Assembly.ofFiles a c).value = .ok m → Produces c m
  | merged {ms : List DocModule} {r : DocModule} :
      (∀ m ∈ ms, Produces c m) → (DocModule.merge ms).value = .ok r → Produces c r
  | transformed {m r : DocModule} (t : BaseTransform) :
      Produces c m → (t.apply m c).value = .ok r → Produces c r

/-- The environments of all passes were read from listings. -/
def OfListings (c : RunContext) : Prop :=
  ∀ a ∈ c.passes, ∀ e, a.environment = some e → e.OfListings

end RunContext

/-! ## Passes over listings -/

namespace Generator

variable {disk : Disk}

theorem value_ofListings {position : Nat} {p : Pass} {settings : AnalysisSettings}
    {e : Environment}
    (h : (Analyzer.ofListings disk position p settings).value = .ok (some e)) : e.OfListings := by
  unfold Analyzer.ofListings at h
  rw [Traced.value_bind] at h
  split at h
  · next hanalyzed =>
    obtain rfl := Option.some.inj (Except.ok.inj h)
    exact Listing.analyze_ofListings hanalyzed
  · cases h

theorem analyzePass_ofListings {position : Nat} {p : Pass} {a : AnalyzedPass} {e : Environment}
    (h : (analyzePass (.ofListings disk) position p).run.value = .ok a)
    (he : a.environment = some e) : e.OfListings := by
  unfold analyzePass at h
  simp only [Traced.value_run_bind, Traced.value_run_lift, Traced.value_relay] at h
  split at h
  · next environment henvironment =>
    obtain rfl := Except.ok.inj h
    obtain rfl : environment = some e := he
    exact value_ofListings henvironment
  · cases h
  · cases h

theorem analyzeFrom_ofListings {ps : List Pass} : ∀ {position : Nat} {passes : List AnalyzedPass},
    (analyzeFrom (.ofListings disk) position ps).run.value = .ok passes →
      ∀ a ∈ passes, ∀ e, a.environment = some e → e.OfListings := by
  induction ps with
  | nil =>
      intro position passes h a ha
      rw [← Except.ok.inj h] at ha
      cases ha
  | cons p rest ih =>
      intro position passes h
      rw [analyzeFrom, Traced.value_run_bind] at h
      split at h
      · next b hb =>
        rw [Traced.value_run_bind] at h
        split at h
        · next bs hbs =>
          obtain rfl := Except.ok.inj h
          intro a ha e he
          rcases List.mem_cons.mp ha with rfl | ha
          · exact analyzePass_ofListings hb he
          · exact ih hbs a ha e he
        · cases h
      · cases h

/-- A run that analyzes listings has only passes over listings. -/
theorem setup_ofListings {g : Generator} {passes : List AnalyzedPass}
    (hg : g.analyzer = .ofListings disk) (h : g.setup.run.value = .ok passes) :
    (RunContext.mk g.config passes g.disk).OfListings := by
  have hanalyzed : (analyzeFrom g.analyzer 0 g.config.passes).run.value = .ok passes := by
    unfold setup at h
    cases hroot : g.config.cacheRoot with
    | none =>
        simp only [hroot] at h
        exact h
    | some root =>
        simp only [hroot, Traced.value_run_bind] at h
        exact h
  exact analyzeFrom_ofListings (hg ▸ hanalyzed)

end Generator

/-! ## What runs over listings produce -/

namespace RunContext

variable {c : RunContext} {m : DocModule}

theorem Produces.coherent (hc : c.OfListings) (h : c.Produces m) : m.Coherent := by
  induction h with
  | symbols ha hm => exact Assembly.coherent_ofGroups (hc _ ha) hm
  | files ha hm => exact Assembly.coherent_ofFiles (hc _ ha) hm
  | merged _ hr ih => exact DocModule.coherent_merge ih hr
  | transformed t _ hr ih => exact ih.of_prunes (BaseTransform.prunes_apply hr)

/-- **Declarations are identified throughout a run.**  Over listings, every
module that a run translates, merges or transforms gives its declarations
distinct identities, and both ways to the parent of a declaration lead to the
one that encloses it. -/
theorem produces_isIdentified (hc : c.OfListings) (h : c.Produces m) : m.IsIdentified :=
  (h.coherent hc).isIdentified

/-- A pass over one listing. -/
def listingPass (family : Family) (listing : Text) : AnalyzedPass :=
  let pass : Pass := { moduleName := "m", family := family }
  ⟨pass.platform, pass, some (({} : Environment).addSymbolListing
    (Listing.parse listing "a.api").1)⟩

/-- A run with a pass for each of some listings. -/
def overListings (listings : List (Family × Text)) : RunContext where
  passes := listings.map fun l => listingPass l.1 l.2

/-- What the passes of a run find among symbols, one module each. -/
def symbolModules (c : RunContext) : List DocModule :=
  c.passes.map fun a =>
    (Assembly.addGroups a (.ofPass a) (a.environment.getD {}).groups).value

variable {listings : List (Family × Text)}

theorem overListings_ofListings : (overListings listings).OfListings := by
  intro a ha e he
  obtain ⟨l, _, rfl⟩ := List.mem_map.mp ha
  exact Option.some.inj he ▸ .symbols _ "a.api" .empty

theorem produces_symbolModules :
    ∀ m ∈ (overListings listings).symbolModules, (overListings listings).Produces m := by
  intro m hm
  obtain ⟨a, ha, rfl⟩ := List.mem_map.mp hm
  obtain ⟨l, _, rfl⟩ := List.mem_map.mp ha
  exact .symbols ha rfl

/-- Two passes that see one package in part. -/
def twoViewsRun : RunContext := overListings [
  (.jvm, "package a\nclass C\n  fun f(n: Int)\n  fun f(s: String)\n  class D\n"),
  (.js, "package a\nfun C()\nclass C\n  class D\n    val f\n")]

/-- What both passes find together. -/
def twoViewsModule : DocModule := .merged twoViewsRun.symbolModules

theorem produces_twoViewsModule : twoViewsRun.Produces twoViewsModule :=
  .merged produces_symbolModules rfl

/-- Together the views have seven declarations, with an identity for each. -/
theorem produces_isIdentified_twoViewsRun :
    twoViewsRun.OfListings ∧ twoViewsRun.Produces twoViewsModule ∧ twoViewsModule.count = 7 ∧
      twoViewsModule.IsIdentified := by
  refine ⟨overListings_ofListings, produces_twoViewsModule, by decide +kernel, ?_⟩
  exact produces_isIdentified overListings_ofListings produces_twoViewsModule

end RunContext

end CrossDoc
