import CrossDoc.Proofs.Forest
import CrossDoc.Refinement.Facts

/-!
# What filters and rewritings leave

A filter drops declarations and platforms, a rewriting changes facts; neither
touches a label or adds a declaration.  So whatever they leave is traced back
to one declaration they were given, and a declaration that passes the test
together with all above it is found again.
-/

namespace CrossDoc

namespace Declaration

variable (keep : KeepTest) (f : FactsChange)

/-! ## One declaration -/

theorem filter_eq (removed : List Platform) (d : Declaration) :
    d.filter keep removed =
      if (d.keptFacts keep removed).entries.isEmpty then none
      else some { d with
        facts := d.keptFacts keep removed
        children := filterAll keep (removed ++ d.droppedPlatforms keep removed) d.children } := by
  cases d
  rw [filter]

theorem filterAll_eq_filterMap (removed : List Platform) (ds : List Declaration) :
    filterAll keep removed ds = ds.filterMap (filter keep removed) := by
  induction ds with
  | nil => rfl
  | cons d rest ih =>
      rw [filterAll, ih, List.filterMap_cons]
      cases d.filter keep removed <;> rfl

theorem mapFacts_eq (d : Declaration) :
    d.mapFacts f = { d with
      facts := d.facts.map (f d)
      children := mapFactsAll f d.children } := by
  cases d
  rw [mapFacts]

theorem mapFactsAll_eq_map (ds : List Declaration) : mapFactsAll f ds = ds.map (mapFacts f) := by
  induction ds with
  | nil => rfl
  | cons d rest ih => rw [mapFactsAll, ih, List.map_cons]

variable {keep f} {removed : List Platform} {d e : Declaration}

/-- What a filter leaves of a declaration: its label, the facts that pass, and
what the filter leaves of its members. -/
theorem eq_of_filter (h : d.filter keep removed = some e) :
    e.label = d.label ∧ e.facts = d.keptFacts keep removed ∧
      e.children = filterAll keep (removed ++ d.droppedPlatforms keep removed) d.children := by
  rw [filter_eq] at h
  split at h
  · cases h
  · obtain rfl := Option.some.inj h
    exact ⟨rfl, rfl, rfl⟩

theorem label_mapFacts (d : Declaration) : (d.mapFacts f).label = d.label := by
  rw [mapFacts_eq]
  rfl

theorem children_mapFacts (d : Declaration) :
    (d.mapFacts f).children = d.children.map (mapFacts f) := by
  rw [mapFacts_eq]
  exact mapFactsAll_eq_map f d.children

theorem platforms_mapFacts (d : Declaration) : (d.mapFacts f).platforms = d.platforms := by
  rw [mapFacts_eq]
  exact PlatformMap.platforms_map d.facts (f d)

theorem mem_entries_mapFacts {p : Platform} {g : Facts} :
    (p, g) ∈ (d.mapFacts f).facts.entries ↔
      ∃ old, (p, old) ∈ d.facts.entries ∧ g = f d p old := by
  rw [mapFacts_eq]
  constructor
  · intro h
    obtain ⟨⟨q, old⟩, hold, heq⟩ := List.mem_map.mp h
    obtain ⟨rfl, rfl⟩ := Prod.mk.inj heq
    exact ⟨old, hold, rfl⟩
  · rintro ⟨old, hold, rfl⟩
    exact List.mem_map.mpr ⟨(p, old), hold, rfl⟩

/-! ## Entries -/

theorem mem_keptFacts {p : Platform} {g : Facts} :
    (p, g) ∈ (d.keptFacts keep removed).entries ↔
      (p, g) ∈ d.facts.entries ∧ p ∉ removed ∧ keep d p g = true := by
  simp [keptFacts, PlatformMap.filter, dropsFrom]

theorem mem_droppedPlatforms {p : Platform} :
    p ∈ d.droppedPlatforms keep removed ↔
      ∃ g, (p, g) ∈ d.facts.entries ∧ (p ∈ removed ∨ keep d p g = false) := by
  simp [droppedPlatforms, PlatformMap.platforms, PlatformMap.filter, dropsFrom]

theorem mem_platforms_iff {p : Platform} :
    p ∈ d.platforms ↔ ∃ g, (p, g) ∈ d.facts.entries := by
  simp [platforms, PlatformMap.platforms]

/-- A declaration of one platform is kept as a whole or dropped. -/
theorem filter_of_singleton {p : Platform} {g : Facts} (hd : d.facts = .singleton p g) :
    d.filter keep [] =
      if keep d p g then some { d with children := filterAll keep [] d.children } else none := by
  have hdrops : d.dropsFrom keep [] p g = !keep d p g := by simp [dropsFrom]
  rw [filter_eq]
  cases hkeep : keep d p g with
  | true =>
      have hkept : d.keptFacts keep [] = d.facts := by
        rw [keptFacts, hd]
        simp [PlatformMap.filter, PlatformMap.singleton, hdrops, hkeep]
      have hdropped : d.droppedPlatforms keep [] = [] := by
        rw [droppedPlatforms, hd]
        simp [PlatformMap.filter, PlatformMap.singleton, PlatformMap.platforms, hdrops, hkeep]
      rw [hkept, hdropped, hd]
      rfl
  | false =>
      have hkept : (d.keptFacts keep []).entries = [] := by
        rw [keptFacts, hd]
        simp [PlatformMap.filter, PlatformMap.singleton, hdrops, hkeep]
      rw [hkept]
      rfl

/-! ## Where what is left comes from -/

/-- A filter leaves siblings in their order. -/
theorem labels_filterAll_sublist (keep : KeepTest) (removed : List Platform)
    (ds : List Declaration) : ((filterAll keep removed ds).map label).Sublist (ds.map label) := by
  induction ds with
  | nil => exact .slnil
  | cons d rest ih =>
      rw [filterAll]
      split
      · next e he =>
        rw [List.map_cons, List.map_cons, (eq_of_filter he).1]
        exact ih.cons_cons d.label
      · exact ih.cons d.label

theorem labels_mapFactsAll (f : FactsChange) (ds : List Declaration) :
    (mapFactsAll f ds).map label = ds.map label := by
  rw [mapFactsAll_eq_map, List.map_map]
  exact List.map_congr_left fun d _ => label_mapFacts d

/-- Every declaration that a filter leaves is what it leaves of one that was
there. -/
theorem exists_of_mem_filterAll {ds : List Declaration} {n : Declaration}
    (h : n ∈ flattenAll (filterAll keep removed ds)) :
    ∃ d ∈ flattenAll ds, ∃ above, d.filter keep above = some n := by
  refine reachInduction
    (motive := fun n => ∃ d ∈ flattenAll ds, ∃ above, d.filter keep above = some n) ?_ ?_ n h
  · intro n hn
    rw [filterAll_eq_filterMap] at hn
    obtain ⟨d, hd, hdn⟩ := List.mem_filterMap.mp hn
    exact ⟨d, mem_flattenAll_self hd, removed, hdn⟩
  · rintro q _ ⟨d, hd, above, hq⟩ c hc
    rw [(eq_of_filter hq).2.2, filterAll_eq_filterMap] at hc
    obtain ⟨b, hb, hbc⟩ := List.mem_filterMap.mp hc
    exact ⟨b, mem_flattenAll_child hd hb, _, hbc⟩

theorem exists_of_mem_mapFactsAll {ds : List Declaration} {n : Declaration}
    (h : n ∈ flattenAll (mapFactsAll f ds)) : ∃ d ∈ flattenAll ds, d.mapFacts f = n := by
  refine reachInduction (motive := fun n => ∃ d ∈ flattenAll ds, d.mapFacts f = n) ?_ ?_ n h
  · intro n hn
    rw [mapFactsAll_eq_map] at hn
    obtain ⟨d, hd, hdn⟩ := List.mem_map.mp hn
    exact ⟨d, mem_flattenAll_self hd, hdn⟩
  · rintro q _ ⟨d, hd, rfl⟩ c hc
    rw [children_mapFacts] at hc
    obtain ⟨b, hb, hbc⟩ := List.mem_map.mp hc
    exact ⟨b, mem_flattenAll_child hd hb, hbc⟩

/-- What a filter leaves passes its test. -/
theorem passes_of_mem_filterAll {ds : List Declaration} {n : Declaration} {p : Platform}
    {g : Facts} (hn : n ∈ flattenAll (filterAll keep removed ds))
    (hg : (p, g) ∈ n.facts.entries) :
    ∃ d ∈ flattenAll ds, d.label = n.label ∧ (p, g) ∈ d.facts.entries ∧ keep d p g = true := by
  obtain ⟨d, hd, above, hdn⟩ := exists_of_mem_filterAll hn
  obtain ⟨hlabel, hfacts, _⟩ := eq_of_filter hdn
  rw [hfacts, mem_keptFacts] at hg
  exact ⟨d, hd, hlabel.symm, hg.1, hg.2.2⟩

/-! ## Lines -/

/-- A way down a forest: the first declaration is a root, each further one a
member of the one before it. -/
def IsLine : List Declaration → List Declaration → Prop
  | _, [] => True
  | siblings, d :: rest => d ∈ siblings ∧ IsLine d.children rest

/-- The declarations of a line below its first are members. -/
theorem IsLine.member {roots rest : List Declaration} {d : Declaration}
    (hd : d ∈ flattenAll roots) (hline : IsLine d.children rest) :
    ∀ e ∈ rest, ∃ q ∈ flattenAll roots, e ∈ q.children := by
  induction rest generalizing d with
  | nil =>
      intro e he
      cases he
  | cons b rest ih =>
      intro e he
      rcases List.mem_cons.mp he with rfl | he
      · exact ⟨d, hd, hline.1⟩
      · exact ih (mem_flattenAll_child hd hline.1) hline.2 e he

/-- A platform of the last declaration of a line is one of all of them, if
members have only platforms of their owners. -/
theorem IsLine.platform {roots : List Declaration} {p : Platform}
    (hnested : ∀ q ∈ flattenAll roots, ∀ n ∈ q.children, n.platforms ⊆ q.platforms)
    {siblings ds : List Declaration} (hsub : siblings ⊆ flattenAll roots)
    (hline : IsLine siblings ds) (hlast : ∀ d ∈ ds.getLast?, p ∈ d.platforms) :
    ∀ d ∈ ds, p ∈ d.platforms := by
  induction ds generalizing siblings with
  | nil =>
      intro d hd
      cases hd
  | cons b rest ih =>
      intro d hd
      have hb := hsub hline.1
      cases rest with
      | nil => exact hlast d (by simpa using (List.mem_singleton.mp hd).symm)
      | cons b' rest =>
          have hrest := ih (fun x hx => mem_flattenAll_child hb hx) hline.2 (by simpa using hlast)
          rcases List.mem_cons.mp hd with rfl | hd
          · exact hnested d hb b' hline.2.1 (hrest b' (by simp))
          · exact hrest d hd

/-- `e` has the label of `d` and says on `p` what `d` says, up to a change of
the facts. -/
structure KeepsOn (p : Platform) (change : Facts → Facts) (d e : Declaration) : Prop where
  label : e.label = d.label
  entries : ∀ g, (p, g) ∈ e.facts.entries ↔ ∃ old, (p, old) ∈ d.facts.entries ∧ g = change old

theorem KeepsOn.trans {p : Platform} {change change' : Facts → Facts} {d e b : Declaration}
    (h : KeepsOn p change d e) (h' : KeepsOn p change' e b) :
    KeepsOn p (change' ∘ change) d b := by
  refine ⟨h'.label.trans h.label, fun g => ?_⟩
  rw [h'.entries]
  constructor
  · rintro ⟨mid, hmid, rfl⟩
    obtain ⟨old, hold, rfl⟩ := (h.entries mid).mp hmid
    exact ⟨old, hold, rfl⟩
  · rintro ⟨old, hold, rfl⟩
    exact ⟨change old, (h.entries _).mpr ⟨old, hold, rfl⟩, rfl⟩

theorem KeepsOn.mem_platforms {p : Platform} {change : Facts → Facts}
    (h : KeepsOn p change d e) (hd : p ∈ d.platforms) : p ∈ e.platforms := by
  obtain ⟨old, hold⟩ := mem_platforms_iff.mp hd
  exact mem_platforms_iff.mpr ⟨change old, (h.entries _).mpr ⟨old, hold, rfl⟩⟩

/-- A line on which the test holds for a platform is found again. -/
theorem exists_line_filterAll {p : Platform} :
    ∀ {ds siblings : List Declaration} {removed : List Platform}, IsLine siblings ds →
      p ∉ removed → (∀ d ∈ ds, p ∈ d.platforms) →
      (∀ d ∈ ds, ∀ g, (p, g) ∈ d.facts.entries → keep d p g = true) →
      ∃ es, IsLine (filterAll keep removed siblings) es ∧
        List.Forall₂ (KeepsOn p fun g => g) ds es
  | [], _, _, _, _, _, _ => ⟨[], trivial, .nil⟩
  | d :: rest, siblings, removed, hline, hp, hon, hkeep => by
      have hstays : ∀ g, (p, g) ∈ (d.keptFacts keep removed).entries ↔
          (p, g) ∈ d.facts.entries := by
        intro g
        rw [mem_keptFacts]
        exact ⟨fun h => h.1, fun h => ⟨h, hp, hkeep d (by simp) g h⟩⟩
      obtain ⟨e, he⟩ : ∃ e, d.filter keep removed = some e := by
        obtain ⟨g, hg⟩ := mem_platforms_iff.mp (hon d (by simp))
        rw [filter_eq, if_neg]
        · exact ⟨_, rfl⟩
        · rw [List.isEmpty_iff]
          exact List.ne_nil_of_mem ((hstays g).mpr hg)
      obtain ⟨hlabel, hfacts, hchildren⟩ := eq_of_filter he
      -- Nothing above drops the platform, and neither does `d`.
      have hbelow : p ∉ removed ++ d.droppedPlatforms keep removed := by
        rw [List.mem_append, mem_droppedPlatforms]
        rintro (h | ⟨g, hg, h | h⟩)
        · exact hp h
        · exact hp h
        · exact absurd (hkeep d (by simp) g hg) (by simp [h])
      obtain ⟨es, hes, hsame⟩ := exists_line_filterAll hline.2 hbelow
        (fun c hc => hon c (List.mem_cons_of_mem d hc))
        (fun c hc => hkeep c (List.mem_cons_of_mem d hc))
      refine ⟨e :: es, ⟨?_, hchildren ▸ hes⟩, .cons ⟨hlabel, fun g => ?_⟩ hsame⟩
      · rw [filterAll_eq_filterMap]
        exact List.mem_filterMap.mpr ⟨d, hline.1, he⟩
      · rw [hfacts, hstays]
        simp

theorem exists_line_mapFactsAll (p : Platform) :
    ∀ {ds siblings : List Declaration}, IsLine siblings ds →
      ∃ es, IsLine (mapFactsAll f siblings) es ∧
        List.Forall₂ (fun d => KeepsOn p (f d p) d) ds es
  | [], _, _ => ⟨[], trivial, .nil⟩
  | d :: rest, siblings, hline => by
      obtain ⟨es, hes, hsame⟩ := exists_line_mapFactsAll p hline.2
      refine ⟨d.mapFacts f :: es, ⟨?_, ?_⟩, .cons ⟨label_mapFacts d, fun g => ?_⟩ hsame⟩
      · rw [mapFactsAll_eq_map]
        exact List.mem_map_of_mem hline.1
      · rw [children_mapFacts, ← mapFactsAll_eq_map]
        exact hes
      · exact mem_entries_mapFacts

end Declaration

end CrossDoc
