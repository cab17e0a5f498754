import CrossDoc.Proofs.PageLinks
import CrossDoc.Proofs.PlatformCoverage

/-!
# The platforms of pages

A page stands for the platforms of what it documents, and each part of it may be
tagged with platforms.  Since platforms become fewer on the way down a module,
no page shows a part for a platform it does not stand for, and no page stands
for a platform that the page above it lacks.
-/

namespace CrossDoc

namespace Content

/-- The part and all below it are tagged with some of the platforms only. -/
def Within (ps : List Platform) (c : Content) : Prop := ∀ d ∈ c.flatten, d.platforms ⊆ ps

variable {ps qs : List Platform}

theorem within_iff {c : Content} :
    c.Within ps ↔ c.platforms ⊆ ps ∧ ∀ d ∈ c.children, d.Within ps := by
  unfold Within
  simp only [flatten_eq c, flattenAll_eq_flatMap, List.mem_cons, List.mem_flatMap]
  constructor
  · intro h
    exact ⟨h c (.inl rfl), fun d hd x hx => h x (.inr ⟨d, hd, hx⟩)⟩
  · rintro ⟨hc, hbelow⟩ x (rfl | ⟨d, hd, hx⟩)
    · exact hc
    · exact hbelow d hd x hx

theorem Within.mono {c : Content} (h : c.Within ps) (hsub : ps ⊆ qs) : c.Within qs :=
  fun d hd => List.Subset.trans (h d hd) hsub

theorem Within.tagged {c : Content} (h : c.Within ps) (hqs : qs ⊆ ps) : (c.tagged qs).Within ps :=
  within_iff.mpr ⟨hqs, (within_iff.mp h).2⟩

@[simp] theorem within_group {cs : List Content} {style : Text} :
    (group cs style).Within ps ↔ ∀ c ∈ cs, c.Within ps :=
  within_iff.trans (and_iff_right (List.nil_subset ps))

@[simp] theorem within_row {cells : List Content} :
    (row cells qs).Within ps ↔ qs ⊆ ps ∧ ∀ c ∈ cells, c.Within ps :=
  within_iff

theorem within_leaf {c : Content} (htags : c.platforms = []) (hleaf : c.children = []) :
    c.Within ps := by
  rw [within_iff, htags, hleaf]
  exact ⟨List.nil_subset ps, fun d hd => nomatch hd⟩

@[simp] theorem within_header (level : Int) (t : Text) : (header level t).Within ps :=
  within_leaf rfl rfl

@[simp] theorem within_paragraph (t : Text) : (paragraph t).Within ps := within_leaf rfl rfl

@[simp] theorem within_code (t : Text) : (code t).Within ps := within_leaf rfl rfl

@[simp] theorem within_urlLink (t url : Text) : (urlLink t url).Within ps := within_leaf rfl rfl

@[simp] theorem within_linkTo (t : Text) (id : DeclId) : (linkTo t id).Within ps :=
  within_leaf rfl rfl

@[simp] theorem within_headerRow (columns : List Text) : (headerRow columns).Within ps := by
  refine within_iff.mpr ⟨List.nil_subset ps, fun d hd => ?_⟩
  obtain ⟨t, -, rfl⟩ := List.mem_map.mp hd
  exact within_paragraph t

@[simp] theorem within_table {columns : List Text} {rows : List Content} :
    (table columns rows).Within ps ↔ ∀ r ∈ rows, r.Within ps := by
  refine within_iff.trans ((and_iff_right (List.nil_subset ps)).trans ?_)
  show (∀ d ∈ headerRow columns :: rows, d.Within ps) ↔ _
  rw [List.forall_mem_cons]
  exact and_iff_right (within_headerRow columns)

end Content

/-! ## Content of several platforms -/

namespace PlatformMap

variable {α : Type} {render : α → Content} {m : PlatformMap α}

theorem subset_of_mem_addVariant {p : Platform} {c : Content} {all : List Platform}
    (hp : p ∈ all) : ∀ {vs : List (Content × List Platform)}, (∀ v ∈ vs, v.2 ⊆ all) →
      ∀ v ∈ addVariant p c vs, v.2 ⊆ all
  | [], _, v, hv => by
      rw [List.mem_singleton.mp hv]
      simpa using hp
  | (d, qs) :: rest, h, v, hv => by
      have hqs := h (d, qs) List.mem_cons_self
      have hrest := fun w hw => h w (List.mem_cons_of_mem (d, qs) hw)
      rw [addVariant] at hv
      split at hv
      · rcases List.mem_cons.mp hv with rfl | hv
        · exact List.append_subset.mpr ⟨hqs, by simpa using hp⟩
        · exact hrest v hv
      · rcases List.mem_cons.mp hv with rfl | hv
        · exact hqs
        · exact subset_of_mem_addVariant hp hrest v hv

/-- A variant is tagged with platforms of the map. -/
theorem subset_of_mem_variants {v : Content × List Platform} (h : v ∈ m.variants render) :
    v.2 ⊆ m.platforms := by
  have hfold : ∀ (es : List (Platform × α)) (vs : List (Content × List Platform)),
      es.map Prod.fst ⊆ m.platforms → (∀ w ∈ vs, w.2 ⊆ m.platforms) →
        ∀ w ∈ es.foldl (fun vs e => addVariant e.1 (render e.2) vs) vs, w.2 ⊆ m.platforms := by
    intro es
    induction es with
    | nil => exact fun vs _ hvs => hvs
    | cons e rest ih =>
        intro vs hes hvs
        rw [List.map_cons, List.cons_subset] at hes
        exact ih _ hes.2 (subset_of_mem_addVariant hes.1 hvs)
  exact hfold m.entries [] (List.Subset.refl _) (fun w hw => nomatch hw) v h

/-- Where a rendering has no tags, the content of a map has tags of its
platforms. -/
theorem within_content (h : ∀ v, (render v).Within []) : (m.content render).Within m.platforms := by
  have hvariant : ∀ v ∈ m.variants render, (v.1.tagged v.2).Within m.platforms := by
    intro v hv
    obtain ⟨e, -, hve⟩ := exists_of_mem_variants hv
    have hrendered : v.1.Within m.platforms := by
      rw [hve]
      exact (h e.2).mono (List.nil_subset _)
    exact hrendered.tagged (subset_of_mem_variants hv)
  have hempty : (Content.group [] []).Within m.platforms :=
    Content.within_group.mpr fun c hc => nomatch hc
  unfold content
  split
  · exact hempty
  · next v ps hsingle =>
    split
    · exact hempty
    · exact hvariant (v, ps) (by simp [hsingle])
  · refine Content.within_iff.mpr ⟨fun p hp => ?_, fun d hd => ?_⟩
    · obtain ⟨v, hv, hpv⟩ := List.mem_flatMap.mp hp
      exact subset_of_mem_variants hv hpv
    · obtain ⟨v, hv, rfl⟩ := List.mem_map.mp hd
      exact hvariant v hv

end PlatformMap

namespace Facts

open Content

variable {ps : List Platform}

theorem within_optional {empty : Bool} {c : Content} (h : c.Within ps) :
    ∀ d ∈ (if empty then [] else [c]), d.Within ps := by
  cases empty <;> simp [h]

theorem within_paragraphs (t : Text) : ∀ c ∈ paragraphs t, c.Within ps :=
  within_optional (within_paragraph t)

theorem within_signatureBlock (f : Facts) : ∀ c ∈ f.signatureBlock, c.Within ps :=
  within_optional (within_code f.signature)

theorem within_deprecationNote (t : Text) : (deprecationNote t).Within ps := within_leaf rfl rfl

theorem within_parameterTable (f : Facts) : ∀ c ∈ f.parameterTable, c.Within ps := by
  unfold parameterTable
  split
  · exact fun c hc => nomatch hc
  · simp

theorem within_details (f : Facts) : f.details.Within ps := by
  refine within_group.mpr ?_
  simp only [List.forall_mem_append]
  refine ⟨⟨⟨⟨⟨⟨within_signatureBlock f, ?_⟩, within_paragraphs f.documentation⟩,
    within_parameterTable f⟩, within_optional (within_paragraph _)⟩,
    within_optional (within_paragraph _)⟩, within_optional (within_urlLink _ _)⟩
  cases f.deprecation <;> simp [within_deprecationNote]

theorem within_description (f : Facts) : f.description.Within ps :=
  within_group.mpr (within_paragraphs f.documentation)

theorem within_overview (f : Facts) : f.overview.Within ps :=
  within_group.mpr (within_paragraphs f.summary)

theorem within_brief (f : Facts) : f.brief.Within ps := by
  refine within_group.mpr ?_
  simp only [List.forall_mem_append]
  refine ⟨⟨within_signatureBlock f, ?_⟩, within_paragraphs f.summary⟩
  cases f.deprecation <;> simp [within_deprecationNote]

end Facts

/-! ## Pages -/

/-- The page stands for some of the platforms above it, its parts are tagged with
its own, and so it goes on below. -/
inductive Page.CoveredBy : List Platform → Page → Prop where
  | intro {above : List Platform} {p : Page} (platforms : p.platforms ⊆ above)
      (tags : p.content.Within p.platforms)
      (below : ∀ q ∈ p.children, q.CoveredBy p.platforms) : p.CoveredBy above

/-- The root page stands for all platforms of the pages below it. -/
structure PageTree.Covered (t : PageTree) : Prop where
  tags : t.content.Within t.platforms
  pages : ∀ p ∈ t.children, p.CoveredBy t.platforms

namespace Declaration

open Content

variable {ps : List Platform} {d : Declaration}

/-- A row that starts with a link is tagged with the platforms of what it lists,
and so are its parts. -/
theorem within_linkRow {render : Facts → Content} (hrender : ∀ f, (render f).Within [])
    (title : Text) (hd : d.platforms ⊆ ps) :
    (row [linkTo title d.id, d.facts.content render] d.platforms).Within ps := by
  simp only [within_row, List.forall_mem_cons, within_linkTo, true_and]
  exact ⟨hd, (PlatformMap.within_content hrender).mono hd, fun c hc => nomatch hc⟩

theorem within_memberTables {members : List Declaration} (h : ∀ n ∈ members, n.platforms ⊆ ps) :
    ∀ c ∈ memberTables members, c.Within ps := by
  intro c hc
  obtain ⟨t, -, hc⟩ := List.mem_flatMap.mp hc
  unfold memberTable at hc
  dsimp only at hc
  split at hc
  · cases hc
  · rcases List.mem_pair.mp hc with rfl | rfl
    · exact within_header 2 t.title
    · refine within_table.mpr fun r hr => ?_
      obtain ⟨n, hn, rfl⟩ := List.mem_map.mp hr
      exact within_linkRow Facts.within_brief n.name (h n (List.mem_of_mem_filter hn))

/-- After a title and what its declaration says about itself, a page has its
tables of members. -/
theorem within_page {title : Text} {render : Facts → Content}
    (hrender : ∀ f, (render f).Within []) (h : ∀ n ∈ d.children, n.platforms ⊆ d.platforms) :
    (group ([.header 1 title, d.facts.content render] ++ memberTables d.children) []).Within
      d.platforms := by
  refine within_group.mpr ?_
  simp only [List.forall_mem_append, List.forall_mem_cons, within_header, true_and]
  exact ⟨⟨PlatformMap.within_content hrender, fun c hc => nomatch hc⟩, within_memberTables h⟩

theorem exists_of_mem_classPages {ds : List Declaration} {p : Page} (h : p ∈ classPages ds) :
    ∃ d ∈ ds, p = d.classPage := by
  induction ds with
  | nil => cases h
  | cons d rest ih =>
      have hrest : p ∈ classPages rest → ∃ e ∈ d :: rest, p = e.classPage := by
        intro hp
        obtain ⟨e, he, hpe⟩ := ih hp
        exact ⟨e, List.mem_cons_of_mem d he, hpe⟩
      rw [classPages] at h
      split at h
      · rcases List.mem_cons.mp h with rfl | h
        · exact ⟨d, List.mem_cons_self, rfl⟩
        · exact hrest h
      · exact hrest h

theorem classPage_eq (d : Declaration) :
    d.classPage =
      { kind := .content
        name := d.name
        ids := [d.id]
        platforms := d.platforms
        content := .group
          ([.header 1 (d.kind.name ++ " " ++ d.name), d.facts.content Facts.details] ++
            memberTables d.children) []
        children := classPages d.children } := by
  cases d
  rw [classPage]
  rfl

/-- The page of a class is covered wherever the class is. -/
theorem coveredBy_classPage (d : Declaration) :
    (∀ q ∈ d.flatten, ∀ n ∈ q.children, n.platforms ⊆ q.platforms) →
      d.platforms ⊆ ps → d.classPage.CoveredBy ps := by
  induction d using memberInduction generalizing ps with
  | step d ih =>
      intro hnested hd
      rw [flatten_eq] at hnested
      have hmembers := hnested d List.mem_cons_self
      rw [classPage_eq]
      refine .intro hd (within_page Facts.within_details hmembers) fun q hq => ?_
      obtain ⟨n, hn, rfl⟩ := exists_of_mem_classPages hq
      refine ih n hn (fun x hx => hnested x (List.mem_cons_of_mem d ?_)) (hmembers n hn)
      exact flatten_subset hn hx

end Declaration

namespace PageTree

open Content Declaration

theorem covered_ofModule {m : DocModule} (h : m.Covered) : (ofModule m).Covered := by
  constructor
  · show (group ([header 1 m.name, m.facts.content Facts.description] ++ _) []).Within m.platforms
    refine within_group.mpr ?_
    simp only [List.forall_mem_append, List.forall_mem_cons, within_header, true_and]
    refine ⟨⟨PlatformMap.within_content Facts.within_description, fun c hc => nomatch hc⟩, ?_⟩
    split
    · exact fun c hc => nomatch hc
    · simp only [List.forall_mem_cons, within_header, within_table, true_and]
      refine ⟨fun r hr => ?_, fun c hc => nomatch hc⟩
      obtain ⟨d, hd, rfl⟩ := List.mem_map.mp hr
      exact within_linkRow Facts.within_overview _ (h.packages d hd)
  · intro p hp
    obtain ⟨d, hd, rfl⟩ := List.mem_map.mp hp
    have hmembers := h.members d (mem_flattenAll_self hd)
    refine .intro (h.packages d hd) (within_page Facts.within_description hmembers) fun q hq => ?_
    obtain ⟨n, hn, rfl⟩ := exists_of_mem_classPages hq
    refine coveredBy_classPage n (fun x hx => h.members x ?_) (hmembers n hn)
    exact flattenAll_children_subset hd (flatten_subset hn hx)

end PageTree

/-! ## Pages that list pages -/

namespace Page

mutual

theorem within_navigationItem {ps : List Platform} :
    ∀ p : Page, ∀ c ∈ p.navigationItem, c.Within ps
  | ⟨kind, name, ids, _, _, children, _, _⟩, c, hc => by
      unfold navigationItem at hc
      split at hc
      · rw [List.mem_singleton.mp hc]
        refine Content.within_group.mpr ?_
        simp only [List.forall_mem_cons, Content.within_linkTo, true_and]
        split
        · exact fun d hd => nomatch hd
        · simpa using within_navigationItems children
      · cases hc

theorem within_navigationItems {ps : List Platform} :
    ∀ qs : List Page, ∀ c ∈ navigationItems qs, c.Within ps
  | [], _, hc => nomatch hc
  | q :: rest, c, hc => by
      rw [navigationItems] at hc
      rcases List.mem_append.mp hc with hc | hc
      · exact within_navigationItem q c hc
      · exact within_navigationItems rest c hc

end

end Page

namespace PageTree

open Content

theorem within_indexTable {ps : List Platform} (location : Text) (es : List IndexEntry) :
    (IndexEntry.table location es).Within ps := by
  refine within_table.mpr fun r hr => ?_
  obtain ⟨e, -, rfl⟩ := List.mem_map.mp hr
  refine within_iff.mpr ⟨List.nil_subset ps, ?_⟩
  show ∀ d ∈ [linkTo e.name e.id, paragraph e.location], d.Within ps
  simp

/-- The pages that list pages stand for all platforms, and no part of them is
tagged. -/
theorem within_newPages (t : PageTree) : ∀ (p : PageTransform), ∀ q ∈ p.newPages t,
    q.platforms = t.platforms ∧ q.content.Within q.platforms
  | .navigation, q, hq => by
      obtain rfl := List.mem_singleton.mp hq
      refine ⟨rfl, within_group.mpr ?_⟩
      simp only [List.forall_mem_cons, within_header, within_group, true_and]
      exact ⟨Page.within_navigationItems t.children, fun c hc => nomatch hc⟩
  | .indexPages, q, hq => by
      rcases List.mem_pair.mp hq with rfl | rfl
      · refine ⟨rfl, within_group.mpr ?_⟩
        simp only [List.forall_mem_cons, within_header, true_and]
        split
        · exact fun c hc => nomatch hc
        · simpa using within_indexTable "Package" t.typeEntries
      · refine ⟨rfl, within_group.mpr ?_⟩
        simp only [List.forall_mem_cons, within_header, true_and]
        intro c hc
        obtain ⟨run, -, hc⟩ := List.mem_flatMap.mp hc
        cases run with
        | nil => cases hc
        | cons e rest =>
            rcases List.mem_pair.mp hc with rfl | rfl
            · exact within_header 2 _
            · exact within_indexTable "Location" _
  | .searchIndex, q, hq => by
      obtain rfl := List.mem_singleton.mp hq
      exact ⟨rfl, within_leaf rfl rfl⟩

theorem Covered.apply {t : PageTree} (h : t.Covered) (p : PageTransform) :
    (p.apply t).value.Covered := by
  rw [value_apply]
  refine ⟨h.tags, fun q hq => ?_⟩
  rcases List.mem_append.mp hq with hq | hq
  · exact h.pages q hq
  · obtain ⟨hplatforms, htags⟩ := within_newPages t p q hq
    refine .intro (by rw [hplatforms]; exact List.Subset.refl _) htags ?_
    rw [newPages_leaves t p q hq]
    exact fun x hx => nomatch hx

theorem covered_extended {m : DocModule} (h : m.Covered) (ps : List PageTransform) :
    (extended ps m).value.Covered := by
  have hfold : ∀ (ps : List PageTransform) {t : PageTree}, t.Covered →
      (ps.foldlM (fun t p => p.apply t) t : Traced PageTree).value.Covered := by
    intro ps
    induction ps with
    | nil => exact fun ht => ht
    | cons p rest ih =>
        intro t ht
        rw [List.foldlM_cons, Traced.value_bind]
        exact ih (ht.apply p)
  exact hfold ps (covered_ofModule h)

end PageTree

namespace RunContext

variable {c : RunContext} {m : DocModule}

/-- **Platforms are nested throughout a run.**  Whatever the passes and their
analyses are, in every module that a run translates, merges or transforms a
declaration stands on some platforms, each of them one of what encloses it, and
no map repeats a platform.  So on every page, with whatever page transforms, all
tags are platforms of the page, and these are platforms of the page above. -/
theorem produces_covered (h : c.Produces m) :
    m.Covered ∧ ∀ ps, (PageTree.extended ps m).value.Covered :=
  ⟨h.covered, PageTree.covered_extended h.covered⟩

theorem produces_covered_twoViewsRun :
    twoViewsRun.Produces twoViewsModule ∧ twoViewsModule.Covered ∧
      (PageTree.extended [.navigation, .searchIndex] twoViewsModule).value.Covered :=
  have hcovered := produces_covered produces_twoViewsModule
  ⟨produces_twoViewsModule, hcovered.1, hcovered.2 [.navigation, .searchIndex]⟩

end RunContext

end CrossDoc
