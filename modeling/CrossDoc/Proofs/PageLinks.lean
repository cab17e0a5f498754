import CrossDoc.Proofs.Identity
import CrossDoc.Proofs.PageContent
import CrossDoc.Proofs.PagePaths
import Mathlib.Data.List.SplitBy

/-!
# The links of pages

What a declaration says about itself links to no declaration.  So the page of a
declaration links to its members alone, the root page to the packages, and the
pages that list pages link to what these document.
-/

namespace CrossDoc

namespace Content

/-- The declaration that the part links to. -/
def linkTarget? (c : Content) : Option DeclId := if c.kind = .link then c.target else none

/-- The declarations that the part and all below it link to. -/
def linkTargets (c : Content) : List DeclId := c.flatten.filterMap linkTarget?

theorem linkTargets_eq (c : Content) :
    c.linkTargets = c.linkTarget?.toList ++ c.children.flatMap linkTargets :=
  filterMap_flatten linkTarget? c

theorem linkTargets_of_not_link {c : Content} (h : c.kind ≠ .link) :
    c.linkTargets = c.children.flatMap linkTargets := by
  rw [linkTargets_eq, linkTarget?, if_neg h]
  rfl

@[simp] theorem linkTargets_group (cs : List Content) (style : Text) :
    (group cs style).linkTargets = cs.flatMap linkTargets :=
  linkTargets_of_not_link nofun

@[simp] theorem linkTargets_row (cells : List Content) (ps : List Platform) :
    (row cells ps).linkTargets = cells.flatMap linkTargets :=
  linkTargets_of_not_link nofun

@[simp] theorem linkTargets_header (level : Int) (t : Text) : (header level t).linkTargets = [] :=
  linkTargets_of_not_link nofun

@[simp] theorem linkTargets_paragraph (t : Text) : (paragraph t).linkTargets = [] :=
  linkTargets_of_not_link nofun

@[simp] theorem linkTargets_code (t : Text) : (code t).linkTargets = [] :=
  linkTargets_of_not_link nofun

@[simp] theorem linkTargets_urlLink (t url : Text) : (urlLink t url).linkTargets = [] := rfl

@[simp] theorem linkTargets_linkTo (t : Text) (id : DeclId) : (linkTo t id).linkTargets = [id] :=
  rfl

@[simp] theorem linkTargets_headerRow (columns : List Text) :
    (headerRow columns).linkTargets = [] := by
  have hkind : ContentKind.row ≠ .link := nofun
  apply (linkTargets_of_not_link hkind).trans
  show (columns.map paragraph).flatMap linkTargets = []
  simp

@[simp] theorem linkTargets_table (columns : List Text) (rows : List Content) :
    (table columns rows).linkTargets = rows.flatMap linkTargets := by
  have hkind : ContentKind.table ≠ .link := nofun
  apply (linkTargets_of_not_link hkind).trans
  show (headerRow columns :: rows).flatMap linkTargets = _
  simp

end Content

/-! ## Declarations -/

open Content

/-- Whatever the platforms say, it links to nothing if none of them does. -/
theorem PlatformMap.linkTargets_content {α : Type} {render : α → Content}
    (h : ∀ v, (render v).linkTargets = []) (m : PlatformMap α) :
    (m.content render).linkTargets = [] := by
  have hnone : ∀ c ∈ (m.content render).flatten, c.linkTarget? = none :=
    PlatformMap.forall_mem_flatten_content rfl (fun _ _ => rfl) (fun _ _ hc => hc)
      fun e _ => List.filterMap_eq_nil_iff.mp (h e.2)
  exact List.filterMap_eq_nil_iff.mpr hnone

namespace Facts

@[simp] theorem linkTargets_paragraphs (t : Text) : (paragraphs t).flatMap linkTargets = [] := by
  unfold paragraphs
  split <;> simp

@[simp] theorem linkTargets_signatureBlock (f : Facts) :
    f.signatureBlock.flatMap linkTargets = [] := by
  unfold signatureBlock
  split <;> simp

@[simp] theorem linkTargets_deprecationNote (t : Text) : (deprecationNote t).linkTargets = [] :=
  linkTargets_of_not_link nofun

@[simp] theorem linkTargets_parameterTable (f : Facts) :
    f.parameterTable.flatMap linkTargets = [] := by
  unfold parameterTable
  split
  · rfl
  · simp

theorem linkTargets_details (f : Facts) : f.details.linkTargets = [] := by
  have hoptional : ∀ (empty : Bool) (c : Content), c.linkTargets = [] →
      (if empty then [] else [c]).flatMap linkTargets = [] := by
    intro empty c hc
    cases empty <;> simp [hc]
  have hsource := hoptional f.sourceUrl.isEmpty _ (linkTargets_urlLink "Source" f.sourceUrl)
  unfold details
  rw [linkTargets_group, List.flatMap_append, hsource]
  cases f.deprecation <;>
    simp only [List.flatMap_append, linkTargets_signatureBlock, linkTargets_paragraphs,
      linkTargets_parameterTable, hoptional, linkTargets_paragraph, linkTargets_deprecationNote,
      List.flatMap_cons, List.flatMap_nil, List.append_nil]

theorem linkTargets_description (f : Facts) : f.description.linkTargets = [] := by
  simp [description]

theorem linkTargets_overview (f : Facts) : f.overview.linkTargets = [] := by
  simp [overview]

theorem linkTargets_brief (f : Facts) : f.brief.linkTargets = [] := by
  unfold brief
  cases f.deprecation <;> simp

end Facts

namespace Declaration

@[simp] theorem linkTargets_memberRow (d : Declaration) : d.memberRow.linkTargets = [d.id] := by
  have habout := PlatformMap.linkTargets_content Facts.linkTargets_brief d.facts
  simp [memberRow, habout]

@[simp] theorem linkTargets_packageRow (d : Declaration) : d.packageRow.linkTargets = [d.id] := by
  have habout := PlatformMap.linkTargets_content Facts.linkTargets_overview d.facts
  simp [packageRow, habout]

theorem linkTargets_memberTable (members : List Declaration) (t : MemberTable) :
    (memberTable members t).flatMap linkTargets =
      (members.filter fun d => t.lists d.kind).map (·.id) := by
  unfold memberTable
  dsimp only
  split
  · next hempty =>
    have hnil : members.filter (fun d => t.lists d.kind) = [] := by simpa using hempty
    rw [hnil]
    rfl
  · simp only [List.flatMap_cons, List.flatMap_nil, linkTargets_header, linkTargets_table,
      List.nil_append, List.append_nil, List.flatMap_map, linkTargets_memberRow]
    exact List.map_eq_flatMap.symm

/-- The tables of members link to members. -/
theorem exists_member_of_mem_linkTargets {members : List Declaration} {id : DeclId}
    (h : id ∈ (memberTables members).flatMap linkTargets) : ∃ n ∈ members, n.id = id := by
  rw [memberTables, List.flatMap_assoc] at h
  obtain ⟨t, -, h⟩ := List.mem_flatMap.mp h
  rw [linkTargets_memberTable] at h
  obtain ⟨n, hn, hid⟩ := List.mem_map.mp h
  exact ⟨n, List.mem_of_mem_filter hn, hid⟩

end Declaration

/-! ## Pages of declarations -/

/-- The page documents one of the declarations and links to its members. -/
def Page.Documents (ds : List Declaration) (p : Page) : Prop :=
  ∃ d ∈ ds, p.ids = [d.id] ∧ ∀ id ∈ p.content.linkTargets, ∃ n ∈ d.children, n.id = id

theorem Page.Documents.mono {ds es : List Declaration} {p : Page} (h : p.Documents ds)
    (hsub : ds ⊆ es) : p.Documents es := by
  obtain ⟨d, hd, hp⟩ := h
  exact ⟨d, hsub hd, hp⟩

namespace Declaration

/-- After a title and what its declaration says about itself, a page has its
tables of members. -/
theorem exists_member_of_page {title about : Content} (htitle : title.linkTargets = [])
    (habout : about.linkTargets = []) {members : List Declaration} :
    ∀ id ∈ (group ([title, about] ++ memberTables members) []).linkTargets,
      ∃ n ∈ members, n.id = id := by
  intro id hid
  simp only [linkTargets_group, List.cons_append, List.nil_append, List.flatMap_cons, htitle,
    habout] at hid
  exact exists_member_of_mem_linkTargets hid

mutual

theorem sublist_ids_classPage (above : List Text) : ∀ d : Declaration,
    ((Page.walk above d.classPage).flatMap (·.1.ids)).Sublist (d.flatten.map (·.id))
  | ⟨_, name, id, _, _, children⟩ => by
      rw [classPage, Page.walk, List.flatMap_cons, flatten, List.map_cons]
      exact (sublist_ids_classPages (above ++ [name]) children).cons_cons id

theorem sublist_ids_classPages (above : List Text) : ∀ ds : List Declaration,
    ((Page.walkAll above (classPages ds)).flatMap (·.1.ids)).Sublist ((flattenAll ds).map (·.id))
  | [] => List.Sublist.refl []
  | d :: rest => by
      have ih := sublist_ids_classPages above rest
      rw [classPages, flattenAll, List.map_append]
      split
      · rw [Page.walkAll, List.flatMap_append]
        exact (sublist_ids_classPage above d).append ih
      · exact ih.trans (List.sublist_append_right _ _)

end

mutual

theorem documents_classPage (above : List Text) : ∀ d : Declaration,
    ∀ e ∈ Page.walk above d.classPage, e.1.Documents d.flatten
  | ⟨kind, name, id, parent, facts, children⟩, e, he => by
      have habout := PlatformMap.linkTargets_content Facts.linkTargets_details facts
      rw [classPage, Page.walk] at he
      rw [flatten]
      rcases List.mem_cons.mp he with rfl | he
      · exact ⟨_, List.mem_cons_self, rfl, exists_member_of_page (linkTargets_header 1 _) habout⟩
      · exact (documents_classPages (above ++ [name]) children e he).mono
          (List.subset_cons_self _ _)

theorem documents_classPages (above : List Text) : ∀ ds : List Declaration,
    ∀ e ∈ Page.walkAll above (classPages ds), e.1.Documents (flattenAll ds)
  | [], _, he => nomatch he
  | d :: rest, e, he => by
      have ih := documents_classPages above rest
      rw [classPages] at he
      rw [flattenAll]
      split at he
      · rw [Page.walkAll] at he
        rcases List.mem_append.mp he with he | he
        · exact (documents_classPage above d e he).mono (List.subset_append_left _ _)
        · exact (ih e he).mono (List.subset_append_right _ _)
      · exact (ih e he).mono (List.subset_append_right _ _)

end

theorem walk_packagePage (above : List Text) (d : Declaration) :
    Page.walk above d.packagePage =
      (d.packagePage, above) ::
        Page.walkAll (above ++ [packageDisplayName d.name]) (classPages d.children) := by
  rw [packagePage, Page.walk]

theorem sublist_ids_packagePage (above : List Text) (d : Declaration) :
    ((Page.walk above d.packagePage).flatMap (·.1.ids)).Sublist (d.flatten.map (·.id)) := by
  rw [walk_packagePage, List.flatMap_cons, flatten_eq, List.map_cons]
  exact (sublist_ids_classPages _ d.children).cons_cons d.id

theorem documents_packagePage (above : List Text) (d : Declaration) :
    ∀ e ∈ Page.walk above d.packagePage, e.1.Documents d.flatten := by
  intro e he
  have habout := PlatformMap.linkTargets_content Facts.linkTargets_description d.facts
  rw [walk_packagePage] at he
  rw [flatten_eq]
  rcases List.mem_cons.mp he with rfl | he
  · exact ⟨d, List.mem_cons_self, rfl, exists_member_of_page (linkTargets_header 1 _) habout⟩
  · exact (documents_classPages _ d.children e he).mono (List.subset_cons_self _ _)

end Declaration

namespace PageTree

open Declaration

/-- The declarations that have a page, in the order of the pages. -/
def documentedIds (t : PageTree) : List DeclId := t.pages.flatMap (·.ids)

/-- The declarations that the pages link to. -/
def linkTargets (t : PageTree) : List DeclId :=
  t.content.linkTargets ++ t.pages.flatMap (·.content.linkTargets)

theorem pages_ofModule (m : DocModule) :
    (ofModule m).pages = m.packages.flatMap fun d => (Page.walk [] d.packagePage).map Prod.fst := by
  rw [pages, walk, Page.walkAll_eq_flatMap, List.map_flatMap]
  show (m.packages.map packagePage).flatMap _ = _
  rw [List.flatMap_map]

/-- No declaration has two pages unless two declarations share an identity. -/
theorem sublist_documentedIds_ofModule (m : DocModule) :
    (ofModule m).documentedIds.Sublist (m.declarations.map (·.id)) := by
  rw [documentedIds, pages_ofModule, List.flatMap_assoc, DocModule.declarations,
    Declaration.flattenAll_eq_flatMap, List.map_flatMap]
  simp only [List.flatMap_map]
  induction m.packages with
  | nil => exact List.Sublist.refl []
  | cons d rest ih =>
      rw [List.flatMap_cons, List.flatMap_cons]
      exact (sublist_ids_packagePage [] d).append ih

theorem mem_documentedIds_of_package {m : DocModule} {d : Declaration} (hd : d ∈ m.packages) :
    d.id ∈ (ofModule m).documentedIds := by
  rw [documentedIds, pages_ofModule]
  refine List.mem_flatMap.mpr ⟨d.packagePage, List.mem_flatMap.mpr ⟨d, hd, ?_⟩, ?_⟩
  · rw [walk_packagePage]
    exact List.mem_cons_self
  · exact List.mem_cons_self

theorem documents_ofModule (m : DocModule) :
    ∀ p ∈ (ofModule m).pages, p.Documents m.declarations := by
  intro p hp
  rw [pages_ofModule] at hp
  obtain ⟨d, hd, hp⟩ := List.mem_flatMap.mp hp
  obtain ⟨e, he, rfl⟩ := List.mem_map.mp hp
  exact (documents_packagePage [] d e he).mono (flatten_subset hd)

/-- The root page links to the packages. -/
theorem linkTargets_content_ofModule (m : DocModule) :
    (ofModule m).content.linkTargets = m.packages.map (·.id) := by
  have habout := PlatformMap.linkTargets_content Facts.linkTargets_description m.facts
  have hrows : (m.packages.map packageRow).flatMap Content.linkTargets = m.packages.map (·.id) := by
    rw [List.flatMap_map, List.map_eq_flatMap]
    simp only [linkTargets_packageRow]
  unfold ofModule
  dsimp only
  rw [linkTargets_group, List.flatMap_append]
  simp only [List.flatMap_cons, List.flatMap_nil, linkTargets_header, habout, List.nil_append]
  split
  · next hempty =>
    have hnil : m.packages = [] := by simpa using hempty
    rw [hnil]
    rfl
  · simp only [List.flatMap_cons, List.flatMap_nil, linkTargets_header, linkTargets_table, hrows,
      List.nil_append, List.append_nil]

/-- The pages of a module link to its declarations. -/
theorem linkTargets_ofModule_subset (m : DocModule) :
    ∀ id ∈ (ofModule m).linkTargets, ∃ n ∈ m.declarations, n.id = id := by
  intro id hid
  rcases List.mem_append.mp hid with hid | hid
  · rw [linkTargets_content_ofModule] at hid
    obtain ⟨d, hd, rfl⟩ := List.mem_map.mp hid
    exact ⟨d, mem_flattenAll_self hd, rfl⟩
  · obtain ⟨p, hp, hid⟩ := List.mem_flatMap.mp hid
    obtain ⟨d, hd, -, hlinks⟩ := documents_ofModule m p hp
    obtain ⟨n, hn, hid⟩ := hlinks id hid
    exact ⟨n, mem_flattenAll_child hd hn, hid⟩

end PageTree

/-! ## Pages that list pages -/

namespace Page

/-- A tree of pages is listed by links to what its pages document. -/
theorem linkTargets_nested (below : List Content) :
    (if below.isEmpty then [] else [group below "list"]).flatMap linkTargets =
      below.flatMap linkTargets := by
  cases below with
  | nil => rfl
  | cons c rest => simp only [List.isEmpty_cons, Bool.false_eq_true, if_false, List.flatMap_cons,
      List.flatMap_nil, linkTargets_group, List.append_nil]

mutual

theorem linkTargets_navigationItem (above : List Text) : ∀ p : Page,
    (p.navigationItem.flatMap linkTargets) ⊆ (p.walk above).flatMap (·.1.ids)
  | ⟨kind, name, ids, _, _, children, _, _⟩ => by
      have ih := linkTargets_navigationItems (above ++ [name]) children
      unfold navigationItem
      rw [walk, List.flatMap_cons]
      split
      · next id rest =>
        dsimp only
        rw [List.flatMap_cons, List.flatMap_nil, List.append_nil, linkTargets_group,
          List.flatMap_cons, linkTargets_linkTo, linkTargets_nested]
        exact List.append_subset.mpr ⟨by simp, List.subset_append_of_subset_right _ ih⟩
      · exact List.nil_subset _

theorem linkTargets_navigationItems (above : List Text) : ∀ ps : List Page,
    ((navigationItems ps).flatMap linkTargets) ⊆ (walkAll above ps).flatMap (·.1.ids)
  | [] => List.nil_subset _
  | p :: rest => by
      have hp := linkTargets_navigationItem above p
      have hrest := linkTargets_navigationItems above rest
      rw [navigationItems, walkAll, List.flatMap_append, List.flatMap_append]
      exact List.append_subset.mpr ⟨List.subset_append_of_subset_left _ hp,
        List.subset_append_of_subset_right _ hrest⟩

end

end Page

namespace PageTree

variable (t : PageTree)

theorem documentedIds_eq : t.documentedIds = t.walk.flatMap (·.1.ids) := by
  rw [documentedIds, pages, List.flatMap_map]

theorem mainId_mem_documentedIds {e : Page × List Text} (he : e ∈ t.documentation) :
    e.1.mainId ∈ t.documentedIds := by
  obtain ⟨he, hdocumentation⟩ := List.mem_filter.mp he
  have hids : e.1.ids ≠ [] := by
    intro hnil
    simp [Page.isDocumentation, hnil] at hdocumentation
  rw [documentedIds_eq]
  refine List.mem_flatMap.mpr ⟨e, he, ?_⟩
  obtain ⟨id, rest, hcons⟩ := List.exists_cons_of_ne_nil hids
  rw [Page.mainId, hcons]
  exact List.mem_cons_self

theorem linkTargets_indexTable (location : Text) (es : List IndexEntry) :
    (IndexEntry.table location es).linkTargets = es.map (·.id) := by
  have hrow : ∀ e : IndexEntry, e.row.linkTargets = [e.id] := by
    intro e
    have hkind : ContentKind.row ≠ .link := nofun
    apply (linkTargets_of_not_link hkind).trans
    show [Content.linkTo e.name e.id, .paragraph e.location].flatMap Content.linkTargets = _
    simp
  rw [IndexEntry.table, linkTargets_table, List.flatMap_map, List.map_eq_flatMap]
  simp only [hrow]

theorem mem_sort {e : IndexEntry} {es : List IndexEntry} :
    e ∈ IndexEntry.sort es ↔ e ∈ es :=
  (List.mergeSort_perm es _).mem_iff

theorem id_typeEntries_mem : ∀ e ∈ t.typeEntries, e.id ∈ t.documentedIds := by
  intro e he
  obtain ⟨d, hd, he⟩ := List.mem_filterMap.mp (mem_sort.mp he)
  unfold typeEntry? at he
  split at he
  · cases he
  · obtain rfl := Option.some.inj he
    exact t.mainId_mem_documentedIds hd

theorem id_nameEntries_mem : ∀ e ∈ t.nameEntries, e.id ∈ t.documentedIds := by
  intro e he
  obtain ⟨d, hd, rfl⟩ := List.mem_map.mp (mem_sort.mp he)
  exact t.mainId_mem_documentedIds hd

theorem linkTargets_letterSection (es : List IndexEntry) :
    (letterSection es).flatMap Content.linkTargets = es.map (·.id) := by
  cases es with
  | nil => rfl
  | cons e rest =>
      simp only [letterSection, List.flatMap_cons, List.flatMap_nil, linkTargets_header,
        linkTargets_indexTable, List.nil_append, List.append_nil]

theorem linkTargets_navigationPage :
    t.navigationPage.content.linkTargets ⊆ t.documentedIds := by
  have hitems := Page.linkTargets_navigationItems [] t.children
  rw [documentedIds_eq]
  show (Content.group [.header 1 t.name, .group (Page.navigationItems t.children) "list"]
    []).linkTargets ⊆ _
  simp only [linkTargets_group, List.flatMap_cons, List.flatMap_nil, linkTargets_header,
    List.nil_append, List.append_nil]
  exact hitems

theorem linkTargets_allTypesPage : t.allTypesPage.content.linkTargets ⊆ t.documentedIds := by
  intro id hid
  unfold allTypesPage at hid
  dsimp only [Page.ofLinks] at hid
  rw [linkTargets_group, List.flatMap_cons, linkTargets_header, List.nil_append] at hid
  split at hid
  · cases hid
  · rw [List.flatMap_cons, List.flatMap_nil, List.append_nil, linkTargets_indexTable] at hid
    obtain ⟨e, he, rfl⟩ := List.mem_map.mp hid
    exact t.id_typeEntries_mem e he

theorem linkTargets_alphabeticalIndexPage :
    t.alphabeticalIndexPage.content.linkTargets ⊆ t.documentedIds := by
  intro id hid
  unfold alphabeticalIndexPage at hid
  dsimp only [Page.ofLinks] at hid
  rw [linkTargets_group, List.flatMap_cons, linkTargets_header, List.nil_append,
    List.flatMap_assoc] at hid
  obtain ⟨run, hrun, hid⟩ := List.mem_flatMap.mp hid
  rw [linkTargets_letterSection] at hid
  obtain ⟨e, he, rfl⟩ := List.mem_map.mp hid
  have hentry : e ∈ (t.nameEntries.splitBy fun a b => a.letter == b.letter).flatten :=
    List.mem_flatten_of_mem hrun he
  rw [List.flatten_splitBy] at hentry
  exact t.id_nameEntries_mem e hentry

/-- A page transform adds pages that document nothing and link to what has a
page. -/
theorem newPages_list : ∀ (p : PageTransform), ∀ q ∈ p.newPages t,
    q.ids = [] ∧ q.content.linkTargets ⊆ t.documentedIds
  | .navigation, q, hq => by
      obtain rfl := List.mem_singleton.mp hq
      exact ⟨rfl, t.linkTargets_navigationPage⟩
  | .indexPages, q, hq => by
      rcases List.mem_pair.mp hq with rfl | rfl
      · exact ⟨rfl, t.linkTargets_allTypesPage⟩
      · exact ⟨rfl, t.linkTargets_alphabeticalIndexPage⟩
  | .searchIndex, q, hq => by
      obtain rfl := List.mem_singleton.mp hq
      exact ⟨rfl, List.nil_subset _⟩

theorem pages_apply (p : PageTransform) :
    (p.apply t).value.pages = t.pages ++ p.newPages t := by
  have hnew : (Page.walkAll [] (p.newPages t)).map Prod.fst = p.newPages t := by
    rw [walkAll_leaves (newPages_leaves t p), List.map_map]
    exact List.map_id _
  rw [value_apply, pages, walk, walkAll_append, List.map_append, hnew]
  rfl

theorem documentedIds_apply (p : PageTransform) :
    (p.apply t).value.documentedIds = t.documentedIds := by
  have hnew : (p.newPages t).flatMap (·.ids) = [] :=
    List.flatMap_eq_nil_iff.mpr fun q hq => (newPages_list t p q hq).1
  rw [documentedIds, pages_apply, List.flatMap_append, hnew, List.append_nil]
  rfl

theorem linkTargets_apply (p : PageTransform) :
    (p.apply t).value.linkTargets ⊆ t.linkTargets ++ t.documentedIds := by
  have hcontent : (p.apply t).value.content = t.content := by rw [value_apply]
  have hnew : (p.newPages t).flatMap (·.content.linkTargets) ⊆ t.documentedIds := by
    intro id hid
    obtain ⟨q, hq, hid⟩ := List.mem_flatMap.mp hid
    exact (newPages_list t p q hq).2 hid
  rw [linkTargets, hcontent, pages_apply, List.flatMap_append, ← List.append_assoc]
  exact List.append_subset.mpr
    ⟨List.subset_append_left _ _, List.subset_append_of_subset_right _ hnew⟩

/-- The page tree of a module after base page transforms, in any order. -/
def extended (ps : List PageTransform) (m : DocModule) : Traced PageTree := do
  ps.foldlM (fun t p => p.apply t) (← PageTree.create m)

theorem documentedIds_foldlM : ∀ (ps : List PageTransform) (t : PageTree),
    (ps.foldlM (fun t p => p.apply t) t : Traced PageTree).value.documentedIds = t.documentedIds
  | [], _ => rfl
  | p :: rest, t => by
      rw [List.foldlM_cons, Traced.value_bind, documentedIds_foldlM rest, documentedIds_apply]

theorem linkTargets_foldlM : ∀ (ps : List PageTransform) (t : PageTree),
    (ps.foldlM (fun t p => p.apply t) t : Traced PageTree).value.linkTargets ⊆
      t.linkTargets ++ t.documentedIds
  | [], _ => List.subset_append_left _ _
  | p :: rest, t => by
      rw [List.foldlM_cons, Traced.value_bind]
      apply List.Subset.trans (linkTargets_foldlM rest _)
      rw [documentedIds_apply]
      exact List.append_subset.mpr ⟨linkTargets_apply t p, List.subset_append_right _ _⟩

theorem documentedIds_extended (ps : List PageTransform) (m : DocModule) :
    (extended ps m).value.documentedIds = (ofModule m).documentedIds :=
  documentedIds_foldlM ps (ofModule m)

/-- All pages link to declarations of the module. -/
theorem linkTargets_extended (ps : List PageTransform) (m : DocModule) :
    ∀ id ∈ (extended ps m).value.linkTargets, ∃ n ∈ m.declarations, n.id = id := by
  intro id hid
  rcases List.mem_append.mp (linkTargets_foldlM ps (ofModule m) hid) with hid | hid
  · exact linkTargets_ofModule_subset m id hid
  · exact List.mem_map.mp ((sublist_documentedIds_ofModule m).subset hid)

end PageTree

end CrossDoc
