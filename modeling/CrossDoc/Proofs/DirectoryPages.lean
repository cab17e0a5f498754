import CrossDoc.Proofs.PageLinks
import CrossDoc.Proofs.SearchIndex

/-!
# What the page transforms append

The base page transforms read the pages that document a declaration and append
pages that document none.  So no transform sees what another one appended, and
in any order each appends what it appends on its own.  All pages of the tree of
a module document a declaration, and the navigation page, the alphabetical index
and the search index list every one of them once.
-/

namespace CrossDoc

/-! ## Links with their texts -/

namespace Content

/-- The text of a link and the declaration it leads to. -/
def link? (c : Content) : Option (Text × DeclId) :=
  if c.kind = .link then c.target.map (c.text, ·) else none

/-- The links to declarations in document order. -/
def links (c : Content) : List (Text × DeclId) := c.flatten.filterMap link?

theorem links_of_not_link {c : Content} (h : c.kind ≠ .link) :
    c.links = c.children.flatMap links := by
  have hlink : c.link? = none := if_neg h
  exact (filterMap_flatten link? c).trans (by rw [hlink]; rfl)

@[simp] theorem links_group (cs : List Content) (style : Text) :
    (group cs style).links = cs.flatMap links :=
  links_of_not_link nofun

@[simp] theorem links_header (level : Int) (t : Text) : (header level t).links = [] :=
  links_of_not_link nofun

@[simp] theorem links_paragraph (t : Text) : (paragraph t).links = [] :=
  links_of_not_link nofun

@[simp] theorem links_linkTo (t : Text) (id : DeclId) : (linkTo t id).links = [(t, id)] := rfl

theorem links_table (columns : List Text) (rows : List Content) :
    (table columns rows).links = rows.flatMap links := by
  have hcolumns : (headerRow columns).links = [] := by
    apply (links_of_not_link (c := headerRow columns) nofun).trans
    show (columns.map paragraph).flatMap links = []
    simp
  apply (links_of_not_link (c := table columns rows) nofun).trans
  show (headerRow columns :: rows).flatMap links = _
  rw [List.flatMap_cons, hcolumns, List.nil_append]

end Content

namespace Page

/-- What a list of pages says about a page. -/
def label (p : Page) : Text × DeclId := (p.name, p.mainId)

/-- The page documents one declaration. -/
def DocumentsOne (p : Page) : Prop := p.kind = .content ∧ p.ids = [p.mainId]

end Page

/-! ## Independence -/

namespace PageTransform

/-- The pages that a transform on its own appends to those below the root. -/
def additions (p : PageTransform) (t : PageTree) : List Page :=
  (p.apply t).value.children.drop t.children.length

end PageTransform

namespace PageTree

open PageTransform

theorem additions_eq (p : PageTransform) (t : PageTree) : p.additions t = p.newPages t := by
  rw [additions, value_apply, List.drop_left]

/-- A page that documents nothing has no item, nor have the pages below it. -/
theorem navigationItems_of_ids : ∀ {qs : List Page}, (∀ q ∈ qs, q.ids = []) →
    Page.navigationItems qs = []
  | [], _ => rfl
  | ⟨kind, _, ids, _, _, _, _, _⟩ :: rest, h => by
      obtain rfl : ids = [] := h _ List.mem_cons_self
      rw [Page.navigationItems, navigationItems_of_ids fun q hq => h q (List.mem_cons_of_mem _ hq)]
      cases kind <;> rfl

theorem navigationItems_append (ps qs : List Page) :
    Page.navigationItems (ps ++ qs) = Page.navigationItems ps ++ Page.navigationItems qs := by
  induction ps with
  | nil => rfl
  | cons p rest ih =>
      rw [List.cons_append, Page.navigationItems, Page.navigationItems, ih, List.append_assoc]

theorem navigationItems_apply (t : PageTree) (p : PageTransform) :
    Page.navigationItems (p.apply t).value.children = Page.navigationItems t.children := by
  have hnew : Page.navigationItems (p.newPages t) = [] :=
    navigationItems_of_ids fun q hq => (newPages_list t p q hq).1
  rw [value_apply, navigationItems_append, hnew, List.append_nil]

theorem documentation_apply (t : PageTree) (p : PageTransform) :
    (p.apply t).value.documentation = t.documentation := by
  have hnew : (Page.walkAll [] (p.newPages t)).filter (fun e => e.1.isDocumentation) = [] := by
    rw [walkAll_leaves (newPages_leaves t p), List.filter_eq_nil_iff]
    intro e he
    obtain ⟨q, hq, rfl⟩ := List.mem_map.mp he
    simp [Page.isDocumentation, (newPages_list t p q hq).1]
  rw [value_apply, documentation, walk, walkAll_append, List.filter_append, hnew, List.append_nil]
  rfl

/-- A page transform reads the name, the platforms and the pages that document a
declaration. -/
theorem newPages_congr {t t' : PageTree} (name : t'.name = t.name)
    (platforms : t'.platforms = t.platforms) (documentation : t'.documentation = t.documentation)
    (items : Page.navigationItems t'.children = Page.navigationItems t.children) :
    ∀ p : PageTransform, p.newPages t' = p.newPages t
  | .navigation => by
      simp only [newPages, navigationPage, Page.ofLinks, name, platforms, items]
  | .indexPages => by
      have htypes : t'.typeEntries = t.typeEntries := by rw [typeEntries, documentation, typeEntries]
      have hnames : t'.nameEntries = t.nameEntries := by rw [nameEntries, documentation, nameEntries]
      rw [newPages, newPages, allTypesPage, alphabeticalIndexPage, htypes, hnames, Page.ofLinks,
        Page.ofLinks, platforms]
      rfl
  | .searchIndex => by
      simp only [newPages, searchIndexPage, searchIndex, name, platforms, documentation]

/-- **No transform sees what another one appended.** -/
theorem newPages_apply (t : PageTree) (p q : PageTransform) :
    q.newPages (p.apply t).value = q.newPages t :=
  newPages_congr (name_apply t p) (by rw [value_apply]) (documentation_apply t p)
    (navigationItems_apply t p) q

/-- By induction on the sequence: what the first transform leaves is for the
others the tree they start with. -/
theorem value_foldlM : ∀ (ps : List PageTransform) (t : PageTree),
    (ps.foldlM (fun t p => p.apply t) t : Traced PageTree).value =
      { t with children := t.children ++ ps.flatMap fun p => p.newPages t }
  | [], t => by
      rw [List.flatMap_nil, List.append_nil]
      rfl
  | p :: rest, t => by
      rw [List.foldlM_cons, Traced.value_bind, value_foldlM rest]
      simp only [newPages_apply]
      rw [value_apply, List.flatMap_cons, List.append_assoc]

end PageTree

/-! ## The pages of a module -/

namespace Declaration

mutual

theorem documentsOne_classPage (above : List Text) : ∀ d : Declaration,
    ∀ e ∈ Page.walk above d.classPage, e.1.DocumentsOne
  | ⟨_, name, _, _, _, children⟩, e, he => by
      rw [classPage, Page.walk] at he
      rcases List.mem_cons.mp he with rfl | he
      · exact ⟨rfl, rfl⟩
      · exact documentsOne_classPages (above ++ [name]) children e he

theorem documentsOne_classPages (above : List Text) : ∀ ds : List Declaration,
    ∀ e ∈ Page.walkAll above (classPages ds), e.1.DocumentsOne
  | [], _, he => nomatch he
  | d :: rest, e, he => by
      rw [classPages] at he
      split at he
      · rw [Page.walkAll] at he
        rcases List.mem_append.mp he with he | he
        · exact documentsOne_classPage above d e he
        · exact documentsOne_classPages above rest e he
      · exact documentsOne_classPages above rest e he

end

end Declaration

namespace PageTree

open Declaration

/-- Every page of a module documents one declaration. -/
theorem documentsOne_ofModule (m : DocModule) :
    ∀ e ∈ (ofModule m).walk, e.1.DocumentsOne := by
  intro e he
  rw [walk, Page.walkAll_eq_flatMap] at he
  obtain ⟨p, hp, he⟩ := List.mem_flatMap.mp he
  obtain ⟨d, -, rfl⟩ := List.mem_map.mp hp
  rw [walk_packagePage] at he
  rcases List.mem_cons.mp he with rfl | he
  · exact ⟨rfl, rfl⟩
  · exact documentsOne_classPages _ d.children e he

end PageTree

/-! ## The lists -/

namespace Page

open Content

theorem links_nested (below : List Content) :
    (if below.isEmpty then [] else [group below "list"]).flatMap links = below.flatMap links := by
  cases below with
  | nil => rfl
  | cons c rest => simp

mutual

theorem links_navigationItem (above : List Text) : ∀ p : Page,
    (∀ e ∈ p.walk above, e.1.DocumentsOne) →
      p.navigationItem.flatMap links = (p.walk above).map fun e => e.1.label
  | ⟨kind, name, ids, _, _, children, _, _⟩, h => by
      rw [walk] at h ⊢
      obtain ⟨⟨hkind, hids⟩, hbelow⟩ := List.forall_mem_cons.mp h
      obtain rfl : kind = .content := hkind
      obtain ⟨id, rfl⟩ : ∃ id, ids = [id] := ⟨_, hids⟩
      have ih := links_navigationItems (above ++ [name]) children hbelow
      rw [navigationItem, List.map_cons, ← ih, List.flatMap_cons, List.flatMap_nil,
        List.append_nil, links_group, List.flatMap_cons, links_linkTo, links_nested]
      rfl

theorem links_navigationItems (above : List Text) : ∀ ps : List Page,
    (∀ e ∈ walkAll above ps, e.1.DocumentsOne) →
      (navigationItems ps).flatMap links = (walkAll above ps).map fun e => e.1.label
  | [], _ => rfl
  | p :: rest, h => by
      rw [walkAll] at h ⊢
      obtain ⟨hp, hrest⟩ := List.forall_mem_append.mp h
      rw [navigationItems, List.flatMap_append, List.map_append,
        links_navigationItem above p hp, links_navigationItems above rest hrest]

end

end Page

namespace PageTree

/-- The entry links to its declaration under its name. -/
theorem links_indexTable (location : Text) (es : List IndexEntry) :
    (IndexEntry.table location es).links = es.map fun e => (e.name, e.id) := by
  have hrow : ∀ e : IndexEntry, e.row.links = [(e.name, e.id)] := by
    intro e
    apply (Content.links_of_not_link (c := e.row) nofun).trans
    show [Content.linkTo e.name e.id, .paragraph e.location].flatMap Content.links = _
    simp
  rw [IndexEntry.table, Content.links_table, List.flatMap_map, List.map_eq_flatMap]
  simp only [hrow]

theorem links_letterSection (es : List IndexEntry) :
    (letterSection es).flatMap Content.links = es.map fun e => (e.name, e.id) := by
  cases es with
  | nil => rfl
  | cons e rest =>
      simp only [letterSection, List.flatMap_cons, List.flatMap_nil, Content.links_header,
        links_indexTable, List.nil_append, List.append_nil]

/-- The letters only divide the entries. -/
theorem links_alphabeticalIndexPage (t : PageTree) :
    t.alphabeticalIndexPage.content.links = t.nameEntries.map fun e => (e.name, e.id) := by
  let runs := t.nameEntries.splitBy fun a b => a.letter == b.letter
  have hruns : runs.flatten = t.nameEntries := List.flatten_splitBy _ _
  show (Content.group (.header 1 "Index" :: runs.flatMap letterSection) []).links = _
  rw [Content.links_group, List.flatMap_cons, Content.links_header, List.nil_append,
    List.flatMap_assoc]
  simp only [links_letterSection]
  rw [← hruns, List.map_flatten, List.flatMap_def]

section Documented

variable {t : PageTree} (h : ∀ e ∈ t.walk, e.1.DocumentsOne)
include h

theorem links_navigationPage : t.navigationPage.content.links = t.pages.map Page.label := by
  have hitems := Page.links_navigationItems [] t.children h
  show (Content.group [.header 1 t.name, .group (Page.navigationItems t.children) "list"]
    []).links = _
  simp only [Content.links_group, List.flatMap_cons, List.flatMap_nil, Content.links_header,
    List.nil_append, List.append_nil, hitems, pages, List.map_map]
  rfl

theorem documentation_eq_walk : t.documentation = t.walk := by
  refine List.filter_eq_self.mpr fun e he => ?_
  obtain ⟨hkind, hids⟩ := h e he
  simp [Page.isDocumentation, hkind, hids]

theorem perm_alphabeticalIndexPage :
    t.alphabeticalIndexPage.content.links.Perm (t.pages.map Page.label) := by
  have hsorted : t.nameEntries.Perm (t.walk.map nameEntry) := by
    rw [nameEntries, documentation_eq_walk h]
    exact List.mergeSort_perm _ _
  have hlabels : (t.walk.map nameEntry).map (fun e => (e.name, e.id)) = t.pages.map Page.label := by
    rw [pages, List.map_map, List.map_map]
    rfl
  rw [links_alphabeticalIndexPage, ← hlabels]
  exact hsorted.map _

theorem searchEntries_eq :
    t.pages.filterMap Page.searchEntry? = t.pages.map fun p => p.searchObject p.mainId := by
  rw [← List.filterMap_eq_map]
  refine List.filterMap_congr fun p hp => ?_
  obtain ⟨e, he, rfl⟩ := List.mem_map.mp hp
  obtain ⟨hkind, hids⟩ := h e he
  unfold Page.searchEntry?
  rw [hkind, hids]
  rfl

end Documented

/-- The search index has an entry for each page of a module. -/
theorem isJson_searchIndex_ofModule (m : DocModule) :
    JsonValue.IsJson (ofModule m).searchIndex
      (.array ((ofModule m).pages.map fun p => p.searchObject p.mainId)) := by
  rw [← searchEntries_eq (documentsOne_ofModule m)]
  exact isJson_searchIndex (ofModule m)

theorem map_mainId_ofModule (m : DocModule) :
    (ofModule m).pages.map Page.mainId = (ofModule m).documentedIds := by
  have hone : ∀ p ∈ (ofModule m).pages, p.ids = [p.mainId] :=
    List.forall_mem_map.mpr fun e he => (documentsOne_ofModule m e he).2
  rw [documentedIds, List.map_eq_flatMap]
  exact (List.flatMap_congr hone).symm

/-- The lists of pages that the transforms append to a tree name each page of it
once. -/
structure ListsPages (t : PageTree) : Prop where
  /-- A page stands for the one declaration that it documents. -/
  identified : ∀ p ∈ t.pages, p.ids = [p.mainId]
  /-- The navigation page links to the pages in their order. -/
  navigation : ∃ page, PageTransform.navigation.additions t = [page] ∧
    page.name = navigationName ∧ page.content.links = t.pages.map Page.label
  /-- The alphabetical index links to the pages in an order of its own. -/
  index : ∃ types page, PageTransform.indexPages.additions t = [types, page] ∧
    page.name = alphabeticalIndexName ∧ page.content.links.Perm (t.pages.map Page.label)
  /-- The search index is a file with an object for each page. -/
  search : ∃ page, PageTransform.searchIndex.additions t = [page] ∧
    page.name = searchIndexName ∧ page.strategy.kind = .write ∧
      ∀ v, JsonValue.IsJson page.strategy.payload v ↔
        v = .array (t.pages.map fun p => p.searchObject p.mainId)

theorem listsPages_ofModule (m : DocModule) : (ofModule m).ListsPages where
  identified p hp := by
    obtain ⟨e, he, rfl⟩ := List.mem_map.mp hp
    exact (documentsOne_ofModule m e he).2
  navigation :=
    ⟨_, additions_eq .navigation _, rfl, links_navigationPage (documentsOne_ofModule m)⟩
  index :=
    ⟨_, _, additions_eq .indexPages _, rfl, perm_alphabeticalIndexPage (documentsOne_ofModule m)⟩
  search :=
    ⟨_, additions_eq .searchIndex _, rfl, rfl, fun _ => (isJson_searchIndex_ofModule m).iff_eq⟩

/-- **Page transforms are independent and complete.**  Applied to any tree in any
order they leave what is there and append, in that order, what each appends on
its own; and what they append to the tree of a module lists each of its pages
once. -/
theorem foldlM_appends_additions :
    (∀ (t : PageTree) (ps : List PageTransform),
      (∀ p : PageTransform,
        (p.apply t).value = { t with children := t.children ++ p.additions t }) ∧
      (ps.foldlM (fun t p => p.apply t) t : Traced PageTree).value =
        { t with children := t.children ++ ps.flatMap fun p => p.additions t }) ∧
    ∀ m : DocModule, (create m).value.ListsPages := by
  refine ⟨fun t ps => ⟨fun p => ?_, ?_⟩, listsPages_ofModule⟩
  · rw [additions_eq, value_apply]
  · simp only [value_foldlM, additions_eq]

end PageTree

end CrossDoc
