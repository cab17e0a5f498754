import CrossDoc.Proofs.Forest
import CrossDoc.Proofs.PageContent
import Mathlib.Data.List.Perm.Basic

/-!
# What the pages cover

A page shows tables, each under a heading of the second level; a row of a table
that starts with a link lists the declaration the link leads to.  Every package
and every class that is reached through classes has its page, and on it each
of its members is listed once, under the heading of its kind.
-/

namespace CrossDoc

/-! ## Reading a page -/

/-- A declaration as a table lists it. -/
structure ListedRow where
  /-- The heading above the table. -/
  title : Text
  target : DeclId
  platforms : List Platform
deriving DecidableEq, Repr

namespace Content

/-- The title, if the part is a heading of the second level. -/
def tableTitle? (c : Content) : Option Text :=
  if c.kind = .header ∧ c.level = 2 then some c.text else none

/-- The declaration that a row lists, which its first cell links to. -/
def listed? (title : Text) (c : Content) : Option ListedRow :=
  match c.kind, c.children with
  | .row, cell :: _ =>
      if cell.kind = .link then cell.target.map fun id => ⟨title, id, c.platforms⟩ else none
  | _, _ => none

/-- What the part lists if it is a table. -/
def tableRows (title : Text) (c : Content) : List ListedRow :=
  if c.kind = .table then c.children.filterMap (listed? title) else []

/-- What the tables among the parts list, where `title` is the heading above
the first of them. -/
def listedRows (title : Text) : List Content → List ListedRow
  | [] => []
  | c :: rest =>
      match c.tableTitle? with
      | some t => listedRows t rest
      | none => c.tableRows title ++ listedRows title rest

/-- All rows of a part, in document order. -/
def rows (c : Content) : List ListedRow := listedRows [] c.flatten

end Content

/-! ## Pages and declarations -/

/-- The heading under which members of a kind stand; packages are no
members. -/
def Kind.tableTitle? : Kind → Option Text
  | .package => none
  | .classType | .interfaceType | .objectType | .enumType | .typeAlias => some "Types"
  | .enumEntry => some "Entries"
  | .function => some "Functions"
  | .property => some "Properties"

/-- The row of a declaration under a heading. -/
def Declaration.rowUnder (title : Text) (d : Declaration) : ListedRow :=
  ⟨title, d.id, d.platforms⟩

/-- The rows list the members, each once and under the heading of its kind. -/
structure ListsMembers (rows : List ListedRow) (members : List Declaration) : Prop where
  once : rows.Perm (members.map fun d => d.rowUnder (d.kind.tableTitle?.getD []))
  ordered : ∀ title, rows.filter (fun r => r.title = title) =
    (members.filter fun d => d.kind.tableTitle? = some title).map (Declaration.rowUnder title)

/-- The page documents the declaration, and the pages below it, in the same
order, the classes among its members. -/
inductive IsPageOf : Declaration → Page → Prop where
  | intro {d : Declaration} {p : Page} (kind : p.kind = .content) (ids : p.ids = [d.id])
      (platforms : p.platforms = d.platforms) (members : ListsMembers p.content.rows d.children)
      (classes : List.Forall₂ IsPageOf (d.children.filter (·.kind.isClasslike)) p.children) :
      IsPageOf d p

/-! ## Parts that list nothing -/

namespace Content

/-- The part is neither a heading above a table nor a table that lists. -/
structure IsQuiet (c : Content) : Prop where
  title : c.tableTitle? = none
  rows : ∀ title, c.tableRows title = []

theorem listedRows_append_of_quiet {cs : List Content} (h : ∀ c ∈ cs, c.IsQuiet) (title : Text)
    (rest : List Content) : listedRows title (cs ++ rest) = listedRows title rest := by
  induction cs with
  | nil => rfl
  | cons c cs ih =>
      have hc := h c (by simp)
      rw [List.cons_append, listedRows, hc.title]
      dsimp only
      rw [hc.rows, ih fun d hd => h d (List.mem_cons_of_mem _ hd), List.nil_append]

theorem isQuiet_of_kind {c : Content} (hheader : c.kind ≠ .header) (htable : c.kind ≠ .table) :
    c.IsQuiet :=
  ⟨if_neg fun h => hheader h.1, fun _ => if_neg htable⟩

theorem IsQuiet.tagged {c : Content} (h : c.IsQuiet) (ps : List Platform) : (c.tagged ps).IsQuiet :=
  ⟨h.title, h.rows⟩

/-- The part and all below it list nothing. -/
def Silent (c : Content) : Prop := ∀ x ∈ c.flatten, x.IsQuiet

theorem silent_iff {c : Content} : c.Silent ↔ c.IsQuiet ∧ ∀ d ∈ c.children, d.Silent := by
  unfold Silent
  simp only [flatten_eq c, flattenAll_eq_flatMap, List.mem_cons, List.mem_flatMap]
  constructor
  · intro h
    exact ⟨h c (Or.inl rfl), fun d hd x hx => h x (Or.inr ⟨d, hd, hx⟩)⟩
  · rintro ⟨hc, hbelow⟩ x (rfl | ⟨d, hd, hx⟩)
    · exact hc
    · exact hbelow d hd x hx

theorem silent_group {cs : List Content} {style : Text} (h : ∀ c ∈ cs, c.Silent) :
    (group cs style).Silent :=
  silent_iff.mpr ⟨isQuiet_of_kind nofun nofun, h⟩

theorem silent_leaf {c : Content} (hc : c.IsQuiet) (hleaf : c.children = []) : c.Silent :=
  silent_iff.mpr ⟨hc, by simp [hleaf]⟩

theorem silent_paragraph (t : Text) : (paragraph t).Silent :=
  silent_leaf (isQuiet_of_kind nofun nofun) rfl

theorem silent_code (t : Text) : (code t).Silent :=
  silent_leaf (isQuiet_of_kind nofun nofun) rfl

theorem silent_header {level : Int} (h : level ≠ 2) (t : Text) : (header level t).Silent := by
  refine silent_leaf ⟨if_neg fun hc => ?_, fun _ => rfl⟩ rfl
  have hlevel : (max 1 (min level 6)).toNat = 2 := hc.2
  omega

theorem silent_row {cells : List Content} {ps : List Platform} (h : ∀ c ∈ cells, c.Silent) :
    (row cells ps).Silent :=
  silent_iff.mpr ⟨isQuiet_of_kind nofun nofun, h⟩

/-- Only a table lists what its rows link to, not the rows themselves. -/
theorem silent_linkRow {about : Content} (h : about.Silent) (text : Text) (id : DeclId)
    (ps : List Platform) : (row [linkTo text id, about] ps).Silent := by
  refine silent_row ?_
  simp only [List.mem_cons, List.not_mem_nil, or_false]
  rintro c (rfl | rfl)
  · exact silent_leaf (isQuiet_of_kind nofun nofun) rfl
  · exact h

theorem silent_headerRow (columns : List Text) : (headerRow columns).Silent := by
  refine silent_iff.mpr ⟨isQuiet_of_kind nofun nofun, ?_⟩
  intro c hc
  obtain ⟨t, -, rfl⟩ := List.mem_map.mp hc
  exact silent_paragraph t

end Content

namespace Facts

open Content

theorem silent_signatureBlock (f : Facts) : ∀ c ∈ f.signatureBlock, c.Silent := by
  unfold signatureBlock
  split
  · exact nofun
  · intro c hc
    rw [List.mem_singleton.mp hc]
    exact silent_code _

theorem silent_paragraphs (t : Text) : ∀ c ∈ paragraphs t, c.Silent := by
  unfold paragraphs
  split
  · exact nofun
  · intro c hc
    rw [List.mem_singleton.mp hc]
    exact silent_paragraph t

theorem silent_deprecationNote (t : Text) : (deprecationNote t).Silent :=
  silent_leaf (isQuiet_of_kind nofun nofun) rfl

/-- The rows of parameters start with code, not with a link. -/
theorem silent_parameterTable (f : Facts) : ∀ c ∈ f.parameterTable, c.Silent := by
  unfold parameterTable
  split
  · exact nofun
  · intro c hc
    rcases List.mem_cons.mp hc with rfl | hc
    · exact silent_header (by decide) _
    · rw [List.mem_singleton.mp hc]
      refine silent_iff.mpr ⟨⟨rfl, fun title => ?_⟩, ?_⟩
      · simp [tableRows, table, headerRow, listed?, row, code, paragraph]
      · intro d hd
        rcases List.mem_cons.mp hd with rfl | hd
        · exact silent_headerRow _
        · obtain ⟨p, -, rfl⟩ := List.mem_map.mp hd
          refine silent_row ?_
          simp only [List.mem_cons, List.not_mem_nil, or_false]
          rintro x (rfl | rfl)
          · exact silent_code _
          · exact silent_paragraph _

theorem silent_details (f : Facts) : f.details.Silent := by
  have hoptional : ∀ (empty : Bool) {c : Content}, c.Silent →
      ∀ x ∈ (if empty then [] else [c]), x.Silent := by
    intro empty c hc x hx
    cases empty with
    | true => cases hx
    | false => exact List.mem_singleton.mp hx ▸ hc
  have hlink : ∀ url : Text, (urlLink "Source" url).Silent := fun url =>
    silent_leaf (isQuiet_of_kind nofun nofun) rfl
  unfold details
  refine silent_group ?_
  simp only [List.mem_append]
  rintro c ((((((hc | hc) | hc) | hc) | hc) | hc) | hc)
  · exact f.silent_signatureBlock c hc
  · cases hd : f.deprecation with
    | none =>
        rw [hd] at hc
        cases hc
    | some d =>
        rw [hd] at hc
        exact List.mem_singleton.mp hc ▸ silent_deprecationNote _
  · exact silent_paragraphs _ c hc
  · exact f.silent_parameterTable c hc
  · exact hoptional _ (silent_paragraph _) c hc
  · exact hoptional _ (silent_paragraph _) c hc
  · exact hoptional _ (hlink _) c hc

theorem silent_description (f : Facts) : f.description.Silent :=
  silent_group (silent_paragraphs _)

theorem silent_overview (f : Facts) : f.overview.Silent :=
  silent_group (silent_paragraphs _)

theorem silent_brief (f : Facts) : f.brief.Silent := by
  refine silent_group ?_
  simp only [List.mem_append]
  rintro c ((hc | hc) | hc)
  · exact f.silent_signatureBlock c hc
  · split at hc
    · rw [List.mem_singleton.mp hc]
      exact silent_deprecationNote _
    · cases hc
  · exact silent_paragraphs _ c hc

end Facts

/-- Whatever the platforms say, it lists nothing if none of them does. -/
theorem PlatformMap.silent_content {α : Type} {render : α → Content} (h : ∀ v, (render v).Silent)
    (m : PlatformMap α) : (m.content render).Silent :=
  PlatformMap.forall_mem_flatten_content (Content.isQuiet_of_kind nofun nofun)
    (fun _ _ => Content.isQuiet_of_kind nofun nofun) (fun _ ps hc => hc.tagged ps)
    (fun e _ => h e.2)

/-! ## Tables -/

namespace Content

/-- Rows that list what `f` says, and nothing below their cells. -/
theorem listedRows_table {ds : List Declaration} {f : Declaration → Content} (title before : Text)
    (hrow : ∀ d ∈ ds, (f d).listed? title = some (d.rowUnder title))
    (hsilent : ∀ d ∈ ds, (f d).Silent) (rest : List Content) :
    listedRows before (flattenAll [header 2 title, table ["Name", "Summary"] (ds.map f)] ++ rest) =
      ds.map (Declaration.rowUnder title) ++ listedRows title rest := by
  have hbelow : ∀ c ∈ flattenAll (table ["Name", "Summary"] (ds.map f)).children, c.IsQuiet := by
    intro c hc
    rw [flattenAll_eq_flatMap] at hc
    obtain ⟨d, hd, hc⟩ := List.mem_flatMap.mp hc
    rcases List.mem_cons.mp hd with rfl | hd
    · exact silent_headerRow _ c hc
    · obtain ⟨e, he, rfl⟩ := List.mem_map.mp hd
      exact hsilent e he c hc
  have hrows : (table ["Name", "Summary"] (ds.map f)).tableRows title =
      ds.map (Declaration.rowUnder title) := by
    have hfilter : (ds.map f).filterMap (listed? title) = ds.map (Declaration.rowUnder title) := by
      rw [List.filterMap_map, ← List.filterMap_eq_map]
      exact List.filterMap_congr hrow
    simpa [tableRows, table, headerRow, listed?, paragraph] using hfilter
  have hheader : (header 2 title).flatten = [header 2 title] := rfl
  have htable : (table ["Name", "Summary"] (ds.map f)).flatten =
      table ["Name", "Summary"] (ds.map f) ::
        flattenAll (table ["Name", "Summary"] (ds.map f)).children := flatten_eq _
  have htitle : (header 2 title).tableTitle? = some title := rfl
  have hnone : (table ["Name", "Summary"] (ds.map f)).tableTitle? = none := rfl
  simp only [flattenAll, hheader, htable, List.append_nil, List.cons_append, List.nil_append,
    listedRows, htitle, hnone, hrows, listedRows_append_of_quiet hbelow]

end Content

namespace Declaration

open Content

theorem listed?_memberRow (title : Text) (d : Declaration) :
    d.memberRow.listed? title = some (d.rowUnder title) := rfl

theorem silent_memberRow (d : Declaration) : d.memberRow.Silent :=
  silent_linkRow (PlatformMap.silent_content Facts.silent_brief d.facts) _ _ _

theorem silent_packageRow (d : Declaration) : d.packageRow.Silent :=
  silent_linkRow (PlatformMap.silent_content Facts.silent_overview d.facts) _ _ _

/-- The tables list the members of their kinds, one table after the other. -/
theorem listedRows_memberTables (members : List Declaration) :
    ∀ (ts : List MemberTable) (before : Text),
      listedRows before (Content.flattenAll (ts.flatMap (memberTable members))) =
        ts.flatMap fun t => (members.filter fun d => t.lists d.kind).map (rowUnder t.title)
  | [], _ => rfl
  | t :: rest, before => by
      rw [List.flatMap_cons, List.flatMap_cons, Content.flattenAll_eq_flatMap,
        List.flatMap_append, ← Content.flattenAll_eq_flatMap, ← Content.flattenAll_eq_flatMap,
        memberTable]
      split
      · next hempty =>
        have hnil : members.filter (fun d => t.lists d.kind) = [] := by simpa using hempty
        rw [hnil]
        exact listedRows_memberTables members rest before
      · rw [listedRows_table t.title before (fun d _ => listed?_memberRow t.title d)
          (fun d _ => silent_memberRow d), listedRows_memberTables members rest]

end Declaration

namespace Content

/-- A page lists what its tables do, after a title and what its declaration
says about itself. -/
theorem rows_page {about : Content} (h : about.Silent) (title : Text) (tables : List Content) :
    (group ([header 1 title, about] ++ tables) []).rows = listedRows [] (flattenAll tables) := by
  have hquiet : ∀ c ∈ [group ([header 1 title, about] ++ tables) []] ++
      (header 1 title).flatten ++ about.flatten, c.IsQuiet := by
    intro c hc
    rcases List.mem_append.mp hc with hc | hc
    · rcases List.mem_append.mp hc with hc | hc
      · rw [List.mem_singleton.mp hc]
        exact isQuiet_of_kind nofun nofun
      · exact silent_header (by decide) title c hc
    · exact h c hc
  have hparts : (group ([header 1 title, about] ++ tables) []).flatten =
      ([group ([header 1 title, about] ++ tables) []] ++ (header 1 title).flatten ++
        about.flatten) ++ flattenAll tables := by
    rw [flatten_eq]
    simp [group, flattenAll]
  rw [rows, hparts, listedRows_append_of_quiet hquiet]

end Content

/-! ## Members under their headings -/

namespace MemberTable

theorem lists_iff (t : MemberTable) (k : Kind) :
    t.lists k = true ↔ k.tableTitle? = some t.title := by
  cases t <;> cases k <;> decide

theorem exists_of_ne_package {k : Kind} (h : k ≠ .package) :
    ∃ t : MemberTable, k.tableTitle? = some t.title := by
  cases k with
  | package => exact absurd rfl h
  | classType | interfaceType | objectType | enumType | typeAlias => exact ⟨.types, rfl⟩
  | enumEntry => exact ⟨.entries, rfl⟩
  | function => exact ⟨.functions, rfl⟩
  | property => exact ⟨.properties, rfl⟩

theorem title_inj {t u : MemberTable} : t.title = u.title ↔ t = u := by
  cases t <;> cases u <;> decide

end MemberTable

namespace Declaration

open Content

/-- The rows of members, one table after the other. -/
def memberRows (members : List Declaration) : List ListedRow :=
  MemberTable.all.flatMap fun t =>
    (members.filter fun d => t.lists d.kind).map (rowUnder t.title)

theorem rows_memberTables {about : Content} (h : about.Silent) (title : Text)
    (members : List Declaration) :
    (group ([header 1 title, about] ++ memberTables members) []).rows = memberRows members := by
  rw [rows_page h, memberTables, listedRows_memberTables]
  rfl

/-- The rows under one heading are those of its table. -/
theorem filter_title (members : List Declaration) (u : MemberTable) :
    (memberRows members).filter (fun r => r.title = u.title) =
      (members.filter fun d => u.lists d.kind).map (rowUnder u.title) := by
  have htable : ∀ t : MemberTable,
      ((members.filter fun d => t.lists d.kind).map (rowUnder t.title)).filter
          (fun r => r.title = u.title) =
        if t = u then (members.filter fun d => t.lists d.kind).map (rowUnder t.title) else [] := by
    intro t
    rw [List.filter_map]
    by_cases h : t = u
    · simp [h, Function.comp_def, rowUnder]
    · simp [h, MemberTable.title_inj, Function.comp_def, rowUnder]
  rw [memberRows, List.filter_flatMap]
  simp only [htable]
  cases u <;> simp [MemberTable.all]

/-- Members in the order in which they stand, each under its heading. -/
theorem filter_rowUnder {members : List Declaration} (h : ∀ d ∈ members, d.kind ≠ .package)
    (title : Text) :
    (members.map fun d => d.rowUnder (d.kind.tableTitle?.getD [])).filter
        (fun r => r.title = title) =
      (members.filter fun d => d.kind.tableTitle? = some title).map (rowUnder title) := by
  have hfilter : members.filter
        ((fun r : ListedRow => decide (r.title = title)) ∘
          fun d => d.rowUnder (d.kind.tableTitle?.getD [])) =
      members.filter fun d => d.kind.tableTitle? = some title := by
    refine List.filter_congr fun d hd => ?_
    obtain ⟨t, ht⟩ := MemberTable.exists_of_ne_package (h d hd)
    simp [rowUnder, ht]
  rw [List.filter_map, hfilter]
  refine List.map_congr_left fun d hd => ?_
  have hd : d.kind.tableTitle? = some title := by simpa using (List.mem_filter.mp hd).2
  rw [hd, Option.getD_some]

/-- Rows that are the same under every heading are the same rows. -/
theorem perm_of_filter_title {rows rows' : List ListedRow}
    (h : ∀ title, rows.filter (fun r => r.title = title) =
      rows'.filter (fun r => r.title = title)) : rows.Perm rows' := by
  refine List.perm_iff_count.mpr fun r => ?_
  have hcount : ∀ l : List ListedRow,
      (l.filter fun x => x.title = r.title).count r = l.count r :=
    fun l => List.count_filter (by simp)
  rw [← hcount rows, ← hcount rows', h]

theorem listsMembers_memberRows {members : List Declaration}
    (h : ∀ d ∈ members, d.kind ≠ .package) : ListsMembers (memberRows members) members := by
  have hordered : ∀ title, (memberRows members).filter (fun r => r.title = title) =
      (members.filter fun d => d.kind.tableTitle? = some title).map (rowUnder title) := by
    intro title
    by_cases hu : ∃ u : MemberTable, u.title = title
    · obtain ⟨u, rfl⟩ := hu
      rw [filter_title]
      congr 1
      refine List.filter_congr fun d _ => ?_
      rw [Bool.eq_iff_iff, MemberTable.lists_iff, decide_eq_true_iff]
    · -- No table has this heading, and no member stands under it.
      have hrows : ∀ r ∈ memberRows members, ¬ decide (r.title = title) = true := by
        intro r hr htitle
        obtain ⟨t, -, hr⟩ := List.mem_flatMap.mp hr
        obtain ⟨d, -, rfl⟩ := List.mem_map.mp hr
        exact hu ⟨t, of_decide_eq_true htitle⟩
      have hnone : ∀ d ∈ members, ¬ decide (d.kind.tableTitle? = some title) = true := by
        intro d hd htitle
        obtain ⟨t, ht⟩ := MemberTable.exists_of_ne_package (h d hd)
        rw [ht, decide_eq_true_iff] at htitle
        exact hu ⟨t, Option.some.inj htitle⟩
      rw [List.filter_eq_nil_iff.mpr hrows, List.filter_eq_nil_iff.mpr hnone, List.map_nil]
  exact ⟨perm_of_filter_title fun t => (hordered t).trans (filter_rowUnder h t).symm, hordered⟩

/-! ## Pages -/

theorem classPages_eq (ds : List Declaration) :
    classPages ds = (ds.filter (·.kind.isClasslike)).map classPage := by
  induction ds with
  | nil => rfl
  | cons d rest ih =>
      rw [classPages, ih, List.filter_cons]
      split
      · rw [List.map_cons]
      · rfl

/-- The pages of classes, if those are the pages of each of them. -/
theorem forall₂_classPages {ds : List Declaration}
    (h : ∀ d ∈ ds, IsPageOf d d.classPage) :
    List.Forall₂ IsPageOf (ds.filter (·.kind.isClasslike)) (classPages ds) := by
  rw [classPages_eq, List.forall₂_map_right_iff, List.forall₂_same]
  exact fun d hd => h d (List.mem_of_mem_filter hd)

section Forest

variable {ds : List Declaration} (h : MembersPlain ds) {d : Declaration}
include h

theorem isPageOf_classPage (hd : d ∈ flattenAll ds) : IsPageOf d d.classPage := by
  induction d using memberInduction with
  | step d ih =>
      have hlisted := listsMembers_memberRows (h d hd)
      have hbelow : ∀ c ∈ d.children, IsPageOf c c.classPage :=
        fun c hc => ih c hc (mem_flattenAll_child hd hc)
      obtain ⟨kind, name, id, parent, facts, children⟩ := d
      rw [← rows_memberTables (PlatformMap.silent_content Facts.silent_details facts)] at hlisted
      rw [classPage]
      exact ⟨rfl, rfl, rfl, hlisted, forall₂_classPages hbelow⟩

theorem isPageOf_packagePage (hd : d ∈ flattenAll ds) : IsPageOf d d.packagePage := by
  have hbelow : ∀ c ∈ d.children, IsPageOf c c.classPage :=
    fun c hc => isPageOf_classPage h (mem_flattenAll_child hd hc)
  have hlisted := listsMembers_memberRows (h d hd)
  rw [← rows_memberTables (PlatformMap.silent_content Facts.silent_description d.facts)] at hlisted
  exact ⟨rfl, rfl, rfl, hlisted, forall₂_classPages hbelow⟩

end Forest

end Declaration

namespace PageTree

open Declaration

theorem rows_ofModule (m : DocModule) :
    (ofModule m).content.rows = m.packages.map (rowUnder "Packages") := by
  unfold ofModule
  dsimp only
  rw [Content.rows_page (PlatformMap.silent_content Facts.silent_description m.facts)]
  split
  · next hempty =>
    have hnil : m.packages = [] := by simpa using hempty
    rw [hnil]
    rfl
  · have hrows := Content.listedRows_table (f := packageRow) "Packages" []
      (fun d (_ : d ∈ m.packages) => rfl) (fun d _ => d.silent_packageRow) []
    simpa [Content.listedRows] using hrows

theorem forall₂_ofModule {m : DocModule} (h : MembersPlain m.packages) :
    List.Forall₂ IsPageOf m.packages (ofModule m).children := by
  have hpages : (ofModule m).children = m.packages.map packagePage := rfl
  rw [hpages, List.forall₂_map_right_iff, List.forall₂_same]
  exact fun p hp => isPageOf_packagePage h (mem_flattenAll_self hp)

/-- The pages are those of the packages and of the classes in them, each with
all members of its declaration, and the root page lists the packages. -/
theorem create_coversModule (m : DocModule) (h : MembersPlain m.packages) :
    List.Forall₂ IsPageOf m.packages (create m).value.children ∧
      (create m).value.content.rows = m.packages.map (rowUnder "Packages") := by
  have hvalue : (create m).value = ofModule m := rfl
  rw [hvalue]
  exact ⟨forall₂_ofModule h, rows_ofModule m⟩

/-- A package with all kinds of members, where a class stands in a class and
one member is on one of two platforms only. -/
def sampleModel : DocModule :=
  let jvm : Platform := ⟨"m", .jvm, []⟩
  let js : Platform := ⟨"m", .js, []⟩
  let both : FactsMap := ⟨[(jvm, { signature := "J" }), (js, { signature := "S" })]⟩
  let a : DeclId := .ofPackage "a"
  let outer : DeclId := a.withClass "Outer"
  let inner : DeclId := outer.withClass "Inner"
  let member (owner : DeclId) (kind : Kind) (name : Text) : Declaration :=
    { kind := kind, name := name, id := owner.withCallable name [], parent := some owner
      facts := both }
  let innerClass : Declaration :=
    { kind := .enumType, name := "Inner", id := inner, parent := some outer
      facts := .singleton jvm {}
      children := [member inner .enumEntry "FIRST", member inner .property "size"] }
  let outerClass : Declaration :=
    { kind := .classType, name := "Outer", id := outer, parent := some a, facts := both
      children := [member outer .function "run", innerClass, member outer .property "count"] }
  { name := "m", facts := both
    packages := [{ name := "a", id := a, facts := both
                   children := [member a .typeAlias "Alias", outerClass] }] }

theorem create_coversModule_sampleModel :
    MembersPlain sampleModel.packages ∧
      List.Forall₂ IsPageOf sampleModel.packages (create sampleModel).value.children ∧
      (create sampleModel).value.content.rows =
        [⟨"Packages", .ofPackage "a", [⟨"m", .jvm, []⟩, ⟨"m", .js, []⟩]⟩] := by
  have hmodel : MembersPlain sampleModel.packages := by decide
  obtain ⟨hpages, hrows⟩ := create_coversModule sampleModel hmodel
  exact ⟨hmodel, hpages, hrows⟩

end PageTree

end CrossDoc
