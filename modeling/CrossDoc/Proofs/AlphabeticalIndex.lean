import CrossDoc.Proofs.DirectoryPages
import CrossDoc.Proofs.TextOrder
import Mathlib

/-!
# The alphabetical index

Entries are sorted by lower case names and divided by upper case letters.  Two
letters have one lower case exactly if they have one upper case, and the first
letters of sorted names ascend in lower case.  So a letter never comes back once
another one has begun, and every letter heads one section.  Names are not empty
here: an empty name is filed under a sharp but sorts before everything.
-/

namespace CrossDoc

/-! ## The order of entries -/

/-- Identities are ordered by package, classes, callable and signature. -/
def DeclId.sortKey (d : DeclId) : Text ×ₗ List Text ×ₗ Text ×ₗ Text :=
  toLex (d.package, toLex (d.classes, toLex (d.callable, d.signature)))

theorem DeclId.compares (d e : DeclId) : (compare d e).Compares d.sortKey e.sortKey := by
  have hfields : compare d e = (compare d.package e.package).then
      ((compare d.classes e.classes).then
        ((compare d.callable e.callable).then (compare d.signature e.signature))) := by
    show instOrdDeclId.ord d e = _
    simp [instOrdDeclId.ord]
  rw [hfields]
  exact compares_pair (compares_text _ _) (compares_pair (compares_list compares_text _ _)
    (compares_pair (compares_text _ _) (compares_text _ _)))

namespace IndexEntry

/-- Entries are ordered by lower case name, name and identity. -/
def sortKey (e : IndexEntry) : Text ×ₗ Text ×ₗ Text ×ₗ List Text ×ₗ Text ×ₗ Text :=
  toLex (Text.lower e.name, toLex (e.name, e.id.sortKey))

theorem compares (a b : IndexEntry) : (a.order b).Compares a.sortKey b.sortKey := by
  rw [order, Ordering.then_assoc]
  exact compares_pair (compares_text _ _) (compares_pair (compares_text _ _) (a.id.compares b.id))

theorem order_ne_gt (a b : IndexEntry) : (a.order b != .gt) = true ↔ a.sortKey ≤ b.sortKey := by
  rw [bne_iff_ne]
  exact (compares a b).ne_gt

theorem pairwise_sort (es : List IndexEntry) :
    (sort es).Pairwise fun a b => a.sortKey ≤ b.sortKey := by
  have hsorted : (sort es).Pairwise fun a b => (a.order b != .gt) = true := by
    apply List.pairwise_mergeSort
    · intro a b c hab hbc
      exact (order_ne_gt a c).mpr (((order_ne_gt a b).mp hab).trans ((order_ne_gt b c).mp hbc))
    · intro a b
      rw [Bool.or_eq_true, order_ne_gt, order_ne_gt]
      exact le_total _ _
  exact hsorted.imp fun {a b} h => (order_ne_gt a b).mp h

end IndexEntry

/-! ## Letters -/

/-- Both cases divide the characters in the same way. -/
theorem toUpper_eq_toUpper_iff {c d : Char} : c.toUpper = d.toUpper ↔ c.toLower = d.toLower := by
  constructor
  · intro h
    rw [← c.toLower_toUpper_eq_toLower, h, d.toLower_toUpper_eq_toLower]
  · intro h
    rw [← c.toUpper_toLower_eq_toUpper, h, d.toUpper_toLower_eq_toUpper]

/-! ## Runs of a sorted list -/

section Runs

variable {α κ : Type} [LinearOrder κ] {key : α → κ} {l r : List α}

/-- In a run every item has the same key. -/
theorem eq_of_mem_run (hr : r ∈ l.splitBy fun a b => key a == key b) {a b : α} (ha : a ∈ r)
    (hb : b ∈ r) : key a = key b := by
  have hchain : r.IsChain fun a b => key a = key b :=
    (List.isChain_of_mem_splitBy hr).imp fun a b h => beq_iff_eq.mp h
  have : Trans (fun a b : α => key a = key b) (fun a b => key a = key b) fun a b => key a = key b :=
    ⟨Eq.trans⟩
  have : Std.Symm fun a b : α => key a = key b := ⟨fun _ _ => Eq.symm⟩
  exact List.Pairwise.forall_of_forall (R := fun a b => key a = key b) (fun _ _ => rfl)
    hchain.pairwise ha hb

/-- Where the keys ascend, each run lies below those behind it. -/
theorem pairwise_runs (h : l.Pairwise fun a b => key a ≤ key b) :
    (l.splitBy fun a b => key a == key b).Pairwise fun r s =>
      ∀ a ∈ r, ∀ b ∈ s, key a < key b := by
  have hsame := fun r (hr : r ∈ l.splitBy fun a b => key a == key b) =>
    fun {a b : α} => eq_of_mem_run (a := a) (b := b) hr
  have hbroken := List.isChain_getLast_head_splitBy (fun a b => key a == key b) l
  rw [← List.flatten_splitBy (fun a b => key a == key b) l, List.pairwise_flatten] at h
  replace h := h.2
  generalize l.splitBy (fun a b => key a == key b) = runs at *
  induction h with
  | nil => exact List.Pairwise.nil
  | @cons r rest hr hrest ih =>
      have hbehind := ih (fun s hs => hsame s (List.mem_cons_of_mem r hs)) hbroken.tail
      refine List.Pairwise.cons ?_ hbehind
      -- The next run differs in its key, and what comes later is not below the next run.
      cases rest with
      | nil => exact nofun
      | cons next later =>
          obtain ⟨hlast, hhead, hne⟩ := (List.isChain_cons_cons.mp hbroken).1
          have hnext : ∀ a ∈ r, key a < key (next.head hhead) := by
            intro a ha
            have hle := hr next List.mem_cons_self a ha _ (List.head_mem hhead)
            have hlast := hsame r List.mem_cons_self ha (List.getLast_mem hlast)
            refine lt_of_le_of_ne hle fun heq => ?_
            rw [← hlast, heq, beq_self_eq_true] at hne
            cases hne
          intro s hs a ha b hb
          rcases List.mem_cons.mp hs with rfl | hlater
          · exact hsame s (by simp) (List.head_mem hhead) hb ▸ hnext a ha
          · have hle := (List.pairwise_cons.mp hrest).1 s hlater _ (List.head_mem hhead) b hb
            exact lt_of_lt_of_le (hnext a ha) hle

end Runs

/-! ## The pages -/

namespace IndexEntry

/-- The rows of a table are some entries, each of them once, in ascending order. -/
structure SortedFrom (entries rows : List IndexEntry) : Prop where
  complete : rows.Perm entries
  ascending : rows.Pairwise fun a b => a.sortKey ≤ b.sortKey

theorem sortedFrom_sort (es : List IndexEntry) : SortedFrom es (sort es) :=
  ⟨List.mergeSort_perm _ _, pairwise_sort es⟩

/-- Some entries are divided into sections, each with a letter at its head. -/
structure DividedFrom (entries : List IndexEntry) (sections : List (Char × List IndexEntry)) :
    Prop where
  /-- From section to section the rows are the sorted entries. -/
  sorted : SortedFrom entries (sections.flatMap Prod.snd)
  letters : (sections.map Prod.fst).Nodup
  filled : ∀ s ∈ sections, s.2 ≠ []
  filed : ∀ s ∈ sections, ∀ e ∈ s.2, e.name.head?.map Char.toUpper = some s.1

/-- The lower case first letter of the name; a sharp if there is none. -/
def initial (e : IndexEntry) : Char := (e.name.head?.getD '#').toLower

theorem letter_eq_iff (a b : IndexEntry) : a.letter = b.letter ↔ a.initial = b.initial :=
  toUpper_eq_toUpper_iff

/-- The order of lower case names is first that of their first letters. -/
theorem initial_le {a b : IndexEntry} (ha : a.name ≠ []) (hb : b.name ≠ [])
    (h : a.sortKey ≤ b.sortKey) : a.initial ≤ b.initial := by
  have hlower : Text.lower a.name ≤ Text.lower b.name := Prod.Lex.monotone_fst _ _ h
  unfold initial
  cases hna : a.name with
  | nil => exact absurd hna ha
  | cons c s =>
      cases hnb : b.name with
      | nil => exact absurd hnb hb
      | cons d t =>
          rw [hna, hnb] at hlower
          by_contra hlt
          exact absurd hlower (not_le_of_gt (List.cons_lt_cons_iff.mpr (Or.inl (not_le.mp hlt))))

/-- The entries under their letters, as they follow each other. -/
def sections (es : List IndexEntry) : List (Char × List IndexEntry) :=
  ((sort es).splitBy fun a b => a.letter == b.letter).map fun r => (r.headI.letter, r)

theorem headI_mem {r : List IndexEntry} (h : r ≠ []) : r.headI ∈ r := by
  cases r with
  | nil => exact absurd rfl h
  | cons e rest => exact List.mem_cons_self

theorem flatMap_sections (es : List IndexEntry) : (sections es).flatMap Prod.snd = sort es := by
  rw [sections, List.flatMap_map]
  exact List.flatMap_id'.trans (List.flatten_splitBy _ _)

/-- A letter never comes back: the entries behind a section have later initials. -/
theorem nodup_letters {es : List IndexEntry} (h : ∀ e ∈ es, e.name ≠ []) :
    ((sections es).map Prod.fst).Nodup := by
  have hletter : (fun a b : IndexEntry => a.letter == b.letter) =
      fun a b => a.initial == b.initial := by
    funext a b
    rw [Bool.eq_iff_iff, beq_iff_eq, beq_iff_eq, letter_eq_iff]
  have hnamed : ∀ e ∈ sort es, e.name ≠ [] :=
    fun e he => h e ((List.mergeSort_perm _ _).mem_iff.mp he)
  have hascending : (sort es).Pairwise fun a b => a.initial ≤ b.initial :=
    (pairwise_sort es).imp_of_mem fun ha hb => initial_le (hnamed _ ha) (hnamed _ hb)
  rw [sections, hletter, List.map_map, List.Nodup, List.pairwise_map]
  refine (pairwise_runs hascending).imp_of_mem fun {r s} hr hs hlt => ?_
  have hinitial := hlt r.headI (headI_mem (List.ne_nil_of_mem_splitBy hr)) s.headI
    (headI_mem (List.ne_nil_of_mem_splitBy hs))
  exact fun heq => hinitial.ne ((letter_eq_iff _ _).mp heq)

theorem dividedFrom_sections {es : List IndexEntry} (h : ∀ e ∈ es, e.name ≠ []) :
    DividedFrom es (sections es) where
  sorted := by
    rw [flatMap_sections]
    exact sortedFrom_sort es
  letters := nodup_letters h
  filled s hs := by
    obtain ⟨r, hr, rfl⟩ := List.mem_map.mp hs
    exact List.ne_nil_of_mem_splitBy hr
  filed s hs e he := by
    have hnamed : e.name ≠ [] := by
      apply h e
      rw [← (List.mergeSort_perm es _).mem_iff, ← sort, ← flatMap_sections]
      exact List.mem_flatMap.mpr ⟨s, hs, he⟩
    obtain ⟨r, hr, rfl⟩ := List.mem_map.mp hs
    have hhead : e.letter = r.headI.letter :=
      eq_of_mem_run hr he (headI_mem (List.ne_nil_of_mem_splitBy hr))
    show e.name.head?.map Char.toUpper = some r.headI.letter
    rw [← hhead, letter]
    cases hname : e.name with
    | nil => exact absurd hname hnamed
    | cons c rest => rfl

end IndexEntry

namespace PageTree

/-- The page of all types: their table, if there are any. -/
def typesPage (t : PageTree) (types : List IndexEntry) : Page :=
  .ofLinks allTypesName t (.group (.header 1 "All Types" ::
    if types = [] then [] else [IndexEntry.table "Package" types]) [])

/-- The alphabetical index: each letter with the table of its entries. -/
def indexPage (t : PageTree) (sections : List (Char × List IndexEntry)) : Page :=
  .ofLinks alphabeticalIndexName t (.group (.header 1 "Index" ::
    sections.flatMap fun s => [.header 2 [s.1], IndexEntry.table "Location" s.2]) [])

theorem allTypesPage_eq (t : PageTree) : t.allTypesPage = t.typesPage t.typeEntries := by
  simp only [allTypesPage, typesPage, List.isEmpty_iff]

theorem alphabeticalIndexPage_eq (t : PageTree) : t.alphabeticalIndexPage =
    t.indexPage (IndexEntry.sections (t.documentation.map nameEntry)) := by
  have hsection : ∀ r ∈ t.nameEntries.splitBy fun a b => a.letter == b.letter,
      letterSection r = [.header 2 [r.headI.letter], IndexEntry.table "Location" r] := by
    intro r hr
    cases r with
    | nil => exact absurd rfl (List.ne_nil_of_mem_splitBy hr)
    | cons e rest => rfl
  rw [alphabeticalIndexPage, indexPage, IndexEntry.sections, List.flatMap_map]
  dsimp only
  rw [List.flatMap_congr hsection]
  rfl

/-- A page under its own name, beside the page at the top of the way to it. -/
def plainEntry (e : Page × List Text) : IndexEntry := ⟨e.1.name, e.2.headI, e.1.mainId⟩

/-- A page under the dotted names of those above it, without the first of them. -/
def dottedEntry (e : Page × List Text) : IndexEntry :=
  ⟨Text.join "." (e.2.tail ++ [e.1.name]), e.2.headI, e.1.mainId⟩

theorem nameEntry_eq : nameEntry = plainEntry := by
  funext ⟨p, above⟩
  cases above <;> rfl

theorem typeEntries_eq (t : PageTree) : t.typeEntries =
    IndexEntry.sort ((t.documentation.filter fun e => e.2 ≠ []).map dottedEntry) := by
  have hentry : typeEntry? = fun e => if decide (e.2 ≠ []) then some (dottedEntry e) else none := by
    funext ⟨p, above⟩
    cases above <;> rfl
  rw [typeEntries, hentry, ← List.filterMap_eq_map, List.filterMap_filter]
  rfl

/-- **The index pages are sorted and complete.**  The page of all types lists the pages with
a page above them, the alphabetical index all pages that document a declaration, each page
once; and in the index no two sections have one letter. -/
theorem apply_indexPages_sorted (t : PageTree) (h : ∀ e ∈ t.documentation, e.1.name ≠ []) :
    ∃ types sections,
      (PageTransform.indexPages.apply t).value =
        { t with children := t.children ++ [t.typesPage types, t.indexPage sections] } ∧
      IndexEntry.SortedFrom ((t.documentation.filter fun e => e.2 ≠ []).map dottedEntry) types ∧
      IndexEntry.DividedFrom (t.documentation.map plainEntry) sections := by
  refine ⟨t.typeEntries, IndexEntry.sections (t.documentation.map plainEntry), ?_, ?_, ?_⟩
  · rw [value_apply, PageTransform.newPages, allTypesPage_eq, alphabeticalIndexPage_eq,
      nameEntry_eq]
  · rw [typeEntries_eq]
    exact IndexEntry.sortedFrom_sort _
  · refine IndexEntry.dividedFrom_sections fun e he => ?_
    obtain ⟨page, hpage, rfl⟩ := List.mem_map.mp he
    exact h page hpage

/-- Two packages that differ in case, and types whose names sort apart from their letters. -/
def mixedCaseTree : PageTree :=
  let page (id : DeclId) (name : Text) (children : List Page) : Page :=
    { name := name, ids := [id], children := children }
  let zoo : DeclId := .ofPackage "zoo"
  let ape := zoo.withClass "Ape"
  { name := "m"
    children :=
      [ page zoo "zoo"
          [ page (zoo.withClass "apple") "apple" [],
            page ape "Ape" [page (ape.withClass "_x") "_x" []] ],
        page (.ofPackage "Zoo") "Zoo" [page (zoo.withClass "Zebra") "Zebra" []] ] }

theorem apply_indexPages_sorted_mixedCaseTree :
    (∀ e ∈ mixedCaseTree.documentation, e.1.name ≠ []) ∧
      ∃ types sections,
        (PageTransform.indexPages.apply mixedCaseTree).value =
          { mixedCaseTree with children := mixedCaseTree.children ++
              [mixedCaseTree.typesPage types, mixedCaseTree.indexPage sections] } ∧
        IndexEntry.SortedFrom
          ((mixedCaseTree.documentation.filter fun e => e.2 ≠ []).map dottedEntry) types ∧
        IndexEntry.DividedFrom (mixedCaseTree.documentation.map plainEntry) sections := by
  have hnamed : ∀ e ∈ mixedCaseTree.documentation, e.1.name ≠ [] := by decide
  exact ⟨hnamed, apply_indexPages_sorted mixedCaseTree hnamed⟩

example : (IndexEntry.sections (mixedCaseTree.documentation.map plainEntry)).map
      (fun s => (s.1, s.2.map (·.name))) =
    [('_', [("_x" : Text)]), ('A', ["Ape", "apple"]), ('Z', ["Zebra", "Zoo", "zoo"])] := by
  cbv

/-- With an empty name a letter can come back. -/
example : (IndexEntry.sections [⟨[], [], {}⟩, ⟨"!", [], {}⟩, ⟨"#", [], {}⟩]).map Prod.fst =
    ['#', '!', '#'] := by
  cbv

end PageTree

end CrossDoc
