import CrossDoc.Proofs.Merging
import CrossDoc.Proofs.PageCoverage

/-!
# Owners of members

Packages and classes are owners: a member of one is listed on its page, and
nothing else has a page.  A merged declaration has the kind of the first of its
group and the members of all of them, so it is an owner if the first is; where
a platform before a class has something else under the same identity, the
members of the class are left without a page.
-/

namespace CrossDoc

/-- The kinds whose members stand on a page. -/
def Kind.isOwner (k : Kind) : Bool := k == .package || k.isClasslike

/-- Only owners have members. -/
def DocModule.OwnersOnly (m : DocModule) : Prop :=
  ∀ d ∈ m.declarations, d.children = [] ∨ d.kind.isOwner = true

instance (m : DocModule) : Decidable m.OwnersOnly :=
  inferInstanceAs (Decidable (∀ d ∈ m.declarations, d.children = [] ∨ d.kind.isOwner = true))

namespace Declaration

/-! ## Groups at a place -/

/-- What stands at the end of a way, if siblings with one identity are followed
together. -/
def siblingsOn : List DeclId → List Declaration → List Declaration
  | [], ds => ds
  | id :: rest, ds => siblingsOn rest (allChildren (ds.filter fun d => d.id == id))

/-- All declarations at a place, in the order in which they are merged. -/
def groupAt (way : List DeclId) (id : DeclId) (ds : List Declaration) : List Declaration :=
  (siblingsOn way ds).filter fun d => d.id == id

theorem siblingsOn_append (id : DeclId) : ∀ (way : List DeclId) (ds : List Declaration),
    siblingsOn (way ++ [id]) ds = allChildren (groupAt way id ds)
  | [], _ => rfl
  | _ :: rest, _ => siblingsOn_append id rest _

theorem siblingsOn_subset : ∀ (way : List DeclId) (ds : List Declaration),
    siblingsOn way ds ⊆ flattenAll ds
  | [], _ => fun _ hd => mem_flattenAll_self hd
  | id :: rest, ds => by
      intro d hd
      have hbelow := siblingsOn_subset rest _ hd
      obtain ⟨t, ht, hdt⟩ := mem_flattenAll.mp hbelow
      obtain ⟨e, he, hte⟩ := List.mem_flatMap.mp ht
      have hmem := mem_flattenAll_child (mem_flattenAll_self (List.mem_of_mem_filter he)) hte
      rcases hdt with rfl | hdt
      · exact hmem
      · exact flattenAll_children_subset_of_mem hmem hdt

theorem groupAt_subset (way : List DeclId) (id : DeclId) (ds : List Declaration) :
    groupAt way id ds ⊆ flattenAll ds :=
  fun _ hd => siblingsOn_subset way ds (List.mem_of_mem_filter hd)

/-- A merged declaration is one that was there, or what the group at a place
becomes. -/
theorem mem_union_cases {ds : List Declaration} {d : Declaration}
    (h : d ∈ flattenAll (union ds)) :
    d ∈ flattenAll ds ∨ ∃ way id, joined (groupAt way id ds) = some d := by
  have sibling : ∀ way, ∀ c ∈ union (siblingsOn way ds),
      ∃ way id, joined (groupAt way id ds) = some c := by
    intro way c hc
    rw [union_eq_filterMap] at hc
    obtain ⟨id, -, hcid⟩ := List.mem_filterMap.mp hc
    exact ⟨way, id, hcid⟩
  refine reachInduction (motive := fun d => d ∈ flattenAll ds ∨
    ∃ way id, joined (groupAt way id ds) = some d) ?_ ?_ d h
  · exact fun d hd => Or.inr (sibling [] d hd)
  · rintro q - (hq | ⟨way, id, hq⟩) c hc
    · exact Or.inl (mem_flattenAll_child hq hc)
    · have hsubset := groupAt_subset way id ds
      have hmembers := siblingsOn_append id way ds
      generalize groupAt way id ds = group at hq hsubset hmembers
      match group with
      | [] => simp [joined, joinWith] at hq
      | [e] =>
          -- A single declaration is kept, and so are those below it.
          obtain rfl : e = q := by simpa [joined, joinWith] using hq
          exact Or.inl (mem_flattenAll_child (hsubset (by simp)) hc)
      | e :: e' :: rest =>
          obtain rfl := Option.some.inj hq
          exact Or.inr (sibling (way ++ [id]) c (hmembers ▸ hc))

section Places

variable {lists : List (List Declaration)}

theorem siblingsOn_flatten (hunique : ∀ l ∈ lists, SiblingsUnique l) (way : List DeclId) :
    siblingsOn way lists.flatten = (lists.map (siblingsAt way)).flatten := by
  induction way generalizing lists with
  | nil => simp [siblingsOn, siblingsAt]
  | cons id rest ih =>
      have hmembers : ∀ l ∈ lists.map (membersOf id), SiblingsUnique l := by
        intro l hl
        obtain ⟨l', hl', rfl⟩ := List.mem_map.mp hl
        exact (hunique l' hl').membersOf id
      rw [siblingsOn, filter_flatten_eq hunique, allChildren_filterMap_find?, ih hmembers,
        List.map_map]
      rfl

/-- The merged declaration at a place is what the group there becomes. -/
theorem find?_siblingsAt_union (hunique : ∀ l ∈ lists, SiblingsUnique l) (way : List DeclId)
    (id : DeclId) :
    ((siblingsAt way (union lists.flatten)).find? fun d => d.id == id) =
      joined (groupAt way id lists.flatten) := by
  rw [siblingsAt_union hunique, find?_union, groupAt, siblingsOn_flatten hunique]

end Places

/-! ## The first of a group -/

/-- If one of the group has members, the first is an owner. -/
def FirstOwns (group : List Declaration) : Prop :=
  ∀ e ∈ group, e.children = [] ∨ ∃ first, group.head? = some first ∧ first.kind.isOwner = true

theorem joined_owns {group : List Declaration} {d : Declaration} (h : joined group = some d)
    (hfirst : FirstOwns group) : d.children = [] ∨ d.kind.isOwner = true := by
  rw [or_iff_not_imp_left]
  intro hne
  obtain ⟨n, hn⟩ := List.exists_mem_of_ne_nil _ hne
  obtain ⟨e, he, c, hc, -⟩ := exists_of_mem_joined h hn
  rcases hfirst e he with hnone | ⟨first, hhead, hkind⟩
  · exact absurd (hnone ▸ hc) List.not_mem_nil
  · have hlabel := joined_label group
    rw [h, hhead] at hlabel
    rw [kind_eq_of_label (Option.some.inj hlabel)]
    exact hkind

/-- Only owners have members after merging, if that is so before and the first
of every group owns what the group has. -/
theorem ownersOnly_union {ds : List Declaration}
    (howners : ∀ d ∈ flattenAll ds, d.children = [] ∨ d.kind.isOwner = true)
    (hfirst : ∀ way id, FirstOwns (groupAt way id ds)) :
    ∀ d ∈ flattenAll (union ds), d.children = [] ∨ d.kind.isOwner = true := by
  intro d hd
  rcases mem_union_cases hd with hd | ⟨way, id, hjoined⟩
  · exact howners d hd
  · exact joined_owns hjoined (hfirst way id)

theorem firstOwns_of_joined {group : List Declaration} {d : Declaration}
    (h : joined group = some d) (hunique : ∀ e ∈ group, (e.children.map (·.id)).Nodup)
    (howns : d.children = [] ∨ d.kind.isOwner = true) : FirstOwns group := by
  intro e he
  rw [or_iff_not_imp_left]
  intro hne
  have hlabel := joined_label group
  rw [h] at hlabel
  obtain ⟨first, hhead, hfirst⟩ := Option.map_eq_some_iff.mp hlabel.symm
  refine ⟨first, hhead, kind_eq_of_label hfirst ▸ howns.resolve_left ?_⟩
  -- The members of `e` are in the union of all members.
  obtain ⟨c, hc⟩ := List.exists_mem_of_ne_nil _ hne
  intro hnil
  have hids := ids_union (allChildren group)
  rw [← joined_children h hunique, hnil, List.map_nil] at hids
  have hmem : c.id ∈ ((allChildren group).map (·.id)).eraseDups :=
    List.mem_eraseDups.mpr (List.mem_map_of_mem (List.mem_flatMap.mpr ⟨e, he, hc⟩))
  rw [← hids] at hmem
  exact absurd hmem List.not_mem_nil

theorem firstOwns_of_union {lists : List (List Declaration)}
    (hunique : ∀ l ∈ lists, SiblingsUnique l)
    (howners : ∀ d ∈ flattenAll (union lists.flatten), d.children = [] ∨ d.kind.isOwner = true)
    (way : List DeclId) (id : DeclId) : FirstOwns (groupAt way id lists.flatten) := by
  have hfind := find?_siblingsAt_union hunique way id
  cases hjoined : joined (groupAt way id lists.flatten) with
  | none =>
      have hnil : groupAt way id lists.flatten = [] := by
        by_contra hne
        have hsome := joined_isSome.mpr hne
        rw [hjoined] at hsome
        cases hsome
      rw [hnil]
      exact nofun
  | some d =>
      rw [hjoined] at hfind
      have hd := mem_of_mem_siblingsAt way (List.mem_of_find?_eq_some hfind)
      refine firstOwns_of_joined hjoined ?_ (howners d hd)
      intro e he
      obtain ⟨t, ht, het⟩ := mem_flattenAll.mp (groupAt_subset way id _ he)
      obtain ⟨l, hl, htl⟩ := List.mem_flatten.mp ht
      exact (hunique l hl).2 e (mem_flattenAll.mpr ⟨t, htl, het⟩)

/-- Merging makes no package a member. -/
theorem membersPlain_union {ds : List Declaration} (h : MembersPlain ds) :
    MembersPlain (union ds) := by
  intro q hq n hn
  obtain ⟨group, hgroup, -, hjoined⟩ := exists_group_of_mem_union hq
  obtain ⟨e, he, c, hc, hlabel⟩ := exists_of_mem_joined hjoined hn
  rw [← kind_eq_of_label hlabel]
  exact h e (hgroup he) c hc

end Declaration

/-! ## Pages of owners -/

open Declaration

theorem exists_page_of_forall₂ {ds : List Declaration} {ps : List Page} {d : Declaration}
    (h : List.Forall₂ IsPageOf ds ps) (hd : d ∈ ds) : ∃ p ∈ ps, IsPageOf d p := by
  induction h with
  | nil => cases hd
  | cons hpage _ ih =>
      rcases List.mem_cons.mp hd with rfl | hd
      · exact ⟨_, by simp, hpage⟩
      · obtain ⟨p, hp, hpage⟩ := ih hd
        exact ⟨p, List.mem_cons_of_mem _ hp, hpage⟩

/-- What has members below a declaration with a page has a page below that one,
as long as only classes there have members. -/
theorem IsPageOf.exists_page {d q : Declaration} (hq : q ∈ d.flatten)
    (hclasses : ∀ c ∈ flattenAll d.children, c.children = [] ∨ c.kind.isClasslike = true)
    (hmembers : q.children ≠ []) {p : Page} (h : IsPageOf d p) (above : List Text) :
    ∃ e ∈ p.walk above, IsPageOf q e.1 := by
  induction d using memberInduction generalizing p above with
  | step d ih =>
      rw [flatten_eq] at hq
      rw [Page.walk_eq]
      rcases List.mem_cons.mp hq with rfl | hq
      · exact ⟨(p, above), by simp, h⟩
      · rw [flattenAll_eq_flatMap] at hq
        obtain ⟨c, hc, hqc⟩ := List.mem_flatMap.mp hq
        -- The member on the way to `q` has members itself, or it is `q`.
        have hne : c.children ≠ [] := by
          rw [flatten_eq] at hqc
          rcases List.mem_cons.mp hqc with rfl | hqc
          · exact hmembers
          · intro hnil
            rw [hnil] at hqc
            cases hqc
        have hclass := (hclasses c (mem_flattenAll_self hc)).resolve_left hne
        obtain ⟨-, -, -, -, hpages⟩ := h
        obtain ⟨p', hp', hpage⟩ :=
          exists_page_of_forall₂ hpages (List.mem_filter.mpr ⟨hc, hclass⟩)
        have hbelow : ∀ x ∈ flattenAll c.children, x.children = [] ∨ x.kind.isClasslike = true :=
          fun x hx => hclasses x (flattenAll_children_subset hc hx)
        obtain ⟨e, he, hqe⟩ := ih c hc hqc hbelow hpage (above ++ [p.name])
        refine ⟨e, List.mem_cons_of_mem _ ?_, hqe⟩
        rw [Page.walkAll_eq_flatMap]
        exact List.mem_flatMap.mpr ⟨p', hp', he⟩

namespace DocModule

/-- Whatever has members has a page that lists them. -/
def MembersShown (m : DocModule) : Prop :=
  ∀ q ∈ m.declarations, q.children = [] ∨ ∃ p ∈ (PageTree.create m).value.pages, IsPageOf q p

theorem OwnersOnly.membersShown {m : DocModule} (h : m.OwnersOnly)
    (hplain : MembersPlain m.packages) : m.MembersShown := by
  intro q hq
  rw [or_iff_not_imp_left]
  intro hmembers
  rw [declarations, flattenAll_eq_flatMap] at hq
  obtain ⟨t, ht, hqt⟩ := List.mem_flatMap.mp hq
  have hclasses : ∀ c ∈ flattenAll t.children, c.children = [] ∨ c.kind.isClasslike = true := by
    intro c hc
    have hcm := flattenAll_children_subset ht hc
    refine (h c hcm).imp_right fun howner => ?_
    -- No package is a member, so an owner below the packages is a class.
    obtain ⟨b, hb, hcb⟩ : ∃ b ∈ flattenAll m.packages, c ∈ b.children := by
      rcases mem_flattenAll_cases hc with hc | ⟨b, hb, hcb⟩
      · exact ⟨t, mem_flattenAll_self ht, hc⟩
      · exact ⟨b, flattenAll_children_subset ht hb, hcb⟩
    have hkind := hplain b hb c hcb
    simpa [Kind.isOwner, hkind] using howner
  obtain ⟨p, hp, hpage⟩ := exists_page_of_forall₂ (PageTree.forall₂_ofModule hplain) ht
  obtain ⟨e, he, hqe⟩ := hpage.exists_page hqt hclasses hmembers []
  refine ⟨e.1, List.mem_map_of_mem ?_, hqe⟩
  rw [PageTree.walk, Page.walkAll_eq_flatMap]
  exact List.mem_flatMap.mpr ⟨p, hp, he⟩

/-! ## Merged modules -/

/-- At every place the first of the modules' declarations is an owner, if one
of them has members. -/
def FirstsOwn (ms : List DocModule) : Prop :=
  ∀ way id, FirstOwns (groupAt way id (ms.map (·.packages)).flatten)

/-- It is enough that what has members in one of the modules is an owner in all
of them. -/
theorem firstsOwn_of_agree {ms : List DocModule}
    (h : ∀ d ∈ flattenAll (ms.map (·.packages)).flatten,
      ∀ e ∈ flattenAll (ms.map (·.packages)).flatten,
        e.id = d.id → e.children = [] ∨ d.kind.isOwner = true) : FirstsOwn ms := by
  intro way id e he
  obtain ⟨first, hfirst⟩ : ∃ first, (groupAt way id (ms.map (·.packages)).flatten).head? =
      some first := by
    cases hgroup : groupAt way id (ms.map (·.packages)).flatten with
    | nil =>
        rw [hgroup] at he
        cases he
    | cons first rest => exact ⟨first, rfl⟩
  have hmem := List.mem_of_head? hfirst
  have hid : ∀ x ∈ groupAt way id (ms.map (·.packages)).flatten, x.id = id := by
    intro x hx
    simpa using (List.mem_filter.mp hx).2
  have hsame : e.id = first.id := (hid e he).trans (hid first hmem).symm
  exact (h first (groupAt_subset _ _ _ hmem) e (groupAt_subset _ _ _ he) hsame).imp_right
    fun howner => ⟨first, hfirst, howner⟩

theorem merge_cases {ms : List DocModule} (hne : ms ≠ []) :
    ∃ r, (merge ms).value = .ok r ∧
      (ms = [r] ∨ r.packages = union (ms.map (·.packages)).flatten) := by
  obtain ⟨r, hr, hcases⟩ := merge_ok hne
  refine ⟨r, hr, hcases.imp_right ?_⟩
  rintro rfl
  exact merged_packages ms

/-- What is below the packages of the modules is as it is in one of them. -/
theorem forall_packages {ms : List DocModule} {P : Declaration → Prop}
    (h : ∀ m ∈ ms, ∀ d ∈ m.declarations, P d) :
    ∀ d ∈ flattenAll (ms.map (·.packages)).flatten, P d := by
  intro d hd
  obtain ⟨m, hm, hdm⟩ := exists_module_of_mem hd
  exact h m hm d hdm

/-- **Owners stay owners where the first platform has them.**  If in each of
the modules only owners have members, this is so in the merged module, and all
members are shown, whenever the first of the modules to have a declaration has
it as an owner or none of them has members of it.  Otherwise there is a
declaration with members that is no owner. -/
theorem merge_ownersOnly (ms : List DocModule) (hne : ms ≠ [])
    (howners : ∀ m ∈ ms, m.OwnersOnly) :
    ∃ r, (merge ms).value = .ok r ∧
      (FirstsOwn ms → r.OwnersOnly ∧ ((∀ m ∈ ms, MembersPlain m.packages) → r.MembersShown)) ∧
      ((∀ m ∈ ms, m.SiblingsUnique) → r.OwnersOnly → FirstsOwn ms) := by
  obtain ⟨r, hr, hcases⟩ := merge_cases hne
  have hplain : (∀ m ∈ ms, MembersPlain m.packages) → MembersPlain r.packages := by
    intro h
    rcases hcases with rfl | hpackages
    · exact h r (by simp)
    · rw [hpackages]
      exact membersPlain_union (forall_packages h)
  refine ⟨r, hr, ?_, ?_⟩
  · intro hfirst
    have hkept : r.OwnersOnly := by
      rcases hcases with rfl | hpackages
      · exact howners r (by simp)
      · unfold OwnersOnly declarations
        rw [hpackages]
        exact ownersOnly_union (forall_packages howners) hfirst
    exact ⟨hkept, fun h => hkept.membersShown (hplain h)⟩
  · intro hunique hkept way id
    apply firstOwns_of_union (packages_unique hunique)
    have hpackages : union (ms.map (·.packages)).flatten = r.packages := by
      rcases hcases with rfl | hpackages
      · simpa using union_of_nodup (hunique r (by simp)).1
      · exact hpackages.symm
    rw [hpackages]
    exact hkept

/-- One platform's view of a package with a declaration `C` and its members. -/
def sampleOwner (family : Family) (kind : Kind) (functions : List Text) : DocModule :=
  let facts : FactsMap := .singleton ⟨"m", family, []⟩ {}
  let a : DeclId := .ofPackage "a"
  let c : DeclId := a.withClass "C"
  let function (name : Text) : Declaration :=
    { kind := .function, name := name, id := c.withCallable name "()", parent := some c
      facts := facts }
  { name := "m"
    facts := facts
    packages := [{
      name := "a"
      id := a
      facts := facts
      children := [{ kind := kind, name := "C", id := c, parent := some a, facts := facts
                     children := functions.map function }] }] }

/-- A class on one platform and an interface on the other stay an owner. -/
theorem merge_ownersOnly_sample :
    ∃ r, (merge [sampleOwner .jvm .classType [], sampleOwner .js .interfaceType ["f"]]).value =
        .ok r ∧ r.OwnersOnly ∧ r.MembersShown := by
  obtain ⟨r, hr, hkept, -⟩ :=
    merge_ownersOnly [sampleOwner .jvm .classType [], sampleOwner .js .interfaceType ["f"]]
      (by simp) (by decide)
  obtain ⟨howners, hshown⟩ := hkept (firstsOwn_of_agree (by decide))
  exact ⟨r, hr, howners, hshown (by decide)⟩

/-- A type alias on the first platform takes the place of a class on the other,
and a function of the class is on no page. -/
theorem merge_aliasFirst_hidesMember :
    (∀ m ∈ [sampleOwner .jvm .typeAlias [], sampleOwner .js .classType ["f"]], m.OwnersOnly) ∧
      ∃ r, (merge [sampleOwner .jvm .typeAlias [], sampleOwner .js .classType ["f"]]).value =
          .ok r ∧ ¬ r.OwnersOnly ∧
        ∃ f ∈ r.declarations, f.name = "f" ∧
          ∀ p ∈ (PageTree.create r).value.pages, ∀ row ∈ p.content.rows, row.target ≠ f.id := by
  refine ⟨by decide, _, rfl, by decide, ?_⟩
  decide

end DocModule

end CrossDoc
