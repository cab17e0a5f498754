import CrossDoc.Proofs.PageCoverage
import CrossDoc.Proofs.PageLinks

/-!
# Where links lead

A link is followed from its target outwards until a page is found.  In a module
where members take their identities from their owners this way runs along the
owners, and so it ends at the page of the nearest one that has a page.
-/

namespace CrossDoc

namespace DeclId

/-- More steps than there are enclosing declarations make no difference. -/
theorem climb_eq_climb {d : DeclId} {j k : Nat} (hj : d.level ≤ j) (hk : d.level ≤ k) :
    climb j d = climb k d := by
  have houter : ∀ {e : DeclId}, e.parent? = none → ∀ n, climb n e = [e] := by
    intro e hnone n
    cases n with
    | zero => rfl
    | succ n => rw [climb, hnone]
  induction j generalizing d k with
  | zero =>
      cases hup : d.parent? with
      | none => rw [houter hup, houter hup]
      | some up =>
          have hstep := level_of_parent? hup
          omega
  | succ j ih =>
      cases hup : d.parent? with
      | none => rw [houter hup, houter hup]
      | some up =>
          have hstep := level_of_parent? hup
          obtain ⟨k, rfl⟩ : ∃ n, k = n + 1 := ⟨k - 1, by omega⟩
          rw [climb, climb, hup]
          dsimp only
          rw [ih (show up.level ≤ j by omega) (show up.level ≤ k by omega)]

theorem level_le (d : DeclId) : d.level ≤ d.classes.length + 1 := by
  unfold level
  split <;> omega

theorem lineage_of_parent? {d up : DeclId} (h : d.parent? = some up) :
    d.lineage = d :: up.lineage := by
  have hstep := level_of_parent? h
  have hlevel := d.level_le
  rw [lineage, climb, h]
  dsimp only
  rw [lineage, climb_eq_climb (show up.level ≤ d.classes.length by omega) up.level_le]

theorem exists_lineage (d : DeclId) : ∃ rest, d.lineage = d :: rest := by
  unfold lineage climb
  split
  · exact ⟨_, rfl⟩
  · exact ⟨_, rfl⟩

end DeclId

namespace PageTree

variable {t : PageTree} {id : DeclId} {path : Text}

/-! ## Paths of declarations -/

/-- A page at this path documents the declaration. -/
def HasPage (t : PageTree) (id : DeclId) (path : Text) : Prop :=
  ∃ p, (p, path) ∈ t.pathed ∧ id ∈ p.ids

theorem hasPage_of_pathOf? (h : t.pathOf? id = some path) : t.HasPage id path := by
  obtain ⟨e, he, rfl⟩ := Option.map_eq_some_iff.mp h
  refine ⟨e.1, List.mem_of_find?_eq_some he, ?_⟩
  simpa using List.find?_some he

theorem exists_pathOf? (h : id ∈ t.documentedIds) : ∃ path, t.pathOf? id = some path := by
  rw [documentedIds_eq] at h
  obtain ⟨e, he, hid⟩ := List.mem_flatMap.mp h
  have hsome : (t.pathOf? id).isSome := by
    rw [pathOf?, Option.isSome_map, List.find?_isSome]
    refine ⟨(e.1, t.pagePath e.1 e.2), List.mem_map.mpr ⟨e, he, rfl⟩, ?_⟩
    simpa using hid
  exact Option.isSome_iff_exists.mp hsome

theorem mem_documentedIds_of_hasPage (h : t.HasPage id path) : id ∈ t.documentedIds := by
  obtain ⟨p, hp, hid⟩ := h
  obtain ⟨e, he, heq⟩ := List.mem_map.mp hp
  obtain ⟨rfl, -⟩ := Prod.mk.inj heq
  rw [documentedIds_eq]
  exact List.mem_flatMap.mpr ⟨e, he, hid⟩

/-- A declaration has one path if it has one page. -/
theorem hasPage_unique (hnodup : t.documentedIds.Nodup) {other : Text} (h : t.HasPage id path)
    (hother : t.HasPage id other) : path = other := by
  obtain ⟨p, hp, hid⟩ := h
  obtain ⟨q, hq, hidq⟩ := hother
  have hpathed : t.documentedIds = t.pathed.flatMap (·.1.ids) := by
    rw [documentedIds_eq, pathed, List.flatMap_map]
  rw [hpathed, List.nodup_flatMap] at hnodup
  by_contra hne
  have hpages : (p, path) ≠ (q, other) := fun heq => hne (Prod.mk.inj heq).2
  have : Std.Symm (Function.onFun List.Disjoint fun e : Page × Text => e.1.ids) :=
    ⟨fun _ _ hapart => hapart.symm⟩
  have hapart := hnodup.2.forall hp hq hpages
  exact List.disjoint_left.mp hapart hid hidq

/-- The path of a declaration, or else that of the declaration around it. -/
theorem resolve?_of_pathOf? (h : t.pathOf? id = some path) : t.resolve? id = some path := by
  obtain ⟨rest, hlineage⟩ := id.exists_lineage
  rw [resolve?, hlineage, List.findSome?_cons, h]

theorem resolve?_of_hasPage (hnodup : t.documentedIds.Nodup) (h : t.HasPage id path) :
    t.resolve? id = some path := by
  obtain ⟨other, hother⟩ := exists_pathOf? (mem_documentedIds_of_hasPage h)
  obtain rfl := hasPage_unique hnodup h (hasPage_of_pathOf? hother)
  exact resolve?_of_pathOf? hother

theorem resolve?_of_parent? {up : DeclId} (hnone : t.pathOf? id = none)
    (hup : id.parent? = some up) : t.resolve? id = t.resolve? up := by
  rw [resolve?, DeclId.lineage_of_parent? hup, List.findSome?_cons, hnone]
  rfl

end PageTree

namespace DocModule

open Declaration PageTree

/-- The page of the declaration has this path, or the declaration has no page
and that of the nearest owner that has one does. -/
inductive LeadsTo (m : DocModule) (t : PageTree) : Declaration → Text → Prop where
  | itself {n : Declaration} {path : Text} (page : t.HasPage n.id path) : LeadsTo m t n path
  | owner {n q : Declaration} {path : Text} (none : ∀ other, ¬ t.HasPage n.id other)
      (owner : q ∈ m.declarations) (member : n ∈ q.children) (up : LeadsTo m t q path) :
      LeadsTo m t n path

section Links

variable {m : DocModule} {t : PageTree}

theorem LeadsTo.resolve? (hnodup : t.documentedIds.Nodup) (hparents : MembersWithin m.declarations)
    {n : Declaration} {path : Text} (h : m.LeadsTo t n path) : t.resolve? n.id = some path := by
  induction h with
  | @itself n path page => exact resolve?_of_hasPage hnodup page
  | @owner n q path none howner hmember _ ih =>
      have hnone : t.pathOf? n.id = Option.none :=
        Option.eq_none_iff_forall_ne_some.mpr fun other h => none other (hasPage_of_pathOf? h)
      rw [resolve?_of_parent? hnone (hparents q howner n hmember)]
      exact ih

/-- If the packages have pages, every declaration leads to one. -/
theorem exists_leadsTo (hpackages : ∀ d ∈ m.packages, d.id ∈ t.documentedIds) :
    ∀ n ∈ m.declarations, ∃ path, m.LeadsTo t n path := by
  have hitself : ∀ {d : Declaration}, d.id ∈ t.documentedIds → ∃ path, m.LeadsTo t d path := by
    intro d hd
    obtain ⟨path, hpath⟩ := exists_pathOf? hd
    exact ⟨path, .itself (hasPage_of_pathOf? hpath)⟩
  apply reachInduction
  · exact fun d hd => hitself (hpackages d hd)
  · rintro q hq ⟨path, hup⟩ n hn
    by_cases hpage : n.id ∈ t.documentedIds
    · exact hitself hpage
    · have hnone : ∀ other, ¬ t.HasPage n.id other :=
        fun other h => hpage (mem_documentedIds_of_hasPage h)
      exact ⟨path, .owner hnone hq hn hup⟩

end Links

end DocModule

namespace PageTree

open Declaration DocModule

/-- Every link of the pages of a module targets a declaration of it, and is
resolved to the path of the page of this declaration or, if it has none, of the
nearest owner that has one. -/
theorem resolve?_linkTargets (ps : List PageTransform) {m : DocModule}
    (hdistinct : (m.declarations.map (·.id)).Nodup) (hparents : MembersWithin m.declarations) :
    ∀ id ∈ (extended ps m).value.linkTargets, ∃ n ∈ m.declarations, n.id = id ∧
      ∃ path, (extended ps m).value.resolve? id = some path ∧
        ∀ other, m.LeadsTo (extended ps m).value n other ↔ other = path := by
  intro id hid
  obtain ⟨n, hn, rfl⟩ := linkTargets_extended ps m id hid
  have hdocumented := documentedIds_extended ps m
  have hnodup : (extended ps m).value.documentedIds.Nodup := by
    rw [hdocumented]
    exact hdistinct.sublist (sublist_documentedIds_ofModule m)
  have hpackages : ∀ d ∈ m.packages, d.id ∈ (extended ps m).value.documentedIds := by
    intro d hd
    rw [hdocumented]
    exact mem_documentedIds_of_package hd
  obtain ⟨path, hpath⟩ := exists_leadsTo hpackages n hn
  refine ⟨n, hn, rfl, path, hpath.resolve? hnodup hparents, fun other => ⟨?_, ?_⟩⟩
  · intro hother
    have hsame := (hpath.resolve? hnodup hparents).symm.trans (hother.resolve? hnodup hparents)
    exact (Option.some.inj hsame).symm
  · rintro rfl
    exact hpath

theorem resolve?_linkTargets_sampleModel :
    ((sampleModel.declarations.map (·.id)).Nodup ∧ MembersWithin sampleModel.declarations) ∧
      ∀ id ∈ (extended [.navigation, .indexPages, .searchIndex] sampleModel).value.linkTargets,
        ∃ n ∈ sampleModel.declarations, n.id = id ∧
          ∃ path, (extended [.navigation, .indexPages, .searchIndex] sampleModel).value.resolve? id =
              some path ∧
            ∀ other, sampleModel.LeadsTo
              (extended [.navigation, .indexPages, .searchIndex] sampleModel).value n other ↔
                other = path := by
  have hdistinct : (sampleModel.declarations.map (·.id)).Nodup := by decide
  have hparents : MembersWithin sampleModel.declarations := by decide
  exact ⟨⟨hdistinct, hparents⟩, resolve?_linkTargets _ hdistinct hparents⟩

/-- A function has no page and is found on that of its class. -/
example : ∃ path ∈ (ofModule sampleModel).resolve?
    (((DeclId.ofPackage "a").withClass "Outer").withCallable "run" []), path = "m/a/Outer.md" := by
  decide

end PageTree

end CrossDoc
