import CrossDoc.Proofs.Merging

/-!
# Merging in steps

Modules may be merged in steps, and a module that takes part already adds
nothing when it is merged once more.  Both follow from one fact: what modules
say together tells the merged module in full, down to the order of siblings
and platforms.  Neither depends on the cases in which a module or a
declaration is kept as it is, since these give what merging in general gives.
-/

namespace CrossDoc

namespace Declaration

open FirstOccurrence

/-! ## Forests told by their places -/

/-- At every place the forests have the same siblings in the same order, and
say the same about each of them. -/
structure AgreesWith (ds es : List Declaration) : Prop where
  ids : ∀ way, (siblingsAt way ds).map (·.id) = (siblingsAt way es).map (·.id)
  labels : ∀ way id, ((siblingsAt way ds).find? fun d => d.id == id).map label =
    ((siblingsAt way es).find? fun e => e.id == id).map label
  facts : ∀ way id, ((siblingsAt way ds).find? fun d => d.id == id).map (·.facts) =
    ((siblingsAt way es).find? fun e => e.id == id).map (·.facts)

theorem AgreesWith.membersOf {ds es : List Declaration} (h : AgreesWith ds es) (id : DeclId) :
    AgreesWith (membersOf id ds) (membersOf id es) :=
  ⟨fun way => h.ids (id :: way), fun way => h.labels (id :: way), fun way => h.facts (id :: way)⟩

theorem membersOf_of_mem {ds : List Declaration} (h : (ds.map (·.id)).Nodup) {d : Declaration}
    (hd : d ∈ ds) : membersOf d.id ds = d.children := by
  rw [membersOf, find?_key_of_mem h hd]
  rfl

/-- Siblings that agree are equal as soon as their members are. -/
theorem eq_of_agreesWith_of_children {ds es : List Declaration} (hds : (ds.map (·.id)).Nodup)
    (h : AgreesWith ds es)
    (hchildren : ∀ d ∈ ds, ∀ e ∈ es, d.id = e.id → d.children = e.children) : ds = es := by
  refine eq_of_find?_key hds (h.ids []) fun id => ?_
  have hlabel := h.labels [] id
  have hfacts := h.facts [] id
  unfold siblingsAt at hlabel hfacts
  cases hd : ds.find? fun d => d.id == id with
  | none =>
      rw [hd] at hlabel
      exact (Option.map_eq_none_iff.mp hlabel.symm).symm
  | some d =>
      rw [hd] at hlabel hfacts
      obtain ⟨e, he, hde⟩ := Option.map_eq_some_iff.mp hlabel.symm
      rw [he] at hfacts ⊢
      have hmembers := hchildren d (List.mem_of_find?_eq_some hd) e (List.mem_of_find?_eq_some he)
        (id_eq_of_label hde.symm)
      rw [eq_of_label hde.symm (Option.some.inj hfacts) hmembers]

/-- Forests with unique siblings that agree at every place are equal. -/
theorem eq_of_agreesWith {ds es : List Declaration} (hunique : SiblingsUnique ds)
    (h : AgreesWith ds es) : ds = es := by
  have members : ∀ d : Declaration, ∀ es, SiblingsUnique d.children → AgreesWith d.children es →
      d.children = es := by
    intro d
    induction d using memberInduction with
    | step d ih =>
        intro es hunique h
        refine eq_of_agreesWith_of_children hunique.1 h fun c hc e he hid => ?_
        have hes : (es.map (·.id)).Nodup := h.ids [] ▸ hunique.1
        have hce := h.membersOf c.id
        rw [membersOf_of_mem hunique.1 hc, hid, membersOf_of_mem hes he] at hce
        exact ih c hc e.children (hunique.children (mem_flattenAll_self hc)) hce
  exact members { children := ds } es hunique h

/-! ## Merging without shortcuts -/

/-- Merges siblings as `mergeSiblings` does, but also those that occur once. -/
def mergeEvery : Nat → List Declaration → List Declaration
  | 0, siblings => siblings
  | levels + 1, siblings =>
      (groups siblings).filterMap fun group =>
        match group with
        | [] => none
        | d :: _ =>
            some { d with
              facts := mergedFacts group
              children := mergeEvery levels (allChildren group) }

theorem mergeSiblings_of_nodup {siblings : List Declaration}
    (h : (siblings.map (·.id)).Nodup) (levels : Nat) :
    mergeSiblings levels siblings = siblings := by
  cases levels with
  | zero => rfl
  | succ levels =>
      rw [mergeSiblings_succ, groups, eraseDups_of_nodup h, List.filterMap_map, List.filterMap_map]
      have hgroup : ∀ d ∈ siblings, ((joinWith (mergeSiblings levels) ∘
          fun id => siblings.filter fun e => e.id == id) ∘ (·.id)) d = some d := by
        intro d hd
        simp [filter_key_of_nodup d.id h, find?_key_of_mem h hd, joinWith]
      rw [List.filterMap_congr hgroup, List.filterMap_some]

/-- A declaration that occurs once would be merged to itself. -/
theorem mergeEvery_eq (levels : Nat) {siblings : List Declaration}
    (h : ∀ d ∈ flattenAll siblings, d.facts.Distinct ∧ (d.children.map (·.id)).Nodup) :
    mergeEvery levels siblings = mergeSiblings levels siblings := by
  induction levels generalizing siblings with
  | zero => rfl
  | succ levels ih =>
      rw [mergeEvery, mergeSiblings]
      apply List.filterMap_congr
      intro group hgroup
      have hsub := group_subset hgroup
      have hmembers : mergeEvery levels (allChildren group) =
          mergeSiblings levels (allChildren group) := by
        refine ih fun d hd => h d ?_
        obtain ⟨c, hc, hdc⟩ := mem_flattenAll.mp hd
        obtain ⟨e, he, hce⟩ := List.mem_flatMap.mp hc
        have hc := mem_flattenAll_child (mem_flattenAll_self (hsub he)) hce
        rcases hdc with rfl | hdc
        · exact hc
        · exact flattenAll_children_subset_of_mem hc hdc
      rcases group with _ | ⟨d, _ | ⟨e, rest⟩⟩
      · rfl
      · obtain ⟨hfacts, hchildren⟩ := h d (mem_flattenAll_self (hsub (by simp)))
        have hsame : mergedFacts [d] = d.facts := PlatformMap.empty_merge hfacts
        have hkept : mergeSiblings levels (allChildren [d]) = d.children := by
          rw [allChildren, List.flatMap_singleton, mergeSiblings_of_nodup hchildren]
        exact congrArg some (eq_of_label rfl hsame (hmembers.trans hkept))
      · show some _ = some _
        rw [hmembers]

end Declaration

namespace DocModule

open Declaration FirstOccurrence

/-! ## Unions are told by their modules -/

section Union

variable {ms : List DocModule} {r s : DocModule}

/-- The platforms at a place, where none stands for a place that is not
taken. -/
theorem IsUnionOf.platformsAt (h : IsUnionOf ms r) (way : List DeclId) (id : DeclId) :
    ((r.nodeAt? way id).map (·.platforms)).getD [] =
      (ms.flatMap fun m => ((m.nodeAt? way id).map (·.platforms)).getD []).eraseDups := by
  cases hr : r.nodeAt? way id with
  | some d => exact h.platforms way id d hr
  | none =>
      have hnone : ∀ m ∈ ms, m.nodeAt? way id = none := by
        intro m hm
        by_contra hne
        have htaken := (h.taken way id).mpr ⟨m, hm, Option.isSome_iff_ne_none.mpr hne⟩
        rw [hr] at htaken
        cases htaken
      have hnil : (ms.flatMap fun m => ((m.nodeAt? way id).map (·.platforms)).getD []) = [] := by
        rw [List.flatMap_eq_nil_iff]
        intro m hm
        rw [hnone m hm]
        rfl
      rw [hnil]
      rfl

theorem IsUnionOf.distinct_of_nodeAt? (h : IsUnionOf ms r) {way : List DeclId} {id : DeclId}
    {d : Declaration} (hd : r.nodeAt? way id = some d) : d.facts.Distinct := by
  show d.platforms.Nodup
  rw [h.platforms way id d hd]
  exact nodup_eraseDups _

theorem IsUnionOf.facts_eq (h : IsUnionOf ms r) (h' : IsUnionOf ms s) (way : List DeclId)
    (id : DeclId) : (r.nodeAt? way id).map (·.facts) = (s.nodeAt? way id).map (·.facts) := by
  have hlabel := (h.label way id).trans (h'.label way id).symm
  have hfacts : ∀ p, _ = _ := fun p => (h.facts way id p).trans (h'.facts way id p).symm
  have hplatforms := (h.platformsAt way id).trans (h'.platformsAt way id).symm
  cases hr : r.nodeAt? way id with
  | none =>
      rw [hr] at hlabel
      rw [Option.map_eq_none_iff.mp hlabel.symm]
  | some d =>
      rw [hr] at hlabel hfacts hplatforms
      obtain ⟨e, he, _⟩ := Option.map_eq_some_iff.mp hlabel.symm
      rw [he] at hfacts hplatforms ⊢
      exact congrArg some
        (PlatformMap.eq_of_find? (h.distinct_of_nodeAt? hr) hplatforms hfacts)

/-- What modules say together tells their union. -/
theorem IsUnionOf.eq (h : IsUnionOf ms r) (h' : IsUnionOf ms s) : r = s := by
  have hname : r.name = s.name := h.name.trans h'.name.symm
  have hfacts : r.facts = s.facts := by
    apply PlatformMap.eq_of_find?
    · show r.platforms.Nodup
      rw [h.modulePlatforms]
      exact nodup_eraseDups _
    · exact h.modulePlatforms.trans h'.modulePlatforms.symm
    · exact fun p => (h.moduleFacts p).trans (h'.moduleFacts p).symm
  have hpackages : r.packages = s.packages := by
    apply eq_of_agreesWith h.unique
    constructor
    · exact fun way => (h.siblings way).trans (h'.siblings way).symm
    · exact fun way id => (h.label way id).trans (h'.label way id).symm
    · exact fun way id => h.facts_eq h' way id
  cases r
  cases s
  cases hname
  cases hfacts
  cases hpackages
  rfl

/-! ## Other modules with the same union -/

/-- The name that a module gives to a union. -/
def givenName? (m : DocModule) : Option Text := if m.name.isEmpty then none else some m.name

theorem findSome?_givenName? (ms : List DocModule) :
    ms.findSome? givenName? = (ms.map (·.name)).find? fun n => !n.isEmpty := by
  induction ms with
  | nil => rfl
  | cons m rest ih =>
      rw [List.findSome?_cons, ih, givenName?, List.map_cons, List.find?_cons]
      cases m.name <;> rfl

theorem IsUnionOf.givenName?_eq (h : IsUnionOf ms r) : r.givenName? = ms.findSome? givenName? := by
  rw [findSome?_givenName?, givenName?, h.name]
  cases hn : (ms.map (·.name)).find? fun n => !n.isEmpty with
  | none => rfl
  | some n =>
      have hne := List.find?_some hn
      rw [Option.getD_some, if_neg (by simpa using hne)]

/-- The union of unions is the union of all their modules. -/
theorem IsUnionOf.flatten {mss : List (List DocModule)} {join : List DocModule → DocModule}
    (hjoin : ∀ l ∈ mss, IsUnionOf l (join l)) (h : IsUnionOf (mss.map join) r) :
    IsUnionOf mss.flatten r where
  name := by
    rw [h.name, ← findSome?_givenName?, ← findSome?_givenName?,
      findSome?_map_join fun l hl => (hjoin l hl).givenName?_eq]
  moduleFacts p := by
    rw [h.moduleFacts, findSome?_map_join fun l hl => (hjoin l hl).moduleFacts p]
  modulePlatforms := by
    rw [h.modulePlatforms, eraseDups_flatMap_map_join fun l hl => (hjoin l hl).modulePlatforms]
  taken way id := by
    rw [h.taken]
    constructor
    · rintro ⟨m, hm, htaken⟩
      obtain ⟨l, hl, rfl⟩ := List.mem_map.mp hm
      obtain ⟨m, hm, htaken⟩ := ((hjoin l hl).taken way id).mp htaken
      exact ⟨m, List.mem_flatten.mpr ⟨l, hl, hm⟩, htaken⟩
    · rintro ⟨m, hm, htaken⟩
      obtain ⟨l, hl, hml⟩ := List.mem_flatten.mp hm
      exact ⟨join l, List.mem_map_of_mem hl, ((hjoin l hl).taken way id).mpr ⟨m, hml, htaken⟩⟩
  facts way id p := by
    rw [h.facts, findSome?_map_join fun l hl => (hjoin l hl).facts way id p]
  label way id := by
    rw [h.label, findSome?_map_join fun l hl => (hjoin l hl).label way id]
  platforms way id d hd := by
    rw [h.platforms way id d hd,
      eraseDups_flatMap_map_join fun l hl => (hjoin l hl).platformsAt way id]
  unique := h.unique
  siblings way := by
    rw [h.siblings, List.map_flatMap, List.map_flatMap]
    refine eraseDups_flatMap_map_join fun l hl => ?_
    rw [(hjoin l hl).siblings, List.map_flatMap]

theorem findSome?_append_of_mem {γ : Type} (f : DocModule → Option γ) {m : DocModule}
    (hm : m ∈ ms) : (ms ++ [m]).findSome? f = ms.findSome? f := by
  rw [List.findSome?_append]
  cases h : ms.findSome? f with
  | some x => rfl
  | none => simpa using List.findSome?_eq_none_iff.mp h m hm

theorem eraseDups_flatMap_append_of_mem {γ : Type} [DecidableEq γ] (f : DocModule → List γ)
    {m : DocModule} (hm : m ∈ ms) :
    ((ms ++ [m]).flatMap f).eraseDups = (ms.flatMap f).eraseDups := by
  rw [List.flatMap_append, List.flatMap_singleton]
  exact eraseDups_append_of_subset fun x hx => List.mem_flatMap.mpr ⟨m, hm, hx⟩

/-- A module that takes part already adds nothing to a union. -/
theorem IsUnionOf.append_of_mem (h : IsUnionOf ms r) {m : DocModule} (hm : m ∈ ms) :
    IsUnionOf (ms ++ [m]) r where
  name := by
    rw [h.name, ← findSome?_givenName?, ← findSome?_givenName?, findSome?_append_of_mem _ hm]
  moduleFacts p := by rw [h.moduleFacts, findSome?_append_of_mem _ hm]
  modulePlatforms := by rw [h.modulePlatforms, eraseDups_flatMap_append_of_mem _ hm]
  taken way id := by
    rw [h.taken]
    constructor
    · rintro ⟨n, hn, htaken⟩
      exact ⟨n, List.mem_append_left [m] hn, htaken⟩
    · rintro ⟨n, hn, htaken⟩
      rcases List.mem_append.mp hn with hn | hn
      · exact ⟨n, hn, htaken⟩
      · exact ⟨m, hm, List.mem_singleton.mp hn ▸ htaken⟩
  facts way id p := by rw [h.facts, findSome?_append_of_mem _ hm]
  label way id := by rw [h.label, findSome?_append_of_mem _ hm]
  platforms way id d hd := by
    rw [h.platforms way id d hd, eraseDups_flatMap_append_of_mem _ hm]
  unique := h.unique
  siblings way := by
    rw [h.siblings, List.map_flatMap, List.map_flatMap, eraseDups_flatMap_append_of_mem _ hm]

end Union

/-! ## Merged modules -/

theorem platformsDistinct_merged {ms : List DocModule} (hdistinct : ∀ m ∈ ms, m.PlatformsDistinct) :
    (merged ms).PlatformsDistinct := by
  constructor
  · exact distinct_facts_merged ms
  · intro d hd
    unfold declarations at hd
    rw [merged_packages] at hd
    obtain ⟨group, hgroup, _, hjoined⟩ := exists_group_of_mem_union hd
    have hplatforms := joined_platforms hjoined fun e he => by
      obtain ⟨m, hm, hem⟩ := exists_module_of_mem (hgroup he)
      exact (hdistinct m hm).2 e hem
    show d.platforms.Nodup
    rw [hplatforms]
    exact nodup_eraseDups _

/-- The module that merging gives without keeping any module or declaration as
it is. -/
def mergedEvery (ms : List DocModule) : DocModule :=
  let siblings := ms.flatMap (·.packages)
  { name := (ms.find? fun m => !m.name.isEmpty).elim [] (·.name)
    facts := ms.foldl (fun facts m => facts.merge m.facts) .empty
    packages := mergeEvery (heightAll siblings) siblings }

theorem mergedEvery_eq {ms : List DocModule} (hunique : ∀ m ∈ ms, m.SiblingsUnique)
    (hdistinct : ∀ m ∈ ms, m.PlatformsDistinct) : mergedEvery ms = merged ms := by
  have hproper : ∀ d ∈ flattenAll (ms.flatMap (·.packages)),
      d.facts.Distinct ∧ (d.children.map (·.id)).Nodup := by
    intro d hd
    rw [List.flatMap_def] at hd
    obtain ⟨m, hm, hdm⟩ := exists_module_of_mem hd
    exact ⟨(hdistinct m hm).2 d hdm, (hunique m hm).2 d hdm⟩
  rw [mergedEvery, merged, mergeEvery_eq _ hproper]

/-- **Merging may be done in steps and repeated.**  However modules are put
into groups, merging each group and then the results gives the very module
that merging all of them at once gives; merging a module once more changes
nothing; and that a single module or declaration is kept as it is makes no
difference. -/
theorem merge_flatten (ms : List DocModule) (hne : ms ≠ []) (hunique : ∀ m ∈ ms, m.SiblingsUnique)
    (hdistinct : ∀ m ∈ ms, m.PlatformsDistinct) :
    (∀ mss : List (List DocModule), mss.flatten = ms → (∀ l ∈ mss, l ≠ []) →
      ∃ rs r, List.Forall₂ (fun l m => (merge l).value = .ok m) mss rs ∧
        (merge rs).value = .ok r ∧ (merge ms).value = .ok r) ∧
    (∀ m ∈ ms, ∃ r, (merge (ms ++ [m])).value = .ok r ∧ (merge ms).value = .ok r) ∧
    (merge ms).value = .ok (mergedEvery ms) := by
  have hmerge := merge_value hne hunique hdistinct
  have hunion := merged_isUnionOf hunique hdistinct
  refine ⟨?_, ?_, ?_⟩
  · rintro mss rfl hgroups
    have hmem : ∀ l ∈ mss, ∀ m ∈ l, m ∈ mss.flatten := fun l hl m hm =>
      List.mem_flatten.mpr ⟨l, hl, hm⟩
    have huniqueAt : ∀ l ∈ mss, ∀ m ∈ l, m.SiblingsUnique := fun l hl m hm =>
      hunique m (hmem l hl m hm)
    have hdistinctAt : ∀ l ∈ mss, ∀ m ∈ l, m.PlatformsDistinct := fun l hl m hm =>
      hdistinct m (hmem l hl m hm)
    have hresults : ∀ m ∈ mss.map merged, m.SiblingsUnique ∧ m.PlatformsDistinct := by
      intro m hm
      obtain ⟨l, hl, rfl⟩ := List.mem_map.mp hm
      exact ⟨merged_unique (huniqueAt l hl), platformsDistinct_merged (hdistinctAt l hl)⟩
    have hne' : mss.map merged ≠ [] := by
      intro hnil
      rw [List.map_eq_nil_iff.mp hnil] at hne
      exact hne rfl
    have hsteps := merged_isUnionOf (fun m hm => (hresults m hm).1) fun m hm => (hresults m hm).2
    have hall := hsteps.flatten fun l hl => merged_isUnionOf (huniqueAt l hl) (hdistinctAt l hl)
    refine ⟨mss.map merged, merged mss.flatten, ?_, ?_, hmerge⟩
    · rw [List.forall₂_map_right_iff, List.forall₂_same]
      exact fun l hl => merge_value (hgroups l hl) (huniqueAt l hl) (hdistinctAt l hl)
    · rw [merge_value hne' (fun m hm => (hresults m hm).1) fun m hm => (hresults m hm).2]
      exact congrArg Except.ok (hall.eq hunion)
  · intro m hm
    have hmem : ∀ n ∈ ms ++ [m], n ∈ ms := by
      intro n hn
      rcases List.mem_append.mp hn with hn | hn
      · exact hn
      · exact List.mem_singleton.mp hn ▸ hm
    have hunique' : ∀ n ∈ ms ++ [m], n.SiblingsUnique := fun n hn => hunique n (hmem n hn)
    have hdistinct' : ∀ n ∈ ms ++ [m], n.PlatformsDistinct := fun n hn => hdistinct n (hmem n hn)
    refine ⟨merged ms, ?_, hmerge⟩
    rw [merge_value (by simp) hunique' hdistinct']
    exact congrArg Except.ok
      ((merged_isUnionOf hunique' hdistinct').eq (hunion.append_of_mem hm))
  · rw [hmerge, mergedEvery_eq hunique hdistinct]

/-- Three views of one package, the first and the last of one platform. -/
def threeViews : List DocModule :=
  [sampleView .jvm "J" [], sampleView .js "S" ["f"], sampleView .jvm "K" ["g"]]

theorem merge_flatten_threeViews :
    threeViews ≠ [] ∧ (∀ m ∈ threeViews, m.SiblingsUnique) ∧
      (∀ m ∈ threeViews, m.PlatformsDistinct) ∧
      (∀ mss : List (List DocModule), mss.flatten = threeViews → (∀ l ∈ mss, l ≠ []) →
        ∃ rs r, List.Forall₂ (fun l m => (merge l).value = .ok m) mss rs ∧
          (merge rs).value = .ok r ∧ (merge threeViews).value = .ok r) ∧
      (∀ m ∈ threeViews, ∃ r, (merge (threeViews ++ [m])).value = .ok r ∧
        (merge threeViews).value = .ok r) ∧
      (merge threeViews).value = .ok (mergedEvery threeViews) :=
  ⟨by simp [threeViews], by decide, by decide,
    merge_flatten threeViews (by simp [threeViews]) (by decide) (by decide)⟩

end DocModule

end CrossDoc
