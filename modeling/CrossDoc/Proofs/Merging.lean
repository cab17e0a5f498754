import CrossDoc.Model.Merging
import CrossDoc.Proofs.Forest
import CrossDoc.Proofs.PlatformUnion

/-!
# What merging gives

Merging is described without levels by `union`: siblings with one identity
become one declaration whose members are the union of all their members.  The
main statement looks at one place of the merged module: there stands what the
modules have at this place, and the first of them that says something wins.
-/

namespace CrossDoc

namespace Declaration

open FirstOccurrence

/-! ## Levels -/

theorem height_eq (d : Declaration) : d.height = 1 + heightAll d.children := by
  cases d
  rw [height]

theorem heightAll_le {ds : List Declaration} {n : Nat} :
    heightAll ds ≤ n ↔ ∀ d ∈ ds, d.height ≤ n := by
  induction ds with
  | nil => simp [heightAll]
  | cons d rest ih => rw [heightAll, Nat.max_le, ih, List.forall_mem_cons]

theorem eq_nil_of_heightAll_le_zero {ds : List Declaration} (h : heightAll ds ≤ 0) :
    ds = [] := by
  cases ds with
  | nil => rfl
  | cons d rest =>
      have hd := heightAll_le.mp h d (by simp)
      rw [height_eq] at hd
      omega

/-- The members of some declarations have one level less. -/
theorem heightAll_allChildren_le {ds group : List Declaration} {n : Nat}
    (hds : heightAll ds ≤ n + 1) (hg : group ⊆ ds) : heightAll (allChildren group) ≤ n := by
  rw [heightAll_le]
  intro c hc
  obtain ⟨d, hd, hcd⟩ := List.mem_flatMap.mp hc
  have hdn := heightAll_le.mp hds d (hg hd)
  have hcn := heightAll_le.mp (Nat.le_refl (heightAll d.children)) c hcd
  rw [height_eq] at hdn
  omega

/-! ## Groups -/

theorem group_subset {siblings group : List Declaration} (h : group ∈ groups siblings) :
    group ⊆ siblings := by
  obtain ⟨id, _, rfl⟩ := List.mem_map.mp h
  exact List.filter_subset_self _

/-- The declaration that a group becomes, where `members` merges the members of
the whole group. -/
def joinWith (members : List Declaration → List Declaration) :
    List Declaration → Option Declaration
  | [] => none
  | [d] => some d
  | d :: e :: rest =>
      some { d with
        facts := mergedFacts (d :: e :: rest)
        children := members (allChildren (d :: e :: rest)) }

theorem mergeSiblings_succ (levels : Nat) (siblings : List Declaration) :
    mergeSiblings (levels + 1) siblings =
      (groups siblings).filterMap (joinWith (mergeSiblings levels)) := by
  rw [mergeSiblings]
  congr 1
  funext group
  match group with
  | [] => rfl
  | [_] => rfl
  | _ :: _ :: _ => rfl

/-- Any number of levels from the height of the siblings on gives one result. -/
theorem mergeSiblings_stable : ∀ (k l : Nat) (siblings : List Declaration),
    heightAll siblings ≤ k → heightAll siblings ≤ l →
      mergeSiblings k siblings = mergeSiblings l siblings
  | 0, l, siblings, hk, _ => by
      rw [eq_nil_of_heightAll_le_zero hk]
      cases l <;> rfl
  | _ + 1, 0, siblings, _, hl => by
      rw [eq_nil_of_heightAll_le_zero hl]
      rfl
  | k + 1, l + 1, siblings, hk, hl => by
      -- Members of a group have a level less, so the hypothesis applies to them.
      rw [mergeSiblings_succ, mergeSiblings_succ]
      apply List.filterMap_congr
      intro group hg
      have hsub := group_subset hg
      have ih := mergeSiblings_stable k l (allChildren group)
        (heightAll_allChildren_le hk hsub) (heightAll_allChildren_le hl hsub)
      match group with
      | [] => rfl
      | [_] => rfl
      | _ :: _ :: _ => rw [joinWith, joinWith, ih]

/-- The merged siblings. -/
def union (siblings : List Declaration) : List Declaration :=
  mergeSiblings (heightAll siblings) siblings

/-- The declaration that a group becomes. -/
def joined (group : List Declaration) : Option Declaration := joinWith union group

theorem union_eq (siblings : List Declaration) :
    union siblings = (groups siblings).filterMap joined := by
  have hstable : union siblings = mergeSiblings (heightAll siblings + 1) siblings :=
    mergeSiblings_stable _ _ siblings (Nat.le_refl _) (Nat.le_succ _)
  rw [hstable, mergeSiblings_succ]
  apply List.filterMap_congr
  intro group hg
  have hle := heightAll_allChildren_le (Nat.le_succ (heightAll siblings)) (group_subset hg)
  have hmembers : mergeSiblings (heightAll siblings) (allChildren group) =
      union (allChildren group) :=
    mergeSiblings_stable _ _ _ hle (Nat.le_refl _)
  match group with
  | [] => rfl
  | [_] => rfl
  | _ :: _ :: _ => rw [joined, joinWith, joinWith, hmembers]

/-! ## One group -/

theorem joined_isSome {group : List Declaration} : (joined group).isSome ↔ group ≠ [] := by
  match group with
  | [] => simp [joined, joinWith]
  | [_] => simp [joined, joinWith]
  | _ :: _ :: _ => simp [joined, joinWith]

theorem joined_label (group : List Declaration) :
    (joined group).map label = group.head?.map label := by
  match group with
  | [] => rfl
  | [_] => rfl
  | _ :: _ :: _ => rfl

theorem joined_facts_find? (group : List Declaration) (p : Platform) :
    ((joined group).bind fun d => d.facts.find? p) =
      group.findSome? fun d => d.facts.find? p := by
  match group with
  | [] => rfl
  | [d] => simp [joined, joinWith]
  | d :: e :: rest =>
      have hfold := PlatformMap.find?_foldl_merge (·.facts) (d :: e :: rest) .empty p
      simpa [joined, joinWith, mergedFacts, PlatformMap.find?, PlatformMap.empty] using hfold

theorem joined_platforms {group : List Declaration} {d : Declaration}
    (hd : joined group = some d) (hdistinct : ∀ e ∈ group, e.facts.Distinct) :
    d.platforms = (group.flatMap (·.platforms)).eraseDups := by
  match group with
  | [] => simp [joined, joinWith] at hd
  | [e] =>
      obtain rfl : e = d := by simpa [joined, joinWith] using hd
      have hnodup : e.platforms.Nodup := hdistinct e (by simp)
      simp [eraseDups_of_nodup hnodup]
  | e :: e' :: rest =>
      obtain rfl := Option.some.inj hd
      exact PlatformMap.platforms_foldl_merge (·.facts) (e :: e' :: rest)
        (show (PlatformMap.empty : FactsMap).Distinct from List.nodup_nil)

/-! ## Siblings -/

theorem joined_id {siblings : List Declaration} {id : DeclId} {d : Declaration}
    (hd : joined (siblings.filter fun e => e.id == id) = some d) : d.id = id := by
  have hlabel := joined_label (siblings.filter fun e => e.id == id)
  rw [hd] at hlabel
  obtain ⟨e, he, hed⟩ := Option.map_eq_some_iff.mp hlabel.symm
  have heid := (List.mem_filter.mp (List.mem_of_head? he)).2
  rw [← id_eq_of_label hed]
  simpa using heid

theorem union_eq_filterMap (siblings : List Declaration) :
    union siblings = (siblings.map (·.id)).eraseDups.filterMap
      fun id => joined (siblings.filter fun d => d.id == id) := by
  rw [union_eq, groups, List.filterMap_map]
  rfl

/-- Siblings stand in the order in which their identities first occur. -/
theorem ids_union (siblings : List Declaration) :
    (union siblings).map (·.id) = (siblings.map (·.id)).eraseDups := by
  rw [union_eq_filterMap]
  apply map_key_filterMap
  · intro id d hd
    exact joined_id hd
  · intro id hid
    obtain ⟨d, hd, hdid⟩ := List.mem_map.mp (List.mem_eraseDups.mp hid)
    rw [joined_isSome]
    intro hnil
    have hmem : d ∈ siblings.filter fun e => e.id == id :=
      List.mem_filter.mpr ⟨hd, by simpa using hdid⟩
    rw [hnil] at hmem
    exact absurd hmem List.not_mem_nil

theorem find?_union (siblings : List Declaration) (id : DeclId) :
    ((union siblings).find? fun d => d.id == id) =
      joined (siblings.filter fun d => d.id == id) := by
  rw [union_eq_filterMap, find?_filterMap_key fun k d hd => joined_id hd]
  split
  · rfl
  · next hid =>
    have hnil : (siblings.filter fun d => d.id == id) = [] := by
      rw [List.filter_eq_nil_iff]
      intro d hd hdid
      apply hid
      rw [List.mem_eraseDups, ← beq_iff_eq.mp hdid]
      exact List.mem_map_of_mem hd
    rw [hnil]
    rfl

/-- Siblings that are unique already are kept as they are. -/
theorem union_of_nodup {siblings : List Declaration} (h : (siblings.map (·.id)).Nodup) :
    union siblings = siblings := by
  rw [union_eq_filterMap, eraseDups_of_nodup h, List.filterMap_map]
  have hgroup : ∀ d ∈ siblings,
      ((fun id => joined (siblings.filter fun e => e.id == id)) ∘ (·.id)) d = some d := by
    intro d hd
    simp [filter_key_of_nodup d.id h, find?_key_of_mem h hd, joined, joinWith]
  rw [List.filterMap_congr hgroup, List.filterMap_some]

theorem joined_children {group : List Declaration} {d : Declaration}
    (hd : joined group = some d) (hunique : ∀ e ∈ group, (e.children.map (·.id)).Nodup) :
    d.children = union (allChildren group) := by
  match group with
  | [] => simp [joined, joinWith] at hd
  | [e] =>
      obtain rfl : e = d := by simpa [joined, joinWith] using hd
      simp [allChildren, union_of_nodup (hunique e (by simp))]
  | _ :: _ :: _ =>
      obtain rfl := Option.some.inj hd
      rfl

/-! ## Where merged declarations come from -/

/-- Every declaration of the merged forest is what a group of declarations of
the forest becomes, all of them with its identity. -/
theorem exists_group_of_mem_union {ds : List Declaration} {d : Declaration}
    (h : d ∈ flattenAll (union ds)) :
    ∃ group ⊆ flattenAll ds, (∀ e ∈ group, e.id = d.id) ∧ joined group = some d := by
  -- The siblings of one union all come from groups of one list of siblings.
  have sibling : ∀ es ⊆ flattenAll ds, ∀ c ∈ union es,
      ∃ group ⊆ flattenAll ds, (∀ e ∈ group, e.id = c.id) ∧ joined group = some c := by
    intro es hes c hc
    rw [union_eq_filterMap] at hc
    obtain ⟨id, _, hcid⟩ := List.mem_filterMap.mp hc
    refine ⟨_, fun e he => hes (List.mem_of_mem_filter he), ?_, hcid⟩
    intro e he
    rw [joined_id hcid]
    simpa using (List.mem_filter.mp he).2
  refine reachInduction (motive := fun c => ∃ group ⊆ flattenAll ds,
    (∀ e ∈ group, e.id = c.id) ∧ joined group = some c) ?_ ?_ d h
  · exact sibling ds fun e he => mem_flattenAll_self he
  · rintro q _ ⟨group, hgroup, _, hq⟩ c hc
    match group with
    | [] => simp [joined, joinWith] at hq
    | [e] =>
        -- A single declaration keeps its members, without a union of theirs.
        obtain rfl : e = q := by simpa [joined, joinWith] using hq
        have hcds := mem_flattenAll_child (hgroup (by simp)) hc
        exact ⟨[c], by simpa using hcds, by simp, rfl⟩
    | e :: e' :: rest =>
        obtain rfl := Option.some.inj hq
        refine sibling (allChildren (e :: e' :: rest)) ?_ c hc
        intro x hx
        obtain ⟨g, hg, hxg⟩ := List.mem_flatMap.mp hx
        exact mem_flattenAll_child (hgroup hg) hxg

theorem exists_of_mem_union {ds : List Declaration} {d : Declaration} (h : d ∈ union ds) :
    ∃ e ∈ ds, e.label = d.label := by
  rw [union_eq_filterMap] at h
  obtain ⟨id, _, hjoined⟩ := List.mem_filterMap.mp h
  have hlabel := joined_label (ds.filter fun e => e.id == id)
  rw [hjoined] at hlabel
  obtain ⟨e, he, hed⟩ := Option.map_eq_some_iff.mp hlabel.symm
  exact ⟨e, List.mem_of_mem_filter (List.mem_of_head? he), hed⟩

/-- A member of a joined declaration has the label of a member of one of the
group. -/
theorem exists_of_mem_joined {group : List Declaration} {d n : Declaration}
    (h : joined group = some d) (hn : n ∈ d.children) :
    ∃ e ∈ group, ∃ c ∈ e.children, c.label = n.label := by
  match group with
  | [] => simp [joined, joinWith] at h
  | [e] =>
      obtain rfl : e = d := by simpa [joined, joinWith] using h
      exact ⟨e, by simp, n, hn, rfl⟩
  | e :: e' :: rest =>
      obtain rfl := Option.some.inj h
      obtain ⟨c, hc, hlabel⟩ := exists_of_mem_union hn
      obtain ⟨b, hb, hcb⟩ := List.mem_flatMap.mp hc
      exact ⟨b, hb, c, hcb, hlabel⟩

/-- Merged siblings are unique at every level, if the members of every single
declaration are. -/
theorem siblingsUnique_union {ds : List Declaration}
    (h : ∀ d ∈ flattenAll ds, (d.children.map (·.id)).Nodup) : SiblingsUnique (union ds) := by
  constructor
  · rw [ids_union]
    exact nodup_eraseDups _
  · intro d hd
    obtain ⟨group, hgroup, _, hjoined⟩ := exists_group_of_mem_union hd
    rw [joined_children hjoined fun e he => h e (hgroup he), ids_union]
    exact nodup_eraseDups _

/-! ## Places -/

/-- The members of what the lists have under an identity. -/
theorem allChildren_filterMap_find? (id : DeclId) (lists : List (List Declaration)) :
    allChildren (lists.filterMap fun l => l.find? fun d => d.id == id) =
      (lists.map (membersOf id)).flatten := by
  induction lists with
  | nil => rfl
  | cons l rest ih =>
      rw [List.filterMap_cons, List.map_cons, List.flatten_cons, ← ih, membersOf]
      cases l.find? fun d => d.id == id <;> rfl

section Places

variable {lists : List (List Declaration)} (hunique : ∀ l ∈ lists, SiblingsUnique l)
include hunique

/-- Each list contributes at most one declaration to a group. -/
theorem filter_flatten_eq (id : DeclId) :
    (lists.flatten.filter fun d => d.id == id) =
      lists.filterMap fun l => l.find? fun d => d.id == id := by
  induction lists with
  | nil => rfl
  | cons l rest ih =>
      have hl := filter_key_of_nodup id (hunique l (by simp)).1
      have hrest := ih fun l' hl' => hunique l' (List.mem_cons_of_mem l hl')
      rw [List.flatten_cons, List.filter_append, hl, hrest, List.filterMap_cons]
      cases l.find? fun d => d.id == id <;> rfl

theorem membersOf_union (id : DeclId) :
    membersOf id (union lists.flatten) = union (lists.map (membersOf id)).flatten := by
  rw [membersOf, find?_union, filter_flatten_eq hunique, ← allChildren_filterMap_find?]
  cases hd : joined (lists.filterMap fun l => l.find? fun d => d.id == id) with
  | none =>
      -- No list has the declaration, so the union has none either.
      have hnil : (lists.filterMap fun l => l.find? fun d => d.id == id) = [] := by
        by_contra hne
        have hs := joined_isSome.mpr hne
        rw [hd] at hs
        exact absurd hs (by simp)
      rw [hnil]
      rfl
  | some d =>
      apply joined_children hd
      intro e he
      obtain ⟨l, hl, hle⟩ := List.mem_filterMap.mp he
      exact (hunique l hl).2 e (mem_flattenAll_self (List.mem_of_find?_eq_some hle))

/-- At the end of every way the merged siblings are the union of the siblings
that the lists have there. -/
theorem siblingsAt_union (way : List DeclId) :
    siblingsAt way (union lists.flatten) = union (lists.map (siblingsAt way)).flatten := by
  induction way generalizing lists with
  | nil => simp [siblingsAt]
  | cons id rest ih =>
      have hmembers : ∀ l ∈ lists.map (membersOf id), SiblingsUnique l := by
        intro l hl
        obtain ⟨l', hl', rfl⟩ := List.mem_map.mp hl
        exact (hunique l' hl').membersOf id
      rw [siblingsAt, membersOf_union hunique, ih hmembers, List.map_map]
      rfl

end Places

end Declaration

namespace DocModule

open Declaration FirstOccurrence

theorem merged_packages (ms : List DocModule) :
    (merged ms).packages = union (ms.map (·.packages)).flatten := by
  rw [merged, ← List.flatMap_def]
  rfl

/-- `r` says what the modules `ms` say together, an earlier one before a later
one.  Places are ways down the module with an identity at their end. -/
structure IsUnionOf (ms : List DocModule) (r : DocModule) : Prop where
  /-- The name is the first that is not empty. -/
  name : r.name = ((ms.map (·.name)).find? fun n => !n.isEmpty).getD []
  moduleFacts : ∀ p, r.facts.find? p = ms.findSome? fun m => m.facts.find? p
  modulePlatforms : r.platforms = (ms.flatMap (·.platforms)).eraseDups
  /-- A place is taken when it is in one of the modules. -/
  taken : ∀ way id, (r.nodeAt? way id).isSome ↔ ∃ m ∈ ms, (m.nodeAt? way id).isSome
  /-- Facts are those of the first module that has some for the platform. -/
  facts : ∀ way id p, ((r.nodeAt? way id).bind fun d => d.facts.find? p) =
    ms.findSome? fun m => (m.nodeAt? way id).bind fun d => d.facts.find? p
  /-- Kind, name and parent are those of the first module with the place. -/
  label : ∀ way id, (r.nodeAt? way id).map Declaration.label =
    ms.findSome? fun m => (m.nodeAt? way id).map Declaration.label
  /-- Platforms stand in order of first contribution. -/
  platforms : ∀ way id d, r.nodeAt? way id = some d →
    d.platforms =
      (ms.flatMap fun m => ((m.nodeAt? way id).map (·.platforms)).getD []).eraseDups
  unique : r.SiblingsUnique
  /-- Siblings stand in order of first occurrence. -/
  siblings : ∀ way, (r.siblingsAt way).map (·.id) =
    ((ms.flatMap fun m => m.siblingsAt way).map (·.id)).eraseDups

/-- What stands below the packages of some modules stands in one of them. -/
theorem exists_module_of_mem {ms : List DocModule} {d : Declaration}
    (h : d ∈ flattenAll (ms.map (·.packages)).flatten) : ∃ m ∈ ms, d ∈ m.declarations := by
  obtain ⟨t, ht, hdt⟩ := mem_flattenAll.mp h
  obtain ⟨l, hl, htl⟩ := List.mem_flatten.mp ht
  obtain ⟨m, hm, rfl⟩ := List.mem_map.mp hl
  exact ⟨m, hm, mem_flattenAll.mpr ⟨t, htl, hdt⟩⟩

section Union

variable {ms : List DocModule} (hunique : ∀ m ∈ ms, m.SiblingsUnique)
include hunique

theorem packages_unique : ∀ l ∈ ms.map (·.packages), Declaration.SiblingsUnique l := by
  intro l hl
  obtain ⟨m, hm, rfl⟩ := List.mem_map.mp hl
  exact hunique m hm

theorem siblingsAt_merged (way : List DeclId) :
    (merged ms).siblingsAt way = union (ms.map (·.siblingsAt way)).flatten := by
  rw [siblingsAt, merged_packages, siblingsAt_union (packages_unique hunique), List.map_map]
  rfl

/-- At a place of the merged module stands what the modules have there. -/
theorem nodeAt?_merged (way : List DeclId) (id : DeclId) :
    (merged ms).nodeAt? way id = joined (ms.filterMap (·.nodeAt? way id)) := by
  have hlists : ∀ l ∈ ms.map (·.siblingsAt way), Declaration.SiblingsUnique l := by
    intro l hl
    obtain ⟨m, hm, rfl⟩ := List.mem_map.mp hl
    exact (hunique m hm).siblingsAt way
  rw [nodeAt?, siblingsAt_merged hunique, find?_union, filter_flatten_eq hlists,
    List.filterMap_map]
  rfl

theorem isSome_nodeAt?_merged (way : List DeclId) (id : DeclId) :
    ((merged ms).nodeAt? way id).isSome ↔ ∃ m ∈ ms, (m.nodeAt? way id).isSome := by
  rw [nodeAt?_merged hunique, joined_isSome]
  simp [Option.isSome_iff_exists, Option.ne_none_iff_exists']

theorem find?_nodeAt?_merged (way : List DeclId) (id : DeclId) (p : Platform) :
    (((merged ms).nodeAt? way id).bind fun d => d.facts.find? p) =
      ms.findSome? fun m => (m.nodeAt? way id).bind fun d => d.facts.find? p := by
  rw [nodeAt?_merged hunique, joined_facts_find?, findSome?_filterMap]

theorem merged_unique : (merged ms).SiblingsUnique := by
  rw [SiblingsUnique, merged_packages]
  apply siblingsUnique_union
  intro d hd
  obtain ⟨m, hm, hdm⟩ := exists_module_of_mem hd
  exact (hunique m hm).2 d hdm

end Union

theorem distinct_empty : (PlatformMap.empty : FactsMap).Distinct := List.nodup_nil

theorem find?_facts_merged (ms : List DocModule) (p : Platform) :
    (merged ms).facts.find? p = ms.findSome? fun m => m.facts.find? p := by
  have hfold := PlatformMap.find?_foldl_merge (·.facts) ms .empty p
  simpa [merged, PlatformMap.find?, PlatformMap.empty] using hfold

theorem distinct_facts_merged (ms : List DocModule) : (merged ms).facts.Distinct :=
  PlatformMap.distinct_foldl_merge DocModule.facts ms distinct_empty

theorem nodeAt?_mem {m : DocModule} {way : List DeclId} {id : DeclId} {d : Declaration}
    (h : m.nodeAt? way id = some d) : d ∈ m.declarations :=
  mem_of_mem_siblingsAt way (List.mem_of_find?_eq_some h)

theorem merged_isUnionOf {ms : List DocModule} (hunique : ∀ m ∈ ms, m.SiblingsUnique)
    (hdistinct : ∀ m ∈ ms, m.PlatformsDistinct) : IsUnionOf ms (merged ms) where
  name := by
    rw [List.find?_map, Function.comp_def]
    show (ms.find? fun m => !m.name.isEmpty).elim [] (·.name) = _
    cases ms.find? fun m => !m.name.isEmpty <;> rfl
  moduleFacts := find?_facts_merged ms
  modulePlatforms := PlatformMap.platforms_foldl_merge DocModule.facts ms distinct_empty
  taken := isSome_nodeAt?_merged hunique
  facts := find?_nodeAt?_merged hunique
  label way id := by
    rw [nodeAt?_merged hunique, joined_label, List.head?_filterMap, List.map_findSome?]
    rfl
  platforms way id d hd := by
    rw [nodeAt?_merged hunique] at hd
    rw [← flatMap_filterMap]
    apply joined_platforms hd
    intro e he
    obtain ⟨m, hm, hme⟩ := List.mem_filterMap.mp he
    exact (hdistinct m hm).2 e (nodeAt?_mem hme)
  unique := merged_unique hunique
  siblings way := by
    rw [siblingsAt_merged hunique, ids_union, List.flatMap_def]

/-! ## The merger -/

/-- A single module is its own union. -/
theorem merged_singleton {m : DocModule} (hunique : m.SiblingsUnique)
    (hdistinct : m.PlatformsDistinct) : merged [m] = m := by
  have hname : (([m].find? fun m => !m.name.isEmpty).elim [] (·.name)) = m.name := by
    cases hn : m.name <;> simp [hn]
  have hfacts : PlatformMap.empty.merge m.facts = m.facts := PlatformMap.empty_merge hdistinct.1
  have hpackages : union ([m].flatMap (·.packages)) = m.packages := by
    rw [List.flatMap_singleton, union_of_nodup hunique.1]
  cases m
  exact congr (congr (congrArg DocModule.mk hname) hfacts) hpackages

/-- Merging does not fail on some modules; it keeps a single one. -/
theorem merge_ok {ms : List DocModule} (hne : ms ≠ []) :
    ∃ r, (merge ms).value = .ok r ∧ (ms = [r] ∨ r = merged ms) := by
  match ms with
  | [] => exact absurd rfl hne
  | [m] => exact ⟨m, rfl, Or.inl rfl⟩
  | m :: m' :: rest => exact ⟨merged (m :: m' :: rest), rfl, Or.inr rfl⟩

theorem merge_value {ms : List DocModule} (hne : ms ≠ []) (hunique : ∀ m ∈ ms, m.SiblingsUnique)
    (hdistinct : ∀ m ∈ ms, m.PlatformsDistinct) : (merge ms).value = .ok (merged ms) := by
  match ms with
  | [] => exact absurd rfl hne
  | [m] =>
      rw [merged_singleton (hunique m (by simp)) (hdistinct m (by simp))]
      rfl
  | _ :: _ :: _ => rfl

/-- **Merging is first wins at every place.**  Modules with unique siblings
merge into their union; without any module there is nothing to document, which
is an error of the configuration. -/
theorem merge_isUnionOf (ms : List DocModule) (hunique : ∀ m ∈ ms, m.SiblingsUnique)
    (hdistinct : ∀ m ∈ ms, m.PlatformsDistinct) :
    (ms ≠ [] → ∃ r, (merge ms).value = .ok r ∧ IsUnionOf ms r) ∧
      (ms = [] → ∃ f, (merge ms).value = .error f ∧ f.kind = .configuration) := by
  constructor
  · intro hne
    exact ⟨merged ms, merge_value hne hunique hdistinct, merged_isUnionOf hunique hdistinct⟩
  · rintro rfl
    exact ⟨noModules, rfl, rfl⟩

/-- One platform's view of a package `a` with a class and, in front of it,
perhaps a function. -/
def sampleView (family : Family) (summary : Text) (functions : List Text) : DocModule :=
  let p : Platform := ⟨"m", family, []⟩
  let a : DeclId := .ofPackage "a"
  let facts : FactsMap := .singleton p { summary := summary }
  let member (kind : Kind) (name : Text) (id : DeclId) : Declaration :=
    { kind := kind, name := name, id := id, parent := some a, facts := facts }
  { name := "m"
    facts := facts
    packages := [{
      kind := .package
      name := "a"
      id := a
      facts := facts
      children := functions.map (fun f => member .function f (a.withCallable f "()")) ++
        [member .classType "C" (a.withClass "C")] }] }

theorem merge_isUnionOf_sampleViews :
    ∃ r, (merge [sampleView .jvm "J" [], sampleView .js "S" ["f"]]).value = .ok r ∧
      IsUnionOf [sampleView .jvm "J" [], sampleView .js "S" ["f"]] r :=
  (merge_isUnionOf [sampleView .jvm "J" [], sampleView .js "S" ["f"]] (by decide)
    (by decide)).1 (by simp)

end DocModule

end CrossDoc
