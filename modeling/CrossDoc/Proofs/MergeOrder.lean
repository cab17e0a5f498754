import CrossDoc.Proofs.Merging

/-!
# The order of merging

Modules that are views of different platforms may be merged in any order: the
result says the same, and says all that the modules say.  What does depend on
the order is in which order siblings and platforms stand, and whose kind, name
and parent a declaration has.
-/

namespace CrossDoc

namespace DocModule

open Declaration FirstOccurrence

/-- The platforms about which a module says something. -/
def allPlatforms (m : DocModule) : List Platform :=
  m.platforms ++ m.declarations.flatMap (·.platforms)

/-- Two modules are views of different platforms. -/
def Apart (m n : DocModule) : Prop := ∀ p ∈ m.allPlatforms, p ∉ n.allPlatforms

instance (m n : DocModule) : Decidable (m.Apart n) :=
  inferInstanceAs (Decidable (∀ p ∈ m.allPlatforms, _))

/-- What a module says about a place on a platform. -/
def factsAt? (m : DocModule) (way : List DeclId) (id : DeclId) (p : Platform) : Option Facts :=
  (m.nodeAt? way id).bind fun d => d.facts.find? p

/-- `r` says what one of the modules says, on every platform and at every
place, and all of it. -/
structure KeepsAll (ms : List DocModule) (r : DocModule) : Prop where
  facts : ∀ way id p f, r.factsAt? way id p = some f ↔ ∃ m ∈ ms, m.factsAt? way id p = some f
  moduleFacts : ∀ p f, r.facts.find? p = some f ↔ ∃ m ∈ ms, m.facts.find? p = some f

/-- The modules have the same places and say the same there.  They may differ
in the order of siblings and of platforms, and in labels. -/
structure SameUpToOrder (r s : DocModule) : Prop where
  taken : ∀ way id, (r.nodeAt? way id).isSome ↔ (s.nodeAt? way id).isSome
  siblings : ∀ way, ((r.siblingsAt way).map (·.id)).Perm ((s.siblingsAt way).map (·.id))
  facts : ∀ way id p, r.factsAt? way id p = s.factsAt? way id p
  entries : ∀ way id d e, r.nodeAt? way id = some d → s.nodeAt? way id = some e →
    d.facts.entries.Perm e.facts.entries
  moduleFacts : ∀ p, r.facts.find? p = s.facts.find? p
  moduleEntries : r.facts.entries.Perm s.facts.entries

theorem SameUpToOrder.refl (r : DocModule) : r.SameUpToOrder r where
  taken _ _ := Iff.rfl
  siblings _ := .refl _
  facts _ _ _ := rfl
  entries way id d e hd he := by
    rw [hd] at he
    rw [Option.some.inj he]
  moduleFacts _ := rfl
  moduleEntries := .refl _

/-! ## All that is said -/

theorem mem_allPlatforms_of_factsAt? {m : DocModule} {way : List DeclId} {id : DeclId}
    {p : Platform} {f : Facts} (h : m.factsAt? way id p = some f) : p ∈ m.allPlatforms := by
  obtain ⟨d, hd, hf⟩ := Option.bind_eq_some_iff.mp h
  refine List.mem_append_right _ (List.mem_flatMap.mpr ⟨d, nodeAt?_mem hd, ?_⟩)
  exact (PlatformMap.isSome_find? d.facts p).mp (by simp [hf])

theorem mem_allPlatforms_of_find? {m : DocModule} {p : Platform} {f : Facts}
    (h : m.facts.find? p = some f) : p ∈ m.allPlatforms :=
  List.mem_append_left _ ((PlatformMap.isSome_find? m.facts p).mp (by simp [h]))

/-- Of modules that are apart at most one says something about a platform. -/
theorem pairwise_alone {ms : List DocModule} (hapart : ms.Pairwise Apart) {p : Platform}
    {facts? : DocModule → Option Facts} (hfacts : ∀ m f, facts? m = some f → p ∈ m.allPlatforms) :
    ms.Pairwise fun m n => facts? m = none ∨ facts? n = none := by
  refine hapart.imp fun {m n} hmn => ?_
  cases hm : facts? m with
  | none => exact Or.inl rfl
  | some f =>
      right
      rw [Option.eq_none_iff_forall_not_mem]
      intro g hg
      exact hmn p (hfacts m f hm) (hfacts n g hg)

theorem keepsAll_merged {ms : List DocModule} (hunique : ∀ m ∈ ms, m.SiblingsUnique)
    (hapart : ms.Pairwise Apart) : KeepsAll ms (merged ms) where
  facts way id p f := by
    rw [factsAt?, find?_nodeAt?_merged hunique]
    exact findSome?_eq_some_iff_of_alone
      (pairwise_alone hapart fun _ _ => mem_allPlatforms_of_factsAt?)
  moduleFacts p f := by
    rw [find?_facts_merged]
    exact findSome?_eq_some_iff_of_alone
      (pairwise_alone hapart fun _ _ => mem_allPlatforms_of_find?)

/-! ## Another order -/

theorem mem_siblingsAt_iff {m : DocModule} {way : List DeclId} {id : DeclId} :
    id ∈ (m.siblingsAt way).map (·.id) ↔ (m.nodeAt? way id).isSome := by
  simp [nodeAt?, List.find?_isSome]

/-- Groups in different orders become declarations that differ at most in the
order of their platforms. -/
theorem perm_entries_joined {group group' : List Declaration} (hperm : group.Perm group')
    {d e : Declaration} (hd : joined group = some d) (he : joined group' = some e)
    (hfacts : ∀ p, d.facts.find? p = e.facts.find? p) :
    d.facts.entries.Perm e.facts.entries := by
  match group, group' with
  | [], _ => simp [joined, joinWith] at hd
  | [b], group' =>
      obtain rfl := List.singleton_perm.mp hperm
      rw [hd] at he
      rw [Option.some.inj he]
  | _ :: _ :: _, [] => simp [joined, joinWith] at he
  | b :: b' :: rest, [_] => exact absurd hperm.length_eq (by simp)
  | b :: b' :: rest, c :: c' :: rest' =>
      obtain rfl := Option.some.inj hd
      obtain rfl := Option.some.inj he
      exact PlatformMap.perm_of_find?
        (PlatformMap.distinct_foldl_merge Declaration.facts _ distinct_empty)
        (PlatformMap.distinct_foldl_merge Declaration.facts _ distinct_empty) hfacts

theorem sameUpToOrder_merged {ms ms' : List DocModule} (hperm : ms.Perm ms')
    (hunique : ∀ m ∈ ms, m.SiblingsUnique) (hunique' : ∀ m ∈ ms', m.SiblingsUnique)
    (hapart : ms.Pairwise Apart) (hapart' : ms'.Pairwise Apart) :
    (merged ms).SameUpToOrder (merged ms') := by
  have hkeeps := keepsAll_merged hunique hapart
  have hkeeps' := keepsAll_merged hunique' hapart'
  have htaken : ∀ way id, ((merged ms).nodeAt? way id).isSome ↔
      ((merged ms').nodeAt? way id).isSome := by
    intro way id
    simp only [isSome_nodeAt?_merged hunique, isSome_nodeAt?_merged hunique', hperm.mem_iff]
  have hfacts : ∀ way id p, (merged ms).factsAt? way id p = (merged ms').factsAt? way id p := by
    intro way id p
    ext f
    rw [hkeeps.facts, hkeeps'.facts]
    simp only [hperm.mem_iff]
  have hmodule : ∀ p, (merged ms).facts.find? p = (merged ms').facts.find? p := by
    intro p
    ext f
    rw [hkeeps.moduleFacts, hkeeps'.moduleFacts]
    simp only [hperm.mem_iff]
  refine ⟨htaken, fun way => ?_, hfacts, fun way id d e hd he => ?_, hmodule, ?_⟩
  · have hnodup := ((merged_unique hunique).siblingsAt way).1
    have hnodup' := ((merged_unique hunique').siblingsAt way).1
    refine (List.perm_ext_iff_of_nodup hnodup hnodup').mpr fun id => ?_
    exact mem_siblingsAt_iff.trans ((htaken way id).trans mem_siblingsAt_iff.symm)
  · have hvalues : ∀ p, d.facts.find? p = e.facts.find? p := by
      intro p
      have hp := hfacts way id p
      rw [factsAt?, factsAt?, hd, he] at hp
      exact hp
    rw [nodeAt?_merged hunique] at hd
    rw [nodeAt?_merged hunique'] at he
    exact perm_entries_joined (hperm.filterMap _) hd he hvalues
  · exact PlatformMap.perm_of_find? (distinct_facts_merged ms) (distinct_facts_merged ms') hmodule

theorem keepsAll_singleton (m : DocModule) : KeepsAll [m] m where
  facts way id p f := by simp
  moduleFacts p f := by simp

/-- **Views of different platforms may be merged in any order.**  The results
have the same places and say the same there, namely all that the modules say and
nothing else.  Without any module there is no result in any order. -/
theorem merge_perm (ms ms' : List DocModule) (hperm : ms.Perm ms')
    (hunique : ∀ m ∈ ms, m.SiblingsUnique) (hapart : ms.Pairwise Apart) :
    (ms ≠ [] → ∃ r s, (merge ms).value = .ok r ∧ (merge ms').value = .ok s ∧
      r.SameUpToOrder s ∧ KeepsAll ms r) ∧
    (ms = [] → (merge ms).value = .error noModules ∧ (merge ms').value = .error noModules) := by
  constructor
  · intro hne
    by_cases hsingle : ∃ m, ms = [m]
    · obtain ⟨m, rfl⟩ := hsingle
      obtain rfl := List.singleton_perm.mp hperm
      exact ⟨m, m, rfl, rfl, .refl m, keepsAll_singleton m⟩
    · have hmany : ∀ {ns : List DocModule}, ns.Perm ms → (merge ns).value = .ok (merged ns) := by
        intro ns hns
        have hne' : ns ≠ [] := fun hnil => hne (List.perm_nil.mp (hnil ▸ hns.symm))
        obtain ⟨r, hr, hcases⟩ := merge_ok hne'
        rcases hcases with rfl | rfl
        · exact absurd ⟨r, (List.singleton_perm.mp hns).symm⟩ hsingle
        · exact hr
      have hunique' : ∀ m ∈ ms', m.SiblingsUnique := fun m hm =>
        hunique m (hperm.mem_iff.mpr hm)
      have hapart' : ms'.Pairwise Apart :=
        hapart.perm hperm fun {m n} hmn p hp hp' => hmn p hp' hp
      exact ⟨merged ms, merged ms', hmany (.refl ms), hmany hperm.symm,
        sameUpToOrder_merged hperm hunique hunique' hapart hapart', keepsAll_merged hunique hapart⟩
  · rintro rfl
    obtain rfl := List.nil_perm.mp hperm
    exact ⟨rfl, rfl⟩

/-- Views of one package on three platforms. -/
def platformViews : List DocModule :=
  [sampleView .jvm "J" [], sampleView .js "S" ["f"], sampleView .native "N" ["g", "f"]]

theorem merge_perm_platformViews :
    platformViews.Perm platformViews.reverse ∧ (∀ m ∈ platformViews, m.SiblingsUnique) ∧
      platformViews.Pairwise Apart ∧
      ∃ r s, (merge platformViews).value = .ok r ∧ (merge platformViews.reverse).value = .ok s ∧
        r.SameUpToOrder s ∧ KeepsAll platformViews r := by
  have hperm : platformViews.Perm platformViews.reverse := (List.reverse_perm _).symm
  refine ⟨hperm, by decide, by decide, ?_⟩
  exact (merge_perm platformViews platformViews.reverse hperm (by decide) (by decide)).1
    (by simp [platformViews])

end DocModule

end CrossDoc
