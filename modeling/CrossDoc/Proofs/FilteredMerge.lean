import CrossDoc.Proofs.MergeOrder
import CrossDoc.Proofs.PlatformCoverage
import Mathlib.Data.List.Pairwise

/-!
# Filters before and after merging

A filter by identity, platform and facts keeps what is said at a place on a
platform exactly if the test holds on this platform all the way down to the
place.  In a merged module that is decided by the one module that says anything
about the platform.  So views of different platforms may be filtered before they
are merged or after it: both results say the same, although a declaration may
stand there on account of other platforms, and other siblings may come first.
-/

namespace CrossDoc

namespace FirstOccurrence

/-- In a list with distinct keys what is made of items is found where they are. -/
theorem find?_filterMap_of_nodup {α β : Type} [BEq α] [LawfulBEq α] {f : β → Option β}
    {key : β → α} (hkey : ∀ b c, f b = some c → key c = key b) (k : α) :
    ∀ {bs : List β}, (bs.map key).Nodup →
      ((bs.filterMap f).find? fun b => key b == k) = (bs.find? fun b => key b == k).bind f
  | [], _ => rfl
  | b :: rest, h => by
      rw [List.map_cons, List.nodup_cons] at h
      have ih := find?_filterMap_of_nodup hkey k h.2
      by_cases hb : key b = k
      · have hrest : (rest.find? fun c => key c == k) = none := by
          refine List.find?_eq_none.mpr fun c hc hck => h.1 ?_
          rw [hb, ← beq_iff_eq.mp hck]
          exact List.mem_map_of_mem hc
        cases hf : f b with
        | none => simp [hf, hb, ih, hrest]
        | some c => simp [hf, hb, hkey b c hf]
      · cases hf : f b with
        | none => simp [hf, hb, ih]
        | some c => simp [hf, hb, hkey b c hf, ih]

end FirstOccurrence

namespace Declaration

open FirstOccurrence

/-! ## What is said at a place -/

/-- What a forest says at a place on a platform. -/
def factsAt? (way : List DeclId) (ds : List Declaration) (id : DeclId) (p : Platform) :
    Option Facts :=
  ((siblingsAt way ds).find? fun d => d.id == id).bind fun d => d.facts.find? p

/-- A forest as translations and merges give it: siblings differ, and so do the
platforms of a map, and members have only platforms of their owners. -/
structure WellNested (ds : List Declaration) : Prop where
  unique : SiblingsUnique ds
  distinct : ∀ d ∈ flattenAll ds, d.facts.Distinct
  nested : ∀ q ∈ flattenAll ds, ∀ n ∈ q.children, n.platforms ⊆ q.platforms

/-- The forest says `f` on the platform about the declaration at the end of a
path, which names the identities on the way to it and its own. -/
inductive Says (p : Platform) (f : Facts) : List Declaration → List DeclId → Prop where
  | here {ds : List Declaration} {d : Declaration} :
      d ∈ ds → (p, f) ∈ d.facts.entries → Says p f ds [d.id]
  | inside {ds : List Declaration} {d : Declaration} {path : List DeclId} :
      d ∈ ds → Says p f d.children path → Says p f ds (d.id :: path)

variable {ds : List Declaration} {d : Declaration} {way : List DeclId} {i id : DeclId}
  {p : Platform} {f : Facts}

theorem WellNested.children (h : WellNested ds) (hd : d ∈ flattenAll ds) :
    WellNested d.children :=
  have hsub := flattenAll_children_subset_of_mem hd
  ⟨h.unique.children hd, fun x hx => h.distinct x (hsub hx), fun q hq => h.nested q (hsub hq)⟩

theorem factsAt?_nil : factsAt? [] ds id p =
    (ds.find? fun d => d.id == id).bind fun d => d.facts.find? p := rfl

theorem siblingsAt_nil : ∀ way : List DeclId, siblingsAt way [] = []
  | [] => rfl
  | _ :: rest => siblingsAt_nil rest

theorem factsAt?_cons_none (h : (ds.find? fun d => d.id == i) = none) :
    factsAt? (i :: way) ds id p = none := by
  unfold factsAt?
  rw [siblingsAt, membersOf, h, Option.map_none, Option.getD_none, siblingsAt_nil]
  rfl

theorem factsAt?_cons_some (h : (ds.find? fun d => d.id == i) = some d) :
    factsAt? (i :: way) ds id p = factsAt? way d.children id p := by
  unfold factsAt?
  rw [siblingsAt, membersOf, h]
  rfl

/-- Where siblings differ, what is said about a path is found at its place. -/
theorem says_iff (h : WellNested ds) :
    Says p f ds (way ++ [id]) ↔ factsAt? way ds id p = some f := by
  constructor
  · intro hsays
    generalize hpath : way ++ [id] = path at hsays
    induction hsays generalizing way with
    | @here ds d hd hf =>
        cases way with
        | nil =>
            obtain rfl : id = d.id := by simpa using hpath
            rw [factsAt?_nil, find?_key_of_mem h.unique.1 hd]
            exact (PlatformMap.mem_entries_iff (h.distinct d (mem_flattenAll_self hd))).mp hf
        | cons i rest => simp at hpath
    | @inside ds d path hd hbelow ih =>
        cases way with
        | nil =>
            obtain ⟨-, rfl⟩ : id = d.id ∧ path = [] := by simpa [eq_comm] using hpath
            cases hbelow
        | cons i rest =>
            obtain ⟨rfl, hrest⟩ := List.cons.inj hpath
            rw [factsAt?_cons_some (find?_key_of_mem h.unique.1 hd)]
            exact ih (h.children (mem_flattenAll_self hd)) hrest
  · intro hf
    induction way generalizing ds with
    | nil =>
        obtain ⟨d, hd, hdf⟩ := Option.bind_eq_some_iff.mp hf
        obtain rfl : d.id = id := by simpa using List.find?_some hd
        have hmem := List.mem_of_find?_eq_some hd
        have hdistinct := h.distinct d (mem_flattenAll_self hmem)
        exact .here hmem ((PlatformMap.mem_entries_iff hdistinct).mpr hdf)
    | cons i rest ih =>
        cases hd : ds.find? fun d => d.id == i with
        | none =>
            rw [factsAt?_cons_none hd] at hf
            cases hf
        | some d =>
            rw [factsAt?_cons_some hd] at hf
            obtain rfl : d.id = i := by simpa using List.find?_some hd
            have hmem := List.mem_of_find?_eq_some hd
            exact .inside hmem (ih (h.children (mem_flattenAll_self hmem)) hf)

/-- What is said below a declaration is about its platforms. -/
theorem mem_platforms_of_factsAt? (h : WellNested ds) (hd : d ∈ flattenAll ds)
    (hf : factsAt? way d.children id p = some f) : p ∈ d.platforms := by
  induction way generalizing d with
  | nil =>
      obtain ⟨n, hn, hnf⟩ := Option.bind_eq_some_iff.mp hf
      refine h.nested d hd n (List.mem_of_find?_eq_some hn) ?_
      exact (PlatformMap.isSome_find? n.facts p).mp (by simp [hnf])
  | cons i rest ih =>
      cases hc : d.children.find? fun c => c.id == i with
      | none =>
          rw [factsAt?_cons_none hc] at hf
          cases hf
      | some c =>
          rw [factsAt?_cons_some hc] at hf
          have hmem := List.mem_of_find?_eq_some hc
          exact h.nested d hd c hmem (ih (mem_flattenAll_child hd hmem) hf)

/-! ## What a filter keeps there -/

/-- A test that looks at the identity, the platform and the facts. -/
def byIdentity (test : DeclId → Platform → Facts → Bool) : KeepTest := fun d p f => test d.id p f

/-- The test holds for all that the forest says on a platform along a line. -/
def PassesAlong (test : DeclId → Platform → Facts → Bool) (p : Platform)
    (ds : List Declaration) (line : List DeclId) : Prop :=
  ∀ way id, way ++ [id] <+: line → ∀ f, factsAt? way ds id p = some f → test id p f = true

variable {test : DeclId → Platform → Facts → Bool} {keep : KeepTest} {removed : List Platform}

theorem passesAlong_singleton :
    PassesAlong test p ds [id] ↔ ∀ f, factsAt? [] ds id p = some f → test id p f = true := by
  constructor
  · exact fun h => h [] id List.prefix_rfl
  · intro h way i hway
    cases way with
    | nil =>
        obtain rfl : i = id := by simpa using hway
        exact h
    | cons j rest => simp at hway

theorem passesAlong_cons {line : List DeclId} (hd : (ds.find? fun d => d.id == i) = some d) :
    PassesAlong test p ds (i :: line) ↔
      (∀ f, d.facts.find? p = some f → test i p f = true) ∧ PassesAlong test p d.children line := by
  have hfirst : ∀ f, factsAt? [] ds i p = some f ↔ d.facts.find? p = some f := by
    intro f
    rw [factsAt?_nil, hd]
    rfl
  constructor
  · intro h
    refine ⟨fun f hf => h [] i ⟨line, rfl⟩ f ((hfirst f).mpr hf), fun way id hway f hf => ?_⟩
    refine h (i :: way) id (List.cons_prefix_cons.mpr ⟨rfl, hway⟩) f ?_
    rw [factsAt?_cons_some hd]
    exact hf
  · rintro ⟨hhere, hbelow⟩ way id hway f hf
    cases way with
    | nil =>
        obtain ⟨rfl, -⟩ := List.cons_prefix_cons.mp hway
        exact hhere f ((hfirst f).mp hf)
    | cons j rest =>
        obtain ⟨rfl, hrest⟩ := List.cons_prefix_cons.mp hway
        rw [factsAt?_cons_some hd] at hf
        exact hbelow rest id hrest f hf

theorem find?_filterAll (keep : KeepTest) (removed : List Platform)
    (h : (ds.map (·.id)).Nodup) (id : DeclId) :
    ((filterAll keep removed ds).find? fun d => d.id == id) =
      (ds.find? fun d => d.id == id).bind (filter keep removed) := by
  rw [filterAll_eq_filterMap]
  exact find?_filterMap_of_nodup (fun d e he => id_eq_of_label (eq_of_filter he).1) id h

theorem find?_keptFacts (h : d.facts.Distinct) :
    (d.keptFacts keep removed).find? p = some f ↔
      d.facts.find? p = some f ∧ p ∉ removed ∧ keep d p f = true := by
  have hkept : (d.keptFacts keep removed).Distinct := h.filter _
  rw [← PlatformMap.mem_entries_iff hkept, mem_keptFacts, PlatformMap.mem_entries_iff h]

/-- A platform is left for the members exactly if it was left above and the test
holds for what the declaration says there. -/
theorem not_mem_dropped_iff (keep : KeepTest) (removed : List Platform) (p : Platform)
    (h : d.facts.Distinct) :
    p ∉ removed ++ d.droppedPlatforms keep removed ↔
      p ∉ removed ∧ ∀ f, d.facts.find? p = some f → keep d p f = true := by
  simp only [List.mem_append, mem_droppedPlatforms, PlatformMap.mem_entries_iff h, not_or,
    not_exists, not_and, Bool.not_eq_false]
  constructor
  · rintro ⟨hp, hall⟩
    exact ⟨hp, fun f hf => (hall f hf).2⟩
  · rintro ⟨hp, hall⟩
    exact ⟨hp, fun f hf => ⟨hp, hall f hf⟩⟩

theorem find?_bind_filter (d : Declaration) (p : Platform) :
    ((d.filter keep removed).bind fun e => e.facts.find? p) =
      (d.keptFacts keep removed).find? p := by
  rw [filter_eq]
  split
  · next hempty =>
    rw [PlatformMap.find?, List.isEmpty_iff.mp hempty]
    rfl
  · rfl

/-- A declaration stays if the test holds for what it says on a platform that was left above. -/
theorem exists_filter_of_mem (h : d.facts.Distinct) (hp : p ∈ d.platforms) (habove : p ∉ removed)
    (hhere : ∀ f, d.facts.find? p = some f → keep d p f = true) :
    ∃ e, d.filter keep removed = some e := by
  obtain ⟨f, hf⟩ := Option.isSome_iff_exists.mp ((PlatformMap.isSome_find? d.facts p).mpr hp)
  have hkept : (d.keptFacts keep removed).find? p = some f :=
    (find?_keptFacts h).mpr ⟨hf, habove, hhere f hf⟩
  rw [← find?_bind_filter] at hkept
  obtain ⟨e, he, -⟩ := Option.bind_eq_some_iff.mp hkept
  exact ⟨e, he⟩

theorem factsAt?_nil_filterAll (h : WellNested ds) :
    factsAt? [] (filterAll (byIdentity test) removed ds) id p = some f ↔
      factsAt? [] ds id p = some f ∧ p ∉ removed ∧ PassesAlong test p ds [id] := by
  rw [passesAlong_singleton, factsAt?_nil, factsAt?_nil, find?_filterAll _ _ h.unique.1]
  cases hd : ds.find? fun d => d.id == id with
  | none => simp
  | some d =>
      have hdistinct := h.distinct d (mem_flattenAll_self (List.mem_of_find?_eq_some hd))
      obtain rfl : d.id = id := by simpa using List.find?_some hd
      rw [Option.bind_some, Option.bind_some, find?_bind_filter, find?_keptFacts hdistinct]
      refine and_congr_right fun hf => and_congr_right fun _ => ?_
      simp [hf, byIdentity]

/-- What a filter keeps at a place is what is said there, if the test holds on the
platform all the way down to it. -/
theorem factsAt?_filterAll (h : WellNested ds) :
    factsAt? way (filterAll (byIdentity test) removed ds) id p = some f ↔
      factsAt? way ds id p = some f ∧ p ∉ removed ∧ PassesAlong test p ds (way ++ [id]) := by
  induction way generalizing ds removed with
  | nil => exact factsAt?_nil_filterAll h
  | cons i rest ih =>
      have hfound := find?_filterAll (byIdentity test) removed h.unique.1 i
      cases hd : ds.find? fun d => d.id == i with
      | none =>
          rw [hd, Option.bind_none] at hfound
          rw [factsAt?_cons_none hd, factsAt?_cons_none hfound]
          simp
      | some d =>
          rw [hd, Option.bind_some] at hfound
          obtain rfl : d.id = i := by simpa using List.find?_some hd
          have hmem := mem_flattenAll_self (List.mem_of_find?_eq_some hd)
          have hdistinct := h.distinct d hmem
          have hdropped := not_mem_dropped_iff (byIdentity test) removed p hdistinct
          rw [List.cons_append, passesAlong_cons hd, factsAt?_cons_some hd]
          cases he : d.filter (byIdentity test) removed with
          | none =>
              rw [he] at hfound
              rw [factsAt?_cons_none hfound]
              refine iff_of_false (fun hf => nomatch hf) ?_
              rintro ⟨hf, habove, hhere, -⟩
              -- The platform is one of the declaration, so the filter would leave this there.
              have hp := mem_platforms_of_factsAt? h hmem hf
              have hstays : ∃ e, d.filter (byIdentity test) removed = some e :=
                exists_filter_of_mem hdistinct hp habove hhere
              obtain ⟨e, he'⟩ := hstays
              cases he.symm.trans he'
          | some e =>
              rw [he] at hfound
              rw [factsAt?_cons_some hfound, (eq_of_filter he).2.2, ih (h.children hmem), hdropped,
                and_assoc]
              rfl

end Declaration

namespace DocModule

open Declaration

variable {ms : List DocModule} {m r s : DocModule} {way : List DeclId} {id : DeclId}
  {p : Platform} {f : Facts} {test : DeclId → Platform → Facts → Bool}

/-- The module says `f` on the platform about the declaration at the end of a
path. -/
def Says (m : DocModule) (path : List DeclId) (p : Platform) (f : Facts) : Prop :=
  Declaration.Says p f m.packages path

/-- The packages of the module and all below them are well nested. -/
def WellNested (m : DocModule) : Prop := Declaration.WellNested m.packages

theorem wellNested_of (hunique : m.SiblingsUnique) (hdistinct : m.PlatformsDistinct)
    (hnested : m.PlatformsNested) : m.WellNested :=
  ⟨hunique, hdistinct.2, hnested⟩

/-! ## Filtered modules -/

theorem siblingsUnique_filter (h : m.SiblingsUnique) (keep : KeepTest) :
    (m.filter keep).SiblingsUnique := by
  have hprunes := m.prunes_filter keep
  refine ⟨(ids_sublist_of_labels hprunes.packages).nodup h.1, fun n hn => ?_⟩
  obtain ⟨d, hd, -, hchildren⟩ := hprunes.members n hn
  exact (ids_sublist_of_labels hchildren).nodup (h.2 d hd)

theorem allPlatforms_filter_subset (m : DocModule) (keep : KeepTest) :
    (m.filter keep).allPlatforms ⊆ m.allPlatforms := by
  refine List.append_subset.mpr ⟨List.subset_append_left _ _, fun p hp => ?_⟩
  obtain ⟨n, hn, hpn⟩ := List.mem_flatMap.mp hp
  obtain ⟨d, hd, above, hdn⟩ := exists_of_mem_filterAll hn
  refine List.mem_append_right _ (List.mem_flatMap.mpr ⟨d, hd, ?_⟩)
  exact platforms_subset_of_filter hdn hpn

theorem pairwise_apart_filter (h : ms.Pairwise Apart) (keep : KeepTest) :
    (ms.map (filter keep)).Pairwise Apart := by
  refine List.pairwise_map.mpr (h.imp fun {m n} hmn p hm hn => ?_)
  exact hmn p (m.allPlatforms_filter_subset keep hm) (n.allPlatforms_filter_subset keep hn)

theorem forall_mem_map_filter {P : DocModule → Prop} {keep : KeepTest}
    (h : ∀ m ∈ ms, P (m.filter keep)) : ∀ m ∈ ms.map (filter keep), P m := by
  intro m hm
  obtain ⟨n, hn, rfl⟩ := List.mem_map.mp hm
  exact h n hn

/-! ## Modules that say the same -/

/-- Where every declaration is on some platform, the places are those about which
something is said. -/
theorem isSome_nodeAt?_iff (h : m.PlatformsInhabited) :
    (m.nodeAt? way id).isSome ↔ ∃ p f, m.factsAt? way id p = some f := by
  constructor
  · intro hsome
    obtain ⟨d, hd⟩ := Option.isSome_iff_exists.mp hsome
    obtain ⟨p, hp⟩ := List.exists_mem_of_ne_nil _ (h d (nodeAt?_mem hd))
    obtain ⟨f, hf⟩ := Option.isSome_iff_exists.mp ((PlatformMap.isSome_find? d.facts p).mpr hp)
    exact ⟨p, f, by rw [factsAt?, hd, Option.bind_some, hf]⟩
  · rintro ⟨p, f, hf⟩
    obtain ⟨d, hd, -⟩ := Option.bind_eq_some_iff.mp hf
    rw [hd]
    rfl

/-- What modules say tells them up to order. -/
theorem sameUpToOrder_of_factsAt? (hr : r.SiblingsUnique) (hs : s.SiblingsUnique)
    (hrd : r.PlatformsDistinct) (hsd : s.PlatformsDistinct) (hri : r.PlatformsInhabited)
    (hsi : s.PlatformsInhabited)
    (hfacts : ∀ way id p, r.factsAt? way id p = s.factsAt? way id p)
    (hmodule : ∀ p, r.facts.find? p = s.facts.find? p) : r.SameUpToOrder s := by
  have htaken : ∀ way id, (r.nodeAt? way id).isSome ↔ (s.nodeAt? way id).isSome := by
    intro way id
    simp only [isSome_nodeAt?_iff hri, isSome_nodeAt?_iff hsi, hfacts]
  refine ⟨htaken, fun way => ?_, hfacts, fun way id d e hd he => ?_, hmodule,
    PlatformMap.perm_of_find? hrd.1 hsd.1 hmodule⟩
  · refine (List.perm_ext_iff_of_nodup (hr.siblingsAt way).1 (hs.siblingsAt way).1).mpr fun id => ?_
    exact mem_siblingsAt_iff.trans ((htaken way id).trans mem_siblingsAt_iff.symm)
  · refine PlatformMap.perm_of_find? (hrd.2 d (nodeAt?_mem hd)) (hsd.2 e (nodeAt?_mem he)) ?_
    intro p
    have hp := hfacts way id p
    rwa [factsAt?, factsAt?, hd, he] at hp

/-! ## Both orders -/

/-- In the merged module the test holds along a line on a platform if it does so
in the one module that is about this platform. -/
theorem passesAlong_merged (hunique : ∀ m ∈ ms, m.SiblingsUnique) (hapart : ms.Pairwise Apart)
    (hm : m ∈ ms) (hp : p ∈ m.allPlatforms) (line : List DeclId) :
    PassesAlong test p (merged ms).packages line ↔ PassesAlong test p m.packages line := by
  have hsymm : Std.Symm Apart := ⟨fun m n hmn p hn hm => hmn p hm hn⟩
  have halone : ∀ n ∈ ms, p ∈ n.allPlatforms → n = m := by
    intro n hn hpn
    by_contra hne
    exact hapart.forall hn hm hne p hpn hp
  have hsame : ∀ way id f, (merged ms).factsAt? way id p = some f ↔
      m.factsAt? way id p = some f := by
    intro way id f
    rw [(keepsAll_merged hunique hapart).facts]
    constructor
    · rintro ⟨n, hn, hf⟩
      rwa [← halone n hn (mem_allPlatforms_of_factsAt? hf)]
    · exact fun hf => ⟨m, hm, hf⟩
  exact forall_congr' fun way => forall_congr' fun id => forall_congr' fun _ =>
    forall_congr' fun f => imp_congr (hsame way id f) Iff.rfl

/-- Filtered after merging, the modules say what they say filtered before it. -/
theorem factsAt?_filter_merged (test : DeclId → Platform → Facts → Bool)
    (hunique : ∀ m ∈ ms, m.SiblingsUnique)
    (hdistinct : ∀ m ∈ ms, m.PlatformsDistinct) (hnested : ∀ m ∈ ms, m.PlatformsNested)
    (hapart : ms.Pairwise Apart) (way : List DeclId) (id : DeclId) (p : Platform) :
    ((merged ms).filter (byIdentity test)).factsAt? way id p =
      (merged (ms.map (filter (byIdentity test)))).factsAt? way id p := by
  have hmerged : (merged ms).WellNested := wellNested_of (merged_unique hunique)
    (platformsDistinct_merged hdistinct) (platformsNested_merged hnested)
  have hfilter : ∀ n : DocModule, n.WellNested → ∀ f,
      ((n.filter (byIdentity test)).factsAt? way id p = some f ↔
        n.factsAt? way id p = some f ∧ PassesAlong test p n.packages (way ++ [id])) := by
    intro n hn f
    refine (Declaration.factsAt?_filterAll hn).trans (and_congr_right fun _ => ?_)
    exact and_iff_right List.not_mem_nil
  have hafter := keepsAll_merged
    (forall_mem_map_filter fun m hm => siblingsUnique_filter (hunique m hm) (byIdentity test))
    (pairwise_apart_filter hapart (byIdentity test))
  ext f
  rw [hafter.facts, hfilter _ hmerged, (keepsAll_merged hunique hapart).facts]
  constructor
  · rintro ⟨⟨m, hm, hf⟩, hpasses⟩
    refine ⟨m.filter (byIdentity test), List.mem_map_of_mem hm, ?_⟩
    rw [hfilter m (wellNested_of (hunique m hm) (hdistinct m hm) (hnested m hm))]
    refine ⟨hf, (passesAlong_merged hunique hapart hm ?_ _).mp hpasses⟩
    exact mem_allPlatforms_of_factsAt? hf
  · rintro ⟨n, hn, hf⟩
    obtain ⟨m, hm, rfl⟩ := List.mem_map.mp hn
    rw [hfilter m (wellNested_of (hunique m hm) (hdistinct m hm) (hnested m hm))] at hf
    refine ⟨⟨m, hm, hf.1⟩, (passesAlong_merged hunique hapart hm ?_ _).mpr hf.2⟩
    exact mem_allPlatforms_of_factsAt? hf.1

theorem says_iff (h : m.WellNested) :
    m.Says (way ++ [id]) p f ↔ m.factsAt? way id p = some f :=
  Declaration.says_iff h

theorem not_says_nil : ¬ m.Says [] p f := by
  intro h
  cases h

/-- Modules that say the same at every place say the same. -/
theorem says_congr (hr : r.WellNested) (hs : s.WellNested)
    (hfacts : ∀ way id p, r.factsAt? way id p = s.factsAt? way id p) (path : List DeclId)
    (p : Platform) (f : Facts) : r.Says path p f ↔ s.Says path p f := by
  cases path using List.reverseRecOn with
  | nil => exact iff_of_false not_says_nil not_says_nil
  | append_singleton way id => rw [says_iff hr, says_iff hs, hfacts]

/-- **Filtering goes with merging.**  Let some modules be views of different
platforms, in which siblings differ, maps repeat no platform and members have
only platforms of their owners, and let a filter look at identity, platform and
facts.  Then the merged module, filtered, and the filtered modules, merged, say
the same about every path on every platform, and are the same up to the order of
siblings and platforms and up to labels.  Without any module there is no result
in either order. -/
theorem filter_merge (test : DeclId → Platform → Facts → Bool) (ms : List DocModule)
    (hunique : ∀ m ∈ ms, m.SiblingsUnique) (hdistinct : ∀ m ∈ ms, m.PlatformsDistinct)
    (hnested : ∀ m ∈ ms, m.PlatformsNested) (hapart : ms.Pairwise Apart) :
    (ms ≠ [] → ∃ r s, (merge ms).value = .ok r ∧
      (merge (ms.map (filter (byIdentity test)))).value = .ok s ∧
        (∀ path p f, (r.filter (byIdentity test)).Says path p f ↔ s.Says path p f) ∧
          (r.filter (byIdentity test)).SameUpToOrder s) ∧
    (ms = [] → (merge ms).value = .error noModules ∧
      (merge (ms.map (filter (byIdentity test)))).value = .error noModules) := by
  constructor
  · intro hne
    have hunique' := forall_mem_map_filter fun m hm =>
      siblingsUnique_filter (hunique m hm) (byIdentity test)
    have hdistinct' := forall_mem_map_filter fun m hm =>
      platformsDistinct_filter (hdistinct m hm) (byIdentity test)
    have hnested' := forall_mem_map_filter fun m hm =>
      platformsNested_filter (hnested m hm) (byIdentity test)
    have hinhabited := forall_mem_map_filter fun m (_ : m ∈ ms) =>
      platformsInhabited_filter m (byIdentity test)
    have hmerged := merged_unique hunique
    have hmergedDistinct := platformsDistinct_merged hdistinct
    have hmergedNested := platformsNested_merged hnested
    have hfacts := factsAt?_filter_merged test hunique hdistinct hnested hapart
    refine ⟨merged ms, _, merge_value hne hunique hdistinct,
      merge_value (by simpa using hne) hunique' hdistinct', says_congr ?_ ?_ hfacts, ?_⟩
    · exact wellNested_of (siblingsUnique_filter hmerged _)
        (platformsDistinct_filter hmergedDistinct _) (platformsNested_filter hmergedNested _)
    · exact wellNested_of (merged_unique hunique') (platformsDistinct_merged hdistinct')
        (platformsNested_merged hnested')
    · refine sameUpToOrder_of_factsAt? (siblingsUnique_filter hmerged _) (merged_unique hunique')
        (platformsDistinct_filter hmergedDistinct _) (platformsDistinct_merged hdistinct')
        (platformsInhabited_filter _ _) (platformsInhabited_merged hinhabited) hfacts fun p => ?_
      show (merged ms).facts.find? p = _
      rw [find?_facts_merged, find?_facts_merged, List.findSome?_map]
      rfl
  · rintro rfl
    exact ⟨rfl, rfl⟩

/-- Of three views of one package, whatever one of the platforms says goes, and
so do functions without a summary. -/
def sampleTest (id : DeclId) (p : Platform) (f : Facts) : Bool :=
  p.family != .js && (id.callable.isEmpty || !f.summary.isEmpty)

theorem filter_merge_platformViews :
    (∀ m ∈ platformViews, m.SiblingsUnique) ∧ (∀ m ∈ platformViews, m.PlatformsDistinct) ∧
      (∀ m ∈ platformViews, m.PlatformsNested) ∧ platformViews.Pairwise Apart ∧
      ∃ r s, (merge platformViews).value = .ok r ∧
        (merge (platformViews.map (filter (byIdentity sampleTest)))).value = .ok s ∧
          (∀ path p f, (r.filter (byIdentity sampleTest)).Says path p f ↔ s.Says path p f) ∧
            (r.filter (byIdentity sampleTest)).SameUpToOrder s := by
  refine ⟨by decide, by decide, by decide, by decide, ?_⟩
  exact (filter_merge sampleTest platformViews (by decide) (by decide) (by decide)
    (by decide)).1 (by simp [platformViews])

end DocModule

end CrossDoc
