import CrossDoc.Platform.Map
import CrossDoc.Proofs.FirstOccurrence

/-!
# Unions of platform maps

A union is left-biased: a platform has the value of the first map that has one
for it, and platforms stand in the order of their first contribution.
-/

namespace CrossDoc.PlatformMap

open FirstOccurrence

variable {α β : Type}

theorem eq_of_entries {m n : PlatformMap α} (h : m.entries = n.entries) : m = n := by
  cases m
  cases n
  cases h
  rfl

theorem mem_entries_iff {m : PlatformMap α} (h : m.Distinct) {p : Platform} {v : α} :
    (p, v) ∈ m.entries ↔ m.find? p = some v := by
  unfold find?
  rw [Option.map_eq_some_iff]
  constructor
  · intro hmem
    exact ⟨(p, v), find?_key_of_mem h hmem, rfl⟩
  · rintro ⟨e, he, rfl⟩
    have hp : e.1 = p := by simpa using List.find?_some he
    exact hp ▸ List.mem_of_find?_eq_some he

/-- Maps with the same values differ at most in the order of their
platforms. -/
theorem perm_of_find? {m n : PlatformMap α} (hm : m.Distinct) (hn : n.Distinct)
    (hfind : ∀ p, m.find? p = n.find? p) : m.entries.Perm n.entries := by
  rw [List.perm_ext_iff_of_nodup (List.Nodup.of_map _ hm) (List.Nodup.of_map _ hn)]
  intro e
  rw [show e = (e.1, e.2) from rfl, mem_entries_iff hm, mem_entries_iff hn, hfind]

/-- A map is told by the order of its platforms and by their values. -/
theorem eq_of_find? {m n : PlatformMap α} (hm : m.Distinct) (hplatforms : m.platforms = n.platforms)
    (hfind : ∀ p, m.find? p = n.find? p) : m = n := by
  have found : ∀ (l : PlatformMap α) (p : Platform) (e : Platform × α),
      l.entries.find? (fun e => e.1 == p) = some e → e = (p, e.2) := by
    intro l p e he
    have hp : e.1 = p := by simpa using List.find?_some he
    rw [← hp]
  apply eq_of_entries
  refine eq_of_find?_key hm hplatforms fun p => ?_
  have hp := hfind p
  unfold find? at hp
  cases hme : m.entries.find? fun e => e.1 == p with
  | none =>
      rw [hme] at hp
      exact (Option.map_eq_none_iff.mp hp.symm).symm
  | some e =>
      rw [hme] at hp
      obtain ⟨e', he', hvalue⟩ := Option.map_eq_some_iff.mp hp.symm
      rw [he', found m p e hme, found n p e' he', hvalue]

/-! ## Two maps -/

theorem find?_merge (m other : PlatformMap α) (p : Platform) :
    (m.merge other).find? p = (m.find? p).or (other.find? p) := by
  obtain ⟨es⟩ := other
  unfold merge
  induction es generalizing m with
  | nil => simp [find?]
  | cons e rest ih =>
      rw [List.foldl_cons, ih, find?_insert, Option.or_assoc]
      congr 1
      by_cases h : p = e.1
      · subst h
        simp [find?]
      · have hne : (e.1 == p) = false := by simpa using fun he => h he.symm
        simp [find?, h, hne]

theorem platforms_merge {m : PlatformMap α} (h : m.Distinct) (other : PlatformMap α) :
    (m.merge other).platforms = (m.platforms ++ other.platforms).eraseDups := by
  obtain ⟨es⟩ := other
  unfold merge
  induction es generalizing m with
  | nil => simp [platforms, eraseDups_of_nodup (show (m.entries.map Prod.fst).Nodup from h)]
  | cons e rest ih =>
      have hins : (m.insert e.1 e.2).platforms = (m.platforms ++ [e.1]).eraseDups := by
        rw [platforms_insert, eraseDups_append_singleton,
          eraseDups_of_nodup (show m.platforms.Nodup from h)]
      rw [List.foldl_cons, ih (h.insert e.1 e.2), hins, eraseDups_eraseDups_append]
      simp [platforms]

theorem entries_foldl_insert {m : PlatformMap α} {es : List (Platform × α)}
    (h : (m.platforms ++ es.map Prod.fst).Nodup) :
    (es.foldl (fun acc e => acc.insert e.1 e.2) m).entries = m.entries ++ es := by
  induction es generalizing m with
  | nil => simp
  | cons e rest ih =>
      have hnot : e.1 ∉ m.platforms := by
        intro hmem
        exact (List.nodup_append.mp h).2.2 e.1 hmem e.1 (by simp) rfl
      have hins : m.insert e.1 e.2 = ⟨m.entries ++ [e]⟩ := by
        rw [insert, if_neg fun hs => hnot ((isSome_find? m e.1).mp hs)]
      rw [List.foldl_cons, hins, ih]
      · simp
      · simpa [platforms] using h

/-- A map with distinct platforms is the union of nothing and itself. -/
theorem empty_merge {m : PlatformMap α} (h : m.Distinct) : empty.merge m = m := by
  have he : (m.entries.foldl (fun acc e => acc.insert e.1 e.2) empty).entries =
      empty.entries ++ m.entries :=
    entries_foldl_insert h
  exact eq_of_entries (by rw [merge, he]; rfl)

/-! ## Several maps -/

variable (f : β → PlatformMap α)

theorem find?_foldl_merge (xs : List β) (m : PlatformMap α) (p : Platform) :
    (xs.foldl (fun acc x => acc.merge (f x)) m).find? p =
      (m.find? p).or (xs.findSome? fun x => (f x).find? p) := by
  induction xs generalizing m with
  | nil => simp
  | cons x rest ih =>
      rw [List.foldl_cons, ih, find?_merge, Option.or_assoc, List.findSome?_cons]
      cases (f x).find? p <;> rfl

theorem platforms_foldl_merge (xs : List β) {m : PlatformMap α} (h : m.Distinct) :
    (xs.foldl (fun acc x => acc.merge (f x)) m).platforms =
      (m.platforms ++ xs.flatMap fun x => (f x).platforms).eraseDups := by
  induction xs generalizing m with
  | nil => simp [eraseDups_of_nodup (show m.platforms.Nodup from h)]
  | cons x rest ih =>
      rw [List.foldl_cons, ih (h.merge (f x)), platforms_merge h, eraseDups_eraseDups_append,
        List.flatMap_cons, List.append_assoc]

theorem distinct_foldl_merge (xs : List β) {m : PlatformMap α} (h : m.Distinct) :
    (xs.foldl (fun acc x => acc.merge (f x)) m).Distinct := by
  rw [Distinct, platforms_foldl_merge f xs h]
  exact nodup_eraseDups _

end CrossDoc.PlatformMap
