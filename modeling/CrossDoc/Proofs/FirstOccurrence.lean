import Mathlib.Data.List.Induction
import Mathlib.Data.List.Nodup

/-!
# Order of first occurrence

`List.eraseDups` keeps every element of a list once, where it first occurs.
Maps by platform and sibling lists are both built in this order, so the facts
about it stand apart from either.
-/

namespace CrossDoc.FirstOccurrence

variable {α β : Type} [BEq α] [LawfulBEq α]

/-- An element at the end is kept if it has not occurred before. -/
theorem eraseDups_append_singleton (xs : List α) (x : α) :
    (xs ++ [x]).eraseDups = if x ∈ xs then xs.eraseDups else xs.eraseDups ++ [x] := by
  rw [List.eraseDups_append]
  by_cases h : x ∈ xs
  · simp [List.removeAll, h]
  · simp [List.removeAll, h, List.eraseDups_cons]

/-- Every element is kept once. -/
theorem nodup_eraseDups (xs : List α) : xs.eraseDups.Nodup := by
  induction xs using List.reverseRecOn with
  | nil => exact List.nodup_nil
  | append_singleton xs x ih =>
      rw [eraseDups_append_singleton]
      split
      · exact ih
      · next hx =>
        rw [List.nodup_append]
        refine ⟨ih, by simp, ?_⟩
        rintro y hy z hz rfl
        rw [List.mem_singleton] at hz
        exact hx (hz ▸ List.mem_eraseDups.mp hy)

/-- A list without repetitions is kept as it is. -/
theorem eraseDups_of_nodup {xs : List α} (h : xs.Nodup) : xs.eraseDups = xs := by
  induction xs with
  | nil => rfl
  | cons x rest ih =>
      have hx := List.nodup_cons.mp h
      have hrest : rest.filter (fun y => !y == x) = rest := by
        rw [List.filter_eq_self]
        intro y hy
        have hne : y ≠ x := fun he => hx.1 (he ▸ hy)
        simpa using hne
      rw [List.eraseDups_cons, hrest, ih hx.2]

/-- Repetitions at the start may be dropped before the rest is looked at. -/
theorem eraseDups_eraseDups_append (xs ys : List α) :
    (xs.eraseDups ++ ys).eraseDups = (xs ++ ys).eraseDups := by
  have hremove : ys.removeAll xs.eraseDups = ys.removeAll xs := by
    unfold List.removeAll
    apply List.filter_congr
    intro y _
    simp [List.mem_eraseDups]
  rw [List.eraseDups_append, List.eraseDups_append, hremove,
    eraseDups_of_nodup (nodup_eraseDups xs)]

/-- Repetitions among some of the elements are repetitions of the list. -/
theorem eraseDups_filter (keep : α → Bool) (xs : List α) :
    (xs.filter keep).eraseDups = xs.eraseDups.filter keep := by
  induction xs using List.reverseRecOn with
  | nil => rfl
  | append_singleton xs x ih =>
      rw [List.filter_append, eraseDups_append_singleton]
      by_cases hx : keep x = true
      · rw [List.filter_cons_of_pos hx, List.filter_nil, eraseDups_append_singleton, ih]
        by_cases hmem : x ∈ xs
        · simp [hmem, hx]
        · simp [hmem, hx, List.filter_append]
      · rw [List.filter_cons_of_neg hx, List.filter_nil, List.append_nil, ih]
        split
        · rfl
        · simp [List.filter_append, hx]

/-- Repetitions at the end may be dropped before the rest is looked at. -/
theorem eraseDups_append_eraseDups (xs ys : List α) :
    (xs ++ ys.eraseDups).eraseDups = (xs ++ ys).eraseDups := by
  have hremove : (ys.eraseDups.removeAll xs).eraseDups = (ys.removeAll xs).eraseDups := by
    unfold List.removeAll
    rw [eraseDups_filter, eraseDups_filter, eraseDups_of_nodup (nodup_eraseDups ys)]
  rw [List.eraseDups_append, List.eraseDups_append, hremove]

/-- What has occurred already adds nothing. -/
theorem eraseDups_append_of_subset {xs ys : List α} (h : ys ⊆ xs) :
    (xs ++ ys).eraseDups = xs.eraseDups := by
  have hremove : ys.removeAll xs = [] := by
    unfold List.removeAll
    rw [List.filter_eq_nil_iff]
    intro y hy
    simpa using h hy
  rw [List.eraseDups_append, hremove]
  simp

/-- Different elements stay different under an injection. -/
theorem eraseDups_map {γ : Type} [BEq γ] [LawfulBEq γ] {f : α → γ} (hf : Function.Injective f)
    (xs : List α) : (xs.map f).eraseDups = xs.eraseDups.map f := by
  induction xs using List.reverseRecOn with
  | nil => rfl
  | append_singleton xs x ih =>
      rw [List.map_append, List.map_singleton, eraseDups_append_singleton,
        eraseDups_append_singleton, ih]
      by_cases hx : x ∈ xs
      · rw [if_pos hx, if_pos (List.mem_map_of_mem hx)]
      · rw [if_neg hx, if_neg (by simpa [hf.eq_iff] using hx), List.map_append,
          List.map_singleton]

section Keys

variable {key : β → α} {keep : β → Bool} {xs : List β}

/-- The first with a key stays the first when others follow. -/
theorem find?_key_append {y : β} (h : y ∈ xs) (ys : List β) :
    (xs ++ ys).find? (fun z => key z == key y) = xs.find? fun z => key z == key y := by
  have hsome : (xs.find? fun z => key z == key y).isSome :=
    List.find?_isSome.mpr ⟨y, h, by simp⟩
  rw [List.find?_append, Option.or_of_isSome hsome]

theorem find?_key_eq_none {k : α} (h : k ∉ xs.map key) :
    xs.find? (fun y => key y == k) = none := by
  rw [List.find?_eq_none]
  intro y hy hyk
  exact h (List.mem_map.mpr ⟨y, hy, beq_iff_eq.mp hyk⟩)

/-- If the first with a key passes the test, it is among those that pass. -/
theorem mem_map_filter_of_find? {k : α}
    (h : (xs.find? fun y => key y == k).any keep = true) : k ∈ (xs.filter keep).map key := by
  cases hw : xs.find? fun y => key y == k with
  | none =>
      rw [hw] at h
      cases h
  | some w =>
      rw [hw] at h
      have hwk : key w = k := by simpa using List.find?_some hw
      exact List.mem_map.mpr ⟨w, List.mem_filter.mpr ⟨List.mem_of_find?_eq_some hw, h⟩, hwk⟩

/-- Where the first with a key passes a test if any does, the keys of those
that pass stand in the order of all keys. -/
theorem eraseDups_map_filter
    (h : ∀ x ∈ xs, keep x = true → (xs.find? fun y => key y == key x).any keep = true) :
    ((xs.filter keep).map key).eraseDups =
      (xs.map key).eraseDups.filter fun k => (xs.find? fun y => key y == k).any keep := by
  induction xs using List.reverseRecOn with
  | nil => rfl
  | append_singleton xs x ih =>
      have hxs : ∀ y ∈ xs, keep y = true → (xs.find? fun z => key z == key y).any keep = true := by
        intro y hy hkeep
        rw [← find?_key_append hy [x]]
        exact h y (List.mem_append_left [x] hy) hkeep
      have hfilter : ((xs.map key).eraseDups.filter fun k =>
          ((xs ++ [x]).find? fun z => key z == k).any keep) =
            (xs.map key).eraseDups.filter fun k => (xs.find? fun z => key z == k).any keep := by
        apply List.filter_congr
        intro k hk
        obtain ⟨y, hy, rfl⟩ := List.mem_map.mp (List.mem_eraseDups.mp hk)
        rw [find?_key_append hy]
      rw [List.filter_append, List.map_append, List.map_append, List.map_singleton,
        eraseDups_append_singleton]
      by_cases hx : key x ∈ xs.map key
      · -- If `x` passes, the first with its key does, and stands before it.
        rw [if_pos hx, hfilter, ← ih hxs]
        apply eraseDups_append_of_subset
        intro k hk
        obtain ⟨z, hz, rfl⟩ := List.mem_map.mp hk
        obtain ⟨hzx, hkeep⟩ := List.mem_filter.mp hz
        obtain rfl := List.mem_singleton.mp hzx
        obtain ⟨y, hy, hyz⟩ := List.mem_map.mp hx
        have hfirst := h z (by simp) hkeep
        rw [← hyz, find?_key_append hy, hyz] at hfirst
        exact mem_map_filter_of_find? hfirst
      · have hnone := find?_key_eq_none hx
        rw [if_neg hx, List.filter_append, hfilter, ← ih hxs]
        cases hkeep : keep x with
        | false => simp [hnone, hkeep]
        | true =>
            have hnew : key x ∉ (xs.filter keep).map key := fun hmem =>
              hx ((List.filter_sublist.map key).subset hmem)
            rw [List.filter_cons_of_pos hkeep, List.filter_nil, List.map_singleton,
              eraseDups_append_singleton, if_neg hnew,
              List.filter_cons_of_pos (by simp [hnone, hkeep]), List.filter_nil]

end Keys

/-! ## Lists built from keys -/

/-- Looks up what was built from a key: the first item with the key is the one
that the key gives. -/
theorem find?_filterMap_key {f : α → Option β} {key : β → α}
    (hkey : ∀ k b, f k = some b → key b = k) (k : α) :
    ∀ ks : List α, (ks.filterMap f).find? (fun b => key b == k) =
      if k ∈ ks then f k else none
  | [] => rfl
  | j :: rest => by
      have ih := find?_filterMap_key hkey k rest
      cases hj : f j with
      | none =>
          rw [List.filterMap_cons_none hj, ih]
          by_cases hkj : k = j
          · subst hkj
            simp [hj]
          · simp [hkj]
      | some b =>
          rw [List.filterMap_cons_some hj]
          by_cases hkj : k = j
          · subst hkj
            simp [hkey k b hj, hj]
          · have hb : (key b == k) = false := by
              rw [hkey j b hj]
              simpa using fun he => hkj he.symm
            simp [hb, ih, hkj]

omit [BEq α] [LawfulBEq α] in
/-- The keys of what was built are the keys, if each of them gives an item. -/
theorem map_key_filterMap {f : α → Option β} {key : β → α}
    (hkey : ∀ k b, f k = some b → key b = k) :
    ∀ {ks : List α}, (∀ k ∈ ks, (f k).isSome) → (ks.filterMap f).map key = ks
  | [], _ => rfl
  | k :: rest, h => by
      obtain ⟨b, hb⟩ := Option.isSome_iff_exists.mp (h k (by simp))
      have ih := map_key_filterMap hkey fun j hj => h j (List.mem_cons_of_mem k hj)
      rw [List.filterMap_cons_some hb, List.map_cons, hkey k b hb, ih]

/-- In a list with distinct keys every item is found by its own. -/
theorem find?_key_of_mem {key : β → α} {bs : List β} (h : (bs.map key).Nodup) {b : β}
    (hb : b ∈ bs) : (bs.find? fun c => key c == key b) = some b := by
  obtain ⟨c, hc⟩ := Option.isSome_iff_exists.mp
    (List.find?_isSome (p := fun c => key c == key b) |>.mpr ⟨b, hb, by simp⟩)
  have hkey : key c = key b := by simpa using List.find?_some hc
  rw [hc, List.inj_on_of_nodup_map h (List.mem_of_find?_eq_some hc) hb hkey]

/-- A list with distinct keys is told by its keys and by what they find. -/
theorem eq_of_find?_key {key : β → α} {bs cs : List β} (h : (bs.map key).Nodup)
    (hkeys : bs.map key = cs.map key)
    (hfind : ∀ k, (bs.find? fun b => key b == k) = cs.find? fun c => key c == k) : bs = cs := by
  have rebuild : ∀ {xs : List β}, (xs.map key).Nodup →
      (xs.map key).filterMap (fun k => xs.find? fun x => key x == k) = xs := by
    intro xs hxs
    rw [List.filterMap_map]
    have hself : ∀ x ∈ xs, ((fun k => xs.find? fun y => key y == k) ∘ key) x = some x :=
      fun x hx => find?_key_of_mem hxs hx
    rw [List.filterMap_congr hself, List.filterMap_some]
  calc bs = (bs.map key).filterMap fun k => bs.find? fun b => key b == k := (rebuild h).symm
    _ = (cs.map key).filterMap fun k => cs.find? fun c => key c == k := by
        rw [hkeys]
        exact List.filterMap_congr fun k _ => hfind k
    _ = cs := rebuild (hkeys ▸ h)

/-- In a list with distinct keys at most one item has a given one. -/
theorem filter_key_of_nodup {key : β → α} (k : α) :
    ∀ {bs : List β}, (bs.map key).Nodup →
      bs.filter (fun b => key b == k) = (bs.find? fun b => key b == k).toList
  | [], _ => rfl
  | b :: rest, h => by
      rw [List.map_cons, List.nodup_cons] at h
      by_cases hb : key b = k
      · have hrest : rest.filter (fun c => key c == k) = [] := by
          rw [List.filter_eq_nil_iff]
          intro c hc hck
          apply h.1
          rw [hb, ← beq_iff_eq.mp hck]
          exact List.mem_map_of_mem hc
        simp [hb, hrest]
      · simp [hb, filter_key_of_nodup k h.2]

omit [BEq α] [LawfulBEq α] in
/-- What is found first is found first among the items that pass a test, if it
passes. -/
theorem find?_filter_of_find? {keep found : β → Bool} {b : β} (hb : keep b = true) :
    ∀ {bs : List β}, bs.find? found = some b → (bs.filter keep).find? found = some b
  | [], h => nomatch h
  | c :: rest, h => by
      by_cases hc : found c = true
      · obtain rfl : c = b := by simpa [hc] using h
        simp [hb, hc]
      · have ih := find?_filter_of_find? hb (by simpa [hc] using h : rest.find? found = some b)
        cases hkeep : keep c <;> simp [hkeep, hc, ih]

omit [BEq α] [LawfulBEq α] in
/-- What is found in a list with more behind it is found there or not at
all. -/
theorem all_find?_of_append {keep found : β → Bool} {bs cs : List β} {b : β}
    (h : (bs ++ cs).find? found = some b) (hb : keep b = true) :
    (bs.find? found).all keep = true := by
  rw [List.find?_append] at h
  cases hbs : bs.find? found with
  | none => rfl
  | some c =>
      rw [hbs, Option.some_or] at h
      obtain rfl := Option.some.inj h
      exact hb

/-! ## The items of some lists -/

variable {γ : Type}

omit [BEq α] [LawfulBEq α] in
theorem findSome?_filterMap (f : β → Option γ) (g : α → Option β) (xs : List α) :
    (xs.filterMap g).findSome? f = xs.findSome? fun x => (g x).bind f := by
  induction xs with
  | nil => rfl
  | cons x rest ih =>
      rw [List.filterMap_cons, List.findSome?_cons]
      cases g x with
      | none => exact ih
      | some b => rw [List.findSome?_cons, ih]; rfl

omit [BEq α] [LawfulBEq α] in
theorem flatMap_filterMap (f : β → List γ) (g : α → Option β) (xs : List α) :
    (xs.filterMap g).flatMap f = xs.flatMap fun x => ((g x).map f).getD [] := by
  induction xs with
  | nil => rfl
  | cons x rest ih =>
      rw [List.filterMap_cons, List.flatMap_cons, ← ih]
      cases g x <;> rfl

omit [BEq α] [LawfulBEq α] in
/-- Where at most one item answers, the first answer is the only one. -/
theorem findSome?_eq_some_iff_of_alone {f : β → Option γ} {xs : List β} {v : γ}
    (h : xs.Pairwise fun x y => f x = none ∨ f y = none) :
    xs.findSome? f = some v ↔ ∃ x ∈ xs, f x = some v := by
  induction h with
  | nil => simp
  | @cons x rest hx _ ih =>
      rw [List.findSome?_cons, List.exists_mem_cons_iff, ← ih]
      cases hfx : f x with
      | none => simp
      | some w =>
          have hrest : rest.findSome? f = none := by
            rw [List.findSome?_eq_none_iff]
            intro y hy
            exact (hx y hy).resolve_left (by simp [hfx])
          simp [hrest]

/-! ## Lists in groups -/

section Groups

variable {f : β → Option γ} {k : β → List α} {join : List β → β} {groups : List (List β)}

omit [BEq α] [LawfulBEq α] in
/-- What each group finds first finds first what all of them find. -/
theorem findSome?_map_join (h : ∀ g ∈ groups, f (join g) = g.findSome? f) :
    (groups.map join).findSome? f = groups.flatten.findSome? f := by
  induction groups with
  | nil => rfl
  | cons g rest ih =>
      rw [List.map_cons, List.findSome?_cons, List.flatten_cons, List.findSome?_append,
        h g (by simp), ih fun g' hg' => h g' (List.mem_cons_of_mem g hg')]
      cases g.findSome? f <;> rfl

/-- First occurrences may be taken group by group. -/
theorem eraseDups_flatMap_map_join (h : ∀ g ∈ groups, k (join g) = (g.flatMap k).eraseDups) :
    ((groups.map join).flatMap k).eraseDups = (groups.flatten.flatMap k).eraseDups := by
  induction groups with
  | nil => rfl
  | cons g rest ih =>
      have hrest := ih fun g' hg' => h g' (List.mem_cons_of_mem g hg')
      rw [List.map_cons, List.flatMap_cons, h g (by simp), eraseDups_eraseDups_append,
        ← eraseDups_append_eraseDups, hrest, eraseDups_append_eraseDups, List.flatten_cons,
        List.flatMap_append]

end Groups

end CrossDoc.FirstOccurrence
