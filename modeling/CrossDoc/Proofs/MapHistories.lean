import CrossDoc.Proofs.PlatformUnion

/-!
# Platform maps as they come about

A platform map is an association list, and each operation on its own has to keep the
platforms distinct.  `History` is what has been done to a map since it was empty,
and `OrderedMap` is the plain meaning of the operations: a partial function with the
order in which the platforms came in.  Whatever has been done to a map, it is its
ordered map; so unions of maps that come about in this way obey the laws of a
left-biased union, with the order of the entries.
-/

namespace CrossDoc

/-! ## Ordered maps -/

/-- What each platform has, and the platforms that have something in the order in which
they came in. -/
structure OrderedMap (α : Type) where
  order : List Platform := []
  value : Platform → Option α := fun _ => none

namespace OrderedMap

variable {α : Type}

/-- A platform that has a value keeps its place, any other one comes in at the end. -/
def set (m : OrderedMap α) (p : Platform) (v : α) : OrderedMap α where
  order := if (m.value p).isSome then m.order else m.order ++ [p]
  value q := if q = p then some v else m.value q

/-- A platform that has a value keeps it. -/
def insert (m : OrderedMap α) (p : Platform) (v : α) : OrderedMap α :=
  if (m.value p).isSome then m else m.set p v

/-- The platforms that only `other` has come in behind those of `m`. -/
def merge (m other : OrderedMap α) : OrderedMap α where
  order := m.order ++ other.order.filter fun p => (m.value p).isNone
  value p := (m.value p).or (other.value p)

def erase (m : OrderedMap α) (p : Platform) : OrderedMap α where
  order := m.order.filter fun q => q ≠ p
  value q := if q = p then none else m.value q

def eraseIf (m : OrderedMap α) (test : Platform → α → Bool) : OrderedMap α where
  order := m.order.filter fun p => !(m.value p).any (test p)
  value p := (m.value p).filter fun v => !test p v

def change (m : OrderedMap α) (f : Platform → α → α) : OrderedMap α where
  order := m.order
  value p := (m.value p).map (f p)

def entries (m : OrderedMap α) : List (Platform × α) :=
  m.order.filterMap fun p => (m.value p).map fun v => (p, v)

end OrderedMap

namespace PlatformMap

open FirstOccurrence

variable {α : Type} {m other : PlatformMap α}

/-! ## The operations through `find?` and `platforms` -/

theorem platforms_set (m : PlatformMap α) (p : Platform) (v : α) :
    (m.set p v).platforms = if (m.find? p).isSome then m.platforms else m.platforms ++ [p] := by
  rw [set]
  split
  · exact map_fst_replaceFirst p v m.entries
  · simp [platforms]

theorem find?_replaceFirst (p q : Platform) (v : α) : ∀ es : List (Platform × α),
    p ∈ es.map Prod.fst → ((replaceFirst p v es).find? fun e => e.1 == q).map Prod.snd =
      if q = p then some v else (es.find? fun e => e.1 == q).map Prod.snd
  | [], h => absurd h List.not_mem_nil
  | e :: rest, h => by
      rw [replaceFirst]
      by_cases he : e.1 = p
      · by_cases hq : q = p
        · simp [he, hq]
        · simp [he, hq, Ne.symm hq]
      · have hrest : p ∈ rest.map Prod.fst := by
          rw [List.map_cons, List.mem_cons] at h
          exact h.resolve_left (Ne.symm he)
        have ih := find?_replaceFirst p q v rest hrest
        rw [if_neg he]
        by_cases hq : e.1 = q
        · simp [hq, show q ≠ p from hq ▸ he]
        · simpa [hq] using ih

theorem find?_set (m : PlatformMap α) (p q : Platform) (v : α) :
    (m.set p v).find? q = if q = p then some v else m.find? q := by
  rw [set]
  split
  · next h => exact find?_replaceFirst p q v m.entries ((isSome_find? m p).mp h)
  · next h =>
    have hinsert : m.insert p v = ⟨m.entries ++ [(p, v)]⟩ := by rw [insert, if_neg h]
    rw [← hinsert, find?_insert]
    rw [Option.not_isSome_iff_eq_none] at h
    by_cases hq : q = p
    · simp [hq, h]
    · simp [hq]

theorem find?_filter (h : m.Distinct) (keep : Platform → α → Bool) (p : Platform) :
    (m.filter keep).find? p = (m.find? p).filter (keep p) := by
  ext v
  rw [← mem_entries_iff (h.filter keep), Option.filter_eq_some_iff, ← mem_entries_iff h]
  exact List.mem_filter

theorem platforms_filter (h : m.Distinct) (keep : Platform → α → Bool) :
    (m.filter keep).platforms = m.platforms.filter fun p => (m.find? p).any (keep p) := by
  unfold platforms filter
  rw [List.filter_map]
  congr 1
  apply List.filter_congr
  intro e he
  have hfind : m.find? e.1 = some e.2 := (mem_entries_iff h).mp he
  simp [hfind]

theorem find?_map {β : Type} (m : PlatformMap α) (f : Platform → α → β) (p : Platform) :
    (m.map f).find? p = (m.find? p).map (f p) := by
  unfold find? map
  rw [List.find?_map, Option.map_map, Option.map_map]
  show (m.entries.find? fun e => e.1 == p).map _ = _
  cases hfind : m.entries.find? fun e => e.1 == p with
  | none => rfl
  | some e =>
      have he : e.1 = p := by simpa using List.find?_some hfind
      simp [he]

theorem platforms_merge_of_distinct (h : m.Distinct) (hother : other.Distinct) :
    (m.merge other).platforms =
      m.platforms ++ other.platforms.filter fun p => (m.find? p).isNone := by
  have hnew : other.platforms.removeAll m.platforms =
      other.platforms.filter fun p => (m.find? p).isNone := by
    unfold List.removeAll
    apply List.filter_congr
    intro p _
    rw [Bool.eq_iff_iff, Option.isNone_iff_eq_none, find?_eq_none]
    simp
  have hnodup : (other.platforms.filter fun p => (m.find? p).isNone).Nodup :=
    List.Nodup.filter _ hother
  rw [platforms_merge h, List.eraseDups_append, eraseDups_of_nodup h, hnew,
    eraseDups_of_nodup hnodup]

/-- The entries are told by the order of the platforms and by their values. -/
theorem entries_eq (h : m.Distinct) :
    m.entries = m.platforms.filterMap fun p => (m.find? p).map fun v => (p, v) := by
  have hentries : m.entries.filterMap some =
      m.entries.filterMap fun e => (m.find? e.1).map fun v => (e.1, v) := by
    apply List.filterMap_congr
    intro e he
    rw [(mem_entries_iff h).mp he]
    rfl
  rw [List.filterMap_some] at hentries
  rw [platforms, List.filterMap_map]
  exact hentries

/-! ## Laws of the union -/

theorem merge_empty (m : PlatformMap α) : m.merge empty = m := rfl

theorem merge_self (h : m.Distinct) : m.merge m = m := by
  apply eq_of_find? (h.merge m)
  · rw [platforms_merge h, eraseDups_append_of_subset (List.Subset.refl _), eraseDups_of_nodup h]
  · intro p
    rw [find?_merge, Option.or_self]

theorem merge_assoc {a b : PlatformMap α} (ha : a.Distinct) (hb : b.Distinct)
    (c : PlatformMap α) : (a.merge b).merge c = a.merge (b.merge c) := by
  apply eq_of_find? ((ha.merge b).merge c)
  · rw [platforms_merge (ha.merge b), platforms_merge ha, platforms_merge ha, platforms_merge hb,
      eraseDups_eraseDups_append, eraseDups_append_eraseDups, List.append_assoc]
  · intro p
    simp only [find?_merge, Option.or_assoc]

/-! ## Operations keep the meaning -/

/-- The map stands for an ordered map. -/
structure Means (m : PlatformMap α) (r : OrderedMap α) : Prop where
  order : m.platforms = r.order
  value : ∀ p, m.find? p = r.value p

namespace Means

variable {r r' : OrderedMap α}

theorem empty : Means (PlatformMap.empty : PlatformMap α) {} := ⟨rfl, fun _ => rfl⟩

theorem set (h : Means m r) (p : Platform) (v : α) : Means (m.set p v) (r.set p v) where
  order := by
    rw [platforms_set, h.order, h.value]
    rfl
  value q := by
    rw [find?_set, h.value]
    rfl

theorem insert (h : Means m r) (p : Platform) (v : α) : Means (m.insert p v) (r.insert p v) := by
  rw [PlatformMap.insert, OrderedMap.insert, ← h.value]
  split
  · exact h
  · next hp =>
    -- Where nothing is replaced, inserting and setting are one.
    have hset := h.set p v
    rw [PlatformMap.set, if_neg hp] at hset
    exact hset

theorem merge (h : Means m r) (h' : Means other r') (hm : m.Distinct) (hother : other.Distinct) :
    Means (m.merge other) (r.merge r') where
  order := by
    rw [platforms_merge_of_distinct hm hother, h.order, h'.order]
    simp only [h.value]
    rfl
  value p := by
    rw [find?_merge, h.value, h'.value]
    rfl

/-- A platform in the order has a value. -/
theorem exists_value (h : Means m r) {p : Platform} (hp : p ∈ r.order) :
    ∃ v, r.value p = some v := by
  rw [← h.order] at hp
  rw [← h.value]
  exact Option.isSome_iff_exists.mp ((isSome_find? m p).mpr hp)

theorem eraseIf (h : Means m r) (hm : m.Distinct) (test : Platform → α → Bool) :
    Means (m.filter fun p v => !test p v) (r.eraseIf test) where
  order := by
    rw [platforms_filter hm, h.order]
    apply List.filter_congr
    intro p hp
    obtain ⟨v, hv⟩ := h.exists_value hp
    rw [h.value, hv]
    rfl
  value p := by
    rw [find?_filter hm, h.value]
    rfl

theorem erase (h : Means m r) (hm : m.Distinct) (p : Platform) :
    Means (m.erase p) (r.erase p) where
  order := by
    rw [PlatformMap.erase, platforms_filter hm, h.order]
    apply List.filter_congr
    intro q hq
    obtain ⟨v, hv⟩ := h.exists_value hq
    rw [h.value, hv]
    by_cases hqp : q = p <;> simp [hqp]
  value q := by
    rw [PlatformMap.erase, find?_filter hm, h.value, OrderedMap.erase]
    by_cases hq : q = p
    · simp [hq]
    · cases hv : r.value q <;> simp [hq, hv]

theorem change (h : Means m r) (f : Platform → α → α) : Means (m.map f) (r.change f) where
  order := (platforms_map m f).trans h.order
  value p := by
    rw [find?_map, h.value]
    rfl

end Means

/-! ## Histories -/

/-- What has been done to a map since it was empty.  The map that is merged into another
one has a history of its own. -/
inductive History (α : Type) where
  | start
  | insert (earlier : History α) (p : Platform) (v : α)
  | set (earlier : History α) (p : Platform) (v : α)
  | merge (earlier other : History α)
  | erase (earlier : History α) (p : Platform)
  | eraseIf (earlier : History α) (test : Platform → α → Bool)
  /-- Gives every value a new one.  A function that keeps a state between its calls is
  none the less one of the platform here, since it is called once for each. -/
  | change (earlier : History α) (f : Platform → α → α)

namespace History

/-- The map with a history. -/
def map : History α → PlatformMap α
  | start => empty
  | insert earlier p v => earlier.map.insert p v
  | set earlier p v => earlier.map.set p v
  | merge earlier other => earlier.map.merge other.map
  | erase earlier p => earlier.map.erase p
  | eraseIf earlier test => earlier.map.filter fun p v => !test p v
  | change earlier f => earlier.map.map f

/-- What the history means. -/
def meaning : History α → OrderedMap α
  | start => {}
  | insert earlier p v => earlier.meaning.insert p v
  | set earlier p v => earlier.meaning.set p v
  | merge earlier other => earlier.meaning.merge other.meaning
  | erase earlier p => earlier.meaning.erase p
  | eraseIf earlier test => earlier.meaning.eraseIf test
  | change earlier f => earlier.meaning.change f

/-- No operation gives a platform a second entry. -/
theorem distinct_map : ∀ h : History α, h.map.Distinct
  | start => List.nodup_nil
  | insert earlier p v => earlier.distinct_map.insert p v
  | set earlier p v => earlier.distinct_map.set p v
  | merge earlier other => earlier.distinct_map.merge other.map
  | erase earlier p => earlier.distinct_map.filter _
  | eraseIf earlier test => earlier.distinct_map.filter _
  | change earlier f => by
      rw [Distinct, map, platforms_map]
      exact earlier.distinct_map

/-- A map is what its history means. -/
theorem means_map : ∀ h : History α, Means h.map h.meaning
  | start => .empty
  | insert earlier p v => earlier.means_map.insert p v
  | set earlier p v => earlier.means_map.set p v
  | merge earlier other =>
      earlier.means_map.merge other.means_map earlier.distinct_map other.distinct_map
  | erase earlier p => earlier.means_map.erase earlier.distinct_map p
  | eraseIf earlier test => earlier.means_map.eraseIf earlier.distinct_map test
  | change earlier f => earlier.means_map.change f

/-- **A platform map is an ordered map with a left-biased union.**  Whatever has been done to
three maps, the platforms of each are distinct, and it has the order, the values and the entries
that its history means; and the union of two has the value of the first that has one, has the
empty map on either side as its identity, is idempotent, and is associative with the order of the
entries. -/
theorem map_ordered_union (a b c : History α) :
    (a.map.Distinct ∧ a.map.platforms = a.meaning.order ∧
      (∀ p, a.map.find? p = a.meaning.value p) ∧ a.map.entries = a.meaning.entries) ∧
    (∀ p, (a.map.merge b.map).find? p = (a.map.find? p).or (b.map.find? p)) ∧
    empty.merge a.map = a.map ∧ a.map.merge empty = a.map ∧ a.map.merge a.map = a.map ∧
    (a.map.merge b.map).merge c.map = a.map.merge (b.map.merge c.map) := by
  have ha := a.distinct_map
  have hmeans := a.means_map
  refine ⟨⟨ha, hmeans.order, hmeans.value, ?_⟩, find?_merge a.map b.map, empty_merge ha,
    merge_empty a.map, merge_self ha, merge_assoc ha b.distinct_map c.map⟩
  rw [entries_eq ha, hmeans.order, OrderedMap.entries]
  simp only [hmeans.value]

-- An erased platform comes in at the end again.
example :
    let p : Platform := ⟨"m", .jvm, []⟩
    let q : Platform := ⟨"m", .js, []⟩
    (((((start.insert p 1).insert q 2).set p 3).erase p).insert p 4).map.entries =
      [(q, 2), (p, 4)] := by
  decide

end History

end PlatformMap

end CrossDoc
