import CrossDoc.Platform

/-!
# Values per platform

A `PlatformMap` keeps one value per platform in the order in which the
platforms contributed.  `find?` is the view through which the operations are
described, and each of them keeps the platforms distinct (`Distinct`).
-/

namespace CrossDoc

/-- Platforms with their values, in order of contribution. -/
structure PlatformMap (α : Type) where
  entries : List (Platform × α) := []
deriving DecidableEq, Repr, Inhabited

namespace PlatformMap

variable {α : Type}

def empty : PlatformMap α := ⟨[]⟩

def singleton (p : Platform) (v : α) : PlatformMap α := ⟨[(p, v)]⟩

/-- The platforms of the map, in order. -/
def platforms (m : PlatformMap α) : List Platform := m.entries.map Prod.fst

def size (m : PlatformMap α) : Nat := m.entries.length

/-- The value of a platform. -/
def find? (m : PlatformMap α) (p : Platform) : Option α :=
  (m.entries.find? fun e => e.1 == p).map Prod.snd

/-- The value of the platform that contributed first. -/
def primary? (m : PlatformMap α) : Option α := m.entries.head?.map Prod.snd

/-- Adds a value unless the platform already has one. -/
def insert (m : PlatformMap α) (p : Platform) (v : α) : PlatformMap α :=
  if (m.find? p).isSome then m else ⟨m.entries ++ [(p, v)]⟩

/-- Replaces the first entry of a platform. -/
def replaceFirst (p : Platform) (v : α) :
    List (Platform × α) → List (Platform × α)
  | [] => []
  | e :: rest => if e.1 = p then (p, v) :: rest else e :: replaceFirst p v rest

/-- Replaces the value of a platform in its place, or adds it at the end. -/
def set (m : PlatformMap α) (p : Platform) (v : α) : PlatformMap α :=
  if (m.find? p).isSome then ⟨replaceFirst p v m.entries⟩
  else ⟨m.entries ++ [(p, v)]⟩

/-- The union of two maps; a platform of both keeps its value in `m`. -/
def merge (m other : PlatformMap α) : PlatformMap α :=
  other.entries.foldl (fun acc e => acc.insert e.1 e.2) m

/-- Reads entries in order; of two for one platform the first counts. -/
def ofEntries (es : List (Platform × α)) : PlatformMap α :=
  es.foldl (fun acc e => acc.insert e.1 e.2) empty

/-- Keeps the entries that satisfy a test. -/
def filter (keep : Platform → α → Bool) (m : PlatformMap α) : PlatformMap α :=
  ⟨m.entries.filter fun e => keep e.1 e.2⟩

def erase (m : PlatformMap α) (p : Platform) : PlatformMap α :=
  m.filter fun q _ => !(q == p)

/-- Changes every value. -/
def map {β : Type} (f : Platform → α → β) (m : PlatformMap α) : PlatformMap β :=
  ⟨m.entries.map fun e => (e.1, f e.1 e.2)⟩

/-- No platform has two entries. -/
def Distinct (m : PlatformMap α) : Prop := m.platforms.Nodup

instance (m : PlatformMap α) : Decidable m.Distinct :=
  inferInstanceAs (Decidable (List.Nodup _))

/-! ## The operations through `find?` -/

/-- A platform has a value exactly when it is a platform of the map. -/
theorem isSome_find? (m : PlatformMap α) (p : Platform) :
    (m.find? p).isSome = true ↔ p ∈ m.platforms := by
  simp [find?, platforms, List.find?_isSome]

theorem find?_eq_none (m : PlatformMap α) (p : Platform) :
    m.find? p = none ↔ p ∉ m.platforms := by
  rw [← isSome_find?, Option.not_isSome_iff_eq_none]

/-- Insertion adds a platform at the end, unless it is there. -/
theorem platforms_insert (m : PlatformMap α) (p : Platform) (v : α) :
    (m.insert p v).platforms = if p ∈ m.platforms then m.platforms else m.platforms ++ [p] := by
  by_cases h : p ∈ m.platforms
  · rw [if_pos h, insert, if_pos ((isSome_find? m p).mpr h)]
  · rw [if_neg h, insert, if_neg fun hs => h ((isSome_find? m p).mp hs)]
    simp [platforms]

/-- Insertion gives a platform without a value this one. -/
theorem find?_insert (m : PlatformMap α) (p q : Platform) (v : α) :
    (m.insert p v).find? q = (m.find? q).or (if q = p then some v else none) := by
  by_cases h : p ∈ m.platforms
  · rw [insert, if_pos ((isSome_find? m p).mpr h)]
    by_cases hq : q = p
    · subst hq
      obtain ⟨w, hw⟩ := Option.isSome_iff_exists.mp ((isSome_find? m q).mpr h)
      simp [hw]
    · simp [hq]
  · rw [insert, if_neg fun hs => h ((isSome_find? m p).mp hs)]
    rcases hf : m.entries.find? (fun e => e.1 == q) with _ | e
    · by_cases hq : q = p
      · subst hq
        simp [find?, List.find?_append, hf]
      · have hne : (p == q) = false := by simpa using fun he => hq he.symm
        simp [find?, List.find?_append, hf, hq, hne]
    · simp [find?, List.find?_append, hf]

theorem Distinct.insert {m : PlatformMap α} (h : m.Distinct) (p : Platform) (v : α) :
    (m.insert p v).Distinct := by
  rw [Distinct, platforms_insert]
  split
  · exact h
  · next hp =>
    exact List.nodup_append.mpr ⟨h, by simp, fun a ha b hb => by
      rw [List.mem_singleton.mp hb]
      exact fun hab => hp (hab ▸ ha)⟩

/-- Replacing the value of a platform keeps the platforms. -/
theorem map_fst_replaceFirst (p : Platform) (v : α) :
    ∀ es : List (Platform × α), (replaceFirst p v es).map Prod.fst = es.map Prod.fst
  | [] => rfl
  | e :: rest => by
      rw [replaceFirst]
      split
      · next h => simp [h]
      · simp [map_fst_replaceFirst p v rest]

theorem Distinct.set {m : PlatformMap α} (h : m.Distinct) (p : Platform) (v : α) :
    (m.set p v).Distinct := by
  rw [PlatformMap.set]
  split
  · rw [Distinct, platforms, map_fst_replaceFirst]
    exact h
  · next hp =>
    have hi : m.insert p v = ⟨m.entries ++ [(p, v)]⟩ := by rw [PlatformMap.insert, if_neg hp]
    exact hi ▸ h.insert p v

theorem Distinct.merge {m : PlatformMap α} (h : m.Distinct) (other : PlatformMap α) :
    (m.merge other).Distinct := by
  rw [PlatformMap.merge]
  generalize other.entries = es
  induction es generalizing m with
  | nil => exact h
  | cons e rest ih => exact ih (h.insert e.1 e.2)

theorem distinct_ofEntries (es : List (Platform × α)) : (ofEntries es).Distinct :=
  Distinct.merge (m := empty) List.nodup_nil ⟨es⟩

theorem Distinct.filter {m : PlatformMap α} (h : m.Distinct) (keep : Platform → α → Bool) :
    (m.filter keep).Distinct :=
  List.Nodup.sublist (List.Sublist.map Prod.fst List.filter_sublist) h

theorem platforms_map {β : Type} (m : PlatformMap α) (f : Platform → α → β) :
    (m.map f).platforms = m.platforms := by
  simp [map, platforms, Function.comp_def]

end PlatformMap

end CrossDoc
