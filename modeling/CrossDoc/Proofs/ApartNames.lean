import CrossDoc.Proofs.Forest
import CrossDoc.Proofs.PagePaths

/-!
# Classes whose slugs differ

The page of a class is named by the way that leads down to it.  All ways down
a package differ in their slugs exactly when the classes of every owner do, so
that it is enough to compare siblings.
-/

namespace CrossDoc

/-! ## Lists without repetition -/

section Lists

variable {α β γ : Type}

/-- Lists that meet exactly when their keys agree repeat nothing together if
none does alone and the keys differ. -/
theorem nodup_flatMap_keyed (f : β → List γ) (key : β → α)
    (hmeet : ∀ a b, key a = key b → ∃ x, x ∈ f a ∧ x ∈ f b)
    (hapart : ∀ a b x, x ∈ f a → x ∈ f b → key a = key b) (bs : List β) :
    (bs.flatMap f).Nodup ↔ (∀ b ∈ bs, (f b).Nodup) ∧ (bs.map key).Nodup := by
  rw [List.nodup_flatMap, List.Nodup, List.Nodup, List.pairwise_map]
  refine and_congr Iff.rfl ⟨fun h => ?_, fun h => ?_⟩
  · refine h.imp fun hdisjoint hkey => ?_
    obtain ⟨x, hxa, hxb⟩ := hmeet _ _ hkey
    exact hdisjoint hxa hxb
  · exact h.imp fun hne x hxa hxb => hne (hapart _ _ x hxa hxb)

theorem nodup_map_congr {xs : List α} {f : α → β} {g : α → γ}
    (h : ∀ a ∈ xs, ∀ b ∈ xs, f a = f b ↔ g a = g b) : (xs.map f).Nodup ↔ (xs.map g).Nodup := by
  rw [List.Nodup, List.Nodup, List.pairwise_map, List.pairwise_map]
  exact List.Pairwise.iff_of_mem fun ha hb => not_congr (h _ ha _ hb)

end Lists

namespace Declaration

/-! ## Classes -/

/-- No two classes that share an owner have one slug, at any depth. -/
inductive ClassesApart : List Declaration → Prop where
  | intro {ds : List Declaration} (siblings : ((classesOf ds).map fun d => slug d.name).Nodup)
      (members : ∀ d ∈ classesOf ds, ClassesApart d.children) : ClassesApart ds

/-- The slugs on the ways down the classes. -/
def slugChains (ds : List Declaration) : List (List Text) :=
  (classChains ds).map (List.map slug)

theorem slugChains_eq (ds : List Declaration) :
    slugChains ds = (classesOf ds).flatMap fun d =>
      [slug d.name] :: (slugChains d.children).map (slug d.name :: ·) := by
  rw [slugChains, classChains_eq, List.map_flatMap]
  congr 1
  funext d
  rw [classChain_eq, slugChains, List.map_cons, List.map_map, List.map_map]
  rfl

theorem head?_of_mem_slugChain {d : Declaration} {chain : List Text}
    (h : chain ∈ [slug d.name] :: (slugChains d.children).map (slug d.name :: ·)) :
    chain.head? = some (slug d.name) := by
  rcases List.mem_cons.mp h with rfl | h
  · rfl
  · obtain ⟨below, _, rfl⟩ := List.mem_map.mp h
    rfl

/-- The ways down the classes differ in their slugs when siblings do, and the
ways down the members of each. -/
theorem nodup_slugChains_iff (ds : List Declaration) :
    (slugChains ds).Nodup ↔ ((classesOf ds).map fun d => slug d.name).Nodup ∧
      ∀ d ∈ classesOf ds, (slugChains d.children).Nodup := by
  have hone : ∀ d : Declaration,
      ([slug d.name] :: (slugChains d.children).map (slug d.name :: ·)).Nodup ↔
        (slugChains d.children).Nodup := by
    intro d
    rw [List.nodup_cons, List.nodup_map_iff (List.cons_injective)]
    refine and_iff_right ?_
    -- A way that goes on below the class is longer than the one that ends with it.
    intro hmem
    obtain ⟨below, hbelow, heq⟩ := List.mem_map.mp hmem
    obtain rfl := (List.cons.inj heq).2
    rw [slugChains_eq] at hbelow
    obtain ⟨c, _, hc⟩ := List.mem_flatMap.mp hbelow
    exact absurd (head?_of_mem_slugChain hc) (by simp)
  rw [slugChains_eq, nodup_flatMap_keyed _ fun d => slug d.name]
  · rw [and_comm]
    exact and_congr Iff.rfl (forall₂_congr fun d _ => hone d)
  · intro a b hab
    exact ⟨[slug a.name], by simp, by simp [hab]⟩
  · intro a b x hxa hxb
    exact Option.some.inj ((head?_of_mem_slugChain hxa).symm.trans (head?_of_mem_slugChain hxb))

theorem classesApart_iff (ds : List Declaration) : ClassesApart ds ↔ (slugChains ds).Nodup := by
  -- Induction runs along members, so the forest is taken as those of a declaration.
  have members : ∀ d : Declaration, ClassesApart d.children ↔ (slugChains d.children).Nodup := by
    intro d
    induction d using memberInduction with
    | step d ih =>
        rw [nodup_slugChains_iff]
        have hih : ∀ c ∈ classesOf d.children, _ := fun c hc => ih c (List.mem_of_mem_filter hc)
        constructor
        · rintro ⟨hsiblings, hmembers⟩
          exact ⟨hsiblings, fun c hc => (hih c hc).mp (hmembers c hc)⟩
        · rintro ⟨hsiblings, hmembers⟩
          exact ⟨hsiblings, fun c hc => (hih c hc).mpr (hmembers c hc)⟩
  exact members { children := ds }

/-- What holds for the names of all declarations holds on the ways down the
classes. -/
theorem names_of_mem_classChains {P : Text → Prop} {ds : List Declaration}
    (h : ∀ d ∈ flattenAll ds, P d.name) :
    ∀ chain ∈ classChains ds, chain ≠ [] ∧ ∀ t ∈ chain, P t := by
  have members : ∀ d : Declaration, (∀ x ∈ flattenAll d.children, P x.name) →
      ∀ chain ∈ classChains d.children, chain ≠ [] ∧ ∀ t ∈ chain, P t := by
    intro d
    induction d using memberInduction with
    | step d ih =>
        intro hd chain hchain
        rw [classChains_eq] at hchain
        obtain ⟨c, hc, hchain⟩ := List.mem_flatMap.mp hchain
        have hcd : c ∈ d.children := List.mem_of_mem_filter hc
        have hname : P c.name := hd c (mem_flattenAll_self hcd)
        rw [classChain_eq] at hchain
        rcases List.mem_cons.mp hchain with rfl | hchain
        · exact ⟨by simp, by simpa using hname⟩
        · obtain ⟨below, hbelow, rfl⟩ := List.mem_map.mp hchain
          have hall := ih c hcd (fun x hx => hd x (flattenAll_children_subset hcd hx)) below hbelow
          exact ⟨by simp, by simpa using ⟨hname, hall.2⟩⟩
  exact members { children := ds } h

theorem singleton_mem_classChains {name : Text} {ds : List Declaration} :
    [name] ∈ classChains ds ↔ ∃ d ∈ classesOf ds, d.name = name := by
  rw [classChains_eq, List.mem_flatMap]
  refine exists_congr fun d => and_congr_right fun _ => ?_
  rw [classChain_eq, List.mem_cons]
  constructor
  · rintro (h | h)
    · exact (List.cons.inj h).1.symm
    · obtain ⟨below, hbelow, heq⟩ := List.mem_map.mp h
      exact (List.cons.inj heq).1
  · rintro rfl
    exact Or.inl rfl

end Declaration

end CrossDoc
