import CrossDoc.Model.Assembly
import CrossDoc.Proofs.Forest
import CrossDoc.Proofs.ListingShape

/-!
# Identities in a module

In a *coherent* module the identity of a declaration is made from that of its
owner, and siblings differ in it.  Both together leave no two declarations
with one identity: two ways down that end with the same identity have the same
owners all the way up, and so are the same way.
-/

namespace CrossDoc

namespace DeclId

/-- The number of declarations that enclose one. -/
def level (d : DeclId) : Nat := d.classes.length + if d.callable = [] then 0 else 1

/-- An identity that members can be given from: it is that of a package or of
a class. -/
structure IsOwner (d : DeclId) : Prop where
  callable : d.callable = []
  signature : d.signature = []

/-- `d` is `owner` or a declaration inside it, at any depth. -/
inductive IsWithin (owner : DeclId) : DeclId → Prop where
  | itself : IsWithin owner owner
  | member {d up : DeclId} : d.parent? = some up → IsWithin owner up → IsWithin owner d

variable {d up owner : DeclId}

theorem level_of_parent? (h : d.parent? = some up) : d.level = up.level + 1 := by
  unfold parent? at h
  split at h
  · next hcallable =>
    obtain rfl := Option.some.inj h
    simp [level, hcallable]
  · next hcallable =>
    split at h
    · next hclasses =>
      obtain rfl := Option.some.inj h
      have hpos := List.length_pos_iff.mpr hclasses
      have hnone : d.callable = [] := by simpa using hcallable
      simp only [level, hnone, List.length_dropLast, if_true]
      omega
    · cases h

theorem IsWithin.level_le (h : owner.IsWithin d) : owner.level ≤ d.level := by
  induction h with
  | itself => exact Nat.le_refl _
  | member hup _ ih =>
      rw [level_of_parent? hup]
      omega

/-- What encloses a declaration is told by the level. -/
theorem IsWithin.eq_of_level {owner' : DeclId} (h : owner.IsWithin d) (h' : owner'.IsWithin d)
    (hlevel : owner.level = owner'.level) : owner = owner' := by
  induction h with
  | itself =>
      cases h' with
      | itself => rfl
      | member hup hin =>
          have hle := hin.level_le
          have hstep := level_of_parent? hup
          omega
  | member hup hin ih =>
      cases h' with
      | itself =>
          have hle := hin.level_le
          have hstep := level_of_parent? hup
          omega
      | member hup' hin' =>
          rw [hup] at hup'
          obtain rfl := Option.some.inj hup'
          exact ih hin'

theorem isOwner_ofPackage (name : Text) : (ofPackage name).IsOwner := ⟨rfl, rfl⟩

theorem isOwner_withClass (d : DeclId) (name : Text) : (d.withClass name).IsOwner := ⟨rfl, rfl⟩

theorem parent?_withClass (h : d.IsOwner) (name : Text) :
    (d.withClass name).parent? = some d := by
  obtain ⟨package, classes, callable, signature⟩ := d
  obtain ⟨rfl, rfl⟩ : callable = [] ∧ signature = [] := ⟨h.callable, h.signature⟩
  simp [withClass, parent?]

theorem parent?_withCallable (h : d.IsOwner) {name : Text} (hname : name ≠ [])
    (signature : Text) : (d.withCallable name signature).parent? = some d := by
  obtain ⟨package, classes, callable, old⟩ := d
  obtain ⟨rfl, rfl⟩ : callable = [] ∧ old = [] := ⟨h.callable, h.signature⟩
  simp [withCallable, parent?, hname]

end DeclId

/-- A member is given an identity inside its owner. -/
theorem Symbol.parent?_declId {owner : DeclId} (h : owner.IsOwner) {kind : Kind} {name : Text}
    (hname : name ≠ []) (discriminator : Text) :
    (Symbol.declId owner kind name discriminator).parent? = some owner := by
  cases kind with
  | package | property => exact DeclId.parent?_withCallable h hname []
  | function => exact DeclId.parent?_withCallable h hname discriminator
  | classType | interfaceType | objectType | enumType | enumEntry | typeAlias =>
      exact DeclId.parent?_withClass h name

theorem Symbol.isOwner_declId {owner : DeclId} {kind : Kind} (h : kind.isClasslike = true)
    (name discriminator : Text) : (Symbol.declId owner kind name discriminator).IsOwner := by
  cases kind with
  | classType | interfaceType | objectType | enumType => exact DeclId.isOwner_withClass owner name
  | package | property | function | enumEntry | typeAlias => cases h

namespace Declaration

/-! ## Labels -/

/-- The label of a package that a listing can name. -/
structure Label.IsPackage (l : Label) : Prop where
  kind : l.kind = .package
  parent : l.parent = none
  id : l.id = .ofPackage l.name
  text : IsPackageText l.name

theorem Label.IsPackage.id_eq {l : Label} (h : l.IsPackage) {name : Text}
    (hname : l.id.package = name) : l.id = .ofPackage name := by
  rw [h.id] at hname ⊢
  exact congrArg DeclId.ofPackage hname

/-- The label of a member that a listing can declare inside `owner`. -/
structure Label.IsMemberOf (owner : DeclId) (l : Label) : Prop where
  host : owner.IsOwner
  kind : l.kind ≠ .package
  named : l.name ≠ []
  identifier : ∀ c ∈ l.name, Listing.isIdentifierChar c = true
  parent : l.parent = some owner
  id : ∃ discriminator, l.id = Symbol.declId owner l.kind l.name discriminator

theorem Label.IsMemberOf.parent?_id {owner : DeclId} {l : Label} (h : l.IsMemberOf owner) :
    l.id.parent? = some owner := by
  obtain ⟨discriminator, hid⟩ := h.id
  rw [hid]
  exact Symbol.parent?_declId h.host h.named discriminator

/-! ## Distinct identities -/

/-- Members get their identities from the owners, at any depth. -/
def MembersWithin (ds : List Declaration) : Prop :=
  ∀ q ∈ ds, ∀ n ∈ q.children, n.id.parent? = some q.id

instance (ds : List Declaration) : Decidable (MembersWithin ds) :=
  inferInstanceAs (Decidable (∀ q ∈ ds, ∀ n ∈ q.children, n.id.parent? = some q.id))

theorem MembersWithin.mono {ds es : List Declaration} (h : MembersWithin es) (hsub : ds ⊆ es) :
    MembersWithin ds :=
  fun q hq => h q (hsub hq)

theorem flatten_subset {t : Declaration} {ds : List Declaration} (ht : t ∈ ds) :
    t.flatten ⊆ flattenAll ds := by
  intro d hd
  rw [flattenAll_eq_flatMap]
  exact List.mem_flatMap.mpr ⟨t, ht, hd⟩

/-- All that stands in a tree lies within its root. -/
theorem isWithin_of_mem_flatten {t d : Declaration} (h : MembersWithin t.flatten)
    (hd : d ∈ t.flatten) : t.id.IsWithin d.id := by
  rw [flatten_eq] at h hd
  rcases List.mem_cons.mp hd with rfl | hd
  · exact .itself
  · refine reachInduction (motive := fun d => t.id.IsWithin d.id) ?_ ?_ d hd
    · intro c hc
      exact .member (h t (by simp) c hc) .itself
    · intro q hq hin n hn
      exact .member (h q (List.mem_cons_of_mem t hq) n hn) hin

/-- Trees whose roots differ, but stand on one level, share no identity. -/
theorem nodup_ids_of_trees {ds : List Declaration} {level : Nat}
    (hlevel : ∀ t ∈ ds, t.id.level = level) (hunique : (ds.map (·.id)).Nodup)
    (h : MembersWithin (flattenAll ds)) (htrees : ∀ t ∈ ds, (t.flatten.map (·.id)).Nodup) :
    ((flattenAll ds).map (·.id)).Nodup := by
  rw [flattenAll_eq_flatMap, List.map_flatMap, List.nodup_flatMap]
  refine ⟨htrees, ?_⟩
  have hroots : ds.Pairwise fun a b => a.id ≠ b.id := List.pairwise_map.mp hunique
  refine hroots.imp_of_mem ?_
  rintro a b ha hb hab x hxa hxb
  obtain ⟨d, hd, rfl⟩ := List.mem_map.mp hxa
  obtain ⟨e, he, hed⟩ := List.mem_map.mp hxb
  have hda := isWithin_of_mem_flatten (h.mono (flatten_subset ha)) hd
  have heb := isWithin_of_mem_flatten (h.mono (flatten_subset hb)) he
  -- One identity lies within two on the same level, so these are equal.
  rw [hed] at heb
  exact hab (hda.eq_of_level heb ((hlevel a ha).trans (hlevel b hb).symm))

/-- Below a declaration its identity is not given again. -/
theorem id_not_mem_below {t : Declaration} (h : MembersWithin t.flatten) :
    t.id ∉ (flattenAll t.children).map (·.id) := by
  intro hmem
  rw [flatten_eq] at h
  obtain ⟨d, hd, hdt⟩ := List.mem_map.mp hmem
  rw [flattenAll_eq_flatMap] at hd
  obtain ⟨c, hc, hdc⟩ := List.mem_flatMap.mp hd
  have hsub : c.flatten ⊆ t :: flattenAll t.children :=
    fun _ hx => List.mem_cons_of_mem t (flatten_subset hc hx)
  -- `d` lies within a member of `t`, so it stands on a deeper level.
  have hle := (isWithin_of_mem_flatten (h.mono hsub) hdc).level_le
  have hstep := DeclId.level_of_parent? (h t (by simp) c hc)
  have hsame : d.id.level = t.id.level := congrArg DeclId.level hdt
  omega

/-- No identity occurs twice in a tree. -/
theorem nodup_ids_flatten (t : Declaration) (h : MembersWithin t.flatten)
    (hunique : ∀ q ∈ t.flatten, (q.children.map (·.id)).Nodup) :
    (t.flatten.map (·.id)).Nodup := by
  induction t using memberInduction with
  | step t ih =>
      have hroot := id_not_mem_below h
      rw [flatten_eq] at h hunique ⊢
      have hbelow : MembersWithin (flattenAll t.children) := h.mono (List.subset_cons_self t _)
      have hlevel : ∀ c ∈ t.children, c.id.level = t.id.level + 1 := fun c hc =>
        DeclId.level_of_parent? (h t (by simp) c hc)
      rw [List.map_cons, List.nodup_cons]
      refine ⟨hroot, nodup_ids_of_trees hlevel (hunique t (by simp)) hbelow ?_⟩
      intro c hc
      have hsub := flatten_subset hc
      exact ih c hc (hbelow.mono hsub) fun q hq =>
        hunique q (List.mem_cons_of_mem t (hsub hq))

/-- No identity occurs twice in a forest whose roots stand on one level. -/
theorem nodup_ids_flattenAll {ds : List Declaration} {level : Nat}
    (hlevel : ∀ d ∈ ds, d.id.level = level) (hunique : SiblingsUnique ds)
    (h : MembersWithin (flattenAll ds)) : ((flattenAll ds).map (·.id)).Nodup := by
  refine nodup_ids_of_trees hlevel hunique.1 h ?_
  intro t ht
  have hsub := flatten_subset ht
  exact nodup_ids_flatten t (h.mono hsub) fun q hq => hunique.2 q (hsub hq)

end Declaration

namespace DocModule

open Declaration FirstOccurrence

/-- A module as listings give it: identities are made from those of the
owners, and siblings differ. -/
structure Coherent (m : DocModule) : Prop where
  unique : m.SiblingsUnique
  packages : ∀ d ∈ m.packages, d.label.IsPackage
  members : ∀ q ∈ m.declarations, ∀ n ∈ q.children, n.label.IsMemberOf q.id

/-- Every declaration of a module can be told by its identity, and its place by
the identity of its parent. -/
structure IsIdentified (m : DocModule) : Prop where
  packages : (m.packages.map (·.id)).Nodup
  siblings : ∀ q ∈ m.declarations, (q.children.map (·.id)).Nodup
  kinds : (∀ d ∈ m.packages, d.kind = .package) ∧
    ∀ q ∈ m.declarations, ∀ n ∈ q.children, n.kind ≠ .package
  /-- The stored parent and the one that the identity tells agree. -/
  parents : ∀ q ∈ m.declarations, ∀ n ∈ q.children,
    n.parent = some q.id ∧ n.id.parent? = some q.id
  distinct : (m.declarations.map (·.id)).Nodup
  /-- The index has an entry for every declaration. -/
  size : m.ids.length = m.count
  found : ∀ n ∈ m.declarations, m.find? n.id = some n
  owners : ∀ q ∈ m.declarations, ∀ n ∈ q.children, m.parentOf? n = some q

theorem Coherent.nodup_ids {m : DocModule} (h : m.Coherent) :
    (m.declarations.map (·.id)).Nodup := by
  have hlevel : ∀ d ∈ m.packages, d.id.level = 0 := by
    intro d hd
    rw [show d.id = .ofPackage d.name from (h.packages d hd).id]
    rfl
  exact nodup_ids_flattenAll hlevel h.unique fun q hq n hn => (h.members q hq n hn).parent?_id

theorem Coherent.isIdentified {m : DocModule} (h : m.Coherent) : m.IsIdentified where
  packages := h.unique.1
  siblings := h.unique.2
  kinds := ⟨fun d hd => (h.packages d hd).kind, fun q hq n hn => (h.members q hq n hn).kind⟩
  parents q hq n hn := ⟨(h.members q hq n hn).parent, (h.members q hq n hn).parent?_id⟩
  distinct := h.nodup_ids
  size := by
    rw [ids, eraseDups_of_nodup h.nodup_ids, List.length_map, count_eq_length]
  found n hn := find?_key_of_mem h.nodup_ids hn
  owners q hq n hn := by
    have hparent : n.parent = some q.id := (h.members q hq n hn).parent
    rw [parentOf?, hparent]
    exact find?_key_of_mem h.nodup_ids hq

end DocModule

end CrossDoc
