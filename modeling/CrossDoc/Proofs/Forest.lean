import CrossDoc.Decl.Tree
import CrossDoc.Proofs.FirstOccurrence

/-!
# Forests of declarations

The declarations of a forest are reached from its roots through members.  What
is said of all of them is proved along this way, and a place in the forest is
named by the identities on the way to it.
-/

namespace CrossDoc

namespace Declaration

/-! ## Induction along members -/

mutual

/-- What holds for a declaration whenever it holds for its members holds for
every declaration. -/
theorem memberInduction {motive : Declaration → Prop}
    (step : ∀ d, (∀ c ∈ d.children, motive c) → motive d) : ∀ d, motive d
  | ⟨_, _, _, _, _, children⟩ => step _ (memberInductionAll step children)

theorem memberInductionAll {motive : Declaration → Prop}
    (step : ∀ d, (∀ c ∈ d.children, motive c) → motive d) :
    ∀ ds : List Declaration, ∀ d ∈ ds, motive d
  | [], _, h => nomatch h
  | e :: rest, d, h => by
      rcases List.mem_cons.mp h with he | h
      · exact he ▸ memberInduction step e
      · exact memberInductionAll step rest d h

end

theorem flatten_eq (d : Declaration) : d.flatten = d :: flattenAll d.children := by
  cases d
  rw [flatten]

theorem flattenAll_eq_flatMap : ∀ ds : List Declaration, flattenAll ds = ds.flatMap flatten
  | [] => rfl
  | d :: rest => by rw [flattenAll, flattenAll_eq_flatMap rest, List.flatMap_cons]

theorem mem_flattenAll {d : Declaration} {ds : List Declaration} :
    d ∈ flattenAll ds ↔ ∃ t ∈ ds, d = t ∨ d ∈ flattenAll t.children := by
  simp [flattenAll_eq_flatMap ds, List.mem_flatMap, flatten_eq]

theorem mem_flattenAll_self {d : Declaration} {ds : List Declaration} (h : d ∈ ds) :
    d ∈ flattenAll ds :=
  mem_flattenAll.mpr ⟨d, h, Or.inl rfl⟩

theorem flattenAll_children_subset {t : Declaration} {ds : List Declaration} (ht : t ∈ ds) :
    flattenAll t.children ⊆ flattenAll ds :=
  fun _ hd => mem_flattenAll.mpr ⟨t, ht, Or.inr hd⟩

theorem flattenAll_append (ds es : List Declaration) :
    flattenAll (ds ++ es) = flattenAll ds ++ flattenAll es := by
  simp [flattenAll_eq_flatMap]

/-- The forest is closed under members. -/
theorem mem_flattenAll_child {ds : List Declaration} {q c : Declaration}
    (hq : q ∈ flattenAll ds) (hc : c ∈ q.children) : c ∈ flattenAll ds := by
  have tree : ∀ t : Declaration, q = t ∨ q ∈ flattenAll t.children →
      c ∈ flattenAll t.children := by
    intro t
    induction t using memberInduction with
    | step t ih =>
        rintro (rfl | hq)
        · exact mem_flattenAll_self hc
        · obtain ⟨u, hu, hqu⟩ := mem_flattenAll.mp hq
          exact flattenAll_children_subset hu (ih u hu hqu)
  obtain ⟨t, ht, hqt⟩ := mem_flattenAll.mp hq
  exact flattenAll_children_subset ht (tree t hqt)

/-- What holds for the roots and passes on to members holds in the whole
forest. -/
theorem reachInduction {ds : List Declaration} {motive : Declaration → Prop}
    (root : ∀ d ∈ ds, motive d)
    (member : ∀ q ∈ flattenAll ds, motive q → ∀ c ∈ q.children, motive c) :
    ∀ d ∈ flattenAll ds, motive d := by
  have tree : ∀ t : Declaration, t ∈ flattenAll ds → motive t →
      ∀ d ∈ flattenAll t.children, motive d := by
    intro t
    induction t using memberInduction with
    | step t ih =>
        intro ht hm d hd
        obtain ⟨u, hu, hdu⟩ := mem_flattenAll.mp hd
        have hmu := member t ht hm u hu
        rcases hdu with rfl | hdu
        · exact hmu
        · exact ih u hu (mem_flattenAll_child ht hu) hmu d hdu
  intro d hd
  obtain ⟨t, ht, hdt⟩ := mem_flattenAll.mp hd
  rcases hdt with rfl | hdt
  · exact root d ht
  · exact tree t (mem_flattenAll_self ht) (root t ht) d hdt

/-- All that stands below a declaration of a forest is in the forest. -/
theorem flattenAll_children_subset_of_mem {t : Declaration} {ds : List Declaration}
    (ht : t ∈ flattenAll ds) : flattenAll t.children ⊆ flattenAll ds :=
  reachInduction (motive := fun x => x ∈ flattenAll ds) (fun _ hc => mem_flattenAll_child ht hc)
    (fun _ _ hq _ hc => mem_flattenAll_child hq hc)

/-- A declaration of a forest is a root or a member of another one. -/
theorem mem_flattenAll_cases {ds : List Declaration} {d : Declaration}
    (h : d ∈ flattenAll ds) : d ∈ ds ∨ ∃ q ∈ flattenAll ds, d ∈ q.children :=
  reachInduction (motive := fun d => d ∈ ds ∨ ∃ q ∈ flattenAll ds, d ∈ q.children)
    (fun _ hd => Or.inl hd) (fun q hq _ _ hc => Or.inr ⟨q, hq, hc⟩) d h

/-- The members of a forest are no packages. -/
def MembersPlain (ds : List Declaration) : Prop :=
  ∀ q ∈ flattenAll ds, ∀ n ∈ q.children, n.kind ≠ .package

instance (ds : List Declaration) : Decidable (MembersPlain ds) :=
  inferInstanceAs (Decidable (∀ q ∈ flattenAll ds, ∀ n ∈ q.children, n.kind ≠ .package))

mutual

theorem count_eq_length : ∀ d : Declaration, d.count = d.flatten.length
  | ⟨_, _, _, _, _, children⟩ => by
      rw [count, flatten, List.length_cons, countAll_eq_length children, Nat.add_comm]

theorem countAll_eq_length : ∀ ds : List Declaration, countAll ds = (flattenAll ds).length
  | [] => rfl
  | d :: rest => by
      rw [countAll, flattenAll, List.length_append, count_eq_length d,
        countAll_eq_length rest]

end

/-! ## Labels -/

/-- What a declaration says of itself, apart from its facts and members. -/
structure Label where
  kind : Kind
  name : Text
  id : DeclId
  parent : Option DeclId
deriving DecidableEq

def label (d : Declaration) : Label := ⟨d.kind, d.name, d.id, d.parent⟩

theorem kind_eq_of_label {d e : Declaration} (h : d.label = e.label) : d.kind = e.kind :=
  congrArg Label.kind h

theorem id_eq_of_label {d e : Declaration} (h : d.label = e.label) : d.id = e.id :=
  congrArg Label.id h

theorem eq_of_label {d e : Declaration} (hlabel : d.label = e.label) (hfacts : d.facts = e.facts)
    (hchildren : d.children = e.children) : d = e := by
  cases d
  cases e
  cases hlabel
  cases hfacts
  cases hchildren
  rfl

/-! ## Siblings -/

/-- No two siblings of a forest have one identity, at any level. -/
def SiblingsUnique (ds : List Declaration) : Prop :=
  (ds.map (·.id)).Nodup ∧ ∀ d ∈ flattenAll ds, (d.children.map (·.id)).Nodup

instance (ds : List Declaration) : Decidable (SiblingsUnique ds) :=
  inferInstanceAs (Decidable (_ ∧ _))

theorem siblingsUnique_nil : SiblingsUnique [] := by
  constructor
  · exact List.nodup_nil
  · simp [flattenAll]

theorem SiblingsUnique.children {ds : List Declaration} (h : SiblingsUnique ds)
    {d : Declaration} (hd : d ∈ flattenAll ds) : SiblingsUnique d.children :=
  ⟨h.2 d hd, fun e he => h.2 e (flattenAll_children_subset_of_mem hd he)⟩

/-! ## Places -/

/-- The members of the sibling with an identity; none if there is no such
sibling. -/
def membersOf (id : DeclId) (ds : List Declaration) : List Declaration :=
  ((ds.find? fun d => d.id == id).map (·.children)).getD []

/-- The siblings at the end of a way down the forest. -/
def siblingsAt : List DeclId → List Declaration → List Declaration
  | [], ds => ds
  | id :: rest, ds => siblingsAt rest (membersOf id ds)

theorem mem_of_mem_membersOf {ds : List Declaration} {id : DeclId} {d : Declaration}
    (h : d ∈ membersOf id ds) : d ∈ flattenAll ds := by
  unfold membersOf at h
  cases hf : ds.find? fun d => d.id == id with
  | none => simp [hf] at h
  | some t =>
      have ht := mem_flattenAll_self (List.mem_of_find?_eq_some hf)
      exact mem_flattenAll_child ht (by simpa [hf] using h)

theorem mem_of_mem_siblingsAt {d : Declaration} :
    ∀ (way : List DeclId) {ds : List Declaration}, d ∈ siblingsAt way ds → d ∈ flattenAll ds
  | [], _, h => mem_flattenAll_self h
  | _ :: rest, _, h =>
      reachInduction (motive := fun x => x ∈ flattenAll _)
        (fun _ hx => mem_of_mem_membersOf hx) (fun _ _ hq _ hc => mem_flattenAll_child hq hc)
        d (mem_of_mem_siblingsAt rest h)

theorem SiblingsUnique.membersOf {ds : List Declaration} (h : SiblingsUnique ds)
    (id : DeclId) : SiblingsUnique (membersOf id ds) := by
  unfold Declaration.membersOf
  cases hf : ds.find? fun d => d.id == id with
  | none => exact siblingsUnique_nil
  | some d => exact h.children (mem_flattenAll_self (List.mem_of_find?_eq_some hf))

theorem SiblingsUnique.siblingsAt {ds : List Declaration} (h : SiblingsUnique ds)
    (way : List DeclId) : SiblingsUnique (siblingsAt way ds) := by
  induction way generalizing ds with
  | nil => exact h
  | cons id rest ih => exact ih (h.membersOf id)

end Declaration

namespace DocModule

/-- No two siblings have one identity, at any level. -/
def SiblingsUnique (m : DocModule) : Prop := Declaration.SiblingsUnique m.packages

/-- Every map from platforms to facts holds one entry for a platform. -/
def PlatformsDistinct (m : DocModule) : Prop :=
  m.facts.Distinct ∧ ∀ d ∈ m.declarations, d.facts.Distinct

instance (m : DocModule) : Decidable m.SiblingsUnique :=
  inferInstanceAs (Decidable (Declaration.SiblingsUnique _))

instance (m : DocModule) : Decidable m.PlatformsDistinct :=
  inferInstanceAs (Decidable (_ ∧ _))

/-- The siblings at the end of a way down the module. -/
def siblingsAt (m : DocModule) (way : List DeclId) : List Declaration :=
  Declaration.siblingsAt way m.packages

/-- The declaration at a place: a way down the module and, among the siblings
at its end, an identity. -/
def nodeAt? (m : DocModule) (way : List DeclId) (id : DeclId) : Option Declaration :=
  (m.siblingsAt way).find? fun d => d.id == id

theorem count_eq_length (m : DocModule) : m.count = m.declarations.length :=
  Declaration.countAll_eq_length m.packages

end DocModule

end CrossDoc
