import CrossDoc.Plugin.Registry
import CrossDoc.Proofs.Precedence

/-!
# What a registry is made of

Building a registry fails for three reasons only: two registrations of a point
disagree, two of them have one id, or what is left of a point has to stand
before itself.  Otherwise every point gets the registrations that no other one
overrides, in the least order that meets their demands.  Here this is said
about the registrations alone, without the positions, counts and stages of the
building.
-/

namespace CrossDoc

namespace Registration

variable {α : Type}

/-- A reference is the id of a registration or the name of its plugin. -/
def Names (reference : Text) (r : Registration α) : Prop :=
  reference = r.id ∨ reference = r.plugin

instance (reference : Text) (r : Registration α) : Decidable (Names reference r) :=
  inferInstanceAs (Decidable (_ ∨ _))

theorem isNamed_iff {r : Registration α} {reference : Text} :
    r.isNamed reference = true ↔ Names reference r := by
  simp [isNamed, Names]

/-! ## Agreement -/

/-- One point can have both registrations. -/
structure Agrees (r s : Registration α) : Prop where
  cardinality : r.cardinality = s.cardinality
  type : r.type = s.type
  id : r.id ≠ s.id

/-- Of every two registrations of one point each agrees with the other. -/
def Consistent (rs : List (Registration α)) : Prop :=
  rs.Pairwise fun r s => r.point = s.point → r.Agrees s

/-- Among consistent registrations it is enough to look at the first one of the
point for cardinality and type. -/
theorem clash?_eq_none_iff {earlier : List (Registration α)} {r : Registration α}
    (h : Consistent earlier) :
    clash? (earlier.filter fun e => e.point == r.point) r = none ↔
      ∀ e ∈ earlier, e.point = r.point → e.Agrees r := by
  have hgroup : ∀ e, e ∈ earlier.filter (fun e => e.point == r.point) ↔
      e ∈ earlier ∧ e.point = r.point := by simp
  have hagree : (earlier.filter fun e => e.point == r.point).Pairwise Agrees := by
    refine (h.filter _).imp_of_mem ?_
    intro a b ha hb hab
    exact hab (((hgroup a).mp ha).2.trans ((hgroup b).mp hb).2.symm)
  cases hg : earlier.filter fun e => e.point == r.point with
  | nil =>
      have hnone : ∀ e ∈ earlier, e.point ≠ r.point := by simpa using hg
      exact ⟨fun _ e he hp => absurd hp (hnone e he), fun _ => rfl⟩
  | cons first rest =>
      rw [hg] at hgroup hagree
      have hfirst : ∀ e ∈ first :: rest, e.cardinality = first.cardinality ∧
          e.type = first.type := by
        intro e he
        rcases List.mem_cons.mp he with rfl | he
        · exact ⟨rfl, rfl⟩
        · have hfe := (List.pairwise_cons.mp hagree).1 e he
          exact ⟨hfe.cardinality.symm, hfe.type.symm⟩
      have hclash : clash? (first :: rest) r = none ↔ first.cardinality = r.cardinality ∧
          first.type = r.type ∧ ∀ e ∈ first :: rest, e.id ≠ r.id := by
        unfold clash?
        by_cases hc : first.cardinality = r.cardinality
        · by_cases ht : first.type = r.type
          · simp [hc, ht]
          · simp [hc, ht]
        · simp [hc]
      rw [hclash]
      constructor
      · rintro ⟨hc, ht, hid⟩ e he hp
        have hmem := (hgroup e).mpr ⟨he, hp⟩
        obtain ⟨hec, het⟩ := hfirst e hmem
        exact ⟨hec.trans hc, het.trans ht, hid e hmem⟩
      · intro hall
        have hmem : ∀ e ∈ first :: rest, e.Agrees r := by
          intro e he
          obtain ⟨hearlier, hp⟩ := (hgroup e).mp he
          exact hall e hearlier hp
        have hf := hmem first List.mem_cons_self
        exact ⟨hf.cardinality, hf.type, fun e he => (hmem e he).id⟩

theorem firstClash?_eq_none_iff : ∀ {rs earlier : List (Registration α)}, Consistent earlier →
    (firstClash? earlier rs = none ↔ Consistent (earlier ++ rs))
  | [], earlier, h => by simpa [firstClash?] using h
  | r :: rest, earlier, h => by
      have hclash := clash?_eq_none_iff h (r := r)
      rw [show earlier ++ r :: rest = (earlier ++ [r]) ++ rest by simp, firstClash?]
      have hnext : Consistent (earlier ++ [r]) ↔
          clash? (earlier.filter fun e => e.point == r.point) r = none := by
        rw [hclash]
        unfold Consistent
        simp only [List.pairwise_append, List.pairwise_singleton, List.mem_singleton,
          forall_eq, true_and]
        exact ⟨fun hp => hp.2, fun hp => ⟨h, hp⟩⟩
      cases hc : clash? (earlier.filter fun e => e.point == r.point) r with
      | some e =>
          -- The clash stays, whatever comes after it.
          have hbad : ¬ Consistent (earlier ++ [r]) := by simp [hnext, hc]
          constructor
          · intro hnone
            cases hnone
          · exact fun hall => absurd (List.pairwise_append.mp hall).1 hbad
      | none => exact firstClash?_eq_none_iff (hnext.mpr hc)

/-! ## Overriding -/

/-- Another registration of the point names this one among those it
overrides. -/
def IsOverridden (rs : List (Registration α)) (r : Registration α) : Prop :=
  ∃ other ∈ rs, other.point = r.point ∧ other.id ≠ r.id ∧ ∃ t ∈ other.overrides, Names t r

instance (rs : List (Registration α)) (r : Registration α) : Decidable (IsOverridden rs r) :=
  inferInstanceAs (Decidable (∃ other ∈ rs, _))

/-- The registrations of a point that are not overridden, in order of
registration. -/
def surviving (rs : List (Registration α)) (point : Text) : List (Registration α) :=
  rs.filter fun r => r.point = point ∧ ¬ IsOverridden rs r

theorem survivors_eq (rs : List (Registration α)) (point : Text) :
    survivors (rs.filter fun r => r.point == point) = surviving rs point := by
  have hreplaced : ∀ r : Registration α, r.point = point →
      (((rs.filter fun r => r.point == point).any fun other => other.replaces r) = true ↔
        IsOverridden rs r) := by
    intro r hr
    simp only [List.any_eq_true, List.mem_filter, replaces, Bool.and_eq_true, bne_iff_ne,
      isNamed_iff, beq_iff_eq, IsOverridden, hr, and_assoc]
  unfold survivors surviving
  rw [List.filter_filter]
  refine List.filter_congr fun r _ => ?_
  by_cases hp : r.point = point
  · have hr := hreplaced r hp
    by_cases ho : IsOverridden rs r
    · simp [hr.mpr ho, hp, ho]
    · simp [Bool.eq_false_iff.mpr (hr.not.mpr ho), hp, ho]
  · simp [hp]

/-- Registrations of other points do not matter. -/
theorem surviving_congr {rs rs' : List (Registration α)} {point : Text}
    (h : rs'.filter (fun r => r.point == point) = rs.filter fun r => r.point == point) :
    surviving rs' point = surviving rs point := by
  rw [← survivors_eq, ← survivors_eq, h]

/-! ## Order -/

/-- One of the two registrations demands that `r` stands before `s`. -/
def GoesBefore (r s : Registration α) : Prop :=
  (∃ t ∈ s.after, Names t r) ∨ ∃ t ∈ r.before, Names t s

/-- Of the registrations at two positions the first has to stand before the
second.  None has demands on itself, even if it names itself. -/
def Precedes (kept : List (Registration α)) (i j : Nat) : Prop :=
  i ≠ j ∧ ∃ r s, kept[i]? = some r ∧ kept[j]? = some s ∧ GoesBefore r s

/-- Some registration has to stand before itself. -/
def HasCycle (kept : List (Registration α)) : Prop :=
  ∃ i, Relation.TransGen (Precedes kept) i i

/-- An order of all positions that meets every demand. -/
structure IsArrangement (kept : List (Registration α)) (positions : List Nat) : Prop where
  perm : positions.Perm (List.range kept.length)
  meets : positions.Pairwise fun i j => ¬ Precedes kept j i

/-- The first in lexicographic order of the orders that meet every demand. -/
structure IsLeastArrangement (kept : List (Registration α)) (positions : List Nat) : Prop where
  isArrangement : IsArrangement kept positions
  least : ∀ others, IsArrangement kept others → positions ≤ others

theorem mem_targets {kept : List (Registration α)} {position i : Nat} {reference : Text} :
    i ∈ targets kept position reference ↔
      i ≠ position ∧ ∃ r, kept[i]? = some r ∧ Names reference r := by
  simp only [targets, List.mem_map, List.mem_filter, Bool.and_eq_true, bne_iff_ne, isNamed_iff,
    Prod.exists, List.mem_zipIdx_iff_getElem?]
  grind

theorem mem_demands {kept : List (Registration α)} {position i j : Nat} {r : Registration α} :
    (i, j) ∈ demands kept position r ↔ i ≠ j ∧
      ((j = position ∧ ∃ s, kept[i]? = some s ∧ ∃ t ∈ r.after, Names t s) ∨
        (i = position ∧ ∃ s, kept[j]? = some s ∧ ∃ t ∈ r.before, Names t s)) := by
  simp only [demands, List.mem_append, List.mem_flatMap, List.mem_map, mem_targets, Prod.mk.injEq]
  grind

theorem exists_demand_iff {kept : List (Registration α)} {i j : Nat} :
    (∃ e ∈ kept.zipIdx, (i, j) ∈ demands kept e.2 e.1) ↔ Precedes kept i j := by
  unfold Precedes GoesBefore
  constructor
  · rintro ⟨⟨r, position⟩, he, hd⟩
    have hr := List.mem_zipIdx_iff_getElem?.mp he
    obtain ⟨hne, ⟨rfl, s, hs, ht⟩ | ⟨rfl, s, hs, ht⟩⟩ := mem_demands.mp hd
    · exact ⟨hne, s, r, hs, hr, Or.inl ht⟩
    · exact ⟨hne, r, s, hr, hs, Or.inr ht⟩
  · rintro ⟨hne, r, s, hr, hs, ht | ht⟩
    · exact ⟨(s, j), List.mem_zipIdx_iff_getElem?.mpr hs,
        mem_demands.mpr ⟨hne, Or.inl ⟨rfl, r, hr, ht⟩⟩⟩
    · exact ⟨(r, i), List.mem_zipIdx_iff_getElem?.mpr hr,
        mem_demands.mpr ⟨hne, Or.inr ⟨rfl, s, hs, ht⟩⟩⟩

theorem size_precedence (kept : List (Registration α)) :
    (precedence kept).size = kept.length := Precedence.size_foldl_addEdge _ _

theorem proper_precedence (kept : List (Registration α)) : (precedence kept).Proper :=
  (Precedence.proper_ofSize _).foldl_addEdge _

theorem before_precedence (kept : List (Registration α)) (i j : Nat) :
    (precedence kept).Before i j ↔ Precedes kept i j := by
  have hbound : Precedes kept i j → i ≠ j ∧ i < kept.length ∧ j < kept.length := by
    rintro ⟨hne, r, s, hr, hs, -⟩
    obtain ⟨hi, -⟩ := List.getElem?_eq_some_iff.mp hr
    obtain ⟨hj, -⟩ := List.getElem?_eq_some_iff.mp hs
    exact ⟨hne, hi, hj⟩
  rw [precedence, Precedence.before_foldl_addEdge, List.mem_flatMap, exists_demand_iff]
  simp only [Precedence.ofSize, Precedence.Before, List.not_mem_nil, false_or]
  exact ⟨fun h => h.1, fun h => ⟨h, hbound h⟩⟩

theorem isOrder_iff (kept : List (Registration α)) (positions : List Nat) :
    (precedence kept).IsOrder positions ↔ IsArrangement kept positions := by
  constructor
  · rintro ⟨hperm, hmeets⟩
    rw [size_precedence] at hperm
    exact ⟨hperm, hmeets.imp fun h hp => h ((before_precedence kept _ _).mpr hp)⟩
  · rintro ⟨hperm, hmeets⟩
    rw [← size_precedence] at hperm
    exact ⟨hperm, hmeets.imp fun h hp => h ((before_precedence kept _ _).mp hp)⟩

theorem isResolved_iff (kept : List (Registration α)) :
    (precedence kept).isResolved = true ↔ ¬ HasCycle kept := by
  rw [Precedence.isResolved_iff_acyclic (proper_precedence kept)]
  have hbefore : (precedence kept).Before = Precedes kept := by
    funext i j
    exact propext (before_precedence kept i j)
  simp [Precedence.Acyclic, HasCycle, hbefore]

/-- The positions of the registrations of a point, in order. -/
def arrangement (kept : List (Registration α)) : List Nat := (precedence kept).order

theorem arrangement_isLeast {kept : List (Registration α)} (h : ¬ HasCycle kept) :
    IsLeastArrangement kept (arrangement kept) := by
  have hproper := proper_precedence kept
  have horder := Precedence.isOrder_order hproper ((isResolved_iff kept).mpr h)
  refine ⟨(isOrder_iff kept _).mp horder, ?_⟩
  intro others hothers
  exact Precedence.order_le hproper ((isOrder_iff kept others).mpr hothers)

/-- The entries of some registrations in order. -/
def arranged (kept : List (Registration α)) : List (RegistryEntry α) :=
  (pick kept (arrangement kept)).map entry

/-- A point without a cycle gets its registrations in order. -/
theorem resolve_ok {rs : List (Registration α)} {point : Text}
    (h : ¬ HasCycle (surviving rs point)) :
    resolve point (rs.filter fun r => r.point == point) = .ok (arranged (surviving rs point)) := by
  unfold resolve
  simp only [survivors_eq]
  rw [if_pos ((isResolved_iff _).mpr h)]
  rfl

/-- What is wrong with a point whose registrations demand a cycle. -/
def cycleOf (rs : List (Registration α)) (point : Text) : RegistryError :=
  let kept := surviving rs point
  .cycle point ((pick kept (precedence kept).unresolved).map (·.id))

theorem resolve_cycle {rs : List (Registration α)} {point : Text}
    (h : HasCycle (surviving rs point)) :
    resolve point (rs.filter fun r => r.point == point) = .error (cycleOf rs point) := by
  unfold resolve
  simp only [survivors_eq]
  rw [if_neg fun hr => (isResolved_iff _).mp hr h]
  rfl

theorem hasCycle_ne_nil {kept : List (Registration α)} (h : HasCycle kept) : kept ≠ [] := by
  rintro rfl
  obtain ⟨i, hi⟩ := h
  obtain ⟨-, r, s, hr, -⟩ | ⟨-, -, r, s, hr, -⟩ := hi
  · simp at hr
  · simp at hr

theorem pick_range (kept : List (Registration α)) :
    pick kept (List.range kept.length) = kept := Precedence.filterMap_getElem?_range kept

/-- Every registration that is left has one entry. -/
theorem perm_arranged {kept : List (Registration α)} (h : ¬ HasCycle kept) :
    (arranged kept).Perm (kept.map entry) := by
  have hperm := (arrangement_isLeast h).isArrangement.perm
  have hpick : (pick kept (arrangement kept)).Perm (pick kept (List.range kept.length)) :=
    hperm.filterMap _
  rw [pick_range] at hpick
  exact hpick.map entry

end Registration

namespace Registry

open Registration

variable {α : Type}

/-! ## Resolving -/

/-- A single point is resolved by its only entry. -/
theorem resolveSingle_eq_ok_iff {g : Registry α} {point type : Text} {v : α} :
    g.resolveSingle point .single type = .ok v ↔
      ∃ e, g.entries point = [e] ∧ e.type = type ∧ v = e.impl := by
  rw [resolveSingle, if_neg (by simp)]
  constructor
  · intro hv
    split at hv
    · next e he =>
      unfold RegistryEntry.cast at hv
      split at hv
      · next htype => exact ⟨e, he, htype, (Except.ok.inj hv).symm⟩
      · cases hv
    · cases hv
  · rintro ⟨e, he, htype, rfl⟩
    rw [he]
    exact if_pos htype

theorem resolveSingle_eq_badCast_iff {g : Registry α} {point type : Text} :
    g.resolveSingle point .single type = .error badCast ↔
      ∃ e, g.entries point = [e] ∧ e.type ≠ type := by
  rw [resolveSingle, if_neg (by simp)]
  constructor
  · intro hv
    split at hv
    · next e he =>
      unfold RegistryEntry.cast at hv
      split at hv
      · cases hv
      · next htype => exact ⟨e, he, htype⟩
    · cases hv
  · rintro ⟨e, he, htype⟩
    rw [he]
    exact if_neg htype

/-! ## Building -/

/-- Why registrations make no registry. -/
inductive Inconsistent (rs : List (Registration α)) : Prop where
  /-- Two registrations of a point disagree on its cardinality or type. -/
  | clash {r s : Registration α} (two : [r, s].Sublist rs) (point : r.point = s.point)
      (differ : r.cardinality ≠ s.cardinality ∨ r.type ≠ s.type) : Inconsistent rs
  /-- Two registrations of a point have one id. -/
  | sameId {r s : Registration α} (two : [r, s].Sublist rs) (point : r.point = s.point)
      (id : r.id = s.id) : Inconsistent rs
  /-- What is left of a point has to stand before itself. -/
  | cycle (point : Text) (cyclic : HasCycle (surviving rs point)) : Inconsistent rs

/-- The registry has the registrations of every point that are left, in the
least order that meets their demands. -/
structure Arranges (rs : List (Registration α)) (g : Registry α) : Prop where
  entries : ∀ point, ∃ positions, IsLeastArrangement (surviving rs point) positions ∧
    g.entries point = positions.filterMap fun i => (surviving rs point)[i]?.map entry
  /-- A single point is resolved when just one registration is left, as one of its type. -/
  single : ∀ point type v, g.resolveSingle point .single type = .ok v ↔
    ∃ r, surviving rs point = [r] ∧ r.type = type ∧ v = r.impl
  /-- It breaks off only where that one is of another type. -/
  breaksOff : ∀ point type, g.resolveSingle point .single type = .error badCast ↔
    ∃ r, surviving rs point = [r] ∧ r.type ≠ type

theorem inconsistent_iff (rs : List (Registration α)) :
    Inconsistent rs ↔ ¬ Consistent rs ∨ ∃ point, HasCycle (surviving rs point) := by
  constructor
  · rintro (⟨two, point, differ⟩ | ⟨two, point, id⟩ | ⟨point, cyclic⟩)
    · refine Or.inl fun hc => ?_
      have hagrees := List.pairwise_iff_forall_sublist.mp hc two point
      rcases differ with hd | hd
      · exact hd hagrees.cardinality
      · exact hd hagrees.type
    · exact Or.inl fun hc => (List.pairwise_iff_forall_sublist.mp hc two point).id id
    · exact Or.inr ⟨point, cyclic⟩
  · rintro (hc | ⟨point, cyclic⟩)
    · rw [Consistent, List.pairwise_iff_forall_sublist] at hc
      push Not at hc
      obtain ⟨r, s, two, point, hnot⟩ := hc
      by_cases hid : r.id = s.id
      · exact .sameId two point hid
      · by_cases hcardinality : r.cardinality = s.cardinality
        · exact .clash two point (Or.inr fun htype => hnot ⟨hcardinality, htype, hid⟩)
        · exact .clash two point (Or.inl hcardinality)
    · exact .cycle point cyclic

open Classical in
/-- Resolving points ends at the first one with a cycle. -/
theorem value_resolvePoints (rs : List (Registration α)) :
    ∀ points : List Text, (resolvePoints rs points).run.value =
      match points.find? fun p => HasCycle (surviving rs p) with
      | some p => .error (cycleOf rs p)
      | none => .ok (points.map fun p => (p, arranged (surviving rs p)))
  | [] => rfl
  | p :: rest => by
      by_cases hp : HasCycle (surviving rs p)
      · rw [List.find?_cons_of_pos (by simpa using hp)]
        simp only [resolvePoints, resolve_cycle hp, Traced.value_run_bind]
        rfl
      · have ih := value_resolvePoints rs rest
        rw [List.find?_cons_of_neg (by simpa using hp)]
        simp only [resolvePoints, resolve_ok hp, Traced.value_run_bind, ih]
        cases rest.find? fun p => HasCycle (surviving rs p) <;> rfl

open Classical in
/-- What building comes to when the registrations agree. -/
theorem value_build {rs : List (Registration α)} (h : Consistent rs) : (build rs).run.value =
    match (Registration.pointNames rs).find? fun p => HasCycle (surviving rs p) with
    | some p => .error (cycleOf rs p)
    | none => .ok ⟨(Registration.pointNames rs).map fun p => (p, arranged (surviving rs p))⟩ := by
  have hnone : firstClash? [] rs = none := (firstClash?_eq_none_iff List.Pairwise.nil).mpr h
  simp only [build, hnone, Traced.value_run_bind, value_resolvePoints]
  cases (Registration.pointNames rs).find? fun p => HasCycle (surviving rs p) <;> rfl

theorem value_build_ok {rs : List (Registration α)} (h : ¬ Inconsistent rs) :
    (build rs).run.value =
      .ok ⟨(Registration.pointNames rs).map fun p => (p, arranged (surviving rs p))⟩ := by
  classical
  rw [inconsistent_iff] at h
  push Not at h
  obtain ⟨hconsistent, hcycle⟩ := h
  rw [value_build hconsistent, List.find?_eq_none.mpr fun p _ => by simpa using hcycle p]

theorem value_build_error {rs : List (Registration α)} (h : Inconsistent rs) :
    ∃ e, (build rs).run.value = .error e := by
  classical
  cases hclash : firstClash? [] rs with
  | some e =>
      refine ⟨e, ?_⟩
      simp only [build, hclash]
      rfl
  | none =>
      have hconsistent : Consistent rs := (firstClash?_eq_none_iff List.Pairwise.nil).mp hclash
      rcases (inconsistent_iff rs).mp h with hnot | ⟨point, hcycle⟩
      · exact absurd hconsistent hnot
      · -- A point with a cycle has a registration.
        have hpoint : point ∈ Registration.pointNames rs := by
          obtain ⟨r, hr⟩ := List.exists_mem_of_ne_nil _ (hasCycle_ne_nil hcycle)
          have hr' := List.mem_filter.mp hr
          have hrp : r.point = point := (of_decide_eq_true hr'.2).1
          exact List.mem_eraseDups.mpr (hrp ▸ List.mem_map_of_mem hr'.1)
        have hfound : ((Registration.pointNames rs).find? fun p =>
            HasCycle (surviving rs p)).isSome := by
          exact List.find?_isSome.mpr ⟨point, hpoint, by simpa using hcycle⟩
        obtain ⟨p, hp⟩ := Option.isSome_iff_exists.mp hfound
        exact ⟨cycleOf rs p, by rw [value_build hconsistent, hp]⟩

/-- The entries of a point are those of its registrations in order, also where
there are none. -/
theorem entries_build {rs : List (Registration α)} {g : Registry α}
    (h : (build rs).run.value = .ok g) (point : Text) :
    g.entries point = arranged (surviving rs point) := by
  have hconsistent : ¬ Inconsistent rs := by
    intro hnot
    obtain ⟨e, he⟩ := value_build_error hnot
    rw [h] at he
    cases he
  have hg := value_build_ok hconsistent
  rw [h] at hg
  obtain rfl := Except.ok.inj hg
  have hfind : ∀ points : List Text,
      ((points.map fun p => (p, arranged (surviving rs p))).find? fun e => e.1 == point) =
        if point ∈ points then some (point, arranged (surviving rs point)) else none := by
    intro points
    induction points with
    | nil => rfl
    | cons p rest ih =>
        rw [List.map_cons, List.find?_cons, ih]
        by_cases hp : p = point
        · simp [hp]
        · have hne : (p == point) = false := by simpa using hp
          simp [hne, Ne.symm hp]
  rw [entries, hfind]
  split
  · rfl
  · next hpoint =>
    have hnil : surviving rs point = [] := by
      refine List.filter_eq_nil_iff.mpr fun r hr => ?_
      have hne : r.point ≠ point := fun he =>
        hpoint (List.mem_eraseDups.mpr (he ▸ List.mem_map_of_mem hr))
      simp [hne]
    have hperm := perm_arranged fun hcycle => hasCycle_ne_nil hcycle hnil
    rw [hnil] at hperm ⊢
    exact hperm.eq_nil.symm

theorem arranges_of_build {rs : List (Registration α)} {g : Registry α}
    (hconsistent : ¬ Inconsistent rs) (h : (build rs).run.value = .ok g) : Arranges rs g := by
  have hcycle : ∀ point, ¬ HasCycle (surviving rs point) := fun point hc =>
    hconsistent (.cycle point hc)
  have hentry : ∀ point e, g.entries point = [e] ↔
      ∃ r, surviving rs point = [r] ∧ r.entry = e := by
    intro point e
    have hperm := perm_arranged (hcycle point)
    rw [← entries_build h point] at hperm
    rw [← List.map_eq_singleton_iff]
    constructor
    · intro he
      rw [he] at hperm
      exact hperm.singleton_eq.symm
    · intro he
      rw [he, List.perm_singleton] at hperm
      exact hperm
  constructor
  · intro point
    refine ⟨_, arrangement_isLeast (hcycle point), ?_⟩
    rw [entries_build h, arranged, pick, List.map_filterMap]
  · intro point type v
    rw [resolveSingle_eq_ok_iff]
    constructor
    · rintro ⟨e, he, htype, rfl⟩
      obtain ⟨r, hr, rfl⟩ := (hentry point e).mp he
      exact ⟨r, hr, htype, rfl⟩
    · rintro ⟨r, hr, htype, rfl⟩
      exact ⟨r.entry, (hentry point _).mpr ⟨r, hr, rfl⟩, htype, rfl⟩
  · intro point type
    rw [resolveSingle_eq_badCast_iff]
    constructor
    · rintro ⟨e, he, htype⟩
      obtain ⟨r, hr, rfl⟩ := (hentry point e).mp he
      exact ⟨r, hr, htype⟩
    · rintro ⟨r, hr, htype⟩
      exact ⟨r.entry, (hentry point _).mpr ⟨r, hr, rfl⟩, htype⟩

/-- **A registry is its registrations, without the overridden ones and in
order.**  Building fails, with an error of the configuration, exactly when the
registrations are inconsistent.  Otherwise every point gets what is left of it,
and the registrations of other points have no part in that. -/
theorem build_error_iff_and_arranges (rs : List (Registration α)) :
    ((∃ e, (build rs).run.value = .error e ∧ e.toFailure.kind = .configuration) ↔
        Inconsistent rs) ∧
      (¬ Inconsistent rs → ∃ g, (build rs).run.value = .ok g ∧ Arranges rs g) ∧
      ∀ rs' g g' point, (build rs).run.value = .ok g → (build rs').run.value = .ok g' →
        (rs'.filter fun r => r.point == point) = (rs.filter fun r => r.point == point) →
          g'.entries point = g.entries point := by
  refine ⟨⟨?_, ?_⟩, ?_, ?_⟩
  · rintro ⟨e, he, -⟩
    by_contra hconsistent
    rw [value_build_ok hconsistent] at he
    cases he
  · intro h
    obtain ⟨e, he⟩ := value_build_error h
    exact ⟨e, he, rfl⟩
  · intro h
    exact ⟨_, value_build_ok h, arranges_of_build h (value_build_ok h)⟩
  · intro rs' g g' point hg hg' hsame
    rw [entries_build hg, entries_build hg', surviving_congr hsame]

/-- Three plugins on one point: `a` comes after `c`, and `d` replaces all that
`b` has there and comes before `a`.  Another point is single. -/
def sampleRegistrations : List (Registration Nat) :=
  let on (point : Text) (cardinality : Cardinality) (plugin name : Text) (impl : Nat) :
      Registration Nat :=
    { point := point, cardinality := cardinality, type := "A", plugin := plugin
      id := plugin ++ "/" ++ name, impl := impl }
  [ { on "chain" .multi "a" "x" 0 with after := ["c"] },
    on "chain" .multi "b" "old" 1,
    on "single" .single "a" "x" 2,
    on "chain" .multi "c" "y" 3,
    { on "chain" .multi "d" "new" 4 with before := ["a/x"], overrides := ["b"] } ]

theorem build_error_iff_and_arranges_sample : ¬ Inconsistent sampleRegistrations ∧
    ∃ g, (build sampleRegistrations).run.value = .ok g ∧ Arranges sampleRegistrations g ∧
      g.resolveAll "chain" "A" = .ok [3, 4, 0] ∧
      g.resolveSingle "single" .single "A" = .ok 2 ∧
      g.resolveSingle "single" .single "B" = .error badCast := by
  obtain ⟨hfails, harranges, -⟩ := build_error_iff_and_arranges sampleRegistrations
  have hvalue : (build sampleRegistrations).run.value.map
      (fun g => (g.resolveAll "chain" "A", g.resolveSingle "single" .single "A",
        g.resolveSingle "single" .single "B")) =
        .ok (.ok [3, 4, 0], .ok 2, .error badCast) := by decide +kernel
  have hconsistent : ¬ Inconsistent sampleRegistrations := by
    intro h
    obtain ⟨e, he, -⟩ := hfails.mpr h
    rw [he] at hvalue
    cases hvalue
  obtain ⟨g, hg, hr⟩ := harranges hconsistent
  rw [hg] at hvalue
  obtain ⟨hchain, hsingles⟩ := Prod.mk.inj (Except.ok.inj hvalue)
  exact ⟨hconsistent, g, hg, hr, hchain, Prod.mk.inj hsingles⟩

end Registry

end CrossDoc
