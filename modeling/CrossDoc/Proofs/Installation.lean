import CrossDoc.Plugin.Plugin
import CrossDoc.Proofs.Registrations

/-!
# What is installed, and in which order

Plugins can be put in order when their demands on each other hold no cycle,
and the order then meets all of them.  They register their proposals in that
order, and a registry of registrations that demand and override nothing keeps
it: every point has the registrations of one plugin after those of another.
-/

namespace CrossDoc

namespace Precedence

variable {p : Precedence}

/-- Without constraints the items are taken as they come. -/
theorem Greedy.pairwise_lt (hfree : ∀ a b, ¬ p.Before a b) {placed l : List Nat}
    (h : p.Greedy placed l) : l.Pairwise (· < ·) := by
  induction h with
  | stop => exact List.Pairwise.nil
  | place available least further ih =>
      refine List.pairwise_cons.mpr ⟨fun b hb => ?_, ih⟩
      obtain ⟨hsize, hfresh⟩ := further.fresh b hb
      obtain ⟨hne, hplaced⟩ := List.ne_and_not_mem_of_not_mem_cons hfresh
      have hle := least b ⟨hsize, hplaced, fun a ha => absurd ha (hfree a b)⟩
      exact Nat.lt_of_le_of_ne hle (Ne.symm hne)

theorem order_eq_range (proper : p.Proper) (hfree : ∀ a b, ¬ p.Before a b) :
    p.order = List.range p.size := by
  have hacyclic : p.Acyclic := by
    intro a ha
    obtain ⟨b, hab, -⟩ := Relation.TransGen.head'_iff.mp ha
    exact hfree a b hab
  have hperm := (isOrder_order proper ((isResolved_iff_acyclic proper).mpr hacyclic)).perm
  refine hperm.eq_of_pairwise ?_ ((greedy_order proper).pairwise_lt hfree) List.pairwise_lt_range
  intro a b _ _ hab hba
  exact absurd hab (Nat.lt_asymm hba)

end Precedence

namespace Registration

variable {α : Type}

/-- The registration demands no place and overrides nothing. -/
structure IsFree (r : Registration α) : Prop where
  after : r.after = []
  before : r.before = []
  overrides : r.overrides = []

theorem surviving_of_free {rs : List (Registration α)} {point : Text}
    (h : ∀ r ∈ rs, r.point = point → r.IsFree) :
    surviving rs point = rs.filter fun r => r.point = point := by
  refine List.filter_congr fun r _ => decide_eq_decide.mpr (and_iff_left_of_imp fun hr => ?_)
  rintro ⟨other, hother, hpoint, -, t, ht, -⟩
  rw [(h other hother (hpoint.trans hr)).overrides] at ht
  cases ht

theorem arranged_of_free {kept : List (Registration α)} (h : ∀ r ∈ kept, r.IsFree) :
    arranged kept = kept.map entry := by
  have hfree : ∀ i j, ¬ (precedence kept).Before i j := by
    intro i j hij
    obtain ⟨-, r, s, hr, hs, ⟨t, ht, -⟩ | ⟨t, ht, -⟩⟩ := (before_precedence kept i j).mp hij
    · rw [(h s (List.mem_of_getElem? hs)).after] at ht
      cases ht
    · rw [(h r (List.mem_of_getElem? hr)).before] at ht
      cases ht
  have horder := Precedence.order_eq_range (proper_precedence kept) hfree
  rw [arranged, arrangement, horder, size_precedence, pick_range]

theorem mem_of_mem_arranged {kept : List (Registration α)} {e : RegistryEntry α}
    (h : e ∈ arranged kept) : ∃ r ∈ kept, e = r.entry := by
  obtain ⟨r, hr, rfl⟩ := List.mem_map.mp h
  obtain ⟨i, -, hi⟩ := List.mem_filterMap.mp hr
  exact ⟨r, List.mem_of_getElem? hi, rfl⟩

end Registration

namespace Registry

variable {α : Type} {rs : List (Registration α)} {g : Registry α} {point : Text}

/-- Where nothing is demanded and overridden, all registrations stay as they came. -/
theorem entries_build_of_free (h : (build rs).run.value = .ok g)
    (hfree : ∀ r ∈ rs, r.point = point → r.IsFree) :
    g.entries point = (rs.filter fun r => r.point = point).map Registration.entry := by
  rw [entries_build h, Registration.surviving_of_free hfree]
  refine Registration.arranged_of_free fun r hr => ?_
  obtain ⟨hmem, hpoint⟩ := List.mem_filter.mp hr
  exact hfree r hmem (of_decide_eq_true hpoint)

theorem exists_registration_of_mem_entries (h : (build rs).run.value = .ok g)
    {e : RegistryEntry α} (he : e ∈ g.entries point) :
    ∃ r ∈ rs, r.point = point ∧ e = r.entry := by
  rw [entries_build h] at he
  obtain ⟨r, hr, rfl⟩ := Registration.mem_of_mem_arranged he
  obtain ⟨hmem, hkept⟩ := List.mem_filter.mp hr
  exact ⟨r, hmem, (of_decide_eq_true hkept).1, rfl⟩

end Registry

namespace Plugin

/-! ## Demands -/

/-- One of the two plugins demands that `p` is installed before `q`.  None has demands on itself,
even if it names itself. -/
def GoesBefore (p q : Plugin) : Prop :=
  p.name ≠ q.name ∧ (p.name ∈ q.after ∨ q.name ∈ p.before)

instance (p q : Plugin) : Decidable (p.GoesBefore q) :=
  inferInstanceAs (Decidable (p.name ≠ q.name ∧ (p.name ∈ q.after ∨ q.name ∈ p.before)))

/-- Some plugin has to be installed before itself.  Demands on plugins that are not there do not
matter. -/
def HasCycle (ps : List Plugin) : Prop :=
  ∃ p, Relation.TransGen (fun a b => a ∈ ps ∧ b ∈ ps ∧ a.GoesBefore b) p p

/-- Demands that climb have no cycle. -/
theorem not_hasCycle_of_rank {ps : List Plugin} (rank : Plugin → Nat)
    (h : ∀ p ∈ ps, ∀ q ∈ ps, p.GoesBefore q → rank p < rank q) : ¬ HasCycle ps := by
  have hclimb : ∀ p q, Relation.TransGen (fun a b => a ∈ ps ∧ b ∈ ps ∧ a.GoesBefore b) p q →
      rank p < rank q := by
    intro p q hpq
    induction hpq with
    | single hab => exact h _ hab.1 _ hab.2.1 hab.2.2
    | tail _ hab ih => exact Nat.lt_trans ih (h _ hab.1 _ hab.2.1 hab.2.2)
  rintro ⟨p, hp⟩
  exact Nat.lt_irrefl _ (hclimb p p hp)

/-- An order of all plugins that meets every demand. -/
structure IsInstallOrder (ps ordered : List Plugin) : Prop where
  perm : ordered.Perm ps
  meets : ordered.Pairwise fun p q => ¬ q.GoesBefore p

variable {ps : List Plugin}

theorem repeatedName?_eq_none_iff : ∀ {ps : List Plugin} {seen : List Text},
    repeatedName? seen ps = none ↔ (ps.map (·.name)).Nodup ∧ ∀ p ∈ ps, p.name ∉ seen
  | [], seen => by simp [repeatedName?]
  | p :: rest, seen => by
      rw [repeatedName?]
      by_cases hseen : p.name ∈ seen
      · simp [hseen]
      · rw [if_neg (by simpa using hseen), repeatedName?_eq_none_iff]
        simp only [List.map_cons, List.nodup_cons, List.mem_map, List.mem_cons]
        grind

/-- Among different names a name tells the plugin. -/
theorem position?_eq_some_iff (h : (ps.map (·.name)).Nodup) {name : Text} {i : Nat} :
    position? ps name = some i ↔ ∃ p, ps[i]? = some p ∧ p.name = name := by
  rw [position?, List.findIdx?_eq_some_iff_getElem]
  constructor
  · rintro ⟨hi, hname, -⟩
    exact ⟨ps[i], List.getElem?_eq_getElem hi, by simpa using hname⟩
  · rintro ⟨p, hp, rfl⟩
    obtain ⟨hi, rfl⟩ := List.getElem?_eq_some_iff.mp hp
    refine ⟨hi, by simp, fun j hji hj => ?_⟩
    have hdifferent : (ps.map (·.name))[j]? ≠ (ps.map (·.name))[i]? :=
      List.nodup_iff_getElem?_ne_getElem?.mp h j i hji (by simpa using hi)
    refine hdifferent ?_
    rw [List.getElem?_map, List.getElem?_map, List.getElem?_eq_getElem (hji.trans hi),
      List.getElem?_eq_getElem hi]
    simpa using hj

theorem proper_precedence (ps : List Plugin) : (precedence ps).Proper :=
  (Precedence.proper_ofSize _).foldl_addEdge _

theorem size_precedence (ps : List Plugin) : (precedence ps).size = ps.length :=
  Precedence.size_foldl_addEdge _ _

theorem before_precedence (h : (ps.map (·.name)).Nodup) {i j : Nat} :
    (precedence ps).Before i j ↔
      ∃ p q, ps[i]? = some p ∧ ps[j]? = some q ∧ p.GoesBefore q := by
  have hdemand : (∃ e ∈ ps.zipIdx, (i, j) ∈ demands ps e.2 e.1) ↔
      ∃ p q, ps[i]? = some p ∧ ps[j]? = some q ∧ (p.name ∈ q.after ∨ q.name ∈ p.before) := by
    simp only [demands, List.mem_append, List.mem_filterMap, Option.map_eq_some_iff,
      Prod.mk.injEq, position?_eq_some_iff h, Prod.exists, List.mem_zipIdx_iff_getElem?]
    constructor
    · rintro ⟨r, k, hr, ⟨name, hname, i', ⟨p, hp, rfl⟩, rfl, rfl⟩ |
        ⟨name, hname, j', ⟨q, hq, rfl⟩, rfl, rfl⟩⟩
      · exact ⟨p, r, hp, hr, Or.inl hname⟩
      · exact ⟨r, q, hr, hq, Or.inr hname⟩
    · rintro ⟨p, q, hp, hq, hname | hname⟩
      · exact ⟨q, j, hq, Or.inl ⟨p.name, hname, i, ⟨p, hp, rfl⟩, rfl, rfl⟩⟩
      · exact ⟨p, i, hp, Or.inr ⟨q.name, hname, j, ⟨q, hq, rfl⟩, rfl, rfl⟩⟩
  rw [precedence, Precedence.before_foldl_addEdge, List.mem_flatMap, hdemand]
  simp only [Precedence.ofSize, Precedence.Before, List.not_mem_nil, false_or]
  constructor
  · rintro ⟨⟨p, q, hp, hq, hname⟩, hne, -⟩
    refine ⟨p, q, hp, hq, fun hsame => hne ?_, hname⟩
    have hi := (position?_eq_some_iff h).mpr ⟨p, hp, rfl⟩
    have hj := (position?_eq_some_iff h).mpr ⟨q, hq, hsame.symm⟩
    exact Option.some.inj (hi.symm.trans hj)
  · rintro ⟨p, q, hp, hq, hne, hname⟩
    obtain ⟨hi, -⟩ := List.getElem?_eq_some_iff.mp hp
    obtain ⟨hj, -⟩ := List.getElem?_eq_some_iff.mp hq
    refine ⟨⟨p, q, hp, hq, hname⟩, ?_, hi, hj⟩
    rintro rfl
    rw [hp] at hq
    exact hne (congrArg name (Option.some.inj hq))

/-- Of two plugins of a list the first has to be installed before the second. -/
def Precedes (ps : List Plugin) (p q : Plugin) : Prop := p ∈ ps ∧ q ∈ ps ∧ p.GoesBefore q

/-- Among different names a plugin has one position. -/
theorem position_unique (h : (ps.map (·.name)).Nodup) {p : Plugin} {i j : Nat}
    (hi : ps[i]? = some p) (hj : ps[j]? = some p) : i = j := by
  have hi' := (position?_eq_some_iff h).mpr ⟨p, hi, rfl⟩
  have hj' := (position?_eq_some_iff h).mpr ⟨p, hj, rfl⟩
  exact Option.some.inj (hi'.symm.trans hj')

/-- A plugin is held up where its position is. -/
theorem onOrBehindCycle_position_iff (h : (ps.map (·.name)).Nodup) {p : Plugin} {i : Nat}
    (hp : ps[i]? = some p) :
    OnOrBehindCycle (precedence ps).Before i ↔ OnOrBehindCycle (Precedes ps) p := by
  constructor
  · refine OnOrBehindCycle.transport (fun i p => ps[i]? = some p) ?_ ?_ hp
    · intro i j q hq hij
      obtain ⟨p, q', hp, hq', hpq⟩ := (before_precedence h).mp hij
      obtain rfl := Option.some.inj (hq.symm.trans hq')
      exact ⟨p, hp, List.mem_of_getElem? hp, List.mem_of_getElem? hq, hpq⟩
    · exact fun hp hq => Option.some.inj (hp.symm.trans hq)
  · refine OnOrBehindCycle.transport (fun p i => ps[i]? = some p) ?_ ?_ hp
    · intro p q j hq hpq
      obtain ⟨i, hi⟩ := List.mem_iff_getElem?.mp hpq.1
      exact ⟨i, hi, (before_precedence h).mpr ⟨p, q, hi, hq, hpq.2.2⟩⟩
    · exact fun hi hj => position_unique h hi hj

theorem isResolved_precedence_iff (h : (ps.map (·.name)).Nodup) :
    (precedence ps).isResolved = true ↔ ¬ HasCycle ps := by
  rw [Precedence.isResolved_iff_acyclic (proper_precedence ps)]
  constructor
  · rintro hacyclic ⟨p, hcycle⟩
    obtain ⟨q, hpq, -⟩ := Relation.TransGen.head'_iff.mp hcycle
    obtain ⟨i, hi⟩ := List.mem_iff_getElem?.mp hpq.1
    obtain ⟨c, hc, -⟩ := (onOrBehindCycle_position_iff h hi).mpr (.of_cycle hcycle)
    exact hacyclic c hc
  · intro hno i hcycle
    obtain ⟨j, hij, -⟩ := Relation.TransGen.head'_iff.mp hcycle
    obtain ⟨p, -, hp, -⟩ := (before_precedence h).mp hij
    obtain ⟨c, hc, -⟩ := (onOrBehindCycle_position_iff h hp).mp (.of_cycle hcycle)
    exact hno ⟨c, hc⟩

/-! ## The order -/

theorem subset_of_order {ordered : List Plugin} (h : (order ps).run.value = .ok ordered) :
    ∀ p ∈ ordered, p ∈ ps := by
  unfold order at h
  split at h
  · cases h
  · rw [Traced.value_run_bind, Traced.value_run_lift] at h
    dsimp only at h
    split at h
    · cases h
      intro p hp
      obtain ⟨i, -, hi⟩ := List.mem_filterMap.mp hp
      exact List.mem_of_getElem? hi
    · cases h

/-- Plugins of different names without a cycle are put in order. -/
theorem exists_order (h : (ps.map (·.name)).Nodup) (hcycle : ¬ HasCycle ps) :
    ∃ ordered, (order ps).run.value = .ok ordered ∧ IsInstallOrder ps ordered := by
  have hproper := proper_precedence ps
  have hresolved := (isResolved_precedence_iff h).mpr hcycle
  obtain ⟨hperm, hmeets⟩ := Precedence.isOrder_order hproper hresolved
  refine ⟨(precedence ps).order.filterMap fun i => ps[i]?, ?_, ?_, ?_⟩
  · have hnone : repeatedName? [] ps = none :=
      repeatedName?_eq_none_iff.mpr ⟨h, fun p _ => List.not_mem_nil⟩
    simp only [order, hnone, Traced.value_run_bind, Traced.value_run_lift, hresolved, if_true]
    rfl
  · rw [size_precedence] at hperm
    have hpick := hperm.filterMap fun i => ps[i]?
    rwa [Precedence.filterMap_getElem?_range] at hpick
  · refine List.Pairwise.filterMap _ (fun i j hij p hp q hq hqp => ?_) hmeets
    exact hij ((before_precedence h).mpr ⟨q, p, hq, hp, hqp⟩)

/-! ## Registrations -/

/-- The plugin has extensions for the configuration, if only none. -/
def Installs (p : Plugin) (c : Config) : Prop :=
  ∃ proposals, (p.install c).value = .ok proposals

/-- What the plugin proposes for a configuration; nothing if it cannot be installed. -/
def proposals (p : Plugin) (c : Config) : List Proposal :=
  match (p.install c).value with
  | .ok proposals => proposals
  | .error _ => []

/-- The registrations of the plugin for a configuration, in the order of its proposals. -/
def registered (p : Plugin) (c : Config) : List (Registration Extension) :=
  (p.proposals c).map (Proposal.register p.name)

variable {c : Config}

theorem plugin_of_mem_registered {p : Plugin} {r : Registration Extension}
    (h : r ∈ p.registered c) : r.plugin = p.name := by
  obtain ⟨q, -, rfl⟩ := List.mem_map.mp h
  rfl

theorem value_registrations_cons (p : Plugin) (rest : List Plugin) :
    (registrations c (p :: rest)).run.value =
      match (p.install c).value with
      | .error message => .error (.installFailed p.name (Text.untilNul message))
      | .ok proposals =>
          match (registrations c rest).run.value with
          | .error e => .error e
          | .ok rs => .ok (proposals.map (Proposal.register p.name) ++ rs) := by
  rw [registrations, Traced.value_run_bind, Traced.value_run_lift]
  dsimp only
  rw [Traced.value_relay]
  cases (p.install c).value with
  | error message => rfl
  | ok proposals =>
      dsimp only
      rw [Traced.value_run_bind, Traced.value_run_lift]
      dsimp only
      rw [Traced.value_run_bind]
      cases (registrations c rest).run.value <;> rfl

/-- Registering succeeds exactly when every plugin can be installed, and then gives what they
propose, one plugin after the other. -/
theorem value_registrations {rs : List (Registration Extension)} : ∀ {ps : List Plugin},
    (registrations c ps).run.value = .ok rs ↔
      (∀ p ∈ ps, p.Installs c) ∧ rs = ps.flatMap (registered · c)
  | [] => by
      constructor
      · intro h
        cases h
        exact ⟨fun p hp => absurd hp List.not_mem_nil, rfl⟩
      · rintro ⟨-, rfl⟩
        rfl
  | p :: rest => by
      rw [value_registrations_cons]
      constructor
      · intro h
        split at h
        · cases h
        · next proposals hp =>
          split at h
          · cases h
          · next rs' hrest =>
            obtain ⟨hinstalls, rfl⟩ := value_registrations.mp hrest
            cases h
            refine ⟨List.forall_mem_cons.mpr ⟨⟨proposals, hp⟩, hinstalls⟩, ?_⟩
            simp only [List.flatMap_cons, registered, Plugin.proposals, hp]
      · rintro ⟨hinstalls, rfl⟩
        obtain ⟨⟨proposals, hp⟩, hrest⟩ := List.forall_mem_cons.mp hinstalls
        rw [hp, value_registrations.mpr ⟨hrest, rfl⟩]
        simp only [List.flatMap_cons, registered, Plugin.proposals, hp]

theorem value_freeze (rs : List (Registration Extension)) :
    (freeze rs).run.value =
      match (Registry.build rs).run.value with
      | .ok r => .ok r
      | .error e => .error (.registry e) := by
  unfold freeze
  rw [Traced.value_run_bind, Traced.value_run_lift]
  dsimp only
  cases (Registry.build rs).run.value <;> rfl

/-- Installing orders the plugins, registers what they propose and builds the registry. -/
theorem installAll_eq_ok_iff {r : Registry Extension} :
    (installAll ps c).run.value = .ok r ↔
      ∃ ordered, (order ps).run.value = .ok ordered ∧ (∀ p ∈ ordered, p.Installs c) ∧
        (Registry.build (ordered.flatMap (registered · c))).run.value = .ok r := by
  constructor
  · intro h
    obtain ⟨ordered, horder, h⟩ := Traced.exists_of_value_run_bind h
    obtain ⟨rs, hrs, h⟩ := Traced.exists_of_value_run_bind h
    obtain ⟨hinstalls, rfl⟩ := value_registrations.mp hrs
    refine ⟨ordered, horder, hinstalls, ?_⟩
    rw [value_freeze] at h
    split at h
    · next built hbuilt => rw [hbuilt, Except.ok.inj h]
    · cases h
  · rintro ⟨ordered, horder, hinstalls, hbuild⟩
    rw [installAll, Traced.value_run_bind, horder]
    dsimp only
    rw [Traced.value_run_bind, value_registrations.mpr ⟨hinstalls, rfl⟩]
    dsimp only
    rw [value_freeze, hbuild]

/-- What a registry has was proposed by one of the plugins, for just that point. -/
theorem exists_proposal_of_mem_entries {r : Registry Extension}
    (h : (installAll ps c).run.value = .ok r) {point : Text} {e : RegistryEntry Extension}
    (he : e ∈ r.entries point) :
    ∃ p ∈ ps, ∃ proposals, (p.install c).value = .ok proposals ∧ ∃ q ∈ proposals,
      q.point = point ∧ e = (q.register p.name).entry := by
  obtain ⟨ordered, horder, hinstalls, hbuild⟩ := installAll_eq_ok_iff.mp h
  obtain ⟨x, hx, hpoint, rfl⟩ := Registry.exists_registration_of_mem_entries hbuild he
  obtain ⟨p, hp, hx⟩ := List.mem_flatMap.mp hx
  obtain ⟨q, hq, rfl⟩ := List.mem_map.mp hx
  obtain ⟨proposals, hproposals⟩ := hinstalls p hp
  simp only [Plugin.proposals, hproposals] at hq
  exact ⟨p, subset_of_order horder p hp, proposals, hproposals, q, hq, hpoint, rfl⟩

/-- Plugins that could be put in order are not all installed for two reasons only: one of them
cannot be, or what they register is inconsistent. -/
theorem installAll_error_iff {ordered : List Plugin} (horder : (order ps).run.value = .ok ordered)
    (hperm : ordered.Perm ps) :
    (∃ e, (installAll ps c).run.value = .error e) ↔
      (∃ p ∈ ps, ¬ p.Installs c) ∨ Registry.Inconsistent (ordered.flatMap (registered · c)) := by
  have hok : (∃ r, (installAll ps c).run.value = .ok r) ↔
      (∀ p ∈ ps, p.Installs c) ∧ ¬ Registry.Inconsistent (ordered.flatMap (registered · c)) := by
    simp only [installAll_eq_ok_iff, horder, Except.ok.injEq, exists_eq_left', ← hperm.mem_iff]
    constructor
    · rintro ⟨r, hinstalls, hbuild⟩
      refine ⟨hinstalls, fun hbad => ?_⟩
      obtain ⟨e, he⟩ := Registry.value_build_error hbad
      rw [hbuild] at he
      cases he
    · rintro ⟨hinstalls, hgood⟩
      exact ⟨_, hinstalls, Registry.value_build_ok hgood⟩
  constructor
  · rintro ⟨e, he⟩
    by_contra hno
    push Not at hno
    obtain ⟨r, hr⟩ := hok.mpr hno
    rw [he] at hr
    cases hr
  · intro hbad
    cases hvalue : (installAll ps c).run.value with
    | error e => exact ⟨e, rfl⟩
    | ok r =>
        obtain ⟨hinstalls, hconsistent⟩ := hok.mp ⟨r, hvalue⟩
        rcases hbad with ⟨p, hp, hnot⟩ | hinconsistent
        · exact absurd (hinstalls p hp) hnot
        · exact absurd hinconsistent hconsistent

/-! ## Grouping -/

variable {ordered : List Plugin} {r : Registry Extension} {point : Text}

/-- A point without demands of its own has its registrations plugin by plugin. -/
theorem entries_installAll (horder : (order ps).run.value = .ok ordered)
    (h : (installAll ps c).run.value = .ok r)
    (hfree : ∀ p ∈ ps, ∀ x ∈ p.registered c, x.point = point → x.IsFree) :
    r.entries point = ordered.flatMap fun p =>
      ((p.registered c).filter fun x => x.point = point).map Registration.entry := by
  obtain ⟨ordered', horder', -, hbuild⟩ := installAll_eq_ok_iff.mp h
  obtain rfl := Except.ok.inj (horder.symm.trans horder')
  rw [Registry.entries_build_of_free hbuild, List.filter_flatMap, List.map_flatMap]
  intro x hx
  obtain ⟨p, hp, hx⟩ := List.mem_flatMap.mp hx
  exact hfree p (subset_of_order horder p hp) x hx

/-- Plugin by plugin, what one plugin registers stands before what a plugin registers that goes
after it. -/
theorem pairwise_entries_installAll (h : (ps.map (·.name)).Nodup)
    (hordered : IsInstallOrder ps ordered) {p q : Plugin} (hp : p ∈ ps) (hq : q ∈ ps)
    (hpq : p.GoesBefore q) :
    (ordered.flatMap fun p =>
        ((p.registered c).filter fun x => x.point = point).map Registration.entry).Pairwise
      fun x y => ¬ (x.plugin = q.name ∧ y.plugin = p.name) := by
  have hplugin : ∀ a : Plugin, ∀ x ∈ ((a.registered c).filter fun x => x.point = point).map
      Registration.entry, x.plugin = a.name := by
    intro a x hx
    obtain ⟨y, hy, rfl⟩ := List.mem_map.mp hx
    exact plugin_of_mem_registered (List.mem_filter.mp hy).1
  have hinj : ∀ a ∈ ps, ∀ b ∈ ps, a.name = b.name → a = b := by
    intro a ha b hb hab
    exact List.inj_on_of_nodup_map h ha hb hab
  refine List.pairwise_flatMap.mpr ⟨fun a _ => ?_, ?_⟩
  · refine List.pairwise_iff_forall_sublist.mpr ?_
    rintro x y hxy ⟨hx, hy⟩
    have hxa := hplugin a x (hxy.subset (by simp))
    have hya := hplugin a y (hxy.subset (by simp))
    exact hpq.1 (by rw [← hx, ← hy, hxa, hya])
  · refine hordered.meets.imp_of_mem ?_
    rintro a b ha hb hab x hx y hy ⟨hxq, hyp⟩
    obtain rfl := hinj a (hordered.perm.mem_iff.mp ha) q hq ((hplugin a x hx).symm.trans hxq)
    obtain rfl := hinj b (hordered.perm.mem_iff.mp hb) p hp ((hplugin b y hy).symm.trans hyp)
    exact hab hpq

end Plugin

end CrossDoc
