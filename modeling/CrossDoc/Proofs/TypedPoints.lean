import CrossDoc.Proofs.Installation
import CrossDoc.Run.Generator

/-!
# The types of a run's points

A plugin can register anything under the name of a point of a run, also an
implementation of another type.  A run asks for its single points while it
installs the plugins, and for a chain when it comes to its stage.  What it asks
for then is there with its type, or the run breaks off without a call; a single
point that is not filled exactly once is an error of the configuration.
-/

namespace CrossDoc

namespace Registry

variable {α : Type} {r : Registry α} {point type : Text}

theorem resolveAll_eq_ok (h : ∀ e ∈ r.entries point, e.type = type) :
    r.resolveAll point type = .ok ((r.entries point).map (·.impl)) := by
  unfold resolveAll
  generalize r.entries point = es at h ⊢
  induction es with
  | nil => rfl
  | cons e rest ih =>
      obtain ⟨he, hrest⟩ := List.forall_mem_cons.mp h
      rw [List.mapM_cons, ih hrest, RegistryEntry.cast, if_pos he]
      rfl

theorem resolveAll_eq_badCast (h : ∃ e ∈ r.entries point, e.type ≠ type) :
    r.resolveAll point type = .error badCast := by
  unfold resolveAll
  generalize r.entries point = es at h ⊢
  induction es with
  | nil =>
      obtain ⟨e, he, -⟩ := h
      cases he
  | cons e rest ih =>
      rw [List.mapM_cons, RegistryEntry.cast]
      by_cases he : e.type = type
      · rw [if_pos he, ih (by simpa [he] using h)]
        rfl
      · rw [if_neg he]
        rfl

/-- Some implementation of the point is of another type. -/
def Mistypes (r : Registry Extension) (p : Point) : Prop :=
  ∃ e ∈ r.entries p.name, e.type ≠ p.type

end Registry

namespace Plugin

variable {ps : List Plugin} {c : Config} {r : Registry Extension}

/-- An entry has the type of its implementation. -/
theorem type_of_mem_entries (h : (installAll ps c).run.value = .ok r) {point : Text}
    {e : RegistryEntry Extension} (he : e ∈ r.entries point) : e.type = e.impl.type := by
  obtain ⟨-, -, -, -, q, -, -, rfl⟩ := exists_proposal_of_mem_entries h he
  rfl

/-- What the plugin proposes for a point of a run is of the type of that point. -/
def IsTyped (p : Plugin) : Prop :=
  ∀ c proposals, (p.install c).value = .ok proposals → ∀ q ∈ proposals,
    ∃ (point : Point) (name : Text) (run : point.Interface), q = point.propose name run

/-- Plugins that keep to the types of the points mistype none of them. -/
theorem not_mistypes_of_isTyped (h : (installAll ps c).run.value = .ok r)
    (hps : ∀ p ∈ ps, p.IsTyped) (point : Point) : ¬ r.Mistypes point := by
  rintro ⟨e, he, htype⟩
  obtain ⟨p, hp, proposals, hproposals, q, hq, hpoint, rfl⟩ := exists_proposal_of_mem_entries h he
  obtain ⟨point', name, run, rfl⟩ := hps p hp c proposals hproposals q hq
  obtain rfl := Point.name_inj hpoint
  exact htype rfl

theorem isTyped_builtin : ∀ p ∈ builtin, p.IsTyped := by
  simp only [builtin, List.forall_mem_cons, List.not_mem_nil, false_implies, implies_true, and_true]
  refine ⟨fun c proposals h => ?_, fun c proposals h q hq => ?_, fun c proposals h q hq => ?_⟩
  · cases h
    simp only [List.forall_mem_cons, List.not_mem_nil, false_implies, implies_true, and_true]
    exact ⟨⟨_, _, _, rfl⟩, ⟨_, _, _, rfl⟩, ⟨_, _, _, rfl⟩, ⟨_, _, _, rfl⟩⟩
  · cases h
    rcases List.mem_append.mp hq with hq | hq
    · obtain ⟨t, -, rfl⟩ := List.mem_map.mp hq
      exact ⟨_, _, _, rfl⟩
    · obtain ⟨t, -, rfl⟩ := List.mem_map.mp hq
      exact ⟨_, _, _, rfl⟩
  · unfold markdown at h
    dsimp only at h
    split at h
    · cases h
      obtain rfl := List.mem_singleton.mp hq
      exact ⟨_, _, _, rfl⟩
    · cases h
      cases hq

end Plugin

namespace Point

theorem cardinality_of_mem_singles {p : Point} (h : p ∈ singles) : p.cardinality = .single := by
  revert p
  decide

end Point

namespace Generator

variable {g : Generator} {r : Registry Extension} {p : Point}

/-- Some implementation that the plugins of the run have for the point is of another type. -/
def Mistypes (g : Generator) (p : Point) : Prop :=
  ∃ r, (Plugin.installAll g.plugins g.config).run.value = .ok r ∧ r.Mistypes p

/-- The plugins of the run fill some single point once, but with another type. -/
def Misfills (g : Generator) : Prop :=
  ∃ r, (Plugin.installAll g.plugins g.config).run.value = .ok r ∧
    ∃ p ∈ Point.singles, ∃ e, r.entries p.name = [e] ∧ e.type ≠ p.type

/-- The registry is that of the run, and every single point is filled with its type. -/
structure IsReady (g : Generator) (r : Registry Extension) : Prop where
  installed : (Plugin.installAll g.plugins g.config).run.value = .ok r
  filled : ∀ p ∈ Point.singles, ∃ e, r.entries p.name = [e] ∧ e.type = p.type

theorem IsReady.mistypes_iff (h : g.IsReady r) : g.Mistypes p ↔ r.Mistypes p := by
  constructor
  · rintro ⟨r', hinstalled, hmistypes⟩
    obtain rfl := Except.ok.inj (h.installed.symm.trans hinstalled)
    exact hmistypes
  · exact fun hmistypes => ⟨r, h.installed, hmistypes⟩

theorem IsReady.not_mistypes (h : g.IsReady r) (hp : p ∈ Point.singles) : ¬ g.Mistypes p := by
  rw [h.mistypes_iff]
  rintro ⟨e, he, htype⟩
  obtain ⟨e', he', htype'⟩ := h.filled p hp
  rw [he', List.mem_singleton] at he
  exact htype (he ▸ htype')

/-! ## Asking for single points -/

/-- A single point is filled with its type, filled with another one, or not filled once. -/
theorem resolveSingle_cases (hp : p.cardinality = .single) :
    (∃ e, r.entries p.name = [e] ∧ e.type = p.type ∧
        r.resolveSingle p.name p.cardinality p.type = .ok e.impl) ∨
      (∃ e, r.entries p.name = [e] ∧ e.type ≠ p.type ∧
        r.resolveSingle p.name p.cardinality p.type = .error badCast) ∨
      ((r.entries p.name).length ≠ 1 ∧ ∃ f : Failure, f.kind = .configuration ∧
        r.resolveSingle p.name p.cardinality p.type = .error (.failed f)) := by
  rw [Registry.resolveSingle, if_neg (by simp [hp])]
  split
  · next e he =>
    unfold RegistryEntry.cast
    by_cases htype : e.type = p.type
    · exact Or.inl ⟨e, he, htype, if_pos htype⟩
    · exact Or.inr (Or.inl ⟨e, he, htype, if_neg htype⟩)
  · next hmany =>
    refine Or.inr (Or.inr ⟨fun hone => ?_, _, rfl, rfl⟩)
    obtain ⟨e, he⟩ := List.length_eq_one_iff.mp hone
    exact hmany e he

/-- The check of single points breaks off at one that is filled with another type. -/
theorem unfilled_eq_badCast : ∀ {ps : List Point}, (∀ p ∈ ps, p.cardinality = .single) →
    (∃ p ∈ ps, ∃ e, r.entries p.name = [e] ∧ e.type ≠ p.type) → unfilled r ps = .error badCast
  | [], _, h => by simp at h
  | p :: rest, hps, h => by
      obtain ⟨hp, hrest⟩ := List.forall_mem_cons.mp hps
      rw [List.exists_mem_cons_iff] at h
      unfold unfilled
      rcases resolveSingle_cases (r := r) hp with ⟨e, he, htype, hvalue⟩ | ⟨e, -, -, hvalue⟩ |
        ⟨hmany, f, -, hvalue⟩
      · have htail := h.resolve_left fun ⟨e', he', hne⟩ =>
          hne (List.singleton_inj.mp (he.symm.trans he') ▸ htype)
        rw [hvalue]
        exact unfilled_eq_badCast hrest htail
      · rw [hvalue]
        rfl
      · have htail := h.resolve_left fun ⟨e', he', _⟩ => hmany (by rw [he', List.length_singleton])
        rw [hvalue]
        dsimp only
        rw [unfilled_eq_badCast hrest htail]
        rfl

/-- Where none is, it tells of all single points that are not filled once. -/
theorem exists_unfilled : ∀ {ps : List Point}, (∀ p ∈ ps, p.cardinality = .single) →
    (∀ p ∈ ps, ∀ e, r.entries p.name = [e] → e.type = p.type) →
      ∃ fs, unfilled r ps = .ok fs ∧ (∀ f ∈ fs, f.kind = .configuration) ∧
        (fs = [] ↔ ∀ p ∈ ps, (r.entries p.name).length = 1)
  | [], _, _ => ⟨[], rfl, by simp, by simp⟩
  | p :: rest, hps, htypes => by
      obtain ⟨hp, hrest⟩ := List.forall_mem_cons.mp hps
      obtain ⟨htyped, htypes⟩ := List.forall_mem_cons.mp htypes
      obtain ⟨fs, hfs, hkinds, hnil⟩ := exists_unfilled hrest htypes
      unfold unfilled
      rcases resolveSingle_cases (r := r) hp with ⟨e, he, -, hvalue⟩ | ⟨e, he, htype, -⟩ |
        ⟨hmany, f, hkind, hvalue⟩
      · refine ⟨fs, by rw [hvalue]; exact hfs, hkinds, ?_⟩
        rw [hnil, List.forall_mem_cons, he]
        simp
      · exact absurd (htyped e he) htype
      · refine ⟨f :: fs, by rw [hvalue]; dsimp only; rw [hfs]; rfl,
          List.forall_mem_cons.mpr ⟨hkind, hkinds⟩, ?_⟩
        simp [hmany]

/-- The registry of a run is that of its plugins, if their check finds nothing. -/
theorem value_installPlugins (g : Generator) :
    g.installPlugins.run.value =
      match (Plugin.installAll g.plugins g.config).run.value with
      | .error e => .error (.failed e.toFailure)
      | .ok r =>
          match unfilled r Point.singles with
          | .error fault => .error fault
          | .ok (f :: _) => .error (.failed f)
          | .ok [] => .ok r := by
  unfold installPlugins
  rw [Traced.value_run_bind, Traced.value_run_lift]
  dsimp only
  cases (Plugin.installAll g.plugins g.config).run.value with
  | error e => rfl
  | ok r =>
      dsimp only
      rw [Traced.value_run_bind, Traced.value_run_forM_lift]
      dsimp only
      cases unfilled r Point.singles with
      | error fault => rfl
      | ok fs => cases fs <;> rfl

/-- The plugins of a run give a checked registry; or one of them fills a single point with another
type, and the run breaks off; or the configuration cannot be run. -/
theorem installPlugins_cases (g : Generator) :
    (∃ r, g.installPlugins.run.value = .ok r ∧ g.IsReady r) ∨
      (g.Misfills ∧ g.installPlugins.run.value = .error badCast) ∨
      (¬ g.Misfills ∧ ∃ f : Failure, f.kind = .configuration ∧
        g.installPlugins.run.value = .error (.failed f)) := by
  have hsingles : ∀ p ∈ Point.singles, p.cardinality = .single :=
    fun p => Point.cardinality_of_mem_singles
  rw [value_installPlugins]
  cases hinstalled : (Plugin.installAll g.plugins g.config).run.value with
  | error e =>
      refine Or.inr (Or.inr ⟨?_, _, rfl, rfl⟩)
      rintro ⟨r, hr, -⟩
      rw [hinstalled] at hr
      cases hr
  | ok r =>
      dsimp only
      by_cases hmisfilled : ∃ p ∈ Point.singles, ∃ e, r.entries p.name = [e] ∧ e.type ≠ p.type
      · rw [unfilled_eq_badCast hsingles hmisfilled]
        exact Or.inr (Or.inl ⟨⟨r, hinstalled, hmisfilled⟩, rfl⟩)
      · have htypes : ∀ p ∈ Point.singles, ∀ e, r.entries p.name = [e] → e.type = p.type := by
          intro p hp e he
          by_contra htype
          exact hmisfilled ⟨p, hp, e, he, htype⟩
        obtain ⟨fs, hfs, hkinds, hnil⟩ := exists_unfilled hsingles htypes
        rw [hfs]
        cases fs with
        | nil =>
            refine Or.inl ⟨r, rfl, hinstalled, fun p hp => ?_⟩
            obtain ⟨e, he⟩ := List.length_eq_one_iff.mp (hnil.mp rfl p hp)
            exact ⟨e, he, htypes p hp e he⟩
        | cons f fs =>
            refine Or.inr (Or.inr ⟨?_, f, hkinds f List.mem_cons_self, rfl⟩)
            rintro ⟨r', hr', hmisfilled'⟩
            obtain rfl := Except.ok.inj (hinstalled.symm.trans hr')
            exact hmisfilled hmisfilled'

theorem isReady_of_installPlugins (h : g.installPlugins.run.value = .ok r) : g.IsReady r := by
  rcases g.installPlugins_cases with ⟨r', hr', hready⟩ | ⟨-, hvalue⟩ | ⟨-, f, -, hvalue⟩
  · obtain rfl := Except.ok.inj (h.symm.trans hr')
    exact hready
  · rw [h] at hvalue
    cases hvalue
  · rw [h] at hvalue
    cases hvalue

/-! ## Implementations -/

theorem run_liftExcept {α : Type} (x : Except Fault α) :
    (liftExcept x : StageM α).run = pure x := by
  cases x <;> rfl

/-- A checked registry has the implementation of a single point. -/
theorem IsReady.exists_single (h : g.IsReady r) (hp : p ∈ Point.singles) :
    ∃ run, (single r p).run = pure (.ok run) ∧ ∃ e ∈ r.entries p.name, e.impl = .of p run := by
  obtain ⟨e, he, htype⟩ := h.filled p hp
  have hmem : e ∈ r.entries p.name := he ▸ List.mem_singleton_self e
  obtain ⟨run, himpl⟩ := Extension.exists_of_type
    ((Plugin.type_of_mem_entries h.installed hmem).symm.trans htype)
  have hresolved : r.resolveSingle p.name p.cardinality p.type = .ok e.impl := by
    rw [Point.cardinality_of_mem_singles hp]
    exact Registry.resolveSingle_eq_ok_iff.mpr ⟨e, he, htype, rfl⟩
  refine ⟨run, ?_, e, hmem, himpl⟩
  rw [single, run_liftExcept, hresolved, himpl]
  exact congrArg pure (Extension.cast_of p run)

theorem mapM_cast (runs : List p.Interface) :
    (runs.map (Extension.of p)).mapM (·.cast p) = .ok runs := by
  induction runs with
  | nil => rfl
  | cons run rest ih =>
      rw [List.map_cons, List.mapM_cons, Extension.cast_of, ih]
      rfl

/-- A chain whose implementations are all of its type is all of them, in order. -/
theorem exists_chain {ps : List Plugin} {c : Config}
    (hinstalled : (Plugin.installAll ps c).run.value = .ok r) (h : ¬ r.Mistypes p) :
    ∃ ts, (chain r p).run = pure (.ok ts) ∧
      ts.map (fun t => (t.1, Extension.of p t.2)) =
        (r.entries p.name).map fun e => (e.id, e.impl) := by
  have htypes : ∀ e ∈ r.entries p.name, e.type = p.type := by
    intro e he
    by_contra htype
    exact h ⟨e, he, htype⟩
  obtain ⟨runs, hruns⟩ :
      (r.entries p.name).map (·.impl) ∈ Set.range (List.map (Extension.of p)) := by
    rw [Set.range_list_map, Set.mem_ofPred_eq, List.forall_mem_map]
    intro e he
    obtain ⟨run, himpl⟩ := Extension.exists_of_type
      ((Plugin.type_of_mem_entries hinstalled he).symm.trans (htypes e he))
    exact ⟨run, himpl.symm⟩
  refine ⟨(r.ids p.name).zip runs, ?_, ?_⟩
  · rw [chain, run_liftExcept, Registry.resolveAll_eq_ok htypes, ← hruns]
    simp only [bind, Except.bind, mapM_cast]
    rfl
  · have hpairs : (r.entries p.name).map (fun e => (e.id, e.impl)) =
        (r.ids p.name).zip (runs.map (Extension.of p)) := by
      rw [hruns]
      exact List.zip_map'.symm
    rw [hpairs, List.zip_map_right]
    rfl

/-- A chain with an implementation of another type breaks off. -/
theorem chain_of_mistypes (h : r.Mistypes p) : (chain r p).run = pure (.error badCast) := by
  rw [chain, run_liftExcept, Registry.resolveAll_eq_badCast h]
  rfl

end Generator

end CrossDoc
