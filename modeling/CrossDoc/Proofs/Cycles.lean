import CrossDoc.Proofs.Installation
import CrossDoc.Proofs.Sorting

/-!
# What a cycle is reported to hold up

Where the constraints hold a cycle, a sort leaves over the items that lie on a
cycle or that a way leads to from one, and puts the others in order.  On the
way each count is taken down only while it is positive.  So plugins that demand
each other in a circle, and registrations that do, are reported together with
all that has to wait for them, and with nothing else.
-/

namespace CrossDoc

namespace Precedence

variable {p : Precedence}

/-! ## The items left over -/

open Classical in
theorem unresolved_eq (proper : p.Proper) :
    p.unresolved = (List.range p.size).filter fun i => OnOrBehindCycle p.Before i := by
  have hpending : p.unresolved =
      (List.range p.size).filter fun i => 0 < p.placing.pending.getD i 0 := rfl
  rw [hpending]
  refine List.filter_congr fun i hi => decide_eq_decide.mpr ?_
  have hsize := List.mem_range.mp hi
  have hleft : i ∈ p.unresolved ↔ 0 < p.placing.pending.getD i 0 := by
    simp [hpending, hsize]
  rw [← hleft, mem_unresolved proper, mem_order_iff proper]
  simp [hsize]

theorem lt_size_of_onOrBehindCycle (proper : p.Proper) {i : Nat} (h : OnOrBehindCycle p.Before i) :
    i < p.size := by
  obtain ⟨c, hcycle, hci⟩ := h
  rcases Relation.reflTransGen_iff_eq_or_transGen.mp hci with rfl | hci
  · obtain ⟨b, -, hbi⟩ := Relation.TransGen.tail'_iff.mp hcycle
    exact (proper.inRange b _ hbi).2
  · obtain ⟨b, -, hbi⟩ := Relation.TransGen.tail'_iff.mp hci
    exact (proper.inRange b _ hbi).2

theorem isResolved_iff_unresolved_eq_nil (proper : p.Proper) :
    p.isResolved = true ↔ p.unresolved = [] := by
  refine ⟨unresolved_eq_nil proper, fun hnil => (isResolved_iff_acyclic proper).mpr ?_⟩
  intro a hcycle
  have hbehind : OnOrBehindCycle p.Before a := .of_cycle hcycle
  have ha : a ∈ p.unresolved := by
    rw [mem_unresolved proper, mem_order_iff proper]
    exact ⟨lt_size_of_onOrBehindCycle proper hbehind, fun h => h.2 hbehind⟩
  rw [hnil] at ha
  exact List.not_mem_nil ha

/-! ## The counts -/

namespace Placing

/-- One step of a placing, where the list holds the items whose counts are still
to be taken down.  When it is empty the next item is placed. -/
inductive Step (successors : Array (List Nat)) :
    List Nat × Placing → List Nat × Placing → Prop where
  | place {placed ready : List Nat} {item : Nat} {pending : Array Nat} :
      Step successors ([], ⟨placed, item :: ready, pending⟩)
        (successors.getD item [], ⟨item :: placed, ready, pending⟩)
  | release {item : Nat} {todo : List Nat} {s : Placing} :
      Step successors (item :: todo, s) (todo, s.release item)

variable (successors : Array (List Nat))

theorem steps_release_all : ∀ (todo : List Nat) (s : Placing),
    Relation.ReflTransGen (Step successors) (todo, s) ([], todo.foldl release s)
  | [], _ => .refl
  | _ :: todo, s => (steps_release_all todo (s.release _)).head .release

/-- The placing goes from one step to the next. -/
theorem steps_extend : ∀ (steps : Nat) (s : Placing),
    Relation.ReflTransGen (Step successors) ([], s) ([], extend successors steps s)
  | 0, _ => .refl
  | _ + 1, ⟨_, [], _⟩ => .refl
  | steps + 1, ⟨_, item :: _, _⟩ => by
      have hrelease := steps_release_all successors (successors.getD item [])
      exact ((hrelease _).trans (steps_extend steps _)).head .place

end Placing

/-- The placing passes through a situation, with some counts still to be taken
down. -/
def Passes (p : Precedence) (todo : List Nat) (s : Placing) : Prop :=
  Relation.ReflTransGen (Placing.Step p.successors) ([], p.start) (todo, s)

theorem passes_placing (p : Precedence) : p.Passes [] p.placing :=
  Placing.steps_extend p.successors p.size p.start

/-- A step keeps the counts right. -/
theorem Placing.Step.sound (proper : p.Proper) {x y : List Nat × Placing}
    (h : Placing.Step p.successors x y)
    (hx : x.2.Sound p x.1 ∧ ∀ i ∈ x.1, i < p.size ∧ i ∉ x.2.placed) :
    y.2.Sound p y.1 ∧ ∀ i ∈ y.1, i < p.size ∧ i ∉ y.2.placed := by
  obtain ⟨hsound, htodo⟩ := hx
  cases h with
  | place => exact hsound.take proper
  | @release item todo s =>
      obtain ⟨hsize, hfresh⟩ := htodo item List.mem_cons_self
      exact ⟨hsound.release hsize hfresh, fun i hi => htodo i (List.mem_cons_of_mem item hi)⟩

theorem Passes.sound (proper : p.Proper) {todo : List Nat} {s : Placing} (h : p.Passes todo s) :
    s.Sound p todo ∧ ∀ i ∈ todo, i < p.size ∧ i ∉ s.placed := by
  have hsteps : ∀ {x : List Nat × Placing},
      Relation.ReflTransGen (Placing.Step p.successors) ([], p.start) x →
        x.2.Sound p x.1 ∧ ∀ i ∈ x.1, i < p.size ∧ i ∉ x.2.placed := by
    intro x hx
    induction hx with
    | refl => exact ⟨Placing.Sound.start p, fun i hi => absurd hi List.not_mem_nil⟩
    | tail _ hstep ih => exact hstep.sound proper ih
  exact hsteps h

/-- No count is taken down when it is zero. -/
theorem Passes.pending_pos (proper : p.Proper) {item : Nat} {todo : List Nat} {s : Placing}
    (h : p.Passes (item :: todo) s) : 0 < s.pending.getD item 0 := by
  obtain ⟨hsound, htodo⟩ := h.sound proper
  exact hsound.pending_pos (htodo item List.mem_cons_self).1

/-- Some of the positions of a list, where elements tell which. -/
theorem filterMap_getElem?_filter_range {α : Type} {l : List α} {atPosition : Nat → Prop}
    {onElement : α → Prop} [DecidablePred atPosition] [DecidablePred onElement]
    (h : ∀ i a, l[i]? = some a → (atPosition i ↔ onElement a)) :
    ((List.range l.length).filter atPosition).filterMap (fun i => l[i]?) =
      l.filter onElement := by
  have hpick : ((List.range l.length).filter atPosition).filterMap (fun i => l[i]?) =
      ((List.range l.length).filterMap fun i => l[i]?).filter onElement := by
    rw [List.filter_filterMap, List.filterMap_filter]
    refine List.filterMap_congr fun i _ => ?_
    cases hi : l[i]? with
    | none => simp
    | some a => simp [h i a hi, Option.filter_some]
  rw [hpick, filterMap_getElem?_range]

end Precedence

/-! ## Plugins -/

namespace Plugin

open Classical in
/-- The plugins on or behind a cycle, in the given order. -/
noncomputable def held (ps : List Plugin) : List Plugin :=
  ps.filter fun p => OnOrBehindCycle (Precedes ps) p

variable {ps : List Plugin}

theorem names_unresolved (h : (ps.map (·.name)).Nodup) :
    ((precedence ps).unresolved.filterMap fun i => ps[i]?.map (·.name)) =
      (held ps).map (·.name) := by
  classical
  have hheld : ((List.range ps.length).filter fun i =>
      OnOrBehindCycle (precedence ps).Before i).filterMap (fun i => ps[i]?) = held ps :=
    Precedence.filterMap_getElem?_filter_range fun i p hp => onOrBehindCycle_position_iff h hp
  rw [← List.map_filterMap, Precedence.unresolved_eq (proper_precedence ps), size_precedence]
  exact congrArg (List.map (·.name)) hheld

/-- Plugins of different names are refused when some demand each other in a
circle; the error names those and all that have to come after them. -/
theorem order_eq_cycle_iff {names : List Text} :
    (order ps).run.value = .error (.cycle names) ↔
      (ps.map (·.name)).Nodup ∧ HasCycle ps ∧ names = (held ps).map (·.name) := by
  have hnodup : repeatedName? [] ps = none ↔ (ps.map (·.name)).Nodup := by
    simp [repeatedName?_eq_none_iff]
  rw [← hnodup]
  unfold order
  cases hrepeated : repeatedName? [] ps with
  | some name =>
      constructor
      · intro h
        cases h
      · rintro ⟨h, -⟩
        cases h
  | none =>
      have h := hnodup.mp hrepeated
      have hresolved := isResolved_precedence_iff h
      rw [← names_unresolved h]
      simp only [Traced.value_run_bind, Traced.value_run_lift, true_and]
      by_cases hcycle : HasCycle ps
      · rw [if_neg fun hr => hresolved.mp hr hcycle]
        simp only [hcycle, true_and]
        constructor
        · intro herror
          cases herror
          rfl
        · rintro rfl
          rfl
      · rw [if_pos (hresolved.mpr hcycle)]
        simp only [hcycle, false_and, iff_false]
        intro herror
        cases herror

end Plugin

/-! ## Registrations -/

namespace Registration

variable {α : Type}

open Classical in
/-- The registrations on or behind a cycle, in order of registration. -/
noncomputable def held (kept : List (Registration α)) : List (Registration α) :=
  pick kept ((List.range kept.length).filter fun i => OnOrBehindCycle (Precedes kept) i)

theorem pick_unresolved (kept : List (Registration α)) :
    pick kept (precedence kept).unresolved = held kept := by
  have hbefore : (precedence kept).Before = Precedes kept := by
    funext i j
    exact propext (before_precedence kept i j)
  rw [Precedence.unresolved_eq (proper_precedence kept), size_precedence, hbefore]
  rfl

theorem cycleOf_eq (rs : List (Registration α)) (point : Text) :
    cycleOf rs point = .cycle point ((held (surviving rs point)).map (·.id)) := by
  rw [cycleOf, pick_unresolved]

theorem clash?_ne_cycle {earlier : List (Registration α)} {r : Registration α} {point : Text}
    {ids : List Text} : clash? earlier r ≠ some (.cycle point ids) := by
  unfold clash?
  split
  · exact nofun
  · split_ifs <;> exact nofun

theorem firstClash?_ne_cycle {point : Text} {ids : List Text} :
    ∀ {rs earlier : List (Registration α)}, firstClash? earlier rs ≠ some (.cycle point ids)
  | [], _ => nofun
  | r :: rest, earlier => by
      rw [firstClash?]
      split
      · next e he =>
        intro hcycle
        exact clash?_ne_cycle (he.trans hcycle)
      · exact firstClash?_ne_cycle

end Registration

namespace Registry

open Registration

variable {α : Type} {rs : List (Registration α)}

open Classical in
/-- A registry is refused for a cycle when its registrations agree; the error is
about the first point with a cycle and names those of its registrations that
are on or behind one. -/
theorem build_eq_cycle_iff {point : Text} {ids : List Text} :
    (build rs).run.value = .error (.cycle point ids) ↔
      Consistent rs ∧
        (Registration.pointNames rs).find? (fun p => HasCycle (surviving rs p)) = some point ∧
          ids = (held (surviving rs point)).map (·.id) := by
  have hconsistent : firstClash? [] rs = none ↔ Consistent rs :=
    firstClash?_eq_none_iff List.Pairwise.nil
  cases hclash : firstClash? [] rs with
  | some e =>
      have hvalue : (build rs).run.value = .error e := by
        simp only [build, hclash]
        rfl
      rw [hvalue, ← hconsistent, hclash]
      constructor
      · intro h
        cases h
        exact absurd hclash firstClash?_ne_cycle
      · rintro ⟨h, -⟩
        cases h
  | none =>
      have hagree := hconsistent.mp hclash
      rw [value_build hagree]
      cases (Registration.pointNames rs).find? fun p => HasCycle (surviving rs p) with
      | none => simp
      | some p =>
          simp only [cycleOf_eq, hagree, true_and, Option.some.injEq, Except.error.injEq,
            RegistryError.cycle.injEq]
          constructor
          · rintro ⟨rfl, rfl⟩
            exact ⟨rfl, rfl⟩
          · rintro ⟨rfl, rfl⟩
            exact ⟨rfl, rfl⟩

end Registry

/-! ## The reports -/

namespace Sorter

/-- What a sort says about a cycle: which items have no place, and in which
order the others come. -/
structure IsCycleReport (n : Nat) (r : Nat → Nat → Prop) (order unresolved : List Nat) :
    Prop where
  ascending : unresolved.Pairwise (· < ·)
  mem_unresolved : ∀ i, i ∈ unresolved ↔ OnOrBehindCycle r i
  nodup : order.Nodup
  mem_order : ∀ i, i ∈ order ↔ i < n ∧ ¬ OnOrBehindCycle r i
  /-- What precedes an item with a place has a place too, and comes first. -/
  precedes : ∀ a b, r a b → b ∈ order → a ∈ order ∧ order.idxOf a < order.idxOf b

theorem Reflects.isCycleReport {n : Nat} {calls : List SortCall} {s : Sorter}
    (h : Reflects n calls s) :
    IsCycleReport n (Demands n calls) s.constraints.order s.constraints.unresolved := by
  have hproper := h.proper
  rw [← h.before_eq, ← h.size]
  refine ⟨List.pairwise_lt_range.filter _, fun i => ?_, (Precedence.greedy_order hproper).nodup,
    fun i => Precedence.mem_order_iff hproper, fun a b hab hb => ?_⟩
  · rw [Precedence.mem_unresolved hproper, Precedence.mem_order_iff hproper]
    constructor
    · rintro ⟨hsize, hmissing⟩
      by_contra hclear
      exact hmissing ⟨hsize, hclear⟩
    · intro hbehind
      exact ⟨Precedence.lt_size_of_onOrBehindCycle hproper hbehind, fun hi => hi.2 hbehind⟩
  · exact Precedence.idxOf_lt_of_transGen hproper hb (.single hab)

open Classical in
/-- **A cycle is reported with all that it holds up, and with nothing else.**  A
sort leaves over the items on or behind a cycle of the demands and puts the
others in order; it fails when something is left over.  Each time a count is
taken down it is positive.  The error about plugins names those on or behind a
cycle, and so does the error about the registrations of a point. -/
theorem reports_onOrBehindCycle :
    (∀ n calls,
      let sorted := (run n calls).sort
      (sorted.1 = false ↔ sorted.2.unresolved ≠ []) ∧
        IsCycleReport n (Demands n calls) sorted.2.order sorted.2.unresolved) ∧
    (∀ n calls,
      let p := (run n calls).constraints
      (p.Passes [] p.placing ∧ p.placing.ready = []) ∧
        ∀ item todo s, p.Passes (item :: todo) s → 0 < s.pending.getD item 0) ∧
    (∀ (ps : List Plugin) (names : List Text),
      ((Plugin.order ps).run.value = .error (.cycle names) ↔
        (ps.map (·.name)).Nodup ∧ Plugin.HasCycle ps ∧
          names = (Plugin.held ps).map (·.name)) ∧
      (PluginError.cycle names).message =
        "plugin dependency cycle between " ++ Text.joinFilled ", " names) ∧
    ∀ (α : Type) (rs : List (Registration α)) (point : Text) (ids : List Text),
      ((Registry.build rs).run.value = .error (.cycle point ids) ↔
        Registration.Consistent rs ∧
          ((Registration.pointNames rs).find? fun p =>
            Registration.HasCycle (Registration.surviving rs p)) = some point ∧
          ids = (Registration.held (Registration.surviving rs point)).map (·.id)) ∧
      (RegistryError.cycle point ids).message =
        "ordering cycle on extension point '" ++ point ++ "' between " ++
          Text.joinFilled ", " ids := by
  refine ⟨fun n calls => ⟨?_, (reflects_run n calls).isCycleReport⟩, fun n calls => ?_,
    fun ps names => ⟨Plugin.order_eq_cycle_iff, rfl⟩,
    fun α rs point ids => ⟨Registry.build_eq_cycle_iff, rfl⟩⟩
  · have hresolved :=
      Precedence.isResolved_iff_unresolved_eq_nil (reflects_run n calls).proper
    rw [Ne, ← Bool.not_eq_true]
    exact not_congr hresolved
  · have hproper := (reflects_run n calls).proper
    exact ⟨⟨Precedence.passes_placing _, Precedence.ready_placing hproper⟩,
      fun item todo s hpasses => hpasses.pending_pos hproper⟩

/-- Two cycles, with one item behind the first of them and two items off both. -/
def cyclicCalls : List SortCall :=
  [.addEdge 1 2, .addEdge 2 1, .addEdge 2 3, .addEdge 5 4, .addEdge 4 5, .addEdge 6 0]

theorem reports_onOrBehindCycle_cyclicCalls :
    (run 7 cyclicCalls).sort.1 = false ∧
      IsCycleReport 7 (Demands 7 cyclicCalls) [6, 0] [1, 2, 3, 4, 5] ∧
      ∃ s, (run 7 cyclicCalls).constraints.Passes [0] s ∧ 0 < s.pending.getD 0 0 := by
  have horder : (run 7 cyclicCalls).sort.2.order = [6, 0] := by decide +kernel
  have hunresolved : (run 7 cyclicCalls).sort.2.unresolved = [1, 2, 3, 4, 5] := by
    decide +kernel
  obtain ⟨hsort, hcounts, -⟩ := reports_onOrBehindCycle
  obtain ⟨hfails, hreport⟩ := hsort 7 cyclicCalls
  have hstart : (run 7 cyclicCalls).constraints.start =
      ⟨[], [6], #[1, 1, 1, 1, 1, 1, 0]⟩ := by decide +kernel
  have hheld : (run 7 cyclicCalls).constraints.successors.getD 6 [] = [0] := by decide +kernel
  have hpasses : (run 7 cyclicCalls).constraints.Passes [0]
      ⟨[6], [], #[1, 1, 1, 1, 1, 1, 0]⟩ := by
    rw [Precedence.Passes, hstart, ← hheld]
    exact .single .place
  rw [horder, hunresolved] at hreport
  refine ⟨hfails.mpr (by simp [hunresolved]), hreport, _, hpasses, ?_⟩
  exact (hcounts 7 cyclicCalls).2 0 [] _ hpasses

end Sorter

end CrossDoc
