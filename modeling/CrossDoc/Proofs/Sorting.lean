import CrossDoc.Proofs.Precedence

/-!
# Sorting while constraints are added

An order is built up by calls: constraints are added, and at any time the items
are sorted.  A sort goes by the constraints added so far and by nothing else, so
earlier sorts leave no trace in it.  It places all items exactly when those
constraints hold no cycle.  Then it leaves nothing over, and its order is the
lexicographically least of all orders that meet the constraints.
-/

namespace CrossDoc

/-! ## What a placing leaves over -/

namespace Precedence

variable {p : Precedence}

theorem Placing.Sound.extend (proper : p.Proper) : ∀ {steps : Nat} {s : Placing},
    s.Sound p [] → (Placing.extend p.successors steps s).Sound p []
  | 0, _, h => h
  | _ + 1, ⟨_, [], _⟩, h => h
  | _ + 1, ⟨_, _ :: _, _⟩, h => (h.place proper).1.extend proper

theorem sound_placing (proper : p.Proper) : p.placing.Sound p [] :=
  (Placing.Sound.start p).extend proper

theorem mem_placed_placing {i : Nat} : i ∈ p.placing.placed ↔ i ∈ p.order :=
  List.mem_reverse.symm

/-- At the end no item is ready any more. -/
theorem ready_placing (proper : p.Proper) : p.placing.ready = [] := by
  refine List.eq_nil_iff_forall_not_mem.mpr fun i hi => ?_
  have havailable := ((sound_placing proper).mem_ready i).mp hi
  have hstuck := (greedy_order proper).stuck i
  rw [List.append_nil, order, List.reverse_reverse] at hstuck
  exact hstuck havailable

/-- The items left over are those without a place. -/
theorem mem_unresolved (proper : p.Proper) {i : Nat} :
    i ∈ p.unresolved ↔ i < p.size ∧ i ∉ p.order := by
  have hsound := sound_placing proper
  simp only [unresolved, List.mem_filter, List.mem_range, decide_eq_true_eq]
  refine and_congr_right fun hi => ?_
  rw [← mem_placed_placing]
  constructor
  · intro hpositive hplaced
    have hcount := openCount_eq_zero.mpr (hsound.closed i hplaced)
    rw [hsound.pending i hi, hcount, List.count_nil] at hpositive
    exact Nat.lt_irrefl 0 hpositive
  · -- With count zero the item would still be ready.
    intro hfresh
    refine Nat.pos_of_ne_zero fun hzero => ?_
    have hready := (hsound.ready i).mpr ⟨hi, hfresh, hzero⟩
    rw [ready_placing proper] at hready
    exact List.not_mem_nil hready

/-- When all items are placed, none is left over. -/
theorem unresolved_eq_nil (proper : p.Proper) (h : p.isResolved = true) : p.unresolved = [] := by
  refine List.eq_nil_iff_forall_not_mem.mpr fun i hi => ?_
  obtain ⟨hsize, hmissing⟩ := (mem_unresolved proper).mp hi
  exact hmissing ((isOrder_order proper h).perm.mem_iff.mpr (List.mem_range.mpr hsize))

end Precedence

/-! ## Calls -/

/-- A call on an order that is built up. -/
inductive SortCall where
  /-- Demands the first item before the second. -/
  | addEdge (first second : Nat)
  | sort
deriving DecidableEq, Repr

/-- An order that is built up. -/
structure Sorter where
  constraints : Precedence
  /-- The order that the last sort gave, the first item first. -/
  order : List Nat := []
  /-- The items that the last sort left over. -/
  unresolved : List Nat := []

namespace Sorter

def ofSize (n : Nat) : Sorter := { constraints := .ofSize n }

/-- Sorts the items anew and says whether all of them have a place. -/
def sort (s : Sorter) : Bool × Sorter :=
  (s.constraints.isResolved,
    { s with order := s.constraints.order, unresolved := s.constraints.unresolved })

def call (s : Sorter) : SortCall → Sorter
  | .addEdge first second => { s with constraints := s.constraints.addEdge first second }
  | .sort => s.sort.2

/-- What some calls make of `n` items without constraints. -/
def run (n : Nat) (calls : List SortCall) : Sorter := calls.foldl call (ofSize n)

/-- Some call demands `a` before `b`, and these are two different ones of the
`n` items.  Other demands have no effect. -/
def Demands (n : Nat) (calls : List SortCall) (a b : Nat) : Prop :=
  SortCall.addEdge a b ∈ calls ∧ a ≠ b ∧ a < n ∧ b < n

/-- The numbers below `n` in an order in which the first of two related ones
precedes the second. -/
structure IsExtension (n : Nat) (r : Nat → Nat → Prop) (l : List Nat) : Prop where
  perm : l.Perm (List.range n)
  precedes : ∀ a b, r a b → l.idxOf a < l.idxOf b

/-- The lexicographically least one of these orders. -/
structure IsLeastExtension (n : Nat) (r : Nat → Nat → Prop) (l : List Nat) : Prop where
  isExtension : IsExtension n r l
  least : ∀ other, IsExtension n r other → l ≤ other

/-! ## What calls leave behind -/

/-- The constraints are those that the calls demand. -/
structure Reflects (n : Nat) (calls : List SortCall) (s : Sorter) : Prop where
  size : s.constraints.size = n
  proper : s.constraints.Proper
  before : ∀ a b, s.constraints.Before a b ↔ Demands n calls a b

namespace Reflects

variable {n : Nat} {calls : List SortCall} {s : Sorter}

theorem ofSize (n : Nat) : Reflects n [] (Sorter.ofSize n) where
  size := rfl
  proper := Precedence.proper_ofSize n
  before a b := by simp [Sorter.ofSize, Precedence.ofSize, Precedence.Before, Demands]

/-- A demand counts from its call on; a sort changes no constraint. -/
theorem call (h : Reflects n calls s) (c : SortCall) : Reflects n (calls ++ [c]) (s.call c) := by
  cases c with
  | addEdge first second =>
      refine ⟨?_, h.proper.addEdge first second, fun a b => ?_⟩
      · exact (Precedence.size_addEdge _ first second).trans h.size
      · show (s.constraints.addEdge first second).Before a b ↔ _
        rw [Precedence.before_addEdge, h.before, h.size]
        simp only [Demands, List.mem_append, List.mem_singleton, SortCall.addEdge.injEq]
        grind
  | sort =>
      refine ⟨h.size, h.proper, fun a b => ?_⟩
      show s.constraints.Before a b ↔ _
      rw [h.before]
      simp [Demands]

theorem before_eq (h : Reflects n calls s) : s.constraints.Before = Demands n calls := by
  funext a b
  exact propext (h.before a b)

theorem isExtension_iff (h : Reflects n calls s) (l : List Nat) :
    s.constraints.IsOrder l ↔ IsExtension n (Demands n calls) l := by
  constructor
  · intro hl
    exact ⟨h.size ▸ hl.perm, fun a b hab => hl.idxOf_lt h.proper ((h.before a b).mpr hab)⟩
  · rintro ⟨hperm, hprecedes⟩
    have hnodup : l.Nodup := hperm.nodup_iff.mpr List.nodup_range
    refine ⟨h.size.symm ▸ hperm, List.pairwise_iff_getElem.mpr ?_⟩
    intro i j hi hj hij hbefore
    have hlt := hprecedes _ _ ((h.before _ _).mp hbefore)
    rw [hnodup.idxOf_getElem j hj, hnodup.idxOf_getElem i hi] at hlt
    exact Nat.lt_asymm hij hlt

theorem acyclic_iff (h : Reflects n calls s) :
    s.constraints.Acyclic ↔ ∀ a, ¬ Relation.TransGen (Demands n calls) a a := by
  rw [Precedence.Acyclic, h.before_eq]

end Reflects

/-- The constraints after some calls are the demands among them, however often
the items were sorted in between. -/
theorem reflects_run (n : Nat) (calls : List SortCall) : Reflects n calls (run n calls) := by
  induction calls using List.reverseRecOn with
  | nil => exact Reflects.ofSize n
  | append_singleton calls c ih =>
      rw [run, List.foldl_append]
      exact ih.call c

/-- **Sorting gives the least order there is.**  Whatever calls came before it,
other sorts among them, a sort succeeds exactly when the demands so far have no
cycle.  Then it leaves nothing over, and of all orders that meet the demands it
gives the lexicographically least. -/
theorem sort_isLeastExtension (n : Nat) (calls : List SortCall) :
    let demands := Demands n calls
    let sorted := (run n calls).sort
    (sorted.1 = true ↔ ∀ a, ¬ Relation.TransGen demands a a) ∧
      (sorted.1 = true →
        IsLeastExtension n demands sorted.2.order ∧ sorted.2.unresolved = []) := by
  have hrun := reflects_run n calls
  refine ⟨?_, fun hresolved => ⟨⟨?_, fun other hother => ?_⟩, ?_⟩⟩
  · exact (Precedence.isResolved_iff_acyclic hrun.proper).trans hrun.acyclic_iff
  · exact (hrun.isExtension_iff _).mp (Precedence.isOrder_order hrun.proper hresolved)
  · exact Precedence.order_le hrun.proper ((hrun.isExtension_iff other).mpr hother)
  · exact Precedence.unresolved_eq_nil hrun.proper hresolved

/-- Five items; some calls have no effect, one is repeated, and the first sort
comes before the last demand. -/
def sampleCalls : List SortCall :=
  [.addEdge 3 1, .addEdge 2 2, .addEdge 3 1, .sort, .addEdge 7 0, .addEdge 1 0]

theorem sort_isLeastExtension_sampleCalls :
    (run 5 sampleCalls).order = [0, 2, 3, 1, 4] ∧ (run 5 sampleCalls).sort.1 = true ∧
      IsLeastExtension 5 (Demands 5 sampleCalls) [2, 3, 1, 0, 4] := by
  have hresolved : (run 5 sampleCalls).sort.1 = true := by decide +kernel
  have horder : (run 5 sampleCalls).sort.2.order = [2, 3, 1, 0, 4] := by decide +kernel
  obtain ⟨hleast, -⟩ := (sort_isLeastExtension 5 sampleCalls).2 hresolved
  exact ⟨by decide +kernel, hresolved, horder ▸ hleast⟩

end Sorter

end CrossDoc
