import CrossDoc.Precedence
import Mathlib.Data.Fintype.Card
import Mathlib.Data.Fintype.EquivFin
import Mathlib.Data.List.Lex
import Mathlib.Logic.Relation

/-!
# The order that the placing gives

An item is *available* when all that has to stand before it is placed.  The
counts of the placing say how many constraints hold an item back, so the ready
items are the available ones, and the placing takes the smallest of them: it is
*greedy*.  A greedy run that places everything gives the lexicographically
least of all orders that meet the constraints, and it places everything exactly
when the constraints hold no cycle.
-/

namespace CrossDoc

/-- The item lies on a cycle of the relation, or a way leads from a cycle to
it. -/
def OnOrBehindCycle {α : Type} (r : α → α → Prop) (i : α) : Prop :=
  ∃ c, Relation.TransGen r c c ∧ Relation.ReflTransGen r c i

theorem OnOrBehindCycle.next {α : Type} {r : α → α → Prop} {a b : α}
    (h : OnOrBehindCycle r a) (hab : r a b) : OnOrBehindCycle r b := by
  obtain ⟨c, hcycle, hca⟩ := h
  exact ⟨c, hcycle, hca.tail hab⟩

theorem OnOrBehindCycle.of_cycle {α : Type} {r : α → α → Prop} {c : α}
    (h : Relation.TransGen r c c) : OnOrBehindCycle r c := ⟨c, h, .refl⟩

/-- Where one relation can be followed back like another one, what is on or
behind a cycle of the first is so for the second. -/
theorem OnOrBehindCycle.transport {α β : Type} {r : α → α → Prop} {s : β → β → Prop}
    (same : α → β → Prop) (back : ∀ {a a' b'}, same a' b' → r a a' → ∃ b, same a b ∧ s b b')
    (unique : ∀ {a b b'}, same a b → same a b' → b = b') {a : α} {b : β} (hab : same a b)
    (h : OnOrBehindCycle r a) : OnOrBehindCycle s b := by
  have hback : ∀ {a a' b'}, Relation.TransGen r a a' → same a' b' →
      ∃ b, same a b ∧ Relation.TransGen s b b' := by
    intro a a' b' hr hsame
    -- Only the end of the way is known to correspond, so it is followed from there.
    induction hr using Relation.TransGen.head_induction_on with
    | single hr =>
        obtain ⟨b, hb, hs⟩ := back hsame hr
        exact ⟨b, hb, .single hs⟩
    | head hr _ ih =>
        obtain ⟨c, hc, hs⟩ := ih
        obtain ⟨b, hb, hs'⟩ := back hc hr
        exact ⟨b, hb, hs.head hs'⟩
  obtain ⟨c, hcycle, hca⟩ := h
  obtain ⟨d, hcd, hdb⟩ : ∃ d, same c d ∧ Relation.ReflTransGen s d b := by
    rcases Relation.reflTransGen_iff_eq_or_transGen.mp hca with rfl | hca
    · exact ⟨b, hab, .refl⟩
    · obtain ⟨d, hcd, hdb⟩ := hback hca hab
      exact ⟨d, hcd, hdb.to_reflTransGen⟩
  obtain ⟨d', hcd', hcycle'⟩ := hback hcycle hcd
  -- The cycle leads back to something that corresponds to `c` as well, so to `d`.
  exact ⟨d, unique hcd' hcd ▸ hcycle', hdb⟩

namespace Precedence

/-- The constraints demand `a` before `b`. -/
def Before (p : Precedence) (a b : Nat) : Prop := (a, b) ∈ p.edges

/-- Constraints are between different items in range. -/
structure Proper (p : Precedence) : Prop where
  inRange : ∀ a b, p.Before a b → a < p.size ∧ b < p.size
  irrefl : ∀ a, ¬ p.Before a a

def Acyclic (p : Precedence) : Prop := ∀ a, ¬ Relation.TransGen p.Before a a

/-- All items, each once, none of them behind one that it has to stand
before. -/
structure IsOrder (p : Precedence) (l : List Nat) : Prop where
  perm : l.Perm (List.range p.size)
  meets : l.Pairwise fun a b => ¬ p.Before b a

theorem proper_ofSize (n : Nat) : (ofSize n).Proper := by
  constructor <;> simp [Before, ofSize]

theorem before_addEdge {p : Precedence} {first second a b : Nat} :
    (p.addEdge first second).Before a b ↔
      p.Before a b ∨
        (a = first ∧ b = second ∧ first ≠ second ∧ first < p.size ∧ second < p.size) := by
  unfold addEdge Before
  split
  · next h => grind
  · next h =>
    simp only [List.mem_cons, Prod.mk.injEq]
    grind

theorem size_addEdge (p : Precedence) (first second : Nat) :
    (p.addEdge first second).size = p.size := by
  unfold addEdge
  split <;> rfl

theorem Proper.addEdge {p : Precedence} (h : p.Proper) (first second : Nat) :
    (p.addEdge first second).Proper := by
  constructor
  · intro a b hab
    rw [size_addEdge]
    rcases before_addEdge.mp hab with hab | ⟨rfl, rfl, -, ha, hb⟩
    · exact h.inRange a b hab
    · exact ⟨ha, hb⟩
  · intro a haa
    rcases before_addEdge.mp haa with haa | ⟨rfl, hs, hne, -, -⟩
    · exact h.irrefl a haa
    · exact hne hs

/-! ### Many constraints -/

section Edges

variable {p : Precedence} (es : List (Nat × Nat))

theorem size_foldl_addEdge (p : Precedence) :
    (es.foldl (fun p e => p.addEdge e.1 e.2) p).size = p.size := by
  induction es generalizing p with
  | nil => rfl
  | cons e rest ih => rw [List.foldl_cons, ih, size_addEdge]

theorem Proper.foldl_addEdge (h : p.Proper) :
    (es.foldl (fun p e => p.addEdge e.1 e.2) p).Proper := by
  induction es generalizing p with
  | nil => exact h
  | cons e rest ih => exact ih (h.addEdge e.1 e.2)

theorem before_foldl_addEdge {a b : Nat} :
    (es.foldl (fun p e => p.addEdge e.1 e.2) p).Before a b ↔
      p.Before a b ∨ ((a, b) ∈ es ∧ a ≠ b ∧ a < p.size ∧ b < p.size) := by
  induction es generalizing p with
  | nil => simp
  | cons e rest ih =>
      rw [List.foldl_cons, ih, before_addEdge, size_addEdge]
      obtain ⟨c, d⟩ := e
      simp only [List.mem_cons, Prod.mk.injEq]
      grind

end Edges

/-! ## Greedy runs -/

/-- Nothing that has to stand before the item is missing. -/
structure Available (p : Precedence) (placed : List Nat) (item : Nat) : Prop where
  inRange : item < p.size
  fresh : item ∉ placed
  free : ∀ a, p.Before a item → a ∈ placed

/-- A run from the placed items on that takes the smallest available item as
long as there is one. -/
inductive Greedy (p : Precedence) : List Nat → List Nat → Prop where
  | stop {placed : List Nat} (stuck : ∀ i, ¬ p.Available placed i) : Greedy p placed []
  | place {placed rest : List Nat} {item : Nat} (available : p.Available placed item)
      (least : ∀ i, p.Available placed i → item ≤ i) (further : Greedy p (item :: placed) rest) :
      Greedy p placed (item :: rest)

namespace Greedy

variable {p : Precedence} {placed l : List Nat}

theorem fresh (h : p.Greedy placed l) : ∀ i ∈ l, i < p.size ∧ i ∉ placed := by
  induction h with
  | stop => simp
  | place available _ _ ih =>
      intro i hi
      rcases List.mem_cons.mp hi with rfl | hi
      · exact ⟨available.inRange, available.fresh⟩
      · obtain ⟨hsize, hfresh⟩ := ih i hi
        exact ⟨hsize, fun hp => hfresh (List.mem_cons_of_mem _ hp)⟩

theorem nodup (h : p.Greedy placed l) : l.Nodup := by
  induction h with
  | stop => exact List.nodup_nil
  | place _ _ further ih =>
      refine List.nodup_cons.mpr ⟨?_, ih⟩
      intro hi
      exact (further.fresh _ hi).2 List.mem_cons_self

theorem meets (h : p.Greedy placed l) : l.Pairwise fun a b => ¬ p.Before b a := by
  induction h with
  | stop => exact List.Pairwise.nil
  | place available _ further ih =>
      refine List.pairwise_cons.mpr ⟨?_, ih⟩
      intro b hb hba
      exact (further.fresh b hb).2 (List.mem_cons_of_mem _ (available.free b hba))

/-- What has to stand before a placed item is placed. -/
theorem closed (h : p.Greedy placed l) : ∀ b ∈ l, ∀ a, p.Before a b → a ∈ l ∨ a ∈ placed := by
  induction h with
  | stop => exact fun b hb => absurd hb List.not_mem_nil
  | @place placed rest item available _ _ ih =>
      intro b hb a hab
      rcases List.mem_cons.mp hb with rfl | hb
      · exact Or.inr (available.free a hab)
      · rcases ih b hb a hab with ha | ha
        · exact Or.inl (List.mem_cons_of_mem item ha)
        · rcases List.mem_cons.mp ha with rfl | ha
          · exact Or.inl List.mem_cons_self
          · exact Or.inr ha

/-- Where a greedy run stops, nothing is available any more. -/
theorem stuck (h : p.Greedy placed l) : ∀ i, ¬ p.Available (l.reverse ++ placed) i := by
  induction h with
  | stop stuck => exact stuck
  | place _ _ _ ih => simpa using ih

/-- A greedy run is before every other way to go on. -/
theorem le_of_isOrder (proper : p.Proper) (h : p.Greedy placed l) :
    ∀ {l' : List Nat}, p.IsOrder (placed.reverse ++ l') → l ≤ l' := by
  induction h with
  | stop =>
      intro l' _
      cases l' with
      | nil => exact le_rfl
      | cons y rest' => exact le_of_lt List.Lex.nil
  | @place placed rest item available least further ih =>
      intro l' hl'
      have hnodup : (placed.reverse ++ l').Nodup := hl'.perm.nodup_iff.mpr List.nodup_range
      have hitem : item ∈ l' := by
        have hmem := hl'.perm.mem_iff.mpr (List.mem_range.mpr available.inRange)
        rcases List.mem_append.mp hmem with hp | hl
        · exact absurd (List.mem_reverse.mp hp) available.fresh
        · exact hl
      cases l' with
      | nil => exact absurd hitem List.not_mem_nil
      | cons y rest' =>
          -- The head of any order is available, so it is not below the item.
          have hy : p.Available placed y := by
            refine ⟨?_, ?_, ?_⟩
            · exact List.mem_range.mp (hl'.perm.mem_iff.mp (by simp))
            · intro hp
              exact (List.nodup_append.mp hnodup).2.2 y (by simpa using hp) y (by simp) rfl
            · intro a hay
              have ha := hl'.perm.mem_iff.mpr (List.mem_range.mpr (proper.inRange a y hay).1)
              have htail := (List.pairwise_append.mp hl'.meets).2.1
              simp only [List.mem_append, List.mem_reverse, List.mem_cons] at ha
              rcases ha with ha | rfl | ha
              · exact ha
              · exact absurd hay (proper.irrefl a)
              · exact absurd hay ((List.pairwise_cons.mp htail).1 a ha)
          rcases Nat.lt_or_eq_of_le (least y hy) with hlt | rfl
          · exact le_of_lt (List.Lex.rel hlt)
          · refine List.cons_le_cons item (ih ?_)
            simpa using hl'

end Greedy

/-! ## Cycles -/

/-- In a list that meets the constraints, the items climb along them. -/
theorem idxOf_lt_of_meets {p : Precedence} {l : List Nat} (proper : p.Proper)
    (hmeets : l.Pairwise fun a b => ¬ p.Before b a) {a b : Nat} (ha : a ∈ l) (hb : b ∈ l)
    (hab : p.Before a b) : l.idxOf a < l.idxOf b := by
  have hal : l.idxOf a < l.length := List.idxOf_lt_length_iff.mpr ha
  have hbl : l.idxOf b < l.length := List.idxOf_lt_length_iff.mpr hb
  rcases Nat.lt_trichotomy (l.idxOf a) (l.idxOf b) with hlt | heq | hgt
  · exact hlt
  · have hab' : a = b := by
      rw [← List.getElem_idxOf hal, ← List.getElem_idxOf hbl]
      simp only [heq]
    exact absurd (hab' ▸ hab) (proper.irrefl b)
  · have hbehind := List.pairwise_iff_getElem.mp hmeets _ _ hbl hal hgt
    rw [List.getElem_idxOf, List.getElem_idxOf] at hbehind
    exact absurd hab hbehind

/-- The items of an order climb along the constraints. -/
theorem IsOrder.idxOf_lt {p : Precedence} {l : List Nat} (h : p.IsOrder l) (proper : p.Proper)
    {a b : Nat} (hab : p.Before a b) : l.idxOf a < l.idxOf b := by
  obtain ⟨ha, hb⟩ := proper.inRange a b hab
  exact idxOf_lt_of_meets proper h.meets (h.perm.mem_iff.mpr (List.mem_range.mpr ha))
    (h.perm.mem_iff.mpr (List.mem_range.mpr hb)) hab

theorem IsOrder.acyclic {p : Precedence} {l : List Nat} (h : p.IsOrder l) (proper : p.Proper) :
    p.Acyclic := by
  intro a haa
  have hlt : ∀ b, Relation.TransGen p.Before a b → l.idxOf a < l.idxOf b := by
    intro b hb
    induction hb with
    | single hb => exact h.idxOf_lt proper hb
    | tail _ hbc ih => exact Nat.lt_trans ih (h.idxOf_lt proper hbc)
  exact Nat.lt_irrefl _ (hlt a haa)

/-! ## Counting what holds an item back -/

/-- The number of constraints that hold an item back. -/
def openCount (p : Precedence) (placed : List Nat) (item : Nat) : Nat :=
  p.edges.countP fun e => e.2 = item ∧ e.1 ∉ placed

theorem openCount_eq_zero {p : Precedence} {placed : List Nat} {item : Nat} :
    p.openCount placed item = 0 ↔ ∀ a, p.Before a item → a ∈ placed := by
  unfold openCount Before
  simp only [List.countP_eq_zero, decide_eq_true_eq, not_and, not_not, Prod.forall]
  grind

/-- What an item that is placed now held back by itself. -/
theorem openCount_cons {p : Precedence} {placed : List Nat} {item : Nat} (h : item ∉ placed)
    (i : Nat) :
    p.openCount placed i = p.openCount (item :: placed) i + p.edges.count (item, i) := by
  unfold openCount
  induction p.edges with
  | nil => rfl
  | cons e rest ih =>
      obtain ⟨a, b⟩ := e
      simp only [List.countP_cons, List.count_cons, ih, List.mem_cons, decide_eq_true_eq,
        beq_iff_eq, Prod.mk.injEq]
      grind

theorem getD_modify {α : Type} (a : Array α) (i j : Nat) (f : α → α) (d : α) (h : i < a.size) :
    (a.modify j f).getD i d = if j = i then f (a.getD i d) else a.getD i d := by
  simp only [Array.getD_eq_getD_getElem?, Array.getElem?_modify, Array.getElem?_eq_getElem h]
  split <;> rfl

theorem getD_successors (p : Precedence) {i : Nat} (h : i < p.size) (j : Nat) :
    (p.successors.getD i []).count j = p.edges.count (i, j) := by
  have hfold : ∀ (es : List (Nat × Nat)) (a : Array (List Nat)), i < a.size →
      ((es.foldl (fun a e => a.modify e.1 (e.2 :: ·)) a).getD i []).count j =
        (a.getD i []).count j + es.count (i, j) := by
    intro es
    induction es with
    | nil => simp
    | cons e rest ih =>
        intro a ha
        obtain ⟨b, c⟩ := e
        rw [List.foldl_cons, ih _ (by simpa using ha), getD_modify _ _ _ _ _ ha, List.count_cons]
        by_cases hb : b = i
        · by_cases hc : c = j
          · simp [hb, hc]
            omega
          · simp [hb, hc]
        · simp [hb]
  rw [successors, hfold _ _ (by simpa using h)]
  simp [Array.getD_eq_getD_getElem?, h]

theorem getD_predecessorCounts (p : Precedence) {i : Nat} (h : i < p.size) :
    p.predecessorCounts.getD i 0 = p.openCount [] i := by
  have hfold : ∀ (es : List (Nat × Nat)) (a : Array Nat), i < a.size →
      (es.foldl (fun a e => a.modify e.2 (· + 1)) a).getD i 0 =
        a.getD i 0 + es.countP fun e => e.2 = i := by
    intro es
    induction es with
    | nil => simp
    | cons e rest ih =>
        intro a ha
        rw [List.foldl_cons, ih _ (by simpa using ha), getD_modify _ _ _ _ _ ha, List.countP_cons]
        by_cases he : e.2 = i
        · simp [he]
          omega
        · simp [he]
  rw [predecessorCounts, hfold _ _ (by simpa using h), openCount]
  simp [Array.getD_eq_getD_getElem?, h]

theorem size_predecessorCounts (p : Precedence) : p.predecessorCounts.size = p.size := by
  have hfold : ∀ (es : List (Nat × Nat)) (a : Array Nat),
      (es.foldl (fun a e => a.modify e.2 (· + 1)) a).size = a.size := by
    intro es
    induction es with
    | nil => simp
    | cons e rest ih => intro a; rw [List.foldl_cons, ih, Array.size_modify]
  rw [predecessorCounts, hfold, Array.size_replicate]

/-! ## The placing -/

theorem mem_insertAscending {i item : Nat} : ∀ {l : List Nat},
    i ∈ Placing.insertAscending item l ↔ i = item ∨ i ∈ l
  | [] => by simp [Placing.insertAscending]
  | a :: rest => by
      rw [Placing.insertAscending]
      split
      · simp
      · rw [List.mem_cons, mem_insertAscending, List.mem_cons]
        grind

theorem pairwise_insertAscending {item : Nat} : ∀ {l : List Nat}, l.Pairwise (· < ·) →
    item ∉ l → (Placing.insertAscending item l).Pairwise (· < ·)
  | [], _, _ => by simp [Placing.insertAscending]
  | a :: rest, hl, hitem => by
      obtain ⟨ha, hrest⟩ := List.pairwise_cons.mp hl
      rw [Placing.insertAscending]
      split
      · next hlt =>
        refine List.pairwise_cons.mpr ⟨?_, hl⟩
        intro b hb
        rcases List.mem_cons.mp hb with rfl | hb
        · exact hlt
        · exact Nat.lt_trans hlt (ha b hb)
      · next hge =>
        have hne : item ≠ a := fun h => hitem (h ▸ List.mem_cons_self)
        refine List.pairwise_cons.mpr ⟨?_, ?_⟩
        · intro b hb
          rcases mem_insertAscending.mp hb with rfl | hb
          · omega
          · exact ha b hb
        · exact pairwise_insertAscending hrest fun h => hitem (List.mem_cons_of_mem a h)

/-- The state of a placing between two constraints: `todo` are the items whose
count is still to be taken down, an item as often as it has to be. -/
structure Placing.Sound (p : Precedence) (todo : List Nat) (s : Placing) : Prop where
  size : s.pending.size = p.size
  pending : ∀ i < p.size, s.pending.getD i 0 = p.openCount s.placed i + todo.count i
  ascending : s.ready.Pairwise (· < ·)
  ready : ∀ i, i ∈ s.ready ↔ i < p.size ∧ i ∉ s.placed ∧ s.pending.getD i 0 = 0
  /-- What has to stand before a placed item is placed. -/
  closed : ∀ i ∈ s.placed, ∀ a, p.Before a i → a ∈ s.placed

namespace Placing.Sound

variable {p : Precedence} {s : Placing}

theorem mem_ready (h : s.Sound p []) (i : Nat) : i ∈ s.ready ↔ p.Available s.placed i := by
  rw [h.ready]
  constructor
  · rintro ⟨hi, hfresh, hzero⟩
    have hcount := h.pending i hi
    rw [hzero, List.count_nil] at hcount
    exact ⟨hi, hfresh, openCount_eq_zero.mp hcount.symm⟩
  · rintro ⟨hi, hfresh, hfree⟩
    refine ⟨hi, hfresh, ?_⟩
    rw [h.pending i hi, openCount_eq_zero.mpr hfree, List.count_nil]

theorem start (p : Precedence) : p.start.Sound p [] where
  size := size_predecessorCounts p
  pending i hi := getD_predecessorCounts p hi
  ascending := List.Pairwise.filter _ List.pairwise_lt_range
  ready i := by simp [Precedence.start]
  closed i hi := absurd hi List.not_mem_nil

/-- The count of an item that is still to be taken down is positive. -/
theorem pending_pos {item : Nat} {todo : List Nat} (h : s.Sound p (item :: todo))
    (hitem : item < p.size) : 0 < s.pending.getD item 0 := by
  rw [h.pending item hitem, List.count_cons]
  simp only [beq_self_eq_true, if_true]
  omega

/-- One count is taken down; the item is ready when it comes to zero. -/
theorem release {item : Nat} {todo : List Nat} (h : s.Sound p (item :: todo))
    (hitem : item < p.size) (hfresh : item ∉ s.placed) : (s.release item).Sound p todo := by
  obtain ⟨placed, ready, pending⟩ := s
  have hcount : ∀ i < p.size, (pending.modify item (· - 1)).getD i 0 =
      p.openCount placed i + todo.count i := by
    intro i hi
    have hi' := h.pending i hi
    rw [getD_modify _ _ _ _ _ (h.size.symm ▸ hi)]
    rw [List.count_cons] at hi'
    by_cases hii : item = i
    · simp only [hii, if_true, beq_self_eq_true] at hi' ⊢
      omega
    · simpa [hii] using hi'
  -- Before the count is taken down it is positive, so the item was not ready.
  have hpositive : 0 < pending.getD item 0 := h.pending_pos hitem
  have hnotReady : item ∉ ready := fun hr => by
    have hzero := ((h.ready item).mp hr).2.2
    simp only at hzero
    omega
  have hother : ∀ i, i ≠ item →
      (pending.modify item (· - 1)).getD i 0 = pending.getD i 0 := by
    intro i hi
    simp [Array.getD_eq_getD_getElem?, Array.getElem?_modify, hi.symm]
  rw [Placing.release]
  refine ⟨by simpa using h.size, hcount, ?_, ?_, h.closed⟩
  · dsimp only
    split
    · exact pairwise_insertAscending h.ascending hnotReady
    · exact h.ascending
  · intro i
    have hready := h.ready i
    dsimp only at hready ⊢
    by_cases hi : i = item
    · subst hi
      split
      · next hzero => simp [mem_insertAscending, hitem, hfresh, hzero]
      · next hzero => simp only [hnotReady, hzero, and_false]
    · rw [hother i hi]
      split
      · rw [mem_insertAscending, hready]
        simp [hi]
      · exact hready

theorem release_all : ∀ {todo : List Nat} {s : Placing}, s.Sound p todo →
    (∀ i ∈ todo, i < p.size ∧ i ∉ s.placed) →
      (todo.foldl Placing.release s).Sound p [] ∧
        (todo.foldl Placing.release s).placed = s.placed
  | [], _, h, _ => ⟨h, rfl⟩
  | item :: todo, s, h, htodo => by
      have hnext := h.release (htodo item (by simp)).1 (htodo item (by simp)).2
      have hplaced : (s.release item).placed = s.placed := rfl
      rw [List.foldl_cons, ← hplaced]
      refine release_all hnext ?_
      rw [hplaced]
      exact fun i hi => htodo i (List.mem_cons_of_mem item hi)

/-- When the first ready item is placed, the counts of all that it held back are
still to be taken down. -/
theorem take (proper : p.Proper) {placed ready : List Nat} {item : Nat} {pending : Array Nat}
    (h : Placing.Sound p [] ⟨placed, item :: ready, pending⟩) :
    Placing.Sound p (p.successors.getD item []) ⟨item :: placed, ready, pending⟩ ∧
      ∀ i ∈ p.successors.getD item [], i < p.size ∧ i ∉ item :: placed := by
  have havailable : p.Available placed item := (h.mem_ready item).mp (by simp)
  have hbefore : ∀ i ∈ p.successors.getD item [], p.Before item i := by
    intro i hi
    have hcount := getD_successors p havailable.inRange i
    exact List.count_pos_iff.mp (hcount ▸ List.count_pos_iff.mpr hi)
  have htodo : ∀ i ∈ p.successors.getD item [], i < p.size ∧ i ∉ item :: placed := by
    intro i hi
    have hb := hbefore i hi
    refine ⟨(proper.inRange item i hb).2, ?_⟩
    intro hmem
    rcases List.mem_cons.mp hmem with rfl | hmem
    · exact proper.irrefl i hb
    · exact havailable.fresh (h.closed i hmem item hb)
  refine ⟨⟨h.size, ?_, ?_, ?_, ?_⟩, htodo⟩
  · intro i hi
    have hcount := h.pending i hi
    rw [openCount_cons havailable.fresh, List.count_nil] at hcount
    rw [getD_successors p havailable.inRange]
    exact hcount
  · exact (List.pairwise_cons.mp h.ascending).2
  · intro i
    have hready := h.ready i
    have hnotReady : item ∉ ready := fun hr =>
      Nat.lt_irrefl _ ((List.pairwise_cons.mp h.ascending).1 item hr)
    dsimp only at hready ⊢
    rw [List.mem_cons] at hready
    by_cases hi : i = item
    · simp [hi, hnotReady]
    · simp only [hi, false_or] at hready
      rw [hready]
      simp [hi]
  · intro i hi a ha
    rcases List.mem_cons.mp hi with rfl | hi
    · exact List.mem_cons_of_mem _ (havailable.free a ha)
    · exact List.mem_cons_of_mem _ (h.closed i hi a ha)

/-- Placing the first ready item and taking down the counts of what it held
back. -/
theorem place (proper : p.Proper) {placed ready : List Nat} {item : Nat} {pending : Array Nat}
    (h : Placing.Sound p [] ⟨placed, item :: ready, pending⟩) :
    let next := (p.successors.getD item []).foldl Placing.release ⟨item :: placed, ready, pending⟩
    next.Sound p [] ∧ next.placed = item :: placed := by
  obtain ⟨hsound, htodo⟩ := h.take proper
  exact release_all hsound htodo

/-- Placing is a greedy run, if there are steps enough for the missing
items. -/
theorem greedy_extend (proper : p.Proper) : ∀ {steps : Nat} {s : Placing}, s.Sound p [] →
    s.placed.Nodup → (∀ i ∈ s.placed, i < p.size) → p.size ≤ s.placed.length + steps →
    ∃ l, p.Greedy s.placed l ∧ (Placing.extend p.successors steps s).placed = l.reverse ++ s.placed
  | steps, ⟨placed, [], pending⟩, h, _, _, _ => by
      refine ⟨[], .stop fun i hi => ?_, ?_⟩
      · exact absurd ((h.mem_ready i).mpr hi) List.not_mem_nil
      · cases steps <;> rfl
  | 0, ⟨placed, item :: ready, pending⟩, h, hnodup, hsize, hsteps => by
      -- All items are placed, so none can be ready.
      have havailable : p.Available placed item := (h.mem_ready item).mp (by simp)
      have hall : (List.range p.size).Perm placed := by
        refine (List.Subperm.perm_of_length_le ?_ ?_).symm
        · exact List.subperm_of_subset hnodup fun i hi => List.mem_range.mpr (hsize i hi)
        · simpa using hsteps
      exact absurd (hall.mem_iff.mp (List.mem_range.mpr havailable.inRange)) havailable.fresh
  | steps + 1, ⟨placed, item :: ready, pending⟩, h, hnodup, hsize, hsteps => by
      have havailable : p.Available placed item := (h.mem_ready item).mp (by simp)
      have hleast : ∀ i, p.Available placed i → item ≤ i := by
        intro i hi
        rcases List.mem_cons.mp ((h.mem_ready i).mpr hi) with rfl | hi
        · exact Nat.le_refl _
        · exact Nat.le_of_lt ((List.pairwise_cons.mp h.ascending).1 i hi)
      obtain ⟨hnext, hplaced⟩ := h.place proper
      have hnodup' : (item :: placed).Nodup := List.nodup_cons.mpr ⟨havailable.fresh, hnodup⟩
      have hsize' : ∀ i ∈ item :: placed, i < p.size :=
        List.forall_mem_cons.mpr ⟨havailable.inRange, hsize⟩
      have hsteps' : p.size ≤ (item :: placed).length + steps := by
        simp only [List.length_cons] at hsteps ⊢
        omega
      rw [Placing.extend]
      generalize (p.successors.getD item []).foldl Placing.release
        ⟨item :: placed, ready, pending⟩ = next at hnext hplaced
      rw [← hplaced] at hnodup' hsize' hsteps'
      obtain ⟨l, hl, hextend⟩ := greedy_extend proper hnext hnodup' hsize' hsteps'
      rw [hplaced] at hl hextend
      exact ⟨item :: l, .place havailable hleast hl, by simp [hextend]⟩

end Placing.Sound

/-! ## The order -/

theorem greedy_order {p : Precedence} (proper : p.Proper) : p.Greedy [] p.order := by
  have hsteps : p.size ≤ p.start.placed.length + p.size := Nat.le_add_left _ _
  obtain ⟨l, hl, hplaced⟩ := (Placing.Sound.start p).greedy_extend proper
    List.nodup_nil (fun i hi => absurd hi List.not_mem_nil) hsteps
  have horder : p.order = l := by
    rw [order, placing, hplaced]
    simp [start]
  exact horder ▸ hl

theorem isResolved_iff_length (p : Precedence) : p.isResolved = true ↔ p.order.length = p.size := by
  simp [isResolved, order]

/-- When everything is placed, it is placed in the least order there is. -/
theorem isOrder_order {p : Precedence} (proper : p.Proper) (h : p.isResolved = true) :
    p.IsOrder p.order := by
  have hgreedy := greedy_order proper
  refine ⟨?_, hgreedy.meets⟩
  refine List.Subperm.perm_of_length_le ?_ ?_
  · exact List.subperm_of_subset hgreedy.nodup fun i hi =>
      List.mem_range.mpr (hgreedy.fresh i hi).1
  · simp [(isResolved_iff_length p).mp h]

theorem order_le {p : Precedence} (proper : p.Proper) {l : List Nat} (h : p.IsOrder l) :
    p.order ≤ l :=
  (greedy_order proper).le_of_isOrder proper h

/-! ## What has no place -/

section Leftover

variable {p : Precedence} (proper : p.Proper)
include proper

theorem mem_order_of_before {a b : Nat} (hb : b ∈ p.order) (hab : p.Before a b) : a ∈ p.order :=
  ((greedy_order proper).closed b hb a hab).resolve_right List.not_mem_nil

/-- The order climbs along all ways that lead to a placed item. -/
theorem idxOf_lt_of_transGen {a b : Nat} (hb : b ∈ p.order)
    (hab : Relation.TransGen p.Before a b) : a ∈ p.order ∧ p.order.idxOf a < p.order.idxOf b := by
  have hmeets := (greedy_order proper).meets
  induction hab using Relation.TransGen.head_induction_on with
  | single hab =>
      have ha := mem_order_of_before proper hb hab
      exact ⟨ha, idxOf_lt_of_meets proper hmeets ha hb hab⟩
  | head hac _ ih =>
      obtain ⟨hc, hlt⟩ := ih
      have ha := mem_order_of_before proper hc hac
      exact ⟨ha, Nat.lt_trans (idxOf_lt_of_meets proper hmeets ha hc hac) hlt⟩

theorem not_onOrBehindCycle_of_mem_order {i : Nat} (hi : i ∈ p.order) :
    ¬ OnOrBehindCycle p.Before i := by
  rintro ⟨c, hcycle, hci⟩
  have hc : c ∈ p.order := by
    rcases Relation.reflTransGen_iff_eq_or_transGen.mp hci with rfl | hci
    · exact hi
    · exact (idxOf_lt_of_transGen proper hi hci).1
  exact Nat.lt_irrefl _ (idxOf_lt_of_transGen proper hc hcycle).2

/-- Off the cycles every item gets its turn: what has to stand before it is off
the cycles too, and has its place first. -/
theorem mem_order_of_not_onOrBehindCycle {i : Nat} (hi : i < p.size)
    (hclear : ¬ OnOrBehindCycle p.Before i) : i ∈ p.order := by
  let Clear := { j : Fin p.size // ¬ OnOrBehindCycle p.Before j }
  let below (a b : Clear) : Prop := Relation.TransGen p.Before a.1 b.1
  have : IsTrans Clear below := ⟨fun _ _ _ hab hbc => hab.trans hbc⟩
  have : Std.Irrefl below := ⟨fun a ha => a.2 (.of_cycle ha)⟩
  have hwf : WellFounded below := Finite.wellFounded_of_trans_of_irrefl below
  have hall : ∀ j : Clear, j.1.1 ∈ p.order := by
    intro j
    induction j using hwf.induction with
    | _ j ih =>
        by_contra hmissing
        refine (greedy_order proper).stuck j.1.1 ⟨j.1.2, by simpa using hmissing, ?_⟩
        intro a ha
        have haclear : ¬ OnOrBehindCycle p.Before a := fun h => j.2 (h.next ha)
        have haplaced := ih ⟨⟨a, (proper.inRange a j ha).1⟩, haclear⟩ (.single ha)
        simpa using haplaced
  exact hall ⟨⟨i, hi⟩, hclear⟩

/-- Exactly the items on or behind a cycle have no place. -/
theorem mem_order_iff {i : Nat} :
    i ∈ p.order ↔ i < p.size ∧ ¬ OnOrBehindCycle p.Before i := by
  constructor
  · intro hi
    exact ⟨((greedy_order proper).fresh i hi).1, not_onOrBehindCycle_of_mem_order proper hi⟩
  · rintro ⟨hi, hclear⟩
    exact mem_order_of_not_onOrBehindCycle proper hi hclear

/-- Everything is placed exactly when the constraints hold no cycle. -/
theorem isResolved_iff_acyclic : p.isResolved = true ↔ p.Acyclic := by
  constructor
  · intro h
    exact (isOrder_order proper h).acyclic proper
  · intro h
    have hgreedy := greedy_order proper
    have hperm : p.order.Perm (List.range p.size) := by
      refine (List.perm_ext_iff_of_nodup hgreedy.nodup List.nodup_range).mpr fun i => ?_
      rw [mem_order_iff proper, List.mem_range]
      exact and_iff_left fun ⟨c, hcycle, _⟩ => h c hcycle
    rw [isResolved_iff_length, hperm.length_eq, List.length_range]

end Leftover

/-- The items at all positions are the whole list. -/
theorem filterMap_getElem?_range {α : Type} (l : List α) :
    (List.range l.length).filterMap (fun i => l[i]?) = l := by
  induction l with
  | nil => rfl
  | cons a rest ih =>
      have hfirst : (a :: rest)[0]? = some a := rfl
      rw [List.length_cons, List.range_succ_eq_map, List.filterMap_cons_some hfirst,
        List.filterMap_map]
      exact congrArg (a :: ·) ih

end Precedence

end CrossDoc
