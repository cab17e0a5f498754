/-!
# Stable precedence order

Orders the items `0, 1, …, size - 1` under constraints "this one before that
one".  Of the items whose predecessors are all placed, the smallest is placed
next, so items without constraints keep their order.  When the constraints
hold a cycle the order stops early, and the items on or behind a cycle are
left over.

For each item the placing counts the constraints that still hold it back, and
it keeps the items that none holds back in a list, so that each constraint is
looked at once.
-/

namespace CrossDoc

/-- Items and the constraints between them. -/
structure Precedence where
  size : Nat
  /-- A pair demands its first item before its second one.  To demand the same
  again adds nothing to the order. -/
  edges : List (Nat × Nat)
deriving DecidableEq, Repr

namespace Precedence

def ofSize (n : Nat) : Precedence := ⟨n, []⟩

/-- Demands `first` before `second`.  An item out of range and an item before
itself change nothing.  A constraint that is demanded again is held again, so
the counts below may be higher than the number of different constraints; all
of its copies are lifted together when `first` is placed. -/
def addEdge (p : Precedence) (first second : Nat) : Precedence :=
  if first = second ∨ p.size ≤ first ∨ p.size ≤ second then p
  else { p with edges := (first, second) :: p.edges }

/-- For each item, what has to come after it. -/
def successors (p : Precedence) : Array (List Nat) :=
  p.edges.foldl (fun a e => a.modify e.1 (e.2 :: ·)) (Array.replicate p.size [])

/-- For each item, the number of constraints that demand another one first. -/
def predecessorCounts (p : Precedence) : Array Nat :=
  p.edges.foldl (fun a e => a.modify e.2 (· + 1)) (Array.replicate p.size 0)

/-! ## Placing -/

/-- How far the placing has come. -/
structure Placing where
  /-- The placed items, the last one first. -/
  placed : List Nat
  /-- The items that none holds back and that are not placed, ascending. -/
  ready : List Nat
  /-- For each item, the number of constraints that hold it back. -/
  pending : Array Nat
deriving DecidableEq, Repr

namespace Placing

/-- Puts an item into an ascending list. -/
def insertAscending (item : Nat) : List Nat → List Nat
  | [] => [item]
  | a :: rest => if item < a then item :: a :: rest else a :: insertAscending item rest

/-- Meets one of the constraints that hold an item back. -/
def release : Placing → Nat → Placing
  | ⟨placed, ready, pending⟩, item =>
      let pending := pending.modify item (· - 1)
      ⟨placed, if pending.getD item 0 = 0 then insertAscending item ready else ready, pending⟩

/-- Places at most `steps` further items. -/
def extend (successors : Array (List Nat)) : Nat → Placing → Placing
  | steps + 1, ⟨placed, item :: ready, pending⟩ =>
      extend successors steps
        ((successors.getD item []).foldl release ⟨item :: placed, ready, pending⟩)
  | _, s => s

end Placing

/-- Nothing is placed, and the items without constraints are ready. -/
def start (p : Precedence) : Placing :=
  let pending := p.predecessorCounts
  ⟨[], (List.range p.size).filter fun i => pending.getD i 0 = 0, pending⟩

/-- All items that can be placed are. -/
def placing (p : Precedence) : Placing := Placing.extend p.successors p.size p.start

/-- All items that can be placed, in their order. -/
def order (p : Precedence) : List Nat := p.placing.placed.reverse

/-- The items on or behind a cycle, in ascending order. -/
def unresolved (p : Precedence) : List Nat :=
  let pending := p.placing.pending
  (List.range p.size).filter fun i => 0 < pending.getD i 0

/-- All items could be placed. -/
def isResolved (p : Precedence) : Bool := p.placing.placed.length == p.size

end Precedence

end CrossDoc
