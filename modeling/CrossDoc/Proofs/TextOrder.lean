import CrossDoc.Text
import Mathlib.Data.Char
import Mathlib.Data.List.Lex
import Mathlib.Data.List.Sort
import Mathlib.Data.Prod.Lex

/-!
# Orders of texts

Comparing is deciding a linear order, for texts and for what is compared field by
field.  So the texts of a list have one ascending arrangement without repetitions,
and this arrangement stands for the set of the texts: neither their order in the
list nor how often one occurs can be told from it.
-/

namespace CrossDoc

/-! ## Comparisons -/

section Comparisons

variable {α β : Type} [LinearOrder α] [LinearOrder β] {o o' : Ordering}

/-- Comparing by one thing and then by another one is comparing the pairs. -/
theorem compares_pair {a a' : α} {b b' : β} (ho : o.Compares a a') (ho' : o'.Compares b b') :
    (o.then o').Compares (toLex (a, b)) (toLex (a', b')) := by
  cases o with
  | lt => exact Prod.Lex.toLex_lt_toLex.mpr (Or.inl (show a < a' from ho))
  | gt => exact Prod.Lex.toLex_lt_toLex.mpr (Or.inl (show a' < a from ho))
  | eq =>
      obtain rfl : a = a' := ho
      cases o' with
      | lt => exact Prod.Lex.toLex_lt_toLex.mpr (Or.inr ⟨rfl, show b < b' from ho'⟩)
      | gt => exact Prod.Lex.toLex_lt_toLex.mpr (Or.inr ⟨rfl, show b' < b from ho'⟩)
      | eq =>
          obtain rfl : b = b' := ho'
          rfl

theorem compares_cons {a b : α} {xs ys : List α} (ho : o.Compares a b) (ho' : o'.Compares xs ys) :
    (o.then o').Compares (a :: xs) (b :: ys) := by
  cases o with
  | lt => exact List.cons_lt_cons_iff.mpr (Or.inl ho)
  | gt => exact List.cons_lt_cons_iff.mpr (Or.inl ho)
  | eq =>
      obtain rfl : a = b := ho
      cases o' with
      | lt => exact List.cons_lt_cons_iff.mpr (Or.inr ⟨rfl, ho'⟩)
      | gt => exact List.cons_lt_cons_iff.mpr (Or.inr ⟨rfl, ho'⟩)
      | eq =>
          obtain rfl : xs = ys := ho'
          rfl

theorem compares_list {c : α → α → Ordering} (h : ∀ a b, (c a b).Compares a b) :
    ∀ xs ys : List α, (List.compareLex c xs ys).Compares xs ys
  | [], [] => rfl
  | [], _ :: _ => List.nil_lt_cons _ _
  | _ :: _, [] => List.nil_lt_cons _ _
  | a :: xs, b :: ys => by
      rw [List.compareLex_cons_cons]
      exact compares_cons (h a b) (compares_list h xs ys)

end Comparisons

theorem compares_char (c d : Char) : (compare c d).Compares c d := by
  show (compareOfLessAndEq c d).Compares c d
  rw [← LinearOrder.compare_eq_compareOfLessAndEq]
  exact (compare_iff c d).mp rfl

theorem compares_text (s t : Text) : (compare s t).Compares s t := compares_list compares_char s t

/-! ## Repetitions -/

section Repetitions

variable {α : Type} [BEq α]

/-- A run of equal elements counts as one. -/
theorem eraseReps_cons_cons (a b : α) (rest : List α) : (a :: b :: rest).eraseReps =
    if a == b then (a :: rest).eraseReps else a :: (b :: rest).eraseReps := by
  have hloop : ∀ (l : List α) (x : α) (acc : List α),
      List.eraseRepsBy.loop (· == ·) x l acc = acc.reverse ++ (x :: l).eraseReps := by
    intro l
    induction l with
    | nil => exact fun x acc => List.reverse_cons
    | cons y rest ih =>
        intro x acc
        unfold List.eraseReps List.eraseRepsBy List.eraseRepsBy.loop
        dsimp only
        split
        · rw [ih, ih, List.reverse_nil, List.nil_append]
        · rw [ih, ih, List.reverse_cons, List.append_assoc]
          rfl
  show List.eraseRepsBy.loop (· == ·) a (b :: rest) [] = _
  rw [List.eraseRepsBy.loop]
  cases a == b with
  | true => exact hloop rest a []
  | false => exact hloop rest b [a]

variable [LawfulBEq α]

theorem mem_eraseReps {x : α} : ∀ {l : List α}, x ∈ l.eraseReps ↔ x ∈ l
  | [] => Iff.rfl
  | [_] => Iff.rfl
  | a :: b :: rest => by
      rw [eraseReps_cons_cons]
      split
      · next hsame =>
        obtain rfl := beq_iff_eq.mp hsame
        rw [mem_eraseReps]
        simp
      · rw [List.mem_cons, mem_eraseReps, ← List.mem_cons]

/-- An ascending list without repetitions in a row has none at all. -/
theorem pairwise_eraseReps [LinearOrder α] : ∀ {l : List α}, l.Pairwise (· ≤ ·) →
    l.eraseReps.Pairwise (· < ·)
  | [], _ => List.Pairwise.nil
  | [a], _ => List.pairwise_singleton _ a
  | a :: b :: rest, h => by
      obtain ⟨ha, hb⟩ := List.pairwise_cons.mp h
      rw [eraseReps_cons_cons]
      split
      · exact pairwise_eraseReps (hb.tail.cons fun c hc => ha c (List.mem_cons_of_mem b hc))
      · next hne =>
        have hab : a < b := lt_of_le_of_ne (ha b List.mem_cons_self) (by simpa using hne)
        refine (pairwise_eraseReps hb).cons fun c hc => ?_
        rcases List.mem_cons.mp (mem_eraseReps.mp hc) with rfl | hc
        · exact hab
        · exact hab.trans_le ((List.pairwise_cons.mp hb).1 c hc)

end Repetitions

namespace Text

/-! ## Sets of texts -/

variable {ts us : List Text}

theorem le_iff {s t : Text} : le s t = true ↔ s ≤ t := by
  rw [le, bne_iff_ne]
  exact (compares_text s t).ne_gt

theorem mem_sortedSet {t : Text} : t ∈ sortedSet ts ↔ t ∈ ts := by
  rw [sortedSet, mem_eraseReps, List.mem_mergeSort]

theorem pairwise_sortedSet (ts : List Text) : (sortedSet ts).Pairwise (· < ·) := by
  have hsorted : (ts.mergeSort le).Pairwise fun s t => le s t = true := by
    apply List.pairwise_mergeSort
    · intro a b c hab hbc
      exact le_iff.mpr ((le_iff.mp hab).trans (le_iff.mp hbc))
    · intro a b
      rw [Bool.or_eq_true, le_iff, le_iff]
      exact le_total a b
  exact pairwise_eraseReps (hsorted.imp le_iff.mp)

/-- **Sorted sets are canonical.**  Two lists have one sorted set exactly if they hold
the same texts. -/
theorem sortedSet_eq_iff : sortedSet ts = sortedSet us ↔ ∀ t, t ∈ ts ↔ t ∈ us := by
  constructor
  · intro h t
    rw [← mem_sortedSet, h, mem_sortedSet]
  · intro h
    refine (pairwise_sortedSet ts).eq_of_mem_iff (pairwise_sortedSet us) fun t => ?_
    rw [mem_sortedSet, mem_sortedSet, h]

end Text

end CrossDoc
