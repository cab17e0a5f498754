import CrossDoc.Text
import Mathlib.Data.List.MinMax

/-!
# The first of the longest

A search runs through a list and replaces what it has found only by something with a
longer key.  So it ends with an element of the longest key, and as equal lengths do not
replace, with the first one that has this key.  Prefixes of one text are told apart by
their lengths, so where these are looked for no other element could be meant.
-/

namespace CrossDoc

variable {α : Type} {key : α → Text} {search : Option α → List α → Option α}
  {Wanted : Text → Prop} {xs : List α} {x y : α}

/-- The element has the longest of the keys that are wanted, and is the first with this key. -/
structure IsFirstLongest (key : α → Text) (Wanted : Text → Prop) (xs : List α) (x : α) : Prop where
  wanted : Wanted (key x)
  longest : ∀ y ∈ xs, Wanted (key y) → (key y).length ≤ (key x).length
  first : xs.find? (key · == key x) = some x

namespace IsFirstLongest

theorem mem (h : IsFirstLongest key Wanted xs x) : x ∈ xs := List.mem_of_find?_eq_some h.first

/-- If all keys that are wanted start one text, then there is one such element at most. -/
theorem unique {t : Text} (hstarts : ∀ s, Wanted s → s <+: t)
    (hx : IsFirstLongest key Wanted xs x) (hy : IsFirstLongest key Wanted xs y) : x = y := by
  have hlength : (key x).length = (key y).length :=
    Nat.le_antisymm (hy.longest x hx.mem hx.wanted) (hx.longest y hy.mem hy.wanted)
  have hsame : key x = key y := (List.prefix_of_prefix_length_le (hstarts _ hx.wanted)
    (hstarts _ hy.wanted) hlength.le).eq_of_length hlength
  have hfirst := hx.first
  rw [hsame, hy.first] at hfirst
  exact (Option.some.inj hfirst).symm

end IsFirstLongest

/-- The search goes from one element to the next and keeps what it has found until something with
a longer key comes. -/
structure IsLongestSearch (key : α → Text) (search : Option α → List α → Option α) : Prop where
  nil : ∀ found, search found [] = found
  first : ∀ x rest, search none (x :: rest) = search (some x) rest
  next : ∀ b x rest, search (some b) (x :: rest) =
    search (some (if (key b).length < (key x).length then x else b)) rest

namespace IsLongestSearch

theorem eq_argmax (h : IsLongestSearch key search) (xs : List α) :
    search none xs = xs.argmax fun x => (key x).length := by
  have hfold : ∀ (xs : List α) (found : Option α), search found xs =
      xs.foldl (List.argAux fun b c => (key c).length < (key b).length) found := by
    intro xs
    induction xs with
    | nil => exact h.nil
    | cons x rest ih =>
        intro found
        cases found with
        | none => rw [h.first, ih]; rfl
        | some b =>
            rw [h.next, ih, List.foldl_cons]
            simp only [List.argAux, apply_ite some]
  exact hfold xs none

end IsLongestSearch

/-- Of the elements with the longest key, the first one is found. -/
theorem find?_of_argmax_length (h : xs.argmax (fun x => (key x).length) = some x) :
    xs.find? (key · == key x) = some x := by
  classical
  obtain ⟨y, hy⟩ : ∃ y, xs.find? (key · == key x) = some y :=
    Option.isSome_iff_exists.mp
      (List.find?_isSome.mpr ⟨x, List.argmax_mem h, beq_self_eq_true _⟩)
  obtain ⟨hsame, before, after, hxs, hbefore⟩ := List.find?_eq_some_iff_append.mp hy
  have hlength : (key x).length ≤ (key y).length := (congrArg List.length (beq_iff_eq.mp hsame)).ge
  have hindex : xs.idxOf x ≤ xs.idxOf y :=
    List.index_of_argmax h (List.mem_of_find?_eq_some hy) hlength
  have hx : x ∉ before := fun hmem => by simpa using hbefore x hmem
  have hy' : y ∉ before := fun hmem => by simpa [hsame] using hbefore y hmem
  rw [hxs, List.idxOf_append_of_notMem hx, List.idxOf_append_of_notMem hy', List.idxOf_cons_self]
    at hindex
  rcases eq_or_ne y x with rfl | hne
  · exact hy
  · rw [List.idxOf_cons_ne _ hne] at hindex
    omega

/-- Among the elements with a key that is wanted, if there are any, the search finds the first
one with the longest key. -/
theorem IsLongestSearch.exists_isFirstLongest (hsearch : IsLongestSearch key search)
    (Wanted : Text → Prop) {keep : α → Bool} (hkeep : ∀ x, keep x = true ↔ Wanted (key x))
    (h : ∃ x ∈ xs, Wanted (key x)) :
    ∃ x, search none (xs.filter keep) = some x ∧ IsFirstLongest key Wanted xs x := by
  have hmem : ∀ {x}, x ∈ xs.filter keep ↔ x ∈ xs ∧ Wanted (key x) := by
    intro x
    rw [List.mem_filter, hkeep]
  obtain ⟨b, hb⟩ : ∃ b, (xs.filter keep).argmax (fun x => (key x).length) = some b := by
    obtain ⟨x, hx, hwanted⟩ := h
    refine Option.ne_none_iff_exists'.mp fun hnone => ?_
    rw [List.argmax_eq_none] at hnone
    exact List.ne_nil_of_mem (hmem.mpr ⟨hx, hwanted⟩) hnone
  obtain ⟨-, hwanted⟩ := hmem.mp (List.argmax_mem hb)
  -- an element with the key of `b` is kept as `b` is
  have hsame : ∀ x, decide (keep x = true ∧ (key x == key b) = true) = (key x == key b) := by
    intro x
    rw [Bool.decide_and, Bool.decide_eq_true, Bool.decide_eq_true, Bool.and_eq_right_iff_imp,
      beq_iff_eq, hkeep]
    exact fun heq => heq ▸ hwanted
  have hfirst := find?_of_argmax_length hb
  rw [List.find?_filter, funext hsame] at hfirst
  refine ⟨b, (hsearch.eq_argmax _).trans hb, hwanted, fun y hy hy' => ?_, hfirst⟩
  exact List.le_of_mem_argmax (f := fun x => (key x).length) (hmem.mpr ⟨hy, hy'⟩) hb

end CrossDoc
