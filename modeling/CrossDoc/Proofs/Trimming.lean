import CrossDoc.Text
import Mathlib.Data.List.DropRight

/-!
# Trimmed texts

Trimming drops the characters of a class in front of the first and behind the last
other character.  So such characters at the ends of a text do not count, for what is
left of the text as well as for its first word.
-/

namespace CrossDoc

namespace Text

variable {p : Char → Bool} {c : Char} {s t w : Text}

/-! ## Around a character that stays -/

theorem trimLeft_append_cons (hc : p c = false) (s t : Text) :
    trimLeft p (s ++ c :: t) = trimLeft p s ++ c :: t := by
  induction s with
  | nil => exact List.dropWhile_cons_of_neg (by simp [hc])
  | cons d rest ih =>
      cases hd : p d with
      | true =>
          rw [trimLeft, List.cons_append, List.dropWhile_cons_of_pos hd, trimLeft,
            List.dropWhile_cons_of_pos hd]
          exact ih
      | false =>
          rw [trimLeft, List.cons_append, List.dropWhile_cons_of_neg (by simp [hd]), trimLeft,
            List.dropWhile_cons_of_neg (by simp [hd]), List.cons_append]

theorem trimRight_append_cons (hc : p c = false) (s t : Text) :
    trimRight p (s ++ c :: t) = s ++ c :: trimRight p t := by
  have hmirror := trimLeft_append_cons hc t.reverse s.reverse
  rw [trimLeft, trimLeft] at hmirror
  rw [trimRight, trimRight, List.reverse_append, List.reverse_cons, List.append_assoc,
    List.singleton_append, hmirror]
  simp

theorem trimRight_cons (h : ∃ d ∈ t, p d = false) (c : Char) :
    trimRight p (c :: t) = c :: trimRight p t := by
  obtain ⟨d, hmem, hd⟩ := h
  obtain ⟨s, u, rfl⟩ := List.append_of_mem hmem
  rw [← List.cons_append, trimRight_append_cons hd, trimRight_append_cons hd]
  rfl

theorem trimBy_append_cons (hc : p c = false) (s t : Text) :
    trimBy p (s ++ c :: t) = trimLeft p s ++ c :: trimRight p t := by
  rw [trimBy, trimLeft_append_cons hc, trimRight_append_cons hc]

/-! ## Characters at the ends -/

theorem trimBy_eq_nil_iff : trimBy p t = [] ↔ ∀ c ∈ t, p c = true := by
  constructor
  · intro h c hmem
    by_contra hc
    obtain ⟨s, u, rfl⟩ := List.append_of_mem hmem
    rw [trimBy_append_cons (by simpa using hc)] at h
    simp at h
  · intro h
    rw [trimBy, trimLeft, List.dropWhile_eq_nil_iff.mpr h]
    rfl

theorem trimBy_cons (hc : p c = true) (t : Text) : trimBy p (c :: t) = trimBy p t := by
  rw [trimBy, trimLeft, List.dropWhile_cons_of_pos hc]
  rfl

theorem trimBy_concat (hc : p c = true) (t : Text) : trimBy p (t ++ [c]) = trimBy p t := by
  by_cases hall : ∀ d ∈ t, p d = true
  · have hmore : ∀ d ∈ t ++ [c], p d = true := by
      simpa [or_imp, forall_and, hc] using hall
    rw [trimBy_eq_nil_iff.mpr hall, trimBy_eq_nil_iff.mpr hmore]
  · push Not at hall
    obtain ⟨d, hmem, hd⟩ := hall
    obtain ⟨s, u, rfl⟩ := List.append_of_mem hmem
    replace hd : p d = false := by simpa using hd
    rw [List.append_assoc, List.cons_append, trimBy_append_cons hd, trimBy_append_cons hd]
    exact congrArg (fun r => trimLeft p s ++ d :: r) (List.rdropWhile_concat_pos p u c hc)

/-- What trimming drops is of the class. -/
theorem exists_trimBy (p : Char → Bool) (t : Text) : ∃ before after,
    t = before ++ (trimBy p t ++ after) ∧ (∀ c ∈ before, p c = true) ∧ ∀ c ∈ after, p c = true := by
  refine ⟨t.takeWhile p, (trimLeft p t).rtakeWhile p, ?_, ?_, ?_⟩
  · have hright : trimBy p t ++ (trimLeft p t).rtakeWhile p = trimLeft p t :=
      List.rdropWhile_append_rtakeWhile
    rw [hright]
    exact List.takeWhile_append_dropWhile.symm
  · exact fun c hc => List.mem_takeWhile_imp hc
  · exact fun c hc => List.mem_rtakeWhile_imp hc

section Blind

variable {β : Type} {f : Text → β}

theorem apply_append_left (hf : ∀ c, p c = true → ∀ t, f (c :: t) = f t)
    (hw : ∀ c ∈ w, p c = true) (t : Text) : f (w ++ t) = f t := by
  induction w with
  | nil => rfl
  | cons c rest ih =>
      rw [List.cons_append, hf c (hw c List.mem_cons_self)]
      exact ih fun d hd => hw d (List.mem_cons_of_mem c hd)

theorem apply_append_right (hf : ∀ c, p c = true → ∀ t, f (t ++ [c]) = f t)
    (hw : ∀ c ∈ w, p c = true) (t : Text) : f (t ++ w) = f t := by
  induction w using List.reverseRecOn with
  | nil => rw [List.append_nil]
  | append_singleton rest c ih =>
      rw [← List.append_assoc, hf c (hw c (by simp))]
      exact ih fun d hd => hw d (List.mem_append_left _ hd)

/-- What does not see the characters of a class at the ends does not see trimming. -/
theorem apply_trimBy (hcons : ∀ c, p c = true → ∀ t, f (c :: t) = f t)
    (hconcat : ∀ c, p c = true → ∀ t, f (t ++ [c]) = f t) (t : Text) : f (trimBy p t) = f t := by
  obtain ⟨before, after, ht, hbefore, hafter⟩ := exists_trimBy p t
  have happly := congrArg f ht
  rw [apply_append_left hcons hbefore, apply_append_right hconcat hafter] at happly
  exact happly.symm

end Blind

theorem trimBy_trimBy (p : Char → Bool) (t : Text) : trimBy p (trimBy p t) = trimBy p t :=
  apply_trimBy (fun _ => trimBy_cons) (fun _ => trimBy_concat) t

theorem trimBy_trimRight (p : Char → Bool) (t : Text) :
    trimBy p (trimRight p t) = trimBy p t := by
  have ht : trimRight p t ++ t.rtakeWhile p = t := List.rdropWhile_append_rtakeWhile
  have htrim := apply_append_right (w := t.rtakeWhile p) (fun _ => trimBy_concat)
    (fun c hc => List.mem_rtakeWhile_imp hc) (trimRight p t)
  rw [ht] at htrim
  exact htrim.symm

/-- A text is what is left of it and the characters that were trimmed. -/
theorem trimRight_append_replicate (c : Char) (t : Text) :
    ∃ n, t = trimRight (· == c) t ++ List.replicate n c := by
  refine ⟨(t.rtakeWhile (· == c)).length, ?_⟩
  have hdropped : t.rtakeWhile (· == c) = List.replicate (t.rtakeWhile (· == c)).length c :=
    List.eq_replicate_iff.mpr ⟨rfl, fun d hd => by simpa using List.mem_rtakeWhile_imp hd⟩
  rw [← hdropped]
  exact List.rdropWhile_append_rtakeWhile.symm

theorem getLast?_trimRight_ne (c : Char) (t : Text) :
    (trimRight (· == c) t).getLast? ≠ some c := by
  intro hlast
  have hne : t.rdropWhile (· == c) ≠ [] := by
    intro hnil
    rw [trimRight, ← List.rdropWhile, hnil] at hlast
    cases hlast
  have hkept := List.rdropWhile_last_not (· == c) t hne
  rw [trimRight, ← List.rdropWhile, List.getLast?_eq_some_getLast hne] at hlast
  exact hkept (beq_iff_eq.mpr (Option.some.inj hlast))

/-- A trimmed text does not end with a character of the class. -/
theorem getLast?_of_trimBy_eq (h : trimBy p t = t) (hc : p c = true) : t.getLast? ≠ some c := by
  intro hlast
  obtain ⟨s, rfl⟩ := List.getLast?_eq_some_iff.mp hlast
  rw [trimBy_concat hc] at h
  have hle : (trimBy p s).length ≤ s.length := by
    obtain ⟨before, after, hs, -, -⟩ := exists_trimBy p s
    have hlength := congrArg List.length hs
    simp only [List.length_append] at hlength
    omega
  rw [h, List.length_append, List.length_singleton] at hle
  omega

/-! ## Characters replaced -/

section Replacing

variable {g : Char → Text}

theorem trimLeft_flatMap (hin : ∀ c, p c = true → ∀ d ∈ g c, p d = true)
    (hout : ∀ c, p c = false → g c = [c]) (t : Text) :
    trimLeft p (t.flatMap g) = (trimLeft p t).flatMap g := by
  induction t with
  | nil => rfl
  | cons c rest ih =>
      rw [trimLeft, trimLeft, List.flatMap_cons]
      cases hc : p c with
      | true =>
          rw [List.dropWhile_append_of_pos (hin c hc), List.dropWhile_cons_of_pos hc]
          exact ih
      | false =>
          rw [hout c hc, List.singleton_append, List.dropWhile_cons_of_neg (by simp [hc]),
            List.dropWhile_cons_of_neg (by simp [hc]), List.flatMap_cons, hout c hc,
            List.singleton_append]

theorem trimRight_flatMap (hin : ∀ c, p c = true → ∀ d ∈ g c, p d = true)
    (hout : ∀ c, p c = false → g c = [c]) (t : Text) :
    trimRight p (t.flatMap g) = (trimRight p t).flatMap g := by
  have hmirror := trimLeft_flatMap (g := List.reverse ∘ g)
    (fun c hc d hd => hin c hc d (List.mem_reverse.mp hd))
    (fun c hc => by rw [Function.comp_apply, hout c hc]; rfl) t.reverse
  rw [trimLeft, trimLeft] at hmirror
  rw [trimRight, trimRight, List.reverse_flatMap, hmirror, List.reverse_flatMap]
  simp [Function.comp_def]

/-- Characters of the class that stand for others of the class do not change what is trimmed. -/
theorem trimBy_flatMap (hin : ∀ c, p c = true → ∀ d ∈ g c, p d = true)
    (hout : ∀ c, p c = false → g c = [c]) (t : Text) :
    trimBy p (t.flatMap g) = (trimBy p t).flatMap g := by
  rw [trimBy, trimLeft_flatMap hin hout, trimRight_flatMap hin hout, trimBy]

end Replacing

/-! ## First words -/

theorem firstWord_congr (h : trim s = trim t) : firstWord s = firstWord t := by
  rw [firstWord, h, firstWord]

theorem firstWord_trim (t : Text) : firstWord (trim t) = firstWord t :=
  firstWord_congr (trimBy_trimBy isSpace t)

theorem isBlank_of_not_isSpace (h : isSpace c = false) : isBlank c = false := by
  simp only [isSpace, isLineBlank, Bool.or_eq_false_iff] at h
  exact h.1.1

/-- The first word ends at the first blank behind it. -/
theorem firstWord_append (hw : w ≠ []) (hword : ∀ c ∈ w, isSpace c = false) (rest : Text) :
    firstWord (w ++ ' ' :: rest) = (w, trim rest) := by
  have hblank : ∀ c ∈ w, (!isBlank c) = true := by
    intro c hc
    rw [isBlank_of_not_isSpace (hword c hc)]
    rfl
  have htrim : trim (w ++ ' ' :: rest) = w ++ trimRight isSpace (' ' :: rest) := by
    obtain ⟨u, x, rfl⟩ : ∃ u x, w = u ++ [x] := ⟨_, _, (List.dropLast_append_getLast hw).symm⟩
    have hx : isSpace x = false := hword x (by simp)
    have hu : trimLeft isSpace u = u := by
      refine List.dropWhile_eq_self_iff.mpr fun hpos => ?_
      simp [hword u[0] (by simp)]
    rw [List.append_assoc, List.singleton_append, trim, trimBy_append_cons hx, hu,
      List.append_assoc, List.singleton_append]
  rw [firstWord, htrim, List.takeWhile_append_of_pos hblank, List.dropWhile_append_of_pos hblank]
  -- Blanks behind the word are trimmed, the first one with them, if nothing follows.
  by_cases hrest : ∃ d ∈ rest, isSpace d = false
  · rw [trimRight_cons hrest, List.takeWhile_cons_of_neg (by decide),
      List.dropWhile_cons_of_neg (by decide), List.append_nil, List.drop_one, List.tail_cons, trim,
      trimBy_trimRight]
    rfl
  · have hall : ∀ d ∈ rest, isSpace d = true := by simpa using hrest
    have hnone : trimRight isSpace (' ' :: rest) = [] :=
      List.rdropWhile_eq_nil_iff.mpr (List.forall_mem_cons.mpr ⟨by decide, hall⟩)
    have hempty : trim rest = [] := trimBy_eq_nil_iff.mpr hall
    rw [hnone, hempty]
    exact congrArg (·, []) (List.append_nil w)

end Text

end CrossDoc
