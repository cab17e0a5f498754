import CrossDoc.Listing.Symbol
import CrossDoc.Proofs.Trimming

/-!
# Splitting parameter lists

The parameters of a function are cut out of its signature twice.  First the text between
the parentheses is found, where only parentheses count; then it is split at the commas
outside of all brackets.  A text in which parentheses are nested leaves the first search
at the depth where it came to it, and a text whose brackets are balanced the second one;
so pieces like that come out as they were put together.
-/

namespace CrossDoc

namespace Symbol

variable {c left right prev : Char} {commas : Bool} {s t : Text} {d : Int}

/-! ## Nested brackets -/

def isBracket (c : Char) : Bool := c ∈ ['(', '<', '[', ')', '>', ']']

/-- The brackets belong together. -/
inductive IsPair : Char → Char → Prop where
  | round : IsPair '(' ')'
  | angle : IsPair '<' '>'
  | square : IsPair '[' ']'

/-- The brackets of a text are nested, where the `>` of an arrow is none.  Commas may stand
outside of them only if `commas` says so. -/
inductive IsNested : Bool → Text → Prop where
  | nil {commas : Bool} : IsNested commas []
  | char {commas : Bool} {c : Char} {t : Text} (hc : isBracket c = false)
      (hcomma : c = ',' → commas = true) (ht : IsNested commas t) : IsNested commas (c :: t)
  | arrow {commas : Bool} {t : Text} (ht : IsNested commas t) : IsNested commas ('-' :: '>' :: t)
  | bracket {commas : Bool} {left right : Char} {inner t : Text} (hpair : IsPair left right)
      (hclose : right = '>' → inner.getLast? ≠ some '-') (hinner : IsNested true inner)
      (ht : IsNested commas t) : IsNested commas (left :: (inner ++ right :: t))

namespace IsNested

theorem append (hs : IsNested commas s) (ht : IsNested commas t) : IsNested commas (s ++ t) := by
  induction hs with
  | nil => exact ht
  | char hc hcomma _ ih => exact char hc hcomma (ih ht)
  | arrow _ ih => exact arrow (ih ht)
  | bracket hpair hclose hinner _ _ ih =>
      rw [List.cons_append, List.append_assoc, List.cons_append]
      exact bracket hpair hclose hinner (ih ht)

theorem of_chars (h : ∀ c ∈ t, isBracket c = false ∧ (c = ',' → commas = true)) :
    IsNested commas t := by
  induction t with
  | nil => exact nil
  | cons c rest ih =>
      obtain ⟨hc, hcomma⟩ := h c List.mem_cons_self
      exact char hc hcomma (ih fun e he => h e (List.mem_cons_of_mem c he))

theorem of_all (h : t.all (fun c => !isBracket c && (c != ',' || commas)) = true) :
    IsNested commas t := by
  refine of_chars fun c hc => ?_
  have hplain := List.all_eq_true.mp h c hc
  simp only [Bool.and_eq_true, Bool.not_eq_true', Bool.or_eq_true, bne_iff_ne] at hplain
  exact ⟨hplain.1, fun hcomma => hplain.2.resolve_left fun hne => hne hcomma⟩

theorem of_blanks (h : ∀ c ∈ t, Text.isBlank c = true) : IsNested commas t := by
  refine of_chars fun c hc => ?_
  have hblank := h c hc
  simp only [Text.isBlank, Bool.or_eq_true, beq_iff_eq] at hblank
  rcases hblank with rfl | rfl
  · exact ⟨rfl, fun he => absurd he (by decide)⟩
  · exact ⟨rfl, fun he => absurd he (by decide)⟩

/-- Blanks around a text do not count. -/
theorem of_trimBlanks (h : IsNested commas (trimBlanks t)) : IsNested commas t := by
  obtain ⟨before, after, ht, hbefore, hafter⟩ := Text.exists_trimBy Text.isBlank t
  rw [ht]
  exact (of_blanks hbefore).append (h.append (of_blanks hafter))

end IsNested

/-! ## Between the parentheses -/

/-- The parentheses of a text are nested, whatever its other brackets do. -/
inductive IsRoundNested : Text → Prop where
  | nil : IsRoundNested []
  | char {c : Char} {t : Text} (hc : c ≠ '(' ∧ c ≠ ')') (ht : IsRoundNested t) :
      IsRoundNested (c :: t)
  | round {inner t : Text} (hinner : IsRoundNested inner) (ht : IsRoundNested t) :
      IsRoundNested ('(' :: (inner ++ ')' :: t))

namespace IsRoundNested

theorem append (hs : IsRoundNested s) (ht : IsRoundNested t) : IsRoundNested (s ++ t) := by
  induction hs with
  | nil => exact ht
  | char hc _ ih => exact char hc ih
  | round hinner _ _ ih =>
      rw [List.cons_append, List.append_assoc, List.cons_append]
      exact round hinner ih

theorem of_all (h : t.all (fun c => c != '(' && c != ')') = true) : IsRoundNested t := by
  induction t with
  | nil => exact nil
  | cons c rest ih =>
      simp only [List.all_cons, Bool.and_eq_true, bne_iff_ne] at h
      exact char h.1 (ih h.2)

theorem join : ∀ {ts : List Text}, (∀ t ∈ ts, IsRoundNested t) → IsRoundNested (Text.join "," ts)
  | [], _ => nil
  | [t], h => h t List.mem_cons_self
  | t :: u :: rest, h => by
      rw [Text.join]
      have hcomma : IsRoundNested (",".toList : Text) := of_all (by decide)
      exact ((h t List.mem_cons_self).append hcomma).append
        (join fun v hv => h v (List.mem_cons_of_mem t hv))

end IsRoundNested

theorem IsNested.isRoundNested (h : IsNested commas t) : IsRoundNested t := by
  induction h with
  | nil => exact .nil
  | @char _ c t hc _ _ ih =>
      refine .char ⟨?_, ?_⟩ ih <;>
      · rintro rfl
        exact absurd hc (by decide)
  | arrow _ ih => exact .char (by decide) (.char (by decide) ih)
  | bracket hpair _ _ _ ihinner iht =>
      cases hpair with
      | round => exact .round ihinner iht
      | angle | square => exact .char (by decide) (ihinner.append (.char (by decide) iht))

/-- A text with nested parentheses leaves the search for the closing one where it was. -/
theorem untilClosed_append (h : IsRoundNested t) : ∀ {depth : Nat} (rest : Text), 0 < depth →
    untilClosed depth (t ++ rest) = (untilClosed depth rest).map (t ++ ·) := by
  induction h with
  | nil => exact fun rest _ => Option.map_id'.symm
  | @char c t hc _ ih =>
      intro depth rest hdepth
      rw [List.cons_append, untilClosed, if_neg hc.1, if_neg hc.2, ih rest hdepth, Option.map_map]
      rfl
  | @round inner t _ _ ihinner iht =>
      intro depth rest hdepth
      rw [List.cons_append, List.append_assoc, List.cons_append, untilClosed, if_pos rfl,
        ihinner _ (Nat.succ_pos depth), untilClosed, if_neg (by decide), if_pos rfl,
        if_neg (by omega), Nat.succ_sub_one, iht rest hdepth]
      simp [Function.comp_def]

theorem parameterText?_append {before params : Text} (hbefore : '(' ∉ before)
    (hparams : IsRoundNested params) (rest : Text) :
    parameterText? (before ++ '(' :: (params ++ ')' :: rest)) = some params := by
  have hskip : (before ++ '(' :: (params ++ ')' :: rest)).dropWhile (· != '(') =
      '(' :: (params ++ ')' :: rest) := by
    rw [List.dropWhile_append_of_pos, List.dropWhile_cons_of_neg (by decide)]
    intro c hc
    simpa using fun he : c = '(' => hbefore (he ▸ hc)
  rw [parameterText?, hskip]
  exact (untilClosed_append hparams _ Nat.one_pos).trans (by simp [untilClosed])

/-! ## The depth of brackets -/

/-- The depth behind a character. -/
def depthAfter (d : Int) (prev c : Char) : Int :=
  if c = '(' ∨ c = '<' ∨ c = '[' then d + 1
  else if (c = ')' ∨ c = '>' ∨ c = ']') ∧ !(c == '>' && prev == '-') then d - 1
  else d

theorem depthAfter_char (hc : isBracket c = false) : depthAfter d prev c = d := by
  simp only [isBracket, List.mem_cons, decide_eq_false_iff_not, not_or] at hc
  obtain ⟨h1, h2, h3, h4, h5, h6, -⟩ := hc
  simp [depthAfter, h1, h2, h3, h4, h5, h6]

theorem depthAfter_left (h : IsPair left right) : depthAfter d prev left = d + 1 := by
  cases h <;> rfl

theorem depthAfter_right (h : IsPair left right) (hprev : right = '>' → prev ≠ '-') :
    depthAfter d prev right = d - 1 := by
  cases h with
  | round | square => rfl
  | angle => simp [depthAfter, hprev rfl]

/-- The depth behind a text, from the depth and the character in front of it. -/
def depthBehind (d : Int) (prev : Char) : Text → Int
  | [] => d
  | c :: rest => depthBehind (depthAfter d prev c) c rest

theorem depthBehind_append (d : Int) (prev : Char) (s t : Text) :
    depthBehind d prev (s ++ t) =
      depthBehind (depthBehind d prev s) (s.getLast?.getD prev) t := by
  induction s generalizing d prev with
  | nil => rfl
  | cons c rest ih =>
      rw [List.cons_append, depthBehind, depthBehind, ih, List.getLast?_cons, Option.getD_some]

/-- Only the dash of an arrow counts in front of a text. -/
theorem depthBehind_congr {prev' : Char} (hprev : prev ≠ '-') (hprev' : prev' ≠ '-') (t : Text) :
    depthBehind d prev t = depthBehind d prev' t := by
  cases t with
  | nil => rfl
  | cons c rest => simp [depthBehind, depthAfter, hprev, hprev']

/-- The character in front of what follows closes no arrow. -/
theorem IsPair.ne_dash {inner : Text} (hpair : IsPair left right)
    (hclose : right = '>' → inner.getLast? ≠ some '-') :
    right = '>' → inner.getLast?.getD left ≠ '-' := by
  intro hright
  cases hlast : inner.getLast? with
  | none => cases hpair <;> decide
  | some e => exact fun he => hclose hright (hlast.trans (congrArg some he))

/-- Nested brackets are balanced, wherever the text stands. -/
theorem IsNested.depthBehind_eq (h : IsNested commas t) (d : Int) (prev : Char) :
    depthBehind d prev t = d := by
  induction h generalizing d prev with
  | nil => rfl
  | char hc _ _ ih => rw [depthBehind, depthAfter_char hc, ih]
  | arrow _ ih =>
      have harrow : depthAfter d '-' '>' = d := by simp [depthAfter]
      rw [depthBehind, depthAfter_char (by decide), depthBehind, harrow, ih]
  | bracket hpair hclose _ _ ihinner iht =>
      rw [depthBehind, depthAfter_left hpair, depthBehind_append, ihinner, depthBehind,
        depthAfter_right hpair (hpair.ne_dash hclose), Int.add_sub_cancel, iht]

/-! ## Between the commas -/

/-- No comma of the text stands where the depth is zero. -/
def KeepsTogether (d : Int) (prev : Char) (t : Text) : Prop :=
  ∀ u v, t = u ++ ',' :: v → depthBehind d prev u ≠ 0

theorem keepsTogether_nil (d : Int) (prev : Char) : KeepsTogether d prev [] := by
  intro u v h
  simp at h

theorem keepsTogether_cons : KeepsTogether d prev (c :: t) ↔
    ¬ (c = ',' ∧ d = 0) ∧ KeepsTogether (depthAfter d prev c) c t := by
  constructor
  · intro h
    exact ⟨fun hcomma => h [] t (by rw [hcomma.1]; rfl) hcomma.2,
      fun u v ht => h (c :: u) v (by rw [ht]; rfl)⟩
  · rintro ⟨hcomma, ht⟩ u v huv
    cases u with
    | nil => exact fun hd => hcomma ⟨(List.cons.inj huv).1, hd⟩
    | cons e u =>
        obtain ⟨rfl, hrest⟩ := List.cons.inj huv
        exact ht u v hrest

instance decidableKeepsTogether : ∀ (d : Int) (prev : Char) (t : Text),
    Decidable (KeepsTogether d prev t)
  | d, prev, [] => isTrue (keepsTogether_nil d prev)
  | d, prev, c :: t =>
      have := decidableKeepsTogether (depthAfter d prev c) c t
      decidable_of_iff _ keepsTogether_cons.symm

theorem KeepsTogether.append (hs : KeepsTogether d prev s)
    (ht : KeepsTogether (depthBehind d prev s) (s.getLast?.getD prev) t) :
    KeepsTogether d prev (s ++ t) := by
  induction s generalizing d prev with
  | nil => exact ht
  | cons c rest ih =>
      obtain ⟨hcomma, hrest⟩ := keepsTogether_cons.mp hs
      rw [List.getLast?_cons, Option.getD_some] at ht
      exact keepsTogether_cons.mpr ⟨hcomma, ih hrest ht⟩

theorem IsNested.keepsTogether (h : IsNested commas t) : ∀ {d : Int} (prev : Char), 0 ≤ d →
    (commas = true → d ≠ 0) → KeepsTogether d prev t := by
  induction h with
  | nil => exact fun prev _ _ => keepsTogether_nil _ prev
  | char hc hcomma _ ih =>
      intro d prev hd hdepth
      rw [keepsTogether_cons, depthAfter_char hc]
      exact ⟨fun h => hdepth (hcomma h.1) h.2, ih _ hd hdepth⟩
  | arrow _ ih =>
      intro d prev hd hdepth
      have harrow : depthAfter d '-' '>' = d := by simp [depthAfter]
      rw [keepsTogether_cons, depthAfter_char (by decide), keepsTogether_cons, harrow]
      exact ⟨by simp, by simp, ih _ hd hdepth⟩
  | @bracket commas left right inner t hpair hclose hinner _ ihinner iht =>
      intro d prev hd hdepth
      -- Inside the brackets the depth is not zero, so commas may stand there in any case.
      have hnocomma : left ≠ ',' ∧ right ≠ ',' := by cases hpair <;> decide
      rw [keepsTogether_cons, depthAfter_left hpair]
      refine ⟨fun h => hnocomma.1 h.1, (ihinner left (by omega) fun _ => by omega).append ?_⟩
      rw [hinner.depthBehind_eq, keepsTogether_cons,
        depthAfter_right hpair (hpair.ne_dash hclose), Int.add_sub_cancel]
      exact ⟨fun h => hnocomma.2 h.1, iht right hd hdepth⟩

theorem splitParameters_ne_nil (d : Int) (prev : Char) (t : Text) :
    splitParameters d prev t ≠ [] := by
  cases t with
  | nil => exact List.cons_ne_nil _ _
  | cons c rest =>
      rw [splitParameters]
      split
      · exact List.cons_ne_nil _ _
      · dsimp only
        split <;> exact List.cons_ne_nil _ _

theorem splitParameters_cons (h : ¬ (c = ',' ∧ d = 0)) (prev : Char) (rest : Text) :
    splitParameters d prev (c :: rest) =
      (splitParameters (depthAfter d prev c) c rest).modifyHead (c :: ·) := by
  obtain ⟨piece, more, hpieces⟩ := List.exists_cons_of_ne_nil
    (splitParameters_ne_nil (depthAfter d prev c) c rest)
  rw [hpieces, List.modifyHead_cons, splitParameters, if_neg h]
  rw [depthAfter] at hpieces
  simp only [hpieces]

/-- A text without a comma to split at goes to the first piece as a whole. -/
theorem splitParameters_append (h : KeepsTogether d prev t) (rest : Text) :
    splitParameters d prev (t ++ rest) =
      (splitParameters (depthBehind d prev t) (t.getLast?.getD prev) rest).modifyHead (t ++ ·) := by
  induction t generalizing d prev with
  | nil => exact (congrFun List.modifyHead_id _).symm
  | cons c t ih =>
      obtain ⟨hcomma, ht⟩ := keepsTogether_cons.mp h
      rw [List.cons_append, splitParameters_cons hcomma, ih ht, List.modifyHead_modifyHead,
        List.getLast?_cons, Option.getD_some]
      rfl

theorem splitParameters_of_keepsTogether (h : KeepsTogether d prev t) :
    splitParameters d prev t = [t] := by
  have hsplit := splitParameters_append h []
  rwa [List.append_nil, splitParameters, List.modifyHead_cons, List.append_nil] at hsplit

/-! ## Closed texts -/

/-- The brackets of a text are balanced, and its commas stand where some are open. -/
structure IsClosed (t : Text) : Prop where
  balanced : depthBehind 0 ' ' t = 0
  inside : KeepsTogether 0 ' ' t

instance : DecidablePred IsClosed := fun t =>
  decidable_of_iff (depthBehind 0 ' ' t = 0 ∧ KeepsTogether 0 ' ' t)
    ⟨fun h => ⟨h.1, h.2⟩, fun h => ⟨h.balanced, h.inside⟩⟩

theorem IsNested.isClosed (h : IsNested false t) : IsClosed t :=
  ⟨h.depthBehind_eq 0 ' ', h.keepsTogether ' ' (Int.le_refl 0) nofun⟩

namespace IsClosed

theorem depthBehind_eq (h : IsClosed t) (hprev : prev ≠ '-') : depthBehind 0 prev t = 0 :=
  (depthBehind_congr hprev (by decide) t).trans h.balanced

theorem keepsTogether (h : IsClosed t) (hprev : prev ≠ '-') : KeepsTogether 0 prev t :=
  fun u v huv hzero => h.inside u v huv ((depthBehind_congr (by decide) hprev u).trans hzero)

end IsClosed

theorem splitParameters_append_comma (h : IsClosed t) (hprev : prev ≠ '-') (rest : Text) :
    splitParameters 0 prev (t ++ ',' :: rest) = t :: splitParameters 0 ',' rest := by
  rw [splitParameters_append (h.keepsTogether hprev), h.depthBehind_eq hprev, splitParameters,
    if_pos ⟨rfl, rfl⟩, List.modifyHead_cons, List.append_nil]

theorem splitParameters_join : ∀ {ts : List Text}, ts ≠ [] → (∀ t ∈ ts, IsClosed t) →
    ∀ {prev}, prev ≠ '-' → splitParameters 0 prev (Text.join "," ts) = ts
  | [], h, _, _, _ => absurd rfl h
  | [t], _, h, _, hprev =>
      splitParameters_of_keepsTogether ((h t List.mem_cons_self).keepsTogether hprev)
  | t :: u :: rest, _, h, prev, hprev => by
      have hrest : splitParameters 0 ',' (Text.join "," (u :: rest)) = u :: rest :=
        splitParameters_join (List.cons_ne_nil u rest)
          (fun v hv => h v (List.mem_cons_of_mem t hv)) (by decide)
      rw [Text.join, List.append_assoc]
      exact (splitParameters_append_comma (h t List.mem_cons_self) hprev _).trans
        (congrArg (t :: ·) hrest)

theorem parameters_of_blanks {params : Text} (h : ∀ c ∈ params, Text.isBlank c = true) :
    parameters params = [] := by
  have hclosed : IsClosed params := (IsNested.of_blanks h).isClosed
  have hkeeps : KeepsTogether 0 '\x00' params := hclosed.keepsTogether (by decide)
  rw [parameters, splitParameters_of_keepsTogether hkeeps, List.map_singleton, trimBlanks,
    Text.trimBy_eq_nil_iff.mpr h]
  rfl

/-- Parameters that are closed and not blank are found between commas. -/
theorem parameters_join {ts : List Text} (hclosed : ∀ t ∈ ts, IsClosed t)
    (hfilled : ∀ t ∈ ts, trimBlanks t ≠ []) :
    parameters (Text.join "," ts) = ts.map trimBlanks := by
  by_cases hne : ts = []
  · rw [hne]
    exact parameters_of_blanks nofun
  · have hlast : ((ts.map trimBlanks).getLast? == some []) = false := by
      rw [beq_eq_false_iff_ne]
      intro h
      obtain ⟨t, ht, hblank⟩ := List.mem_map.mp (List.mem_of_getLast? h)
      exact hfilled t ht hblank
    rw [parameters, splitParameters_join hne hclosed (by decide)]
    simp only [hlast, Bool.false_eq_true, if_false]

end Symbol

end CrossDoc
