import CrossDoc.Text

/-!
# Pieces of texts

A text is taken apart at a separator or at its line feeds, and put together from
pieces again.  Pieces hold no separator, and nothing that the text does not hold.
-/

namespace CrossDoc

namespace Text

/-! ## Pieces between separators -/

variable {sep : Char}

theorem splitAt_of_not_mem : ∀ {t : Text}, sep ∉ t → splitAt sep t = [t]
  | [], _ => rfl
  | c :: rest, h => by
      have hc : c ≠ sep := fun he => h (he ▸ List.mem_cons_self)
      have hrest := splitAt_of_not_mem fun hr => h (List.mem_cons_of_mem c hr)
      rw [splitAt, if_neg hc, hrest]

theorem splitAt_append (t : Text) : ∀ {p : Text}, sep ∉ p →
    splitAt sep (p ++ sep :: t) = p :: splitAt sep t
  | [], _ => by rw [List.nil_append, splitAt, if_pos rfl]
  | c :: rest, h => by
      have hc : c ≠ sep := fun he => h (he ▸ List.mem_cons_self)
      have hrest := splitAt_append t fun hr => h (List.mem_cons_of_mem c hr)
      rw [List.cons_append, splitAt, if_neg hc, hrest]

/-- Splitting undoes joining when no piece holds the separator. -/
theorem splitAt_join : ∀ {ts : List Text}, ts ≠ [] → (∀ t ∈ ts, sep ∉ t) →
    splitAt sep (join [sep] ts) = ts
  | [], h, _ => absurd rfl h
  | [t], _, h => splitAt_of_not_mem (h t (by simp))
  | t :: u :: rest, _, h => by
      have hrest := splitAt_join (List.cons_ne_nil u rest)
        fun v hv => h v (List.mem_cons_of_mem t hv)
      rw [join, List.append_assoc, List.singleton_append, splitAt_append _ (h t (by simp)), hrest]

theorem splitAt_ne_nil {c : Char} : ∀ t : Text, splitAt c t ≠ []
  | [] => List.cons_ne_nil _ _
  | d :: rest => by
      rw [splitAt]
      split
      · exact List.cons_ne_nil _ _
      · split <;> exact List.cons_ne_nil _ _

theorem join_splitAt {c : Char} : ∀ t : Text, join [c] (splitAt c t) = t
  | [] => rfl
  | d :: rest => by
      have ih := join_splitAt (c := c) rest
      obtain ⟨p, ps, hpieces⟩ := List.exists_cons_of_ne_nil (splitAt_ne_nil (c := c) rest)
      rw [splitAt, hpieces]
      rw [hpieces] at ih
      split
      · next hd => rw [join, ih, hd, List.nil_append, List.singleton_append]
      · cases ps with
        | nil => rw [← ih, join, join]
        | cons q qs => rw [← ih, join, join, List.cons_append, List.cons_append]

theorem not_mem_of_mem_splitAt : ∀ {t p : Text}, p ∈ splitAt sep t → sep ∉ p
  | [], p, h => by
      rw [List.mem_singleton.mp h]
      exact List.not_mem_nil
  | d :: rest, p, h => by
      have ih : ∀ q ∈ splitAt sep rest, sep ∉ q := fun q hq => not_mem_of_mem_splitAt hq
      obtain ⟨q, qs, hpieces⟩ := List.exists_cons_of_ne_nil (splitAt_ne_nil (c := sep) rest)
      rw [splitAt, hpieces] at h
      rw [hpieces] at ih
      split at h
      · rcases List.mem_cons.mp h with rfl | h
        · exact List.not_mem_nil
        · exact ih p h
      · next hd =>
        rcases List.mem_cons.mp h with rfl | h
        · rintro hmem
          rcases List.mem_cons.mp hmem with he | hmem
          · exact hd he.symm
          · exact ih q List.mem_cons_self hmem
        · exact ih p (List.mem_cons_of_mem q h)

/-- Joining brings no characters but those of the pieces and of the separator. -/
theorem exists_of_mem_join {between : Text} {c : Char} : ∀ {ts : List Text},
    c ∈ join between ts → c ∈ between ∨ ∃ t ∈ ts, c ∈ t
  | [], h => absurd h List.not_mem_nil
  | [t], h => Or.inr ⟨t, List.mem_singleton_self t, h⟩
  | t :: u :: rest, h => by
      rw [join] at h
      rcases List.mem_append.mp h with h | h
      · rcases List.mem_append.mp h with h | h
        · exact Or.inr ⟨t, List.mem_cons_self, h⟩
        · exact Or.inl h
      · rcases exists_of_mem_join h with h | ⟨v, hv, h⟩
        · exact Or.inl h
        · exact Or.inr ⟨v, List.mem_cons_of_mem t hv, h⟩

theorem mem_join_of_mem {between : Text} {c : Char} : ∀ {ts : List Text} {t : Text},
    t ∈ ts → c ∈ t → c ∈ join between ts
  | [u], t, h, hc => by
      rw [List.mem_singleton.mp h] at hc
      exact hc
  | u :: v :: rest, t, h, hc => by
      rw [join]
      rcases List.mem_cons.mp h with rfl | h
      · exact List.mem_append_left _ (List.mem_append_left _ hc)
      · exact List.mem_append_right _ (mem_join_of_mem h hc)

theorem join_cons {between : Text} {ts : List Text} (h : ts ≠ []) (t : Text) :
    join between (t :: ts) = t ++ between ++ join between ts := by
  obtain ⟨u, rest, rfl⟩ := List.exists_cons_of_ne_nil h
  rfl

theorem join_append {between : Text} {ts us : List Text} (hts : ts ≠ []) (hus : us ≠ []) :
    join between (ts ++ us) = join between ts ++ between ++ join between us := by
  induction ts with
  | nil => exact absurd rfl hts
  | cons t rest ih =>
      by_cases hrest : rest = []
      · rw [hrest, List.singleton_append, join_cons hus, join]
      · rw [List.cons_append, join_cons (by simp [hrest]), join_cons hrest, ih hrest]
        simp only [List.append_assoc]

/-- Texts may be taken apart at the separator before they are joined. -/
theorem join_flatMap_splitAt (ts : List Text) :
    join [sep] (ts.flatMap (splitAt sep)) = join [sep] ts := by
  induction ts with
  | nil => rfl
  | cons t rest ih =>
      by_cases hrest : rest = []
      · rw [hrest, List.flatMap_cons, List.flatMap_nil, List.append_nil, join_splitAt, join]
      · have hpieces : rest.flatMap (splitAt sep) ≠ [] := by
          rw [Ne, List.flatMap_eq_nil_iff]
          obtain ⟨u, more, rfl⟩ := List.exists_cons_of_ne_nil hrest
          exact fun h => splitAt_ne_nil u (h u List.mem_cons_self)
        rw [List.flatMap_cons, join_append (splitAt_ne_nil t) hpieces, join_splitAt, ih,
          join_cons hrest]

theorem flatMap_splitAt_of_not_mem {ts : List Text} (h : ∀ t ∈ ts, sep ∉ t) :
    ts.flatMap (splitAt sep) = ts := by
  induction ts with
  | nil => rfl
  | cons t rest ih =>
      rw [List.flatMap_cons, splitAt_of_not_mem (h t List.mem_cons_self),
        ih fun u hu => h u (List.mem_cons_of_mem t hu)]
      rfl

/-- A piece holds only what the text holds. -/
theorem mem_of_mem_splitAt {t p : Text} (h : p ∈ splitAt sep t) {c : Char} (hc : c ∈ p) :
    c ∈ t := by
  rw [← join_splitAt (c := sep) t]
  exact mem_join_of_mem h hc

/-- What stands before the first slash is the same in equal texts. -/
theorem append_slash_inj {a b x y : Text} (ha : '/' ∉ a) (hb : '/' ∉ b) :
    a ++ '/' :: x = b ++ '/' :: y ↔ a = b ∧ x = y := by
  constructor
  · intro h
    have hsplit := congrArg (splitAt '/') h
    rw [splitAt_append x ha, splitAt_append y hb] at hsplit
    obtain rfl := (List.cons.inj hsplit).1
    exact ⟨rfl, (List.cons.inj (List.append_cancel_left h)).2⟩
  · rintro ⟨rfl, rfl⟩
    rfl

theorem append_slash_prefix {a b x y : Text} (ha : '/' ∉ a) (hb : '/' ∉ b) :
    a ++ '/' :: x <+: b ++ '/' :: y ↔ a = b ∧ x <+: y := by
  constructor
  · rintro ⟨z, hz⟩
    rw [List.append_assoc, List.cons_append, append_slash_inj ha hb] at hz
    exact ⟨hz.1, z, hz.2⟩
  · rintro ⟨rfl, z, rfl⟩
    exact ⟨z, by simp⟩

/-! ## Prefixes -/

theorem dropPrefix?_eq_some : ∀ {p t u : Text}, dropPrefix? p t = some u ↔ t = p ++ u
  | [], t, u => by rw [dropPrefix?, Option.some.injEq, List.nil_append]
  | a :: p, [], u => by simp [dropPrefix?]
  | a :: p, c :: t, u => by
      rw [dropPrefix?, List.cons_append, List.cons.injEq]
      split
      · next hac =>
        rw [dropPrefix?_eq_some]
        simp [hac]
      · next hac => simp [Ne.symm hac]

theorem startsWith_iff {p t : Text} : startsWith p t = true ↔ p <+: t := by
  rw [startsWith, Option.isSome_iff_exists]
  exact exists_congr fun rest => dropPrefix?_eq_some.trans eq_comm

/-! ## Lines -/

theorem lines_append (t : Text) : ∀ {l : Text}, '\n' ∉ l → lines (l ++ '\n' :: t) = l :: lines t
  | [], _ => by rw [List.nil_append, lines, if_pos rfl]
  | d :: rest, h => by
      have hd : d ≠ '\n' := fun he => h (he ▸ List.mem_cons_self)
      have ih := lines_append t fun hmem => h (List.mem_cons_of_mem d hmem)
      rw [List.cons_append, lines, if_neg hd, ih]

theorem lines_of_not_mem : ∀ {l : Text}, '\n' ∉ l → l ≠ [] → lines l = [l]
  | [d], h, _ => by
      have hd : d ≠ '\n' := fun he => h (he ▸ List.mem_cons_self)
      rw [lines, if_neg hd, lines]
  | d :: e :: rest, h, _ => by
      have hd : d ≠ '\n' := fun he => h (he ▸ List.mem_cons_self)
      have ih := lines_of_not_mem (fun hmem => h (List.mem_cons_of_mem d hmem))
        (List.cons_ne_nil e rest)
      rw [lines, if_neg hd, ih]

/-- A text is a line, or it goes on behind the line feed that ends its first line. -/
@[elab_as_elim]
theorem lines_induction {motive : Text → Prop} (last : ∀ l, '\n' ∉ l → motive l)
    (more : ∀ l t, '\n' ∉ l → motive t → motive (l ++ '\n' :: t)) (t : Text) : motive t := by
  by_cases hfeed : '\n' ∈ t
  · obtain ⟨l, rest, ht, hl⟩ := List.eq_append_cons_of_mem hfeed
    have hshorter : rest.length < t.length := by
      rw [ht, List.length_append, List.length_cons]
      omega
    rw [ht]
    exact more l rest hl (lines_induction last more rest)
  · exact last t hfeed
termination_by t.length

theorem not_mem_of_mem_lines {t l : Text} (h : l ∈ lines t) : '\n' ∉ l := by
  induction t using lines_induction with
  | last t ht =>
      by_cases hne : t = []
      · rw [hne, lines] at h
        cases h
      · rw [lines_of_not_mem ht hne, List.mem_singleton] at h
        exact h ▸ ht
  | more m t hm ih =>
      rw [lines_append t hm] at h
      rcases List.mem_cons.mp h with rfl | h
      · exact hm
      · exact ih h

theorem lines_ne_nil {t : Text} (h : t ≠ []) : lines t ≠ [] := by
  induction t using lines_induction with
  | last t ht =>
      rw [lines_of_not_mem ht h]
      exact List.cons_ne_nil t []
  | more l t hl _ =>
      rw [lines_append t hl]
      exact List.cons_ne_nil l _

theorem unlines_cons {ls : List Text} (h : ls ≠ []) (l : Text) :
    unlines (l :: ls) = l ++ '\n' :: unlines ls := by
  rw [unlines, join_cons h, List.append_assoc, List.singleton_append, unlines]

/-- A text without a line feed at its end is told by its lines, and the last of them is filled. -/
theorem unlines_lines {t : Text} (h : t.getLast? ≠ some '\n') :
    unlines (lines t) = t ∧ (lines t).getLast? ≠ some [] := by
  induction t using lines_induction with
  | last t ht =>
      by_cases hne : t = []
      · rw [hne]
        exact ⟨rfl, nofun⟩
      · rw [lines_of_not_mem ht hne]
        exact ⟨rfl, fun he => hne (Option.some.inj he)⟩
  | more l t hl ih =>
      have hne : t ≠ [] := by
        rintro rfl
        exact h List.getLast?_concat
      obtain ⟨m, rest, hlines⟩ := List.exists_cons_of_ne_nil (lines_ne_nil hne)
      have hend : (l ++ '\n' :: t).getLast? = t.getLast? := by
        rw [List.getLast?_append, List.getLast?_cons_of_ne_nil hne]
        exact Option.or_of_isSome (List.getLast?_isSome.mpr hne)
      rw [hend] at h
      obtain ⟨hjoin, hlast⟩ := ih h
      rw [hlines] at hjoin hlast
      rw [lines_append t hl, hlines, unlines, join, List.getLast?_cons_cons]
      refine ⟨?_, hlast⟩
      rw [← unlines, hjoin, List.append_assoc, List.singleton_append]

/-- Putting lines together and reading them again loses at most an empty last line. -/
theorem lines_unlines : ∀ {ls : List Text}, (∀ l ∈ ls, '\n' ∉ l) →
    ls = lines (unlines ls) ∨ ls = lines (unlines ls) ++ [[]]
  | [], _ => .inl rfl
  | [l], h => by
      by_cases hne : l = []
      · rw [hne]
        exact .inr rfl
      · exact .inl (lines_of_not_mem (h l List.mem_cons_self) hne).symm
  | l :: m :: rest, h => by
      have ih := lines_unlines fun n hn => h n (List.mem_cons_of_mem l hn)
      have hlines : lines (unlines (l :: m :: rest)) = l :: lines (unlines (m :: rest)) := by
        rw [unlines, join, List.append_assoc, List.singleton_append,
          lines_append _ (h l List.mem_cons_self)]
        rfl
      rw [hlines, List.cons_append]
      exact ih.imp (congrArg (l :: ·)) (congrArg (l :: ·))

/-- The pieces between line feeds are the lines, and the empty one behind a line feed at the end. -/
theorem splitAt_lineFeed (t : Text) :
    splitAt '\n' t = lines t ∨ splitAt '\n' t = lines t ++ [[]] := by
  have h := lines_unlines fun l (hl : l ∈ splitAt '\n' t) => not_mem_of_mem_splitAt hl
  rwa [unlines, join_splitAt] at h

theorem lines_unlines_of_last {ls : List Text} (h : ∀ l ∈ ls, '\n' ∉ l)
    (hlast : ls.getLast? ≠ some []) : lines (unlines ls) = ls := by
  rcases lines_unlines h with heq | heq
  · exact heq.symm
  · rw [heq] at hlast
    exact absurd List.getLast?_concat hlast

/-- Lines that end with a line feed each are the lines of their text. -/
theorem lines_flatMap {ls : List Text} (h : ∀ l ∈ ls, '\n' ∉ l) :
    lines (ls.flatMap (· ++ ['\n'])) = ls := by
  induction ls with
  | nil => rfl
  | cons l rest ih =>
      have hrest := ih fun m hm => h m (List.mem_cons_of_mem l hm)
      rw [List.flatMap_cons, List.append_assoc, List.singleton_append,
        lines_append _ (h l List.mem_cons_self), hrest]

/-- Every line feed ends a line. -/
theorem count_lineFeed_le_length_lines : ∀ t : Text, t.count '\n' ≤ (lines t).length
  | [] => Nat.le_refl 0
  | c :: rest => by
      have ih := count_lineFeed_le_length_lines rest
      rw [lines]
      split
      · next hc =>
        rw [hc, List.count_cons_self, List.length_cons]
        exact Nat.succ_le_succ ih
      · next hc =>
        rw [List.count_cons_of_ne hc]
        split
        · next hnone =>
          rw [hnone] at ih
          exact Nat.le_trans ih (Nat.zero_le 1)
        · next hsome =>
          rw [hsome] at ih
          exact ih

end Text

end CrossDoc
