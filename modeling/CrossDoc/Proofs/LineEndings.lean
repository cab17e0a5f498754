import CrossDoc.Proofs.IncludeSections

/-!
# Line endings

With a carriage return in front of each line feed every line but the last has one at its
end.  Trimming drops it from names and from the ends of texts, and within a text it stays
where it was put.  So the sections of an include file come out the same, but for one
place: a keyword is the header of a section without a name if nothing follows it, and
a carriage return does.
-/

namespace CrossDoc

namespace Text

variable {ls : List Text} {l t : Text}

/-! ## Carriage returns -/

/-- A carriage return in front of each line feed. -/
def withReturns (t : Text) : Text := replaceChar '\n' ['\r', '\n'] t

theorem withReturns_of_not_mem (h : '\n' ∉ t) : withReturns t = t := by
  induction t with
  | nil => rfl
  | cons c rest ih =>
      have hc : c ≠ '\n' := fun he => h (he ▸ List.mem_cons_self)
      rw [withReturns, replaceChar, List.flatMap_cons, if_neg hc]
      exact congrArg (c :: ·) (ih fun hr => h (List.mem_cons_of_mem c hr))

theorem withReturns_append_lineFeed (hl : '\n' ∉ l) (t : Text) :
    withReturns (l ++ '\n' :: t) = (l ++ ['\r']) ++ '\n' :: withReturns t := by
  have hline : withReturns l = l := withReturns_of_not_mem hl
  rw [withReturns, replaceChar] at hline
  rw [withReturns, replaceChar, List.flatMap_append, hline, List.flatMap_cons, if_pos rfl]
  simp [withReturns, replaceChar]

theorem trim_withReturns (t : Text) : trim (withReturns t) = withReturns (trim t) := by
  refine trimBy_flatMap (fun c hc d hd => ?_) (fun c hc => if_neg ?_) t
  · split at hd
    · rcases List.mem_pair.mp hd with rfl | rfl <;> rfl
    · rw [List.mem_singleton.mp hd]
      exact hc
  · rintro rfl
    exact absurd hc (by decide)

/-- A carriage return behind each line but the last, which no line feed ends. -/
def returnLines : List Text → List Text
  | [] => []
  | [l] => [l]
  | l :: m :: rest => (l ++ ['\r']) :: returnLines (m :: rest)

theorem returnLines_cons (h : ls ≠ []) (l : Text) :
    returnLines (l :: ls) = (l ++ ['\r']) :: returnLines ls := by
  obtain ⟨m, rest, rfl⟩ := List.exists_cons_of_ne_nil h
  rfl

theorem returnLines_ne_nil : ∀ {ls : List Text}, ls ≠ [] → returnLines ls ≠ []
  | [], h => absurd rfl h
  | [_], _ => List.cons_ne_nil _ _
  | _ :: _ :: _, _ => List.cons_ne_nil _ _

theorem lineFeed_not_mem_returnLines : ∀ {ls : List Text}, (∀ l ∈ ls, '\n' ∉ l) →
    ∀ l ∈ returnLines ls, '\n' ∉ l
  | [], h => h
  | [_], h => h
  | l :: m :: rest, h => by
      have hl : '\n' ∉ l ++ ['\r'] := by simpa using h l List.mem_cons_self
      have hrest := lineFeed_not_mem_returnLines fun k hk => h k (List.mem_cons_of_mem l hk)
      exact List.forall_mem_cons.mpr ⟨hl, hrest⟩

theorem withReturns_unlines (h : ∀ l ∈ ls, '\n' ∉ l) :
    withReturns (unlines ls) = unlines (returnLines ls) := by
  induction ls with
  | nil => rfl
  | cons l rest ih =>
      have hl := h l List.mem_cons_self
      by_cases hrest : rest = []
      · rw [hrest]
        exact withReturns_of_not_mem hl
      · rw [unlines_cons hrest, withReturns_append_lineFeed hl,
          ih fun m hm => h m (List.mem_cons_of_mem l hm), returnLines_cons hrest,
          unlines_cons (returnLines_ne_nil hrest)]

theorem unlines_map_return (h : ls ≠ []) :
    unlines (ls.map (· ++ ['\r'])) = unlines (returnLines ls) ++ ['\r'] := by
  induction ls with
  | nil => exact absurd rfl h
  | cons l rest ih =>
      by_cases hrest : rest = []
      · rw [hrest]
        rfl
      · rw [List.map_cons, unlines_cons (by simpa using hrest), ih hrest, returnLines_cons hrest,
          unlines_cons (returnLines_ne_nil hrest)]
        simp

/-- Whether or not a line feed follows the last line, trimming leaves the lines of the text. -/
theorem trim_unlines_of_returns {ls' : List Text} (hlines : ∀ l ∈ ls, '\n' ∉ l)
    (h : ls' = returnLines ls ∨ ls' = ls.map (· ++ ['\r'])) :
    trim (unlines ls') = withReturns (trim (unlines ls)) := by
  rw [← trim_withReturns, withReturns_unlines hlines]
  rcases h with rfl | rfl
  · rfl
  · by_cases hls : ls = []
    · rw [hls]
      rfl
    · rw [unlines_map_return hls]
      exact trimBy_concat (by decide) _

end Text

namespace IncludeSection

variable {line : Text} {ls : List Text}

/-! ## Header lines -/

/-- The keyword of a kind stands alone. -/
def IsBareHeader (line : Text) : Prop := ∃ kind : SectionKind, line = kind.keyword

theorem header?_bareHeader_return (h : IsBareHeader line) : header? (line ++ ['\r']) = none := by
  obtain ⟨kind, rfl⟩ := h
  rw [header?_keyword]
  rfl

theorem isSome_header?_of_isBareHeader (h : IsBareHeader line) : (header? line).isSome := by
  obtain ⟨kind, rfl⟩ := h
  have hbare := header?_keyword kind []
  rw [List.append_nil] at hbare
  rw [hbare]
  rfl

/-- A carriage return hides a bare header only. -/
theorem header?_concat_return (h : ¬ IsBareHeader line) :
    header? (line ++ ['\r']) = header? line := by
  by_cases hkeyword : ∃ (kind : SectionKind) (rest : Text), line = kind.keyword ++ rest
  · obtain ⟨kind, rest, rfl⟩ := hkeyword
    cases rest with
    | nil => exact absurd ⟨kind, List.append_nil _⟩ h
    | cons c more =>
        have htrim : Text.trim (c :: (more ++ ['\r'])) = Text.trim (c :: more) :=
          Text.trimBy_concat (by decide) (c :: more)
        rw [List.append_assoc, header?_keyword, header?_keyword, List.cons_append, headerName?,
          headerName?, htrim]
  · push Not at hkeyword
    rw [header?_of_forall_ne hkeyword]
    refine header?_of_forall_ne fun kind rest heq => ?_
    rcases List.eq_nil_or_concat rest with rfl | ⟨more, c, rfl⟩
    · have hlast := congrArg List.getLast? heq
      rw [List.getLast?_concat] at hlast
      cases kind <;> exact absurd hlast (by decide)
    · rw [List.concat_eq_append, ← List.append_assoc] at heq
      exact hkeyword kind more (List.append_inj_left' heq rfl)

/-! ## Sections -/

/-- What tells sections apart without their texts. -/
def heading (s : IncludeSection) : SectionKind × Text := (s.kind, s.name)

def withReturns (s : IncludeSection) : IncludeSection := { s with text := s.text.withReturns }

/-- Each header line starts a section. -/
theorem map_heading_split (ls : List Text) : (split ls).2.map heading = ls.filterMap header? := by
  induction ls with
  | nil => rfl
  | cons line rest ih =>
      cases hheader : header? line with
      | none =>
          rw [split_of_not_isHeader (header?_eq_none_iff.mp hheader),
            List.filterMap_cons_none hheader, ih]
      | some header =>
          rw [split_of_header? hheader, List.filterMap_cons_some hheader, List.map_cons, ih]
          rfl

theorem split_fst_subset (ls : List Text) : (split ls).1 ⊆ ls := by
  induction ls with
  | nil => exact List.Subset.refl []
  | cons line rest ih =>
      cases hheader : header? line with
      | none =>
          rw [split_of_not_isHeader (header?_eq_none_iff.mp hheader)]
          exact List.cons_subset_cons line ih
      | some header =>
          rw [split_of_header? hheader]
          exact List.nil_subset _

/-- Carriage returns reach nothing but texts, if they stand behind no bare header. -/
theorem split_returnLines (hlines : ∀ l ∈ ls, '\n' ∉ l)
    (hbare : ∀ l ∈ ls.dropLast, ¬ IsBareHeader l) :
    ((split (Text.returnLines ls)).1 = Text.returnLines (split ls).1 ∨
      (split (Text.returnLines ls)).1 = (split ls).1.map (· ++ ['\r'])) ∧
    (split (Text.returnLines ls)).2 = (split ls).2.map withReturns := by
  induction ls with
  | nil => exact ⟨.inl rfl, rfl⟩
  | cons line rest ih =>
      by_cases hrest : rest = []
      · subst hrest
        cases hheader : header? line with
        | none =>
            rw [Text.returnLines, split_of_not_isHeader (header?_eq_none_iff.mp hheader)]
            exact ⟨.inl rfl, rfl⟩
        | some header =>
            rw [Text.returnLines, split_of_header? hheader]
            exact ⟨.inl rfl, rfl⟩
      · rw [List.dropLast_cons_of_ne_nil hrest] at hbare
        have hrestLines : ∀ l ∈ rest, '\n' ∉ l :=
          fun l hl => hlines l (List.mem_cons_of_mem line hl)
        obtain ⟨hbody, hsections⟩ :=
          ih hrestLines fun l hl => hbare l (List.mem_cons_of_mem line hl)
        have hreturn := header?_concat_return (hbare line List.mem_cons_self)
        rw [Text.returnLines_cons hrest]
        cases hheader : header? line with
        | none =>
            rw [split_of_not_isHeader (header?_eq_none_iff.mp hheader),
              split_of_not_isHeader (header?_eq_none_iff.mp (hreturn.trans hheader))]
            refine ⟨?_, hsections⟩
            -- If a header follows, then the line is the last of its text and ends with a return.
            by_cases hopen : (split rest).1 = []
            · rw [hopen] at hbody ⊢
              exact .inr (congrArg _ (hbody.elim id id))
            · rw [Text.returnLines_cons hopen]
              exact hbody.imp (congrArg _) (congrArg _)
        | some header =>
            have htext := Text.trim_unlines_of_returns
              (fun l hl => hrestLines l (split_fst_subset rest hl)) hbody
            rw [split_of_header? hheader, split_of_header? (hreturn.trans hheader), htext,
              hsections]
            exact ⟨.inl rfl, rfl⟩

/-- A carriage return behind a line starts no section, and behind a bare header it loses one. -/
theorem filterMap_header?_returnLines (ls : List Text) :
    ((Text.returnLines ls).filterMap header?).Sublist (ls.filterMap header?) ∧
    ((Text.returnLines ls).filterMap header? = ls.filterMap header? →
      ∀ l ∈ ls.dropLast, ¬ IsBareHeader l) := by
  induction ls with
  | nil => exact ⟨List.Sublist.refl [], fun _ => nofun⟩
  | cons line rest ih =>
      by_cases hrest : rest = []
      · subst hrest
        exact ⟨List.Sublist.refl _, fun _ => nofun⟩
      · obtain ⟨hsublist, hsame⟩ := ih
        rw [Text.returnLines_cons hrest, List.dropLast_cons_of_ne_nil hrest]
        by_cases hbare : IsBareHeader line
        · obtain ⟨header, hheader⟩ :=
            Option.isSome_iff_exists.mp (isSome_header?_of_isBareHeader hbare)
          rw [List.filterMap_cons_none (header?_bareHeader_return hbare),
            List.filterMap_cons_some hheader]
          refine ⟨hsublist.cons header, fun heq => ?_⟩
          have hlength := congrArg List.length heq
          rw [List.length_cons] at hlength
          have hle := hsublist.length_le
          omega
        · rw [List.filterMap_cons, List.filterMap_cons, header?_concat_return hbare]
          cases header? line with
          | none => exact ⟨hsublist, fun heq => List.forall_mem_cons.mpr ⟨hbare, hsame heq⟩⟩
          | some header =>
              exact ⟨hsublist.cons_cons header, fun heq =>
                List.forall_mem_cons.mpr ⟨hbare, hsame (List.cons.inj heq).2⟩⟩

/-- **Carriage returns hide bare headers and nothing else.**  With a carriage return in front of
each line feed an include file has sections of the same kinds and names exactly if none of the
lines that a line feed ends is a bare header.  The texts are then the same as well, with
the carriage returns in front of their line feeds. -/
theorem parse_withReturns_iff (t : Text) :
    ((parse t.withReturns).map heading = (parse t).map heading ↔
      ∀ l ∈ (Text.splitAt '\n' t).dropLast, ¬ IsBareHeader l) ∧
    ((∀ l ∈ (Text.splitAt '\n' t).dropLast, ¬ IsBareHeader l) →
      parse t.withReturns = (parse t).map withReturns) := by
  have hlines : ∀ l ∈ Text.splitAt '\n' t, '\n' ∉ l := fun l hl => Text.not_mem_of_mem_splitAt hl
  have hreturns : parse t.withReturns = (split (Text.returnLines (Text.splitAt '\n' t))).2 := by
    rw [← parse_unlines (Text.lineFeed_not_mem_returnLines hlines),
      ← Text.withReturns_unlines hlines, Text.unlines, Text.join_splitAt]
  have hsections : (∀ l ∈ (Text.splitAt '\n' t).dropLast, ¬ IsBareHeader l) →
      parse t.withReturns = (parse t).map withReturns := by
    intro hbare
    rw [hreturns, (split_returnLines hlines hbare).2, parse_eq_split]
  refine ⟨⟨fun hheadings => ?_, fun hbare => ?_⟩, hsections⟩
  · rw [hreturns, parse_eq_split, map_heading_split, map_heading_split] at hheadings
    exact (filterMap_header?_returnLines _).2 hheadings
  · rw [hsections hbare, List.map_map]
    rfl

/-- The section for the module the file belongs to, behind that of a package. -/
def namelessModuleText : Text := "# Package a.b\nThe package.\n# Module\nThe module.\n"

/-- With carriage returns the header of the module is taken for text of the package. -/
theorem parse_withReturns_namelessModule :
    '\r' ∉ namelessModuleText ∧
    parse namelessModuleText =
      [⟨.package, "a.b", "The package."⟩, ⟨.module, [], "The module."⟩] ∧
    parse namelessModuleText.withReturns =
      [⟨.package, "a.b", "The package.\r\n# Module\r\nThe module."⟩] := by
  decide +kernel

end IncludeSection

end CrossDoc
