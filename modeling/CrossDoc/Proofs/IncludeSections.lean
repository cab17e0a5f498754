import CrossDoc.Proofs.TextPieces
import CrossDoc.Proofs.Trimming
import CrossDoc.Refinement.Includes

/-!
# Sections of include files

A header line starts a section, and all lines up to the next header are its text.  So
lines that are no headers go to the section above them as a whole, whatever they look
like, and sections that were written are read again.  Blank lines at the end of a text do
not count, so neither does a line feed at the end of the file.
-/

namespace CrossDoc

/-- What the header of a section starts with. -/
def SectionKind.keyword : SectionKind → Text
  | .module => "# Module"
  | .package => "# Package"

namespace IncludeSection

variable {kind : SectionKind} {name rest line : Text} {body ls : List Text} {s : IncludeSection}

/-! ## Header lines -/

/-- The line starts with the keyword of a kind, and nothing follows or a blank. -/
def IsHeader (line : Text) : Prop :=
  ∃ (kind : SectionKind) (rest : Text), line = kind.keyword ++ rest ∧
    ∀ c ∈ rest.head?, Text.isBlank c = true

theorem headerName?_eq_some : headerName? rest = some name ↔
    (∀ c ∈ rest.head?, Text.isBlank c = true) ∧ Text.trim rest = name := by
  cases rest with
  | nil => simp [headerName?, Text.trim, Text.trimBy, Text.trimLeft, Text.trimRight]
  | cons c more => simp [headerName?]

theorem header?_keyword (kind : SectionKind) (rest : Text) :
    header? (kind.keyword ++ rest) = (headerName? rest).map fun name => (kind, name) := by
  cases kind with
  | module =>
      have hmodule : Text.dropPrefix? "# Module" (SectionKind.module.keyword ++ rest) = some rest :=
        Text.dropPrefix?_eq_some.mpr rfl
      rw [header?, hmodule]
  | package =>
      have hmodule : Text.dropPrefix? "# Module" (SectionKind.package.keyword ++ rest) = none := rfl
      have hpackage :
          Text.dropPrefix? "# Package" (SectionKind.package.keyword ++ rest) = some rest :=
        Text.dropPrefix?_eq_some.mpr rfl
      rw [header?, hmodule, hpackage]
      rfl

theorem header?_of_forall_ne
    (h : ∀ (kind : SectionKind) (rest : Text), line ≠ kind.keyword ++ rest) :
    header? line = none := by
  have hmodule : Text.dropPrefix? "# Module" line = none :=
    Option.eq_none_iff_forall_ne_some.mpr fun rest hrest =>
      h .module rest (Text.dropPrefix?_eq_some.mp hrest)
  have hpackage : Text.dropPrefix? "# Package" line = none :=
    Option.eq_none_iff_forall_ne_some.mpr fun rest hrest =>
      h .package rest (Text.dropPrefix?_eq_some.mp hrest)
  rw [header?, hmodule, hpackage]
  rfl

theorem header?_eq_some : header? line = some (kind, name) ↔
    ∃ rest, line = kind.keyword ++ rest ∧ headerName? rest = some name := by
  constructor
  · intro h
    by_cases hkeyword : ∃ (kind' : SectionKind) (rest : Text), line = kind'.keyword ++ rest
    · obtain ⟨kind', rest, rfl⟩ := hkeyword
      rw [header?_keyword, Option.map_eq_some_iff] at h
      obtain ⟨name', hname, heq⟩ := h
      obtain ⟨rfl, rfl⟩ := Prod.mk.inj heq
      exact ⟨rest, rfl, hname⟩
    · push Not at hkeyword
      rw [header?_of_forall_ne hkeyword] at h
      cases h
  · rintro ⟨rest, rfl, hname⟩
    rw [header?_keyword, hname]
    rfl

theorem header?_eq_none_iff : header? line = none ↔ ¬ IsHeader line := by
  rw [Option.eq_none_iff_forall_ne_some]
  constructor
  · rintro h ⟨kind, rest, hline, hblank⟩
    exact h (kind, Text.trim rest)
      (header?_eq_some.mpr ⟨rest, hline, headerName?_eq_some.mpr ⟨hblank, rfl⟩⟩)
  · rintro h ⟨kind, name⟩ hsome
    obtain ⟨rest, hline, hname⟩ := header?_eq_some.mp hsome
    exact h ⟨kind, rest, hline, (headerName?_eq_some.mp hname).1⟩

instance : DecidablePred IsHeader := fun line =>
  decidable_of_iff (header? line ≠ none) (by rw [Ne, header?_eq_none_iff, not_not])

theorem not_isHeader_nil : ¬ IsHeader [] := header?_eq_none_iff.mp rfl

/-! ## Splitting -/

theorem split_of_not_isHeader (h : ¬ IsHeader line) (ls : List Text) :
    split (line :: ls) = (line :: (split ls).1, (split ls).2) := by
  rw [split, header?_eq_none_iff.mpr h]

theorem split_of_header? (h : header? line = some (kind, name)) (ls : List Text) :
    split (line :: ls) =
      ([], ⟨kind, name, Text.trim (Text.unlines (split ls).1)⟩ :: (split ls).2) := by
  rw [split, h]

/-- Lines that are no headers go to what is open as a whole. -/
theorem split_append (h : ∀ l ∈ body, ¬ IsHeader l) (ls : List Text) :
    split (body ++ ls) = (body ++ (split ls).1, (split ls).2) := by
  induction body with
  | nil => rfl
  | cons line rest ih =>
      rw [List.cons_append, split_of_not_isHeader (h line List.mem_cons_self),
        ih fun l hl => h l (List.mem_cons_of_mem line hl)]
      rfl

theorem trim_unlines_concat_nil (ls : List Text) :
    Text.trim (Text.unlines (ls ++ [[]])) = Text.trim (Text.unlines ls) := by
  by_cases hls : ls = []
  · rw [hls]
    rfl
  · rw [Text.unlines, Text.join_append hls (List.cons_ne_nil [] []), Text.join, List.append_nil]
    exact Text.trimBy_concat (by decide) _

/-- A blank line at the end is text of the last section, or belongs to none. -/
theorem split_concat_nil (ls : List Text) :
    ((split (ls ++ [[]])).1 = (split ls).1 ∨ (split (ls ++ [[]])).1 = (split ls).1 ++ [[]]) ∧
    (split (ls ++ [[]])).2 = (split ls).2 := by
  induction ls with
  | nil => exact ⟨.inr rfl, rfl⟩
  | cons line rest ih =>
      obtain ⟨hbody, hsections⟩ := ih
      rw [List.cons_append]
      cases hheader : header? line with
      | none =>
          have hline := header?_eq_none_iff.mp hheader
          rw [split_of_not_isHeader hline, split_of_not_isHeader hline, hsections, List.cons_append]
          exact ⟨hbody.imp (congrArg (line :: ·)) (congrArg (line :: ·)), rfl⟩
      | some header =>
          obtain ⟨kind, name⟩ := header
          have htext : Text.trim (Text.unlines (split (rest ++ [[]])).1) =
              Text.trim (Text.unlines (split rest).1) := by
            rcases hbody with hbody | hbody
            · rw [hbody]
            · rw [hbody, trim_unlines_concat_nil]
          rw [split_of_header? hheader, split_of_header? hheader, htext, hsections]
          exact ⟨.inl rfl, rfl⟩

/-! ## Reading lines -/

/-- Lines that were put together are read as the lines they were. -/
theorem parse_unlines (h : ∀ l ∈ ls, '\n' ∉ l) : parse (Text.unlines ls) = (split ls).2 := by
  rw [parse]
  rcases Text.lines_unlines h with heq | heq
  · rw [← heq]
  · conv_rhs => rw [heq]
    exact (split_concat_nil _).2.symm

theorem parse_eq_split (t : Text) : parse t = (split (Text.splitAt '\n' t)).2 := by
  have hparse :=
    parse_unlines fun l (hl : l ∈ Text.splitAt '\n' t) => Text.not_mem_of_mem_splitAt hl
  rwa [Text.unlines, Text.join_splitAt] at hparse

/-- A line feed at the end of the file does not count. -/
theorem parse_concat_lineFeed (t : Text) : parse (t ++ ['\n']) = parse t := by
  have hpieces : t ++ ['\n'] = Text.unlines (Text.splitAt '\n' t ++ [[]]) := by
    rw [Text.unlines, Text.join_append (Text.splitAt_ne_nil t) (List.cons_ne_nil [] []),
      Text.join_splitAt, Text.join, List.append_nil]
  have hlines : ∀ l ∈ Text.splitAt '\n' t ++ [[]], '\n' ∉ l := by
    intro l hl
    rcases List.mem_append.mp hl with hl | hl
    · exact Text.not_mem_of_mem_splitAt hl
    · rw [List.mem_singleton.mp hl]
      exact List.not_mem_nil
  rw [hpieces, parse_unlines hlines, (split_concat_nil _).2, parse_eq_split]

/-! ## Written sections -/

/-- The header line of a section, without a blank behind the keyword if there is no name. -/
def headerLine (s : IncludeSection) : Text :=
  s.kind.keyword ++ if s.name = [] then [] else ' ' :: s.name

/-- The lines of a preamble, and then each section, its text below its header line. -/
def write (preamble : List Text) (sections : List IncludeSection) : Text :=
  Text.unlines (preamble ++ sections.flatMap fun s => [s.headerLine, s.text])

/-- The name stands on one line, nothing has to be trimmed, and no line of the text is a
header. -/
structure IsPlain (s : IncludeSection) : Prop where
  trimmedName : Text.trim s.name = s.name
  oneLine : '\n' ∉ s.name
  trimmedText : Text.trim s.text = s.text
  noHeader : ∀ l ∈ Text.lines s.text, ¬ IsHeader l

instance : DecidablePred IsPlain := fun s =>
  decidable_of_iff (Text.trim s.name = s.name ∧ '\n' ∉ s.name ∧ Text.trim s.text = s.text ∧
      ∀ l ∈ Text.lines s.text, ¬ IsHeader l)
    ⟨fun h => ⟨h.1, h.2.1, h.2.2.1, h.2.2.2⟩, fun h => ⟨h.1, h.2, h.3, h.4⟩⟩

theorem IsPlain.header?_headerLine (h : s.IsPlain) :
    header? s.headerLine = some (s.kind, s.name) := by
  rw [headerLine, header?_eq_some]
  refine ⟨_, rfl, headerName?_eq_some.mpr ?_⟩
  split
  · next hname =>
    rw [hname]
    exact ⟨nofun, rfl⟩
  · refine ⟨by simp [Text.isBlank], ?_⟩
    exact (Text.trimBy_cons (by decide) s.name).trans h.trimmedName

theorem IsPlain.lineFeed_not_mem_headerLine (h : s.IsPlain) : '\n' ∉ s.headerLine := by
  have hkeyword : '\n' ∉ s.kind.keyword := by cases s.kind <;> decide
  rw [headerLine, List.mem_append, not_or]
  refine ⟨hkeyword, ?_⟩
  split
  · exact List.not_mem_nil
  · simpa using h.oneLine

/-- The header line, and the pieces of the text between its line feeds. -/
def pieces (s : IncludeSection) : List Text := s.headerLine :: Text.splitAt '\n' s.text

theorem IsPlain.lineFeed_not_mem_piece (h : s.IsPlain) : ∀ l ∈ s.pieces, '\n' ∉ l := by
  intro l hl
  rcases List.mem_cons.mp hl with rfl | hl
  · exact h.lineFeed_not_mem_headerLine
  · exact Text.not_mem_of_mem_splitAt hl

theorem IsPlain.not_isHeader_of_mem_splitAt (h : s.IsPlain) :
    ∀ l ∈ Text.splitAt '\n' s.text, ¬ IsHeader l := by
  intro l hl
  rcases Text.splitAt_lineFeed s.text with hpieces | hpieces
  · exact h.noHeader l (hpieces ▸ hl)
  · rw [hpieces] at hl
    rcases List.mem_append.mp hl with hl | hl
    · exact h.noHeader l hl
    · rw [List.mem_singleton.mp hl]
      exact not_isHeader_nil

variable {preamble : List Text} {sections : List IncludeSection}

/-- Written sections follow each other without anything in front of them. -/
theorem split_flatMap_pieces (h : ∀ s ∈ sections, s.IsPlain) :
    split (sections.flatMap pieces) = ([], sections) := by
  induction sections with
  | nil => rfl
  | cons s rest ih =>
      have hs := h s List.mem_cons_self
      have htext : Text.trim (Text.unlines (Text.splitAt '\n' s.text ++ [])) = s.text := by
        rw [List.append_nil, Text.unlines, Text.join_splitAt, hs.trimmedText]
      rw [List.flatMap_cons, pieces, List.cons_append, split_of_header? hs.header?_headerLine,
        split_append hs.not_isHeader_of_mem_splitAt,
        ih fun r hr => h r (List.mem_cons_of_mem s hr), htext]

theorem write_eq_unlines (hpreamble : ∀ l ∈ preamble, '\n' ∉ l)
    (hsections : ∀ s ∈ sections, s.IsPlain) :
    write preamble sections = Text.unlines (preamble ++ sections.flatMap pieces) := by
  have hpieces : (sections.flatMap fun s => [s.headerLine, s.text]).flatMap (Text.splitAt '\n') =
      sections.flatMap pieces := by
    rw [List.flatMap_assoc]
    refine List.flatMap_congr fun s hs => ?_
    rw [List.flatMap_cons, List.flatMap_singleton,
      Text.splitAt_of_not_mem (hsections s hs).lineFeed_not_mem_headerLine]
    rfl
  rw [write, Text.unlines, ← Text.join_flatMap_splitAt, List.flatMap_append, hpieces,
    Text.flatMap_splitAt_of_not_mem hpreamble, Text.unlines]

/-- **Sections that were written are read again.**  Neither the lines in front of them nor lines
in their texts count as long as they are no headers, whether or not a line feed ends the file. -/
theorem parse_writtenSections (hpreamble : ∀ l ∈ preamble, '\n' ∉ l ∧ ¬ IsHeader l)
    (hsections : ∀ s ∈ sections, s.IsPlain) :
    parse (write preamble sections) = sections ∧
    parse (write preamble sections ++ ['\n']) = sections := by
  have hlines : ∀ l ∈ preamble ++ sections.flatMap pieces, '\n' ∉ l := by
    intro l hl
    rcases List.mem_append.mp hl with hl | hl
    · exact (hpreamble l hl).1
    · obtain ⟨s, hs, hl⟩ := List.mem_flatMap.mp hl
      exact (hsections s hs).lineFeed_not_mem_piece l hl
  have hparse : parse (write preamble sections) = sections := by
    rw [write_eq_unlines (fun l hl => (hpreamble l hl).1) hsections, parse_unlines hlines,
      split_append fun l hl => (hpreamble l hl).2, split_flatMap_pieces hsections]
  exact ⟨hparse, (parse_concat_lineFeed _).trans hparse⟩

/-- What looks like a header but is none, in front of the sections. -/
def headerlikePreamble : List Text := ["ignored preamble", "# Modules are not headers", []]

/-- A section without name and text, and one with what looks like a header in its text. -/
def headerlikeSections : List IncludeSection :=
  [⟨.module, [], []⟩, ⟨.package, "a.b", "Docs.\n\n # Package c\n# Packages"⟩]

theorem parse_writtenSections_headerlike :
    (∀ l ∈ headerlikePreamble, '\n' ∉ l ∧ ¬ IsHeader l) ∧
    (∀ s ∈ headerlikeSections, s.IsPlain) ∧
    write headerlikePreamble headerlikeSections =
      "ignored preamble\n# Modules are not headers\n\n" ++
        "# Module\n\n# Package a.b\nDocs.\n\n # Package c\n# Packages" ∧
    parse (write headerlikePreamble headerlikeSections) = headerlikeSections := by
  have hpreamble : ∀ l ∈ headerlikePreamble, '\n' ∉ l ∧ ¬ IsHeader l := by decide +kernel
  have hsections : ∀ s ∈ headerlikeSections, s.IsPlain := by decide +kernel
  exact ⟨hpreamble, hsections, by decide +kernel, (parse_writtenSections hpreamble hsections).1⟩

end IncludeSection

end CrossDoc
