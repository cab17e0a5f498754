import CrossDoc.Decl.Comment
import CrossDoc.Proofs.TextPieces
import CrossDoc.Proofs.Trimming
import Mathlib.Algebra.Ring.Parity
import Mathlib.Data.List.Induction

/-!
# The lines of a comment

Reading a comment, one stands in its text, in a tag or in a code block, and each line
moves to one of these places.  The body is made of the lines that do not lead into a
tag or go on with one.  The first paragraph ends before the first tag and before the
first fence, and behind a tag nothing but a fence leads back to the body; so the first
paragraph of a comment is that of its body.
-/

namespace CrossDoc

namespace DocComment

variable {line : Text} {ls : List Text} {r : Reading}

/-- The line opens or closes a code block. -/
def isFenceLine (line : Text) : Bool := isFence (Text.trim line)

/-- The line begins with an at sign. -/
def isTagLine (line : Text) : Bool := isTag (Text.trim line)

theorem isFenceLine_of_isTagLine (h : isTagLine line = true) : isFenceLine line = false := by
  unfold isTagLine isTag at h
  unfold isFenceLine isFence
  cases htrim : Text.trim line with
  | nil => rfl
  | cons c rest =>
      rw [htrim] at h
      obtain rfl : c = '@' := by simpa using h
      rfl

/-! ## Places -/

/-- Where one stands between the lines of a comment. -/
inductive Place where
  | text
  | tag
  | code
deriving DecidableEq, Repr

namespace Place

/-- Where one stands behind a line. -/
def after (p : Place) (line : Text) : Place :=
  if isFenceLine line then if p = code then text else code
  else if p = code then code
  else if isTagLine line then tag
  else p

/-- The lines that do not lead into a tag and do not go on with one. -/
def docLines : Place → List Text → List Text
  | _, [] => []
  | p, line :: rest =>
      if p.after line = tag then docLines (p.after line) rest
      else line :: docLines (p.after line) rest

end Place

/-! ## Reading a line -/

theorem closeTag_inFence (r : Reading) : (closeTag r).inFence = r.inFence := by
  unfold closeTag
  split <;> rfl

theorem closeTag_bodyLines (r : Reading) : (closeTag r).bodyLines = r.bodyLines := by
  unfold closeTag
  split <;> rfl

theorem closeTag_tag (r : Reading) : (closeTag r).tag = none := by
  unfold closeTag
  split
  · assumption
  · rfl

theorem readLine_eq (r : Reading) (line : Text) : readLine r line =
    if isFenceLine line then
      { closeTag r with inFence := !r.inFence, bodyLines := line :: r.bodyLines }
    else if r.inFence then addBodyLine r line
    else if isTagLine line then { closeTag r with tag := some (openTag ((Text.trim line).drop 1)) }
    else match r.tag with
      | none => addBodyLine r line
      | some tag => { r with tag := some { tag with lines := Text.trim line :: tag.lines } } := by
  have hfence : addBodyLine { closeTag r with inFence := !(closeTag r).inFence } line =
      { closeTag r with inFence := !r.inFence, bodyLines := line :: r.bodyLines } := by
    rw [addBodyLine, closeTag_inFence, closeTag_bodyLines]
  rw [← hfence]
  rfl

theorem readLine_fence (h : isFenceLine line = true) (r : Reading) : readLine r line =
    { closeTag r with inFence := !r.inFence, bodyLines := line :: r.bodyLines } := by
  simp [readLine_eq, h]

theorem readLine_inside (hfence : isFenceLine line = false) (hr : r.inFence = true) :
    readLine r line = addBodyLine r line := by
  simp [readLine_eq, hfence, hr]

theorem readLine_tag (h : isTagLine line = true) (hr : r.inFence = false) : readLine r line =
    { closeTag r with tag := some (openTag ((Text.trim line).drop 1)) } := by
  simp [readLine_eq, isFenceLine_of_isTagLine h, hr, h]

theorem readLine_text (hfence : isFenceLine line = false) (htag : isTagLine line = false)
    (hr : r.inFence = false) (hnone : r.tag = none) : readLine r line = addBodyLine r line := by
  rw [readLine_eq, hnone]
  simp [hfence, htag, hr]

theorem readLine_goesOn {tag : OpenTag} (hfence : isFenceLine line = false)
    (htag : isTagLine line = false) (hr : r.inFence = false) (hsome : r.tag = some tag) :
    readLine r line = { r with tag := some { tag with lines := Text.trim line :: tag.lines } } := by
  rw [readLine_eq, hsome]
  simp [hfence, htag, hr]

/-- Where one stands in what has been read. -/
def Reading.place (r : Reading) : Place :=
  if r.inFence then .code else if r.tag.isSome then .tag else .text

/-- A line leads to the next place, and it is kept unless this is a tag. -/
theorem place_readLine (r : Reading) (line : Text) :
    (readLine r line).place = r.place.after line ∧ (readLine r line).bodyLines =
      if r.place.after line = .tag then r.bodyLines else line :: r.bodyLines := by
  unfold Reading.place Place.after
  cases hfence : isFenceLine line with
  | true =>
      rw [readLine_fence hfence]
      cases hr : r.inFence <;> cases r.tag <;> simp [closeTag_tag]
  | false =>
      cases hr : r.inFence with
      | true =>
          rw [readLine_inside hfence hr]
          simp [addBodyLine, hr]
      | false =>
          cases htag : isTagLine line with
          | true =>
              rw [readLine_tag htag hr]
              cases r.tag <;> simp [closeTag_inFence, closeTag_bodyLines, hr]
          | false =>
              cases hopen : r.tag with
              | none =>
                  rw [readLine_text hfence htag hr hopen]
                  simp [addBodyLine, hr, hopen]
              | some tag =>
                  rw [readLine_goesOn hfence htag hr hopen]
                  simp [hr]

/-- The lines kept of what is read are those that are told by the place alone. -/
theorem bodyLines_foldl (ls : List Text) : ∀ r : Reading,
    (ls.foldl readLine r).bodyLines.reverse = r.bodyLines.reverse ++ r.place.docLines ls := by
  induction ls with
  | nil => exact fun r => (List.append_nil _).symm
  | cons line rest ih =>
      intro r
      obtain ⟨hplace, hlines⟩ := place_readLine r line
      rw [List.foldl_cons, ih, hplace, hlines, Place.docLines]
      split
      · rfl
      · rw [List.reverse_cons, List.append_assoc, List.singleton_append]

theorem body_shareSince (d : DocComment) : (shareSince d).body = d.body := by
  unfold shareSince
  split
  · split <;> rfl
  · rfl

theorem body_parse (t : Text) :
    (parse t).body = Text.trim (Text.unlines (Place.text.docLines (Text.lines t))) := by
  have hlines := bodyLines_foldl (Text.lines t) {}
  rw [parse, body_shareSince, closeTag_bodyLines, hlines]
  rfl

/-! ## Blocks and tags -/

/-- A code block is open behind the lines. -/
def EndsInBlock (ls : List Text) : Prop := Odd (ls.countP isFenceLine)

/-- The last of the lines is part of a tag.  A tag is a line that begins with an at sign outside
of code blocks, with the lines behind it up to the next fence. -/
def EndsInTag (ls : List Text) : Prop :=
  ∃ before line rest, ls = before ++ line :: rest ∧ ¬ EndsInBlock before ∧
    isTagLine line = true ∧ ∀ l ∈ rest, isFenceLine l = false

theorem endsInBlock_concat : EndsInBlock (ls ++ [line]) ↔
    if isFenceLine line then ¬ EndsInBlock ls else EndsInBlock ls := by
  unfold EndsInBlock
  cases h : isFenceLine line with
  | true => simp [List.countP_append, h, Nat.odd_add_one]
  | false => simp [List.countP_append, h]

theorem endsInTag_concat : EndsInTag (ls ++ [line]) ↔
    ¬ EndsInBlock ls ∧ isTagLine line = true ∨ EndsInTag ls ∧ isFenceLine line = false := by
  constructor
  · rintro ⟨before, l, rest, heq, hblock, htag, hrest⟩
    induction rest using List.reverseRecOn with
    | nil =>
        obtain ⟨rfl, hl⟩ := List.append_inj' heq rfl
        obtain rfl := List.singleton_inj.mp hl
        exact .inl ⟨hblock, htag⟩
    | append_singleton rest m _ =>
        rw [← List.cons_append, ← List.append_assoc] at heq
        obtain ⟨hls, hm⟩ := List.append_inj' heq rfl
        obtain rfl := List.singleton_inj.mp hm
        exact .inr ⟨⟨before, l, rest, hls, hblock, htag, fun k hk => hrest k (by simp [hk])⟩,
          hrest line (by simp)⟩
  · rintro (⟨hblock, htag⟩ | ⟨⟨before, l, rest, rfl, hblock, htag, hrest⟩, hfence⟩)
    · exact ⟨ls, line, [], rfl, hblock, htag, nofun⟩
    · refine ⟨before, l, rest ++ [line], by simp, hblock, htag, fun k hk => ?_⟩
      rcases List.mem_append.mp hk with hk | hk
      · exact hrest k hk
      · exact List.mem_singleton.mp hk ▸ hfence

/-- The place behind some lines is told by the fences and by the tag they end in. -/
theorem foldl_after (ls : List Text) :
    (ls.foldl Place.after .text = .code ↔ EndsInBlock ls) ∧
      (ls.foldl Place.after .text = .tag ↔ EndsInTag ls) := by
  induction ls using List.reverseRecOn with
  | nil => simp [EndsInBlock, EndsInTag]
  | append_singleton ls line ih =>
      obtain ⟨hblock, htag⟩ := ih
      rw [List.foldl_append, List.foldl_cons, List.foldl_nil, endsInBlock_concat, endsInTag_concat,
        ← hblock, ← htag]
      have hapart : isTagLine line = true → isFenceLine line = false := isFenceLine_of_isTagLine
      generalize ls.foldl Place.after .text = p
      unfold Place.after
      cases hfence : isFenceLine line <;> cases htagged : isTagLine line <;> cases p <;> simp_all

/-- A line is kept if it does not lead into a tag or go on with one. -/
theorem mem_docLines {p : Place} : line ∈ p.docLines ls ↔
    ∃ before rest, ls = before ++ line :: rest ∧ (before ++ [line]).foldl Place.after p ≠ .tag := by
  induction ls generalizing p with
  | nil => simp [Place.docLines]
  | cons l ls ih =>
      have hkept : line ∈ p.docLines (l :: ls) ↔
          line = l ∧ p.after l ≠ .tag ∨ line ∈ (p.after l).docLines ls := by
        rw [Place.docLines]
        split
        · next h => simp [h]
        · next h => simp [h]
      rw [hkept, ih]
      constructor
      · rintro (⟨rfl, hl⟩ | ⟨before, rest, rfl, hline⟩)
        · exact ⟨[], ls, rfl, hl⟩
        · exact ⟨l :: before, rest, rfl, hline⟩
      · rintro ⟨before, rest, heq, hline⟩
        cases before with
        | nil =>
            obtain ⟨rfl, -⟩ := List.cons.inj heq
            exact .inl ⟨rfl, hline⟩
        | cons b before =>
            obtain ⟨rfl, rfl⟩ := List.cons.inj heq
            exact .inr ⟨before, rest, rfl, hline⟩

/-- The line, behind some others, is not part of a tag. -/
def IsDocumentation (before : List Text) (line : Text) : Prop :=
  isFenceLine line = true ∨ EndsInBlock before ∨ ¬ EndsInTag (before ++ [line])

theorem isDocumentation_iff {before : List Text} : IsDocumentation before line ↔
    (before ++ [line]).foldl Place.after .text ≠ .tag := by
  unfold IsDocumentation
  rw [← (foldl_after before).1, ← (foldl_after (before ++ [line])).2, List.foldl_append,
    List.foldl_cons, List.foldl_nil]
  generalize before.foldl Place.after .text = p
  unfold Place.after
  cases hfence : isFenceLine line <;> cases p <;> simp

theorem trim_unlines_eq_nil_iff :
    Text.trim (Text.unlines ls) = [] ↔ ∀ line ∈ ls, Text.trim line = [] := by
  simp only [Text.trim, Text.trimBy_eq_nil_iff]
  constructor
  · exact fun h line hline c hc => h c (Text.mem_join_of_mem hline hc)
  · intro h c hc
    rcases Text.exists_of_mem_join hc with hfeed | ⟨line, hline, hc⟩
    · rw [List.mem_singleton.mp hfeed]
      rfl
    · exact h line hline c hc

/-- The body is told by what is documentation and not blank. -/
theorem body_parse_ne_nil_iff {t : Text} : (parse t).body ≠ [] ↔
    ∃ before line rest, Text.lines t = before ++ line :: rest ∧ Text.trim line ≠ [] ∧
      IsDocumentation before line := by
  rw [body_parse, Ne, trim_unlines_eq_nil_iff]
  push Not
  constructor
  · rintro ⟨line, hline, hfilled⟩
    obtain ⟨before, rest, heq, hplace⟩ := mem_docLines.mp hline
    exact ⟨before, line, rest, heq, hfilled, isDocumentation_iff.mpr hplace⟩
  · rintro ⟨before, line, rest, heq, hfilled, hdoc⟩
    exact ⟨line, mem_docLines.mpr ⟨before, rest, heq, isDocumentation_iff.mp hdoc⟩, hfilled⟩

/-! ## First paragraphs -/

/-- The first paragraph of some lines, where blank lines at the start do not count. -/
def paragraph (ls : List Text) : List Text :=
  ((ls.map Text.trim).dropWhile List.isEmpty).takeWhile isProse

theorem summaryOf_eq (t : Text) : summaryOf t = Text.join " " (paragraph (Text.lines t)) := rfl

theorem paragraph_cons_blank (h : Text.trim line = []) : paragraph (line :: ls) = paragraph ls := by
  rw [paragraph, List.map_cons, h, List.dropWhile_cons_of_pos rfl]
  rfl

theorem paragraph_cons_filled (h : Text.trim line ≠ []) :
    paragraph (line :: ls) = ((line :: ls).map Text.trim).takeWhile isProse := by
  rw [paragraph, List.map_cons, List.dropWhile_cons_of_neg (by simpa using h)]

/-- Behind a paragraph only a line of prose would count. -/
theorem paragraph_append {rest : List Text} (hhead : ∀ l ∈ rest.head?, isProse (Text.trim l) = false)
    (hrest : paragraph rest = []) : paragraph (ls ++ rest) = paragraph ls := by
  induction ls with
  | nil => exact hrest
  | cons line ls ih =>
      by_cases hblank : Text.trim line = []
      · rw [List.cons_append, paragraph_cons_blank hblank, ih, paragraph_cons_blank hblank]
      · have hstop : (rest.map Text.trim).takeWhile isProse = [] := by
          cases rest with
          | nil => rfl
          | cons l rest => exact List.takeWhile_cons_of_neg (by simpa using hhead l rfl)
        rw [List.cons_append, paragraph_cons_filled hblank, paragraph_cons_filled hblank,
          ← List.cons_append, List.map_append, List.takeWhile_append, hstop, List.append_nil]
        split
        · next hall => exact (List.IsPrefix.eq_of_length (List.takeWhile_prefix _) hall).symm
        · rfl

/-- A tag or a fence ends a paragraph, and none begins with it. -/
theorem paragraph_append_of_head {rest : List Text}
    (h : ∀ l ∈ rest.head?, isFenceLine l = true ∨ isTagLine l = true) :
    paragraph (ls ++ rest) = paragraph ls := by
  have hprose : ∀ l ∈ rest.head?, isProse (Text.trim l) = false ∧ Text.trim l ≠ [] := by
    intro l hl
    refine ⟨?_, fun hblank => ?_⟩
    · rcases h l hl with hfence | htag
      · rw [isProse, show isFence (Text.trim l) = true from hfence, Bool.not_true, Bool.and_false]
      · rw [isProse, show isTag (Text.trim l) = true from htag, Bool.not_true, Bool.and_false,
          Bool.false_and]
    · have hends := h l hl
      rw [isFenceLine, isTagLine, hblank] at hends
      exact absurd hends (by decide)
  refine paragraph_append (fun l hl => (hprose l hl).1) ?_
  cases rest with
  | nil => rfl
  | cons l rest =>
      obtain ⟨hl, hfilled⟩ := hprose l rfl
      rw [paragraph_cons_filled hfilled]
      exact List.takeWhile_cons_of_neg (by simpa using hl)

/-- Neither does a blank line at the end. -/
theorem paragraph_concat_blank (h : Text.trim line = []) :
    paragraph (ls ++ [line]) = paragraph ls := by
  refine paragraph_append (fun l hl => ?_) (paragraph_cons_blank h)
  obtain rfl := Option.some.inj hl
  rw [h]
  rfl

/-- Only what is left of the lines counts. -/
theorem paragraph_congr {ms : List Text} (h : ls.map Text.trim = ms.map Text.trim) :
    paragraph ls = paragraph ms := by
  rw [paragraph, h, paragraph]

theorem summaryOf_cons {c : Char} (hc : Text.isSpace c = true) (t : Text) :
    summaryOf (c :: t) = summaryOf t := by
  rw [summaryOf_eq, summaryOf_eq, Text.lines]
  split
  · rw [paragraph_cons_blank rfl]
  · have htrim : ∀ l, Text.trim (c :: l) = Text.trim l := Text.trimBy_cons hc
    cases Text.lines t with
    | nil => rw [paragraph_cons_blank (htrim [])]
    | cons line more =>
        exact congrArg (Text.join " ") (paragraph_congr (congrArg (· :: _) (htrim line)))

/-- A space at the end is part of the last line, or of a blank line behind it. -/
theorem map_trim_lines_concat {c : Char} (hc : Text.isSpace c = true) (t : Text) :
    (Text.lines (t ++ [c])).map Text.trim = (Text.lines t).map Text.trim ∨
      (Text.lines (t ++ [c])).map Text.trim = (Text.lines t ++ [[]]).map Text.trim := by
  induction t using Text.lines_induction with
  | last l hl =>
      have hline : (Text.lines (l ++ [c])).map Text.trim = [Text.trim l] := by
        by_cases hfeed : c = '\n'
        · rw [hfeed, Text.lines_append [] hl]
          rfl
        · have hmem : '\n' ∉ l ++ [c] := by simpa [hl] using Ne.symm hfeed
          rw [Text.lines_of_not_mem hmem (by simp), List.map_singleton, Text.trim,
            Text.trimBy_concat hc]
          rfl
      by_cases hne : l = []
      · right
        rw [hline, hne]
        rfl
      · left
        rw [hline, Text.lines_of_not_mem hl hne, List.map_singleton]
  | more l t hl ih =>
      rw [List.append_assoc, List.cons_append, Text.lines_append _ hl, Text.lines_append _ hl,
        List.cons_append, List.map_cons, List.map_cons, List.map_cons]
      exact ih.imp (congrArg (Text.trim l :: ·)) (congrArg (Text.trim l :: ·))

theorem summaryOf_concat {c : Char} (hc : Text.isSpace c = true) (t : Text) :
    summaryOf (t ++ [c]) = summaryOf t := by
  rw [summaryOf_eq, summaryOf_eq]
  rcases map_trim_lines_concat hc t with hsame | hblank
  · rw [paragraph_congr hsame]
  · rw [paragraph_congr hblank, paragraph_concat_blank rfl]

/-- Spaces around a text do not change its first paragraph. -/
theorem summaryOf_trim (t : Text) : summaryOf (Text.trim t) = summaryOf t :=
  Text.apply_trimBy (fun _ => summaryOf_cons) (fun _ => summaryOf_concat) t

theorem summaryOf_unlines (h : ∀ line ∈ ls, '\n' ∉ line) :
    summaryOf (Text.unlines ls) = Text.join " " (paragraph ls) := by
  rw [summaryOf_eq]
  rcases Text.lines_unlines h with heq | heq
  · rw [← heq]
  · conv_rhs => rw [heq]
    rw [paragraph_concat_blank rfl]

/-! ## Summary and body -/

/-- Behind a tag only a fence leads back to the body. -/
theorem isFenceLine_of_head?_tag : ∀ ls : List Text,
    ∀ l ∈ (Place.tag.docLines ls).head?, isFenceLine l = true
  | [], _, h => nomatch h
  | line :: rest, l, h => by
      cases hfence : isFenceLine line with
      | true =>
          have hafter : Place.tag.after line = .code := if_pos hfence
          rw [Place.docLines, hafter, if_neg (by decide)] at h
          exact Option.some.inj h ▸ hfence
      | false =>
          have hafter : Place.tag.after line = .tag := by simp [Place.after, hfence]
          rw [Place.docLines, hafter, if_pos rfl] at h
          exact isFenceLine_of_head?_tag rest l h

/-- Where a tag or a fence comes next, a fence comes next in the body. -/
theorem isFenceLine_of_head?_text (h : ∀ l ∈ ls.head?, isFenceLine l = true ∨ isTagLine l = true) :
    ∀ l ∈ (Place.text.docLines ls).head?, isFenceLine l = true := by
  cases ls with
  | nil => exact nofun
  | cons line rest =>
      intro l hl
      cases hfence : isFenceLine line with
      | true =>
          have hafter : Place.text.after line = .code := if_pos hfence
          rw [Place.docLines, hafter, if_neg (by decide)] at hl
          exact Option.some.inj hl ▸ hfence
      | false =>
          have htag : isTagLine line = true := (h line rfl).resolve_left (by simp [hfence])
          have hafter : Place.text.after line = .tag := by simp [Place.after, hfence, htag]
          rw [Place.docLines, hafter, if_pos rfl] at hl
          exact isFenceLine_of_head?_tag rest l hl

theorem docLines_append {start : List Text}
    (h : ∀ l ∈ start, isFenceLine l = false ∧ isTagLine l = false) (rest : List Text) :
    Place.text.docLines (start ++ rest) = start ++ Place.text.docLines rest := by
  induction start with
  | nil => rfl
  | cons line more ih =>
      obtain ⟨hfence, htag⟩ := h line List.mem_cons_self
      have hafter : Place.text.after line = .text := by simp [Place.after, hfence, htag]
      rw [List.cons_append, Place.docLines, hafter, if_neg (by decide),
        ih fun l hl => h l (List.mem_cons_of_mem line hl), List.cons_append]

/-- The first paragraph ends in front of the first tag and the first fence, and all in front of
them is kept. -/
theorem paragraph_docLines (ls : List Text) :
    paragraph (Place.text.docLines ls) = paragraph ls := by
  let isText : Text → Bool := fun l => !isFenceLine l && !isTagLine l
  have hstart : ∀ l ∈ ls.takeWhile isText, isFenceLine l = false ∧ isTagLine l = false := by
    intro l hl
    simpa [isText] using List.mem_takeWhile_imp hl
  have hrest : ∀ l ∈ (ls.dropWhile isText).head?, isFenceLine l = true ∨ isTagLine l = true := by
    intro l hl
    have hnot := List.head?_dropWhile_not isText ls
    rw [hl] at hnot
    simpa [isText, Classical.or_iff_not_imp_left] using hnot
  rw [← List.takeWhile_append_dropWhile (p := isText) (l := ls), docLines_append hstart,
    paragraph_append_of_head hrest,
    paragraph_append_of_head fun l hl => .inl (isFenceLine_of_head?_text hrest l hl)]

theorem summaryOf_body_parse (t : Text) : summaryOf (parse t).body = summaryOf t := by
  have hlines : ∀ l ∈ Place.text.docLines (Text.lines t), '\n' ∉ l := by
    intro l hl
    obtain ⟨before, rest, heq, -⟩ := mem_docLines.mp hl
    have hmem : l ∈ Text.lines t := by
      rw [heq]
      simp
    exact Text.not_mem_of_mem_lines hmem
  rw [body_parse, summaryOf_trim, summaryOf_unlines hlines, paragraph_docLines]
  rfl

theorem summary_parse (t : Text) : (parse t).summary = summaryOf t := by
  unfold parse shareSince
  dsimp only
  split
  · split <;> rfl
  · rfl

theorem body_parse_ne_nil_of_summary {t : Text} (h : summaryOf t ≠ []) : (parse t).body ≠ [] := by
  intro hbody
  rw [← summaryOf_body_parse, hbody] at h
  exact h rfl

end DocComment

open DocComment

/-- Only the body tells whether there is documentation. -/
theorem Facts.hasDocumentation_applyComment (f : Facts) (t : Text) :
    (f.applyComment t).hasDocumentation = true ↔ (parse t).body ≠ [] := by
  have hfacts : (f.applyComment t).hasDocumentation = true ↔
      (parse t).body ≠ [] ∨ (parse t).summary ≠ [] := by
    simp [Facts.hasDocumentation, Facts.applyComment]
  rw [hfacts, summary_parse, or_iff_left_iff_imp]
  exact body_parse_ne_nil_of_summary

/-- **Summary and body cohere.**  The summary of a comment is the first paragraph of its body, so
it is filled only if the body is.  Facts that a comment is stored in have documentation exactly
if some line that is not blank is a fence, lies in a code block, or is not part of a tag. -/
theorem Facts.applyComment_coheres (f : Facts) (t : Text) :
    summaryOf t = summaryOf (parse t).body ∧
    (f.applyComment t).summary = summaryOf (f.applyComment t).documentation ∧
    (summaryOf t ≠ [] → (parse t).body ≠ []) ∧
    ((f.applyComment t).hasDocumentation = true ↔
      ∃ before line rest, Text.lines t = before ++ line :: rest ∧ Text.trim line ≠ [] ∧
        (isFenceLine line = true ∨ EndsInBlock before ∨ ¬ EndsInTag (before ++ [line]))) := by
  have hsummary : summaryOf t = summaryOf (parse t).body := (summaryOf_body_parse t).symm
  refine ⟨hsummary, (summary_parse t).trans hsummary, body_parse_ne_nil_of_summary, ?_⟩
  rw [Facts.hasDocumentation_applyComment, body_parse_ne_nil_iff]
  rfl

/-- A paragraph, tags that a code block interrupts, text behind the block, and a further tag. -/
def interruptedComment : Text :=
  "\n Reads a value.\n\n@param key the key\n@see store\n```\n@in a block\n```\n  More.\n@since 2"

theorem Facts.applyComment_coheres_interrupted :
    summaryOf interruptedComment ≠ [] ∧ (parse interruptedComment).body ≠ [] := by
  have hsummary : summaryOf interruptedComment ≠ [] := by decide +kernel
  exact ⟨hsummary, (Facts.applyComment_coheres {} interruptedComment).2.2.1 hsummary⟩

end CrossDoc
