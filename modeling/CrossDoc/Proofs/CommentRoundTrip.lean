import CrossDoc.Proofs.CommentLines
import Mathlib.Algebra.Group.Nat.Even

/-!
# Reading a written comment

A comment is written as the lines of its body with one line for each tag behind them.
Reading goes through the body without a tag, for what looks like one there stands in a
code block.  Behind the body no block is open, so each further line closes the tag before
it and opens the next one.  What a closed tag records is what its line was written from.
-/

namespace CrossDoc

namespace DocComment

variable {line : Text} {ls : List Text} {r : Reading}

/-! ## Written comments -/

/-- A text without spaces around it that stays on one line. -/
structure IsTrimmedLine (t : Text) : Prop where
  trimmed : Text.trim t = t
  oneLine : '\n' ∉ t

instance : DecidablePred IsTrimmedLine := fun t =>
  decidable_of_iff (Text.trim t = t ∧ '\n' ∉ t) ⟨fun h => ⟨h.1, h.2⟩, fun h => ⟨h.1, h.2⟩⟩

/-- The name is a word and the description a line, which may be empty. -/
structure IsPlainParam (p : Param) : Prop where
  filled : p.name ≠ []
  word : ∀ c ∈ p.name, Text.isSpace c = false
  described : IsTrimmedLine p.description

instance : DecidablePred IsPlainParam := fun p =>
  decidable_of_iff
    (p.name ≠ [] ∧ p.name.all (fun c => !Text.isSpace c) = true ∧ IsTrimmedLine p.description)
    ⟨fun h => ⟨h.1, by simpa using h.2.1, h.2.2⟩, fun h => ⟨h.1, by simpa using h.2, h.3⟩⟩

/-- What the tags of a comment say. -/
structure Tags where
  params : List Param := []
  seeAlso : List Text := []
  since : Option Text := none
  /-- The message of the deprecation. -/
  deprecated : Option Text := none

/-- Each tag fits on its line, and references are not empty. -/
structure Tags.IsPlain (tags : Tags) : Prop where
  params : ∀ p ∈ tags.params, IsPlainParam p
  seeAlso : ∀ ref ∈ tags.seeAlso, ref ≠ [] ∧ IsTrimmedLine ref
  since : ∀ v ∈ tags.since, IsTrimmedLine v
  deprecated : ∀ m ∈ tags.deprecated, IsTrimmedLine m

def tagLine (word rest : Text) : Text := '@' :: (word ++ ' ' :: rest)

def paramLine (p : Param) : Text := tagLine "param" (p.name ++ ' ' :: p.description)

/-- The tags, each on a line of its own. -/
def Tags.lines (tags : Tags) : List Text :=
  tags.params.map paramLine ++ tags.seeAlso.map (tagLine "see") ++
    tags.since.toList.map (tagLine "since") ++ tags.deprecated.toList.map (tagLine "deprecated")

/-- A comment: the lines of the body, and behind them the tags. -/
def withTags (body : Text) (tags : Tags) : Text := Text.unlines (Text.lines body ++ tags.lines)

instance : DecidablePred EndsInBlock := fun ls => inferInstanceAs (Decidable (Odd (ls.countP _)))

/-- Lines that begin with an at sign stand in code blocks only. -/
def IsUntagged (ls : List Text) : Prop :=
  ∀ i (h : i < ls.length), isTagLine ls[i] = true → EndsInBlock (ls.take i)

instance : DecidablePred IsUntagged := fun ls =>
  inferInstanceAs (Decidable (∀ i (h : i < ls.length), isTagLine ls[i] = true → _))

/-- A body whose code blocks are closed and that holds no tag. -/
structure IsPlainBody (body : Text) : Prop where
  trimmed : Text.trim body = body
  closed : Even ((Text.lines body).countP isFenceLine)
  untagged : IsUntagged (Text.lines body)

/-! ## Reading the body -/

theorem isUntagged_concat : IsUntagged (ls ++ [line]) ↔
    IsUntagged ls ∧ (isTagLine line = true → EndsInBlock ls) := by
  unfold IsUntagged
  constructor
  · intro h
    constructor
    · intro i hi htag
      have hblock := h i (by simp; omega) (by rwa [List.getElem_append_left hi])
      rwa [List.take_append_of_le_length (Nat.le_of_lt hi)] at hblock
    · intro htag
      have hblock := h ls.length (by simp) (by simpa using htag)
      rwa [List.take_left] at hblock
  · rintro ⟨hls, hline⟩ i hi htag
    rcases Nat.lt_or_eq_of_le (Nat.le_of_lt_succ (by simpa using hi)) with hlt | rfl
    · rw [List.getElem_append_left hlt] at htag
      rw [List.take_append_of_le_length (Nat.le_of_lt hlt)]
      exact hls i hlt htag
    · rw [List.take_left]
      exact hline (by simpa using htag)

/-- Without a tag all lines go to the body, and the fences tell whether a block is open. -/
theorem foldl_readLine_of_isUntagged (h : IsUntagged ls) : ∃ open' : Bool,
    ls.foldl readLine {} = { bodyLines := ls.reverse, inFence := open' } ∧
      (open' = true ↔ EndsInBlock ls) := by
  induction ls using List.reverseRecOn with
  | nil => exact ⟨false, rfl, by decide⟩
  | append_singleton ls line ih =>
      obtain ⟨hls, hline⟩ := isUntagged_concat.mp h
      obtain ⟨inside, hread, hblock⟩ := ih hls
      rw [List.foldl_append, hread, List.foldl_cons, List.foldl_nil, List.reverse_concat,
        endsInBlock_concat, ← hblock]
      cases hfence : isFenceLine line with
      | true =>
          rw [readLine_fence hfence]
          exact ⟨!inside, rfl, by simp⟩
      | false =>
          refine ⟨inside, ?_, by simp⟩
          cases inside with
          | true => rw [readLine_inside hfence rfl, addBodyLine]
          | false =>
              -- A tag would need an open block, and none is open here.
              have htag : isTagLine line = false := by
                by_contra htag
                exact absurd (hblock.mpr (hline (by simpa using htag))) (by decide)
              rw [readLine_text hfence htag rfl rfl, addBodyLine]

/-! ## Reading tags -/

/-- Records the tag that the line opens, as if it ended there. -/
def addTagLine (d : DocComment) (line : Text) : DocComment :=
  addTag d (openTag ((Text.trim line).drop 1))

/-- Lines that open a tag each record these tags one after the other. -/
theorem closeTag_foldl_readLine (h : ∀ l ∈ ls, isTagLine l = true) :
    ∀ {r : Reading}, r.inFence = false → closeTag (ls.foldl readLine r) =
      { closeTag r with found := ls.foldl addTagLine (closeTag r).found } := by
  induction ls with
  | nil => exact fun _ => rfl
  | cons line rest ih =>
      intro r hr
      have hline := h line List.mem_cons_self
      have hfence : (readLine r line).inFence = false := by
        rw [readLine_tag hline hr]
        exact (closeTag_inFence r).trans hr
      have hclose : closeTag (readLine r line) =
          { closeTag r with found := addTagLine (closeTag r).found line } := by
        rw [readLine_tag hline hr, closeTag]
        simp only [closeTag_tag]
        rfl
      rw [List.foldl_cons, ih (fun l hl => h l (List.mem_cons_of_mem line hl)) hfence, hclose,
        List.foldl_cons]

variable {word rest : Text}

theorem trim_tagLine (word rest : Text) :
    Text.trim (tagLine word rest) = '@' :: Text.trimRight Text.isSpace (word ++ ' ' :: rest) :=
  Text.trimBy_append_cons (s := []) (by decide) _

theorem isTagLine_tagLine (word rest : Text) : isTagLine (tagLine word rest) = true := by
  rw [isTagLine, trim_tagLine]
  rfl

/-- A tag line opens the tag that it names, with the rest as its text. -/
theorem openTag_tagLine (hne : word ≠ []) (hall : word.all (fun c => !Text.isSpace c) = true)
    (rest : Text) : openTag ((Text.trim (tagLine word rest)).drop 1) =
      ⟨Text.lower word, [Text.trim rest]⟩ := by
  have hword : ∀ c ∈ word, Text.isSpace c = false := by simpa using hall
  have hfirst : Text.firstWord (Text.trimRight Text.isSpace (word ++ ' ' :: rest)) =
      (word, Text.trim rest) := by
    rw [Text.firstWord_congr (Text.trimBy_trimRight _ _), Text.firstWord_append hne hword]
  rw [trim_tagLine, List.drop_one, List.tail_cons, openTag, hfirst]
  simp [hne]

theorem content_singleton (name t : Text) :
    (OpenTag.mk name [Text.trim t]).content = Text.trim t :=
  Text.trimBy_trimBy _ t

def addParams (d : DocComment) (ps : List Param) : DocComment :=
  { d with params := d.params ++ ps }

def addSeeAlso (d : DocComment) (refs : List Text) : DocComment :=
  { d with seeAlso := d.seeAlso ++ refs }

theorem addTagLine_param (d : DocComment) {p : Param} (h : IsPlainParam p) :
    addTagLine d (paramLine p) = d.addParams [p] := by
  rw [addTagLine, paramLine, openTag_tagLine (by decide) (by decide), addTag, content_singleton,
    Text.firstWord_trim, Text.firstWord_append h.filled h.word, h.described.trimmed]
  simp [h.filled, Text.lower, addParams]

theorem addTagLine_see (d : DocComment) {ref : Text} (hne : ref ≠ []) (h : IsTrimmedLine ref) :
    addTagLine d (tagLine "see" ref) = d.addSeeAlso [ref] := by
  rw [addTagLine, openTag_tagLine (by decide) (by decide), addTag, content_singleton, h.trimmed]
  simp [hne, Text.lower, addSeeAlso]

theorem addTagLine_since (d : DocComment) {v : Text} (h : IsTrimmedLine v) :
    addTagLine d (tagLine "since" v) = { d with since := some v } := by
  rw [addTagLine, openTag_tagLine (by decide) (by decide), addTag, content_singleton, h.trimmed]
  simp [Text.lower]

theorem addTagLine_deprecated (d : DocComment) {m : Text} (h : IsTrimmedLine m) :
    addTagLine d (tagLine "deprecated" m) = { d with deprecated := some ⟨m, []⟩ } := by
  rw [addTagLine, openTag_tagLine (by decide) (by decide), addTag, content_singleton, h.trimmed]
  simp [Text.lower]

/-- If each line adds what it was written from, then the lines together add all of it. -/
theorem foldl_addTagLine_map {α : Type} {write : α → Text} {add : DocComment → List α → DocComment}
    (hnil : ∀ d, add d [] = d) (hcons : ∀ d x xs, add (add d [x]) xs = add d (x :: xs)) {xs : List α}
    (h : ∀ x ∈ xs, ∀ d, addTagLine d (write x) = add d [x]) :
    ∀ d : DocComment, (xs.map write).foldl addTagLine d = add d xs := by
  induction xs with
  | nil => exact fun d => (hnil d).symm
  | cons x rest ih =>
      intro d
      rw [List.map_cons, List.foldl_cons, h x List.mem_cons_self,
        ih fun y hy => h y (List.mem_cons_of_mem x hy), hcons]

theorem foldl_addTagLine_params {ps : List Param} (h : ∀ p ∈ ps, IsPlainParam p) (d : DocComment) :
    (ps.map paramLine).foldl addTagLine d = d.addParams ps :=
  foldl_addTagLine_map (by simp [addParams]) (by simp [addParams])
    (fun p hp d => addTagLine_param d (h p hp)) d

theorem foldl_addTagLine_seeAlso {refs : List Text}
    (h : ∀ ref ∈ refs, ref ≠ [] ∧ IsTrimmedLine ref) (d : DocComment) :
    (refs.map (tagLine "see")).foldl addTagLine d = d.addSeeAlso refs :=
  foldl_addTagLine_map (by simp [addSeeAlso]) (by simp [addSeeAlso])
    (fun ref hr d => addTagLine_see d (h ref hr).1 (h ref hr).2) d

theorem foldl_addTagLine_since {since : Option Text} (h : ∀ v ∈ since, IsTrimmedLine v)
    (d : DocComment) : (since.toList.map (tagLine "since")).foldl addTagLine d =
      { d with since := since.or d.since } := by
  cases since with
  | none => rfl
  | some v =>
      rw [Option.toList_some, List.map_singleton, List.foldl_cons, List.foldl_nil,
        addTagLine_since d (h v rfl), Option.some_or]

theorem foldl_addTagLine_deprecated {message : Option Text} (h : ∀ m ∈ message, IsTrimmedLine m)
    (d : DocComment) : (message.toList.map (tagLine "deprecated")).foldl addTagLine d =
      { d with deprecated := (message.map fun m => ⟨m, []⟩).or d.deprecated } := by
  cases message with
  | none => rfl
  | some m =>
      rw [Option.toList_some, List.map_singleton, List.foldl_cons, List.foldl_nil,
        addTagLine_deprecated d (h m rfl), Option.map_some, Option.some_or]

namespace Tags

variable {tags : Tags}

/-- The lines of the tags record what they were written from. -/
theorem foldl_addTagLine_lines (h : tags.IsPlain) : tags.lines.foldl addTagLine {} =
    { params := tags.params, seeAlso := tags.seeAlso, since := tags.since
      deprecated := tags.deprecated.map fun m => ⟨m, []⟩ } := by
  rw [lines, List.foldl_append, List.foldl_append, List.foldl_append,
    foldl_addTagLine_params h.params, foldl_addTagLine_seeAlso h.seeAlso,
    foldl_addTagLine_since h.since, foldl_addTagLine_deprecated h.deprecated]
  simp [addParams, addSeeAlso]

theorem mem_lines : line ∈ tags.lines ↔
    (∃ p ∈ tags.params, line = paramLine p) ∨ (∃ ref ∈ tags.seeAlso, line = tagLine "see" ref) ∨
      (∃ v ∈ tags.since, line = tagLine "since" v) ∨
      ∃ m ∈ tags.deprecated, line = tagLine "deprecated" m := by
  simp [lines, eq_comm]

theorem isTagLine_of_mem_lines (h : line ∈ tags.lines) : isTagLine line = true := by
  rcases mem_lines.mp h with ⟨_, _, rfl⟩ | ⟨_, _, rfl⟩ | ⟨_, _, rfl⟩ | ⟨_, _, rfl⟩ <;>
    exact isTagLine_tagLine _ _

theorem lineFeed_not_mem_tagLine (hword : '\n' ∉ word) (hrest : '\n' ∉ rest) :
    '\n' ∉ tagLine word rest := by
  simp [tagLine, hword, hrest]

theorem lineFeed_not_mem_of_mem_lines (htags : tags.IsPlain) (h : line ∈ tags.lines) :
    '\n' ∉ line := by
  rcases mem_lines.mp h with ⟨p, hp, rfl⟩ | ⟨ref, hr, rfl⟩ | ⟨v, hv, rfl⟩ | ⟨m, hm, rfl⟩
  · obtain ⟨-, hword, hdescribed⟩ := htags.params p hp
    have hname : '\n' ∉ p.name := fun hfeed => absurd (hword _ hfeed) (by decide)
    exact lineFeed_not_mem_tagLine (by decide) (by simp [hname, hdescribed.oneLine])
  · exact lineFeed_not_mem_tagLine (by decide) (htags.seeAlso ref hr).2.oneLine
  · exact lineFeed_not_mem_tagLine (by decide) (htags.since v hv).oneLine
  · exact lineFeed_not_mem_tagLine (by decide) (htags.deprecated m hm).oneLine

end Tags

/-! ## The comment as a whole -/

variable {body : Text} {tags : Tags}

theorem lines_withTags (hbody : Text.trim body = body) (htags : tags.IsPlain) :
    Text.lines (withTags body tags) = Text.lines body ++ tags.lines := by
  refine Text.lines_unlines_of_last ?_ ?_
  · intro l hl
    exact (List.mem_append.mp hl).elim Text.not_mem_of_mem_lines
      (Tags.lineFeed_not_mem_of_mem_lines htags)
  · rw [List.getLast?_append]
    cases hlast : tags.lines.getLast? with
    | none => exact (Text.unlines_lines (Text.getLast?_of_trimBy_eq hbody (by decide))).2
    | some l =>
        intro hempty
        obtain rfl : l = [] := by simpa using hempty
        exact absurd (Tags.isTagLine_of_mem_lines (List.mem_of_getLast? hlast)) (by decide)

/-- **A written comment is read back.**  Reading a body with tags behind it gives exactly that
body and what the tags say, in order, and the version that the comment names is also that of the
deprecation.  The body is trimmed, its code blocks are closed, and outside of them no line begins
with an at sign. -/
theorem parse_withTags (hbody : IsPlainBody body) (htags : tags.IsPlain) :
    parse (withTags body tags) =
      { summary := summaryOf body
        body := body
        params := tags.params
        seeAlso := tags.seeAlso
        since := tags.since
        deprecated := tags.deprecated.map fun m => ⟨m, tags.since.getD []⟩ } := by
  obtain ⟨inside, hread, hblock⟩ := foldl_readLine_of_isUntagged hbody.untagged
  obtain rfl : inside = false := by
    rw [← Bool.not_eq_true, hblock]
    exact Nat.not_odd_iff_even.mpr hbody.closed
  have hfound := Tags.foldl_addTagLine_lines htags
  have htagged : ∀ l ∈ tags.lines, isTagLine l = true := fun _ => Tags.isTagLine_of_mem_lines
  have hfilled : Text.unlines (Text.lines body) = body :=
    (Text.unlines_lines (Text.getLast?_of_trimBy_eq hbody.trimmed (by decide))).1
  have hparse : parse (withTags body tags) =
      shareSince
        { summary := summaryOf (withTags body tags), body, params := tags.params
          seeAlso := tags.seeAlso, since := tags.since
          deprecated := tags.deprecated.map fun m => ⟨m, []⟩ } := by
    rw [parse, lines_withTags hbody.trimmed htags, List.foldl_append, hread,
      closeTag_foldl_readLine htagged rfl]
    simp only [closeTag, hfound, List.reverse_reverse, hfilled, hbody.trimmed]
  have hsummary : summaryOf (withTags body tags) = summaryOf body := by
    rw [← summaryOf_body_parse, hparse, body_shareSince]
  rw [hparse, hsummary]
  cases tags.deprecated <;> cases tags.since <;> rfl

/-- A body with a code block that holds what looks like tags. -/
def bodyWithBlock : Text := "Reads a value.\n\n  ```\n@param in a block\n @see\n```\nMore."

/-- Tags with at signs and fences in their texts, and with empty texts. -/
def plainTags : Tags :=
  { params := [⟨"key", "the @key ```"⟩, ⟨"@x", []⟩], seeAlso := ["store", "@see"]
    since := some "2.0", deprecated := some [] }

theorem parse_withTags_bodyWithBlock :
    IsPlainBody bodyWithBlock ∧ plainTags.IsPlain ∧ parse (withTags bodyWithBlock plainTags) =
      { summary := "Reads a value."
        body := bodyWithBlock
        params := plainTags.params
        seeAlso := plainTags.seeAlso
        since := some "2.0"
        deprecated := some ⟨[], "2.0"⟩ } := by
  have hbody : IsPlainBody bodyWithBlock :=
    ⟨by decide +kernel, by decide +kernel, by decide +kernel⟩
  have htags : plainTags.IsPlain := ⟨by decide +kernel, by decide +kernel, by decide, by decide⟩
  have hsummary : summaryOf bodyWithBlock = "Reads a value.".toList := by decide +kernel
  refine ⟨hbody, htags, ?_⟩
  rw [parse_withTags hbody htags, hsummary]
  rfl

end DocComment

end CrossDoc
