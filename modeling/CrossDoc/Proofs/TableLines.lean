import CrossDoc.Proofs.LinkResolution
import CrossDoc.Proofs.PageContent
import CrossDoc.Proofs.PathNames
import CrossDoc.Render.Markdown
import Mathlib.Algebra.Ring.Nat

/-!
# Tables as lines

A table is written line by line, with a bar on either side of each cell.  Texts,
titles and code go into a cell on one line and with their bars escaped.  Addresses
and the labels of platforms are written as they are: the lines of a table are
right exactly if none of these that a cell shows holds a line feed or a bar without
a backslash before it.
-/

namespace CrossDoc

namespace Markdown

/-! ## Bars -/

/-- The bars of a text that no backslash stands right before; `escaped` says
whether one stands before the text. -/
def bareBarsFrom (escaped : Bool) : Text → Nat
  | [] => 0
  | c :: rest => (if c = '|' ∧ escaped = false then 1 else 0) + bareBarsFrom (c == '\\') rest

/-- The bars of a text that no backslash stands right before. -/
def bareBars (t : Text) : Nat := bareBarsFrom false t

/-- A backslash stands before what follows a text. -/
def escapesNext (escaped : Bool) (t : Text) : Bool :=
  match t.getLast? with
  | some c => c == '\\'
  | none => escaped

theorem bareBarsFrom_of_not_mem : ∀ {t : Text} (escaped : Bool), '|' ∉ t →
    bareBarsFrom escaped t = 0
  | [], _, _ => rfl
  | c :: rest, escaped, h => by
      have hc : c ≠ '|' := fun he => h (he ▸ List.mem_cons_self)
      have hrest : '|' ∉ rest := fun hr => h (List.mem_cons_of_mem c hr)
      rw [bareBarsFrom, if_neg fun hbar => hc hbar.1, bareBarsFrom_of_not_mem _ hrest]

theorem bareBarsFrom_append (t : Text) : ∀ (s : Text) (escaped : Bool),
    bareBarsFrom escaped (s ++ t) =
      bareBarsFrom escaped s + bareBarsFrom (escapesNext escaped s) t
  | [], escaped => by simp [bareBarsFrom, escapesNext]
  | c :: rest, escaped => by
      have hlast : escapesNext escaped (c :: rest) = escapesNext (c == '\\') rest := by
        cases rest <;> rfl
      rw [List.cons_append, bareBarsFrom, bareBarsFrom_append t rest, bareBarsFrom, hlast,
        Nat.add_assoc]

/-- Bars are counted piece by piece, unless a backslash ends one piece and a bar
starts the next. -/
theorem bareBars_append {s t : Text} (h : s.getLast? ≠ some '\\' ∨ t.head? ≠ some '|') :
    bareBars (s ++ t) = bareBars s + bareBars t := by
  rw [bareBars, bareBarsFrom_append]
  congr 1
  rcases h with hs | ht
  · congr 1
    unfold escapesNext
    split
    · next c hc => simpa [hc] using hs
    · rfl
  · cases t with
    | nil => rfl
    | cons c rest =>
        have hc : c ≠ '|' := by simpa using ht
        rw [bareBars, bareBarsFrom, bareBarsFrom, if_neg fun hbar => hc hbar.1,
          if_neg fun hbar => hc hbar.1]

theorem bareBarsFrom_singleLine (t : Text) : ∀ escaped : Bool,
    bareBarsFrom escaped (singleLine t) = 0 := by
  unfold singleLine
  induction t with
  | nil => exact fun _ => rfl
  | cons c rest ih =>
      intro escaped
      rw [List.flatMap_cons]
      by_cases hfeed : c = '\n'
      · simp [hfeed, bareBarsFrom, ih]
      by_cases hbar : c = '|'
      · simp [hbar, bareBarsFrom, ih]
      by_cases hreturn : c = '\r'
      · simp [hreturn, ih]
      · simp [hfeed, hbar, hreturn, bareBarsFrom, ih]

theorem lineFeed_not_mem_singleLine (t : Text) : '\n' ∉ singleLine t := by
  intro h
  obtain ⟨c, -, hc⟩ := List.mem_flatMap.mp h
  split at hc
  · exact absurd hc (by decide)
  split at hc
  · exact absurd hc (by decide)
  split at hc
  · cases hc
  · next hfeed _ _ => exact hfeed (List.mem_singleton.mp hc).symm

/-! ## What is counted in a text -/

/-- A piece without bars and line feeds that escapes nothing after it. -/
def IsPlain (t : Text) : Prop := '|' ∉ t ∧ '\n' ∉ t ∧ t.getLast? ≠ some '\\'

instance (t : Text) : Decidable (IsPlain t) := inferInstanceAs (Decidable (_ ∧ _))

theorem IsPlain.head?_append {s : Text} (h : IsPlain s) (hs : s ≠ []) (t : Text) :
    (s ++ t).head? ≠ some '|' := by
  cases s with
  | nil => exact absurd rfl hs
  | cons c rest =>
      rw [List.cons_append, List.head?_cons]
      exact fun he => h.1 (Option.some.inj he ▸ List.mem_cons_self)

/-- A number that adds up over the pieces of a text, unless a backslash ends one
piece and a bar starts the next, and counts nothing in what is written on one
line. -/
structure IsCount (count : Text → Nat) : Prop where
  plain : ∀ {t : Text}, IsPlain t → count t = 0
  append : ∀ {s t : Text}, s.getLast? ≠ some '\\' ∨ t.head? ≠ some '|' →
    count (s ++ t) = count s + count t
  onOneLine : ∀ t : Text, count (singleLine t) = 0

theorem isCount_bareBars : IsCount bareBars where
  plain := fun h => bareBarsFrom_of_not_mem false h.1
  append := bareBars_append
  onOneLine := fun t => bareBarsFrom_singleLine t false

theorem isCount_lineFeeds : IsCount (List.count '\n') where
  plain := fun h => List.count_eq_zero_of_not_mem h.2.1
  append := fun _ => List.count_append
  onOneLine := fun t => List.count_eq_zero_of_not_mem (lineFeed_not_mem_singleLine t)

namespace IsCount

variable {count : Text → Nat} (h : IsCount count)
include h

theorem nil : count [] = 0 := h.plain (by decide)

theorem plain_append {s : Text} (hs : IsPlain s) (t : Text) : count (s ++ t) = count t := by
  rw [h.append (Or.inl hs.2.2), h.plain hs, Nat.zero_add]

theorem append_plain {t : Text} (ht : IsPlain t) (s : Text) : count (s ++ t) = count s := by
  have hhead : t.head? ≠ some '|' := fun he => ht.1 (List.mem_of_head? he)
  rw [h.append (Or.inr hhead), h.plain ht, Nat.add_zero]

theorem join {sep : Text} (hsep : IsPlain sep) (hne : sep ≠ []) : ∀ ts : List Text,
    count (Text.join sep ts) = (ts.map count).sum
  | [] => h.nil
  | [t] => by simp [Text.join]
  | t :: u :: rest => by
      have hrest := join hsep hne (u :: rest)
      rw [Text.join, List.append_assoc, h.append (Or.inr (hsep.head?_append hne _)),
        h.plain_append hsep, hrest]
      simp

theorem joinNonempty {sep : Text} (hsep : IsPlain sep) (hne : sep ≠ []) (ts : List Text) :
    count (Text.joinNonempty sep ts) = (ts.map count).sum := by
  rw [Text.joinNonempty, h.join hsep hne]
  induction ts with
  | nil => rfl
  | cons t rest ih =>
      cases t with
      | nil => simpa [h.nil] using ih
      | cons c cs => simpa using ih

end IsCount

/-! ## What a cell shows unescaped -/

/-- The address that a link is written with: one of its own, or that of the page it
leads to. -/
def address? (base : LinkBase) (target : Option DeclId) (url : Text) : Option Text :=
  if !url.isEmpty then some url
  else (target.bind base.tree.resolve?).map (relativeLink base.path)

theorem link_eq (base : LinkBase) (text : Text) (target : Option DeclId) (url : Text) :
    link base text target url =
      match address? base target url with
      | some address => "[" ++ singleLine text ++ "](" ++ address ++ ")"
      | none => singleLine text := by
  unfold link address?
  split
  · rfl
  · cases target.bind base.tree.resolve? <;> rfl

mutual

/-- The addresses and the labels of platforms that a part shows on one line. -/
def unescaped (base : LinkBase) : Content → List Text
  | ⟨kind, _, _, target, url, _, _, children⟩ =>
      match kind with
      | .link => (address? base target url).toList
      | .hinted => unescapedVariants base children
      | .group | .table | .row => unescapedAll base children
      | .header | .text | .code | .separator => []

def unescapedAll (base : LinkBase) : List Content → List Text
  | [] => []
  | c :: rest => unescaped base c ++ unescapedAll base rest

def unescapedVariants (base : LinkBase) : List Content → List Text
  | [] => []
  | c :: rest =>
      if (inlineText base c).isEmpty then unescapedVariants base rest
      else platformLabels c.platforms :: unescaped base c ++ unescapedVariants base rest

end

variable {base : LinkBase} {count : Text → Nat}

theorem count_link (h : IsCount count) (text : Text) (target : Option DeclId) (url : Text) :
    count (link base text target url) = ((address? base target url).toList.map count).sum := by
  rw [link_eq]
  cases address? base target url with
  | none => simp [h.onOneLine]
  | some address =>
      have hopen : IsPlain "](" := by decide
      show count ("[" ++ singleLine text ++ "](" ++ address ++ ")") = _
      rw [h.append_plain (by decide), List.append_assoc, List.append_assoc,
        h.plain_append (by decide), h.append (Or.inr (hopen.head?_append (by decide) _)),
        h.onOneLine, h.plain_append hopen]
      simp

theorem count_variant (h : IsCount count) (labels text : Text) :
    count ("**" ++ labels ++ "**: " ++ text) = count labels + count text := by
  have hclose : IsPlain "**: " := by decide
  rw [List.append_assoc, List.append_assoc, h.plain_append (by decide),
    h.append (Or.inr (hclose.head?_append (by decide) _)), h.plain_append hclose]

mutual

/-- On one line, a part counts as much as what it shows unescaped. -/
theorem count_inlineText (h : IsCount count) : ∀ c : Content,
    count (inlineText base c) = ((unescaped base c).map count).sum
  | ⟨kind, text, level, target, url, style, platforms, children⟩ => by
      have hparts := count_inlineTexts h children
      cases kind with
      | header => exact h.onOneLine text
      | text => exact h.onOneLine text
      | code =>
          rw [inlineText, unescaped]
          split
          · exact h.nil
          · rw [h.append_plain (by decide), h.plain_append (by decide), h.onOneLine]
            rfl
      | link => exact count_link h text target url
      | separator => exact h.nil
      | hinted =>
          rw [inlineText, unescaped, h.join (by decide) (by decide)]
          exact count_inlineVariants h children
      | group => rwa [inlineText, unescaped, h.joinNonempty (by decide) (by decide)]
      | table => rwa [inlineText, unescaped, h.joinNonempty (by decide) (by decide)]
      | row => rwa [inlineText, unescaped, h.joinNonempty (by decide) (by decide)]

theorem count_inlineTexts (h : IsCount count) : ∀ cs : List Content,
    ((inlineTexts base cs).map count).sum = ((unescapedAll base cs).map count).sum
  | [] => rfl
  | c :: rest => by
      rw [inlineTexts, unescapedAll, List.map_cons, List.sum_cons, List.map_append,
        List.sum_append, count_inlineText h c, count_inlineTexts h rest]

theorem count_inlineVariants (h : IsCount count) : ∀ cs : List Content,
    ((inlineVariants base cs).map count).sum = ((unescapedVariants base cs).map count).sum
  | [] => rfl
  | c :: rest => by
      have hrest := count_inlineVariants h rest
      rw [inlineVariants, unescapedVariants]
      split
      · exact hrest
      · rw [List.map_cons, List.sum_cons, count_variant h, count_inlineText h c, hrest]
        simp [Nat.add_assoc]

end

/-! ## Lines -/

/-- The line of a row, without its line feed. -/
def barLine (cells : List Text) : Text := "|" ++ cells.flatMap tableCell

/-- The line below the titles, without its line feed. -/
def ruleLine (columns : Nat) : Text := "|" ++ (List.replicate columns ("---|" : Text)).flatten

/-- The cells of a header row; a row of another kind gives as many empty ones. -/
def titleCells (base : LinkBase) (first : Content) : List Text :=
  if first.style == ("header" : Text) then inlineTexts base first.children
  else List.replicate first.children.length []

/-- The titles of a table, of which there is at least an empty one. -/
def titles (base : LinkBase) (first : Content) : List Text :=
  if (titleCells base first).isEmpty then [[]] else titleCells base first

/-- The rows below the titles: all but a header row. -/
def bodyRows : List Content → List Content
  | [] => []
  | first :: rest => if first.style == ("header" : Text) then rest else first :: rest

/-- The number of columns: that of the cells of the first row, but at least one. -/
def columns : List Content → Nat
  | [] => 1
  | first :: _ => max 1 first.children.length

/-- The lines of a table, the blank one at its end included. -/
def tableLines (base : LinkBase) (first : Content) (rest : List Content) : List Text :=
  barLine (titles base first) :: ruleLine (columns (first :: rest)) ::
    ((bodyRows (first :: rest)).map fun r => barLine (inlineTexts base r.children)) ++ [[]]

theorem inlineTexts_eq_map (base : LinkBase) (cs : List Content) :
    inlineTexts base cs = cs.map (inlineText base) := by
  induction cs with
  | nil => rfl
  | cons c rest ih => rw [inlineTexts, ih, List.map_cons]

theorem length_titleCells (base : LinkBase) (first : Content) :
    (titleCells base first).length = first.children.length := by
  unfold titleCells
  split
  · rw [inlineTexts_eq_map, List.length_map]
  · exact List.length_replicate

theorem length_titles (base : LinkBase) (first : Content) :
    (titles base first).length = max 1 first.children.length := by
  have hcells := length_titleCells base first
  unfold titles
  split
  · next hnone =>
    rw [← hcells, List.isEmpty_iff.mp hnone]
    rfl
  · next hsome =>
    rw [List.isEmpty_iff_length_eq_zero] at hsome
    omega

theorem table_eq (base : LinkBase) (first : Content) (rest : List Content) :
    table base (first :: rest) = (tableLines base first rest).flatMap (· ++ ['\n']) := by
  have hrule : ∀ n, tableRule n = ruleLine n ++ ['\n'] := fun _ => rfl
  have hline : ∀ cells, tableLine cells = barLine cells ++ ['\n'] := fun _ => rfl
  have htable : table base (first :: rest) =
      tableLine (titles base first) ++ tableRule (titles base first).length ++
        ((bodyRows (first :: rest)).flatMap fun r => tableLine (inlineTexts base r.children)) ++
          ['\n'] := rfl
  rw [htable, length_titles, tableLines]
  simp [hrule, hline, columns, List.flatMap_map]

theorem count_tableCell (h : IsCount count) (cell : Text) :
    count (tableCell cell) = count "|" + count cell := by
  have hbar : count " |" = count "|" := h.plain_append (s := " ") (by decide) "|"
  rw [tableCell, h.append (Or.inr (by decide)), h.plain_append (by decide), hbar, Nat.add_comm]

theorem count_flatMap_tableCell (h : IsCount count) (cells : List Text) :
    count (cells.flatMap tableCell) = count "|" * cells.length + (cells.map count).sum := by
  have hlast : ∀ cell : Text, (tableCell cell).getLast? ≠ some '\\' := by
    intro cell
    simp [tableCell, List.getLast?_cons, List.getLast?_append]
  induction cells with
  | nil => simp [h.nil]
  | cons cell rest ih =>
      rw [List.flatMap_cons, h.append (Or.inl (hlast cell)), count_tableCell h, ih]
      simp [Nat.mul_add]
      omega

theorem count_barLine (h : IsCount count) (cells : List Text) :
    count (barLine cells) = count "|" * (cells.length + 1) + (cells.map count).sum := by
  rw [barLine, h.append (Or.inl (by decide)), count_flatMap_tableCell h, Nat.mul_add]
  omega

/-- Lines hold as many line feeds as there are lines, besides those that stand in them. -/
theorem count_lineFeed_flatMap (ls : List Text) :
    (ls.flatMap (· ++ ['\n'])).count '\n' = ls.length + (ls.map (List.count '\n')).sum := by
  induction ls with
  | nil => rfl
  | cons l rest ih =>
      rw [List.flatMap_cons, List.count_append, ih]
      simp
      omega

/-! ## Well-formed tables -/

/-- A text without line feeds in which a backslash stands before every bar. -/
def IsClean (t : Text) : Prop := '\n' ∉ t ∧ bareBars t = 0

/-- A text is a table with a number of columns, and rows with numbers of cells: a
line of titles, a line below it, a line for each row and a blank line, where bars
without a backslash before them stand around each title and each cell and nowhere
else. -/
def IsTableText (columns : Nat) (cells : List Nat) (t : Text) : Prop :=
  ∃ header body, Text.lines t = header :: ruleLine columns :: body ++ [[]] ∧
    bareBars header = columns + 1 ∧ body.map bareBars = cells.map (· + 1)

instance (t : Text) : Decidable (IsClean t) := inferInstanceAs (Decidable (_ ∧ _))

theorem isClean_nil : IsClean [] := ⟨List.not_mem_nil, rfl⟩

theorem isClean_of_not_mem {t : Text} (hbar : '|' ∉ t) (hfeed : '\n' ∉ t) : IsClean t :=
  ⟨hfeed, bareBarsFrom_of_not_mem false hbar⟩

/-- The lines below the titles of a table have their bars, and the last one has none. -/
theorem IsTableText.bars {columns : Nat} {cells : List Nat} {t : Text}
    (h : IsTableText columns cells t) :
    ((Text.lines t).drop 2).map bareBars = cells.map (· + 1) ++ [0] := by
  obtain ⟨header, body, hlines, -, hbody⟩ := h
  rw [hlines, ← hbody]
  simp [bareBars, bareBarsFrom]

theorem forall_isClean_iff {ts : List Text} :
    (∀ t ∈ ts, IsClean t) ↔
      (ts.map (List.count '\n')).sum = 0 ∧ (ts.map bareBars).sum = 0 := by
  simp only [List.sum_eq_zero_iff_forall_eq_nat, List.forall_mem_map, List.count_eq_zero, IsClean]
  exact ⟨fun h => ⟨fun t ht => (h t ht).1, fun t ht => (h t ht).2⟩,
    fun h t ht => ⟨h.1 t ht, h.2 t ht⟩⟩

/-- A line of bars is as it should be exactly if its cells are clean. -/
theorem barLine_iff {cells : List Text} :
    '\n' ∉ barLine cells ∧ bareBars (barLine cells) = cells.length + 1 ↔
      ∀ t ∈ cells, IsClean t := by
  have hfeeds := count_barLine isCount_lineFeeds cells
  have hbars := count_barLine isCount_bareBars cells
  rw [show List.count '\n' ("|" : Text) = 0 from rfl] at hfeeds
  rw [show bareBars "|" = 1 from rfl] at hbars
  rw [forall_isClean_iff, ← List.count_eq_zero, hfeeds, hbars]
  omega

/-- What a cell shows is clean exactly if all is clean that it shows unescaped. -/
theorem isClean_inlineText_iff {c : Content} :
    IsClean (inlineText base c) ↔ ∀ t ∈ unescaped base c, IsClean t := by
  rw [forall_isClean_iff, ← count_inlineText isCount_lineFeeds c,
    ← count_inlineText isCount_bareBars c, List.count_eq_zero, IsClean]

theorem isClean_platformLabels {ps : List Platform} (h : ∀ p ∈ ps, IsClean p.displayName) :
    IsClean (platformLabels ps) := by
  rw [← List.forall_mem_map, forall_isClean_iff] at h
  have hsep : IsPlain ", " := by decide
  have hne : (", " : Text) ≠ [] := by decide
  rw [IsClean, ← List.count_eq_zero, platformLabels, isCount_lineFeeds.join hsep hne,
    isCount_bareBars.join hsep hne]
  exact h

theorem lineFeed_not_mem_ruleLine (n : Nat) : '\n' ∉ ruleLine n := by
  intro h
  rcases List.mem_append.mp h with h | h
  · exact absurd h (by decide)
  · obtain ⟨piece, hpiece, h⟩ := List.mem_flatten.mp h
    rw [(List.mem_replicate.mp hpiece).2] at h
    exact absurd h (by decide)

section

variable (base : LinkBase) (first : Content) (rest : List Content)

theorem lines_table (h : ∀ l ∈ tableLines base first rest, '\n' ∉ l) :
    Text.lines (table base (first :: rest)) = tableLines base first rest := by
  rw [table_eq, Text.lines_flatMap h]

/-- A table of as many lines as it should have is written in these lines. -/
theorem lineFeed_not_mem_tableLines
    (h : (Text.lines (table base (first :: rest))).length = (tableLines base first rest).length) :
    ∀ l ∈ tableLines base first rest, '\n' ∉ l := by
  have hle := Text.count_lineFeed_le_length_lines (table base (first :: rest))
  rw [h, table_eq, count_lineFeed_flatMap] at hle
  have hsum : ((tableLines base first rest).map (List.count '\n')).sum = 0 := by omega
  rw [List.sum_eq_zero_iff_forall_eq_nat, List.forall_mem_map] at hsum
  exact fun l hl => List.count_eq_zero.mp (hsum l hl)

theorem isTableText_table_iff :
    IsTableText (columns (first :: rest))
        ((bodyRows (first :: rest)).map fun r => r.children.length) (table base (first :: rest)) ↔
      (∀ t ∈ titles base first, IsClean t) ∧
        ∀ r ∈ bodyRows (first :: rest), ∀ t ∈ inlineTexts base r.children, IsClean t := by
  have hcells : ∀ r : Content, (inlineTexts base r.children).length = r.children.length :=
    fun r => by rw [inlineTexts_eq_map, List.length_map]
  have hcolumns : (titles base first).length = columns (first :: rest) :=
    length_titles base first
  constructor
  · rintro ⟨header, body, hlines, hheader, hbody⟩
    have hlength : body.length = (bodyRows (first :: rest)).length := by
      simpa using congrArg List.length hbody
    have hfeeds : ∀ l ∈ tableLines base first rest, '\n' ∉ l :=
      lineFeed_not_mem_tableLines base first rest (by simp [hlines, hlength, tableLines])
    rw [lines_table base first rest hfeeds, tableLines] at hlines
    obtain ⟨rfl, hrows⟩ := List.cons.inj hlines
    obtain rfl := List.append_cancel_right (List.cons.inj hrows).2
    rw [List.map_map, List.map_map, List.map_inj_left] at hbody
    refine ⟨barLine_iff.mp ⟨hfeeds _ (by simp [tableLines]), hcolumns ▸ hheader⟩,
      fun r hr => barLine_iff.mp ⟨hfeeds _ ?_, ?_⟩⟩
    · simp only [tableLines, List.cons_append, List.mem_cons, List.mem_append, List.mem_map]
      exact Or.inr (Or.inr (Or.inl ⟨r, hr, rfl⟩))
    · rw [hcells]
      exact hbody r hr
  · rintro ⟨htitles, hrows⟩
    have hheader := barLine_iff.mpr htitles
    have hbody := fun r hr => barLine_iff.mpr (hrows r hr)
    have hfeeds : ∀ l ∈ tableLines base first rest, '\n' ∉ l := by
      simp only [tableLines, List.cons_append, List.forall_mem_cons, List.forall_mem_append,
        List.forall_mem_map]
      exact ⟨hheader.1, lineFeed_not_mem_ruleLine _, fun r hr => (hbody r hr).1,
        List.not_mem_nil, fun _ h => absurd h List.not_mem_nil⟩
    refine ⟨_, _, lines_table base first rest hfeeds, hcolumns ▸ hheader.2, ?_⟩
    rw [List.map_map, List.map_map]
    refine List.map_congr_left fun r hr => ?_
    exact (hbody r hr).2.trans (congrArg (· + 1) (hcells r))

/-- The titles and the cells below them are clean exactly if all cells are. -/
theorem forall_isClean_cells_iff :
    ((∀ t ∈ titles base first, IsClean t) ∧
        ∀ r ∈ bodyRows (first :: rest), ∀ t ∈ inlineTexts base r.children, IsClean t) ↔
      ∀ r ∈ first :: rest, ∀ cell ∈ r.children, IsClean (inlineText base cell) := by
  simp only [inlineTexts_eq_map, List.forall_mem_map]
  by_cases hheader : first.style == ("header" : Text)
  · have htitles : (∀ t ∈ titles base first, IsClean t) ↔
        ∀ cell ∈ first.children, IsClean (inlineText base cell) := by
      rw [titles, titleCells, if_pos hheader, inlineTexts_eq_map]
      cases first.children with
      | nil => simp [isClean_nil]
      | cons cell cells => simp
    rw [htitles, bodyRows, if_pos hheader, List.forall_mem_cons]
  · have htitles : ∀ t ∈ titles base first, IsClean t := by
      intro t ht
      rw [titles, titleCells, if_neg hheader] at ht
      split at ht
      · exact List.mem_singleton.mp ht ▸ isClean_nil
      · exact (List.mem_replicate.mp ht).2 ▸ isClean_nil
    rw [bodyRows, if_neg hheader]
    exact ⟨And.right, And.intro htitles⟩

end

/-- A table has its lines exactly if all is clean that its cells show unescaped. -/
theorem isTableText_table_iff_unescaped {rows : List Content} (hrows : rows ≠ []) :
    IsTableText (columns rows) ((bodyRows rows).map fun r => r.children.length)
        (table base rows) ↔
      ∀ r ∈ rows, ∀ cell ∈ r.children, ∀ u ∈ unescaped base cell, IsClean u := by
  obtain ⟨first, rest, rfl⟩ := List.exists_cons_of_ne_nil hrows
  rw [isTableText_table_iff, forall_isClean_cells_iff]
  exact forall₂_congr fun _ _ => forall₂_congr fun _ _ => isClean_inlineText_iff

end Markdown

namespace Content

open Markdown

theorem toMarkdown_of_table {c : Content} (h : c.kind = .table) (t : PageTree) (path : Text) :
    c.toMarkdown t path = Markdown.table ⟨t, path⟩ c.children := by
  obtain ⟨kind, text, level, target, url, style, platforms, children⟩ := c
  obtain rfl : kind = .table := h
  rw [toMarkdown, block]

/-- A table is written as lines, and none of its cells adds one, exactly if every
address and every label of platforms that its cells show is clean. -/
theorem isTableText_toMarkdown_iff (c : Content) (t : PageTree) (path : Text)
    (hkind : c.kind = .table) (hrows : c.children ≠ []) :
    ((∀ r ∈ c.children, ∀ cell ∈ r.children, '\n' ∉ inlineText ⟨t, path⟩ cell) ∧
        IsTableText (columns c.children)
          ((bodyRows c.children).map fun r => r.children.length) (c.toMarkdown t path)) ↔
      ∀ r ∈ c.children, ∀ cell ∈ r.children, ∀ u ∈ unescaped ⟨t, path⟩ cell, IsClean u := by
  rw [toMarkdown_of_table hkind, isTableText_table_iff_unescaped hrows]
  refine and_iff_right_of_imp fun hclean r hr cell hcell => ?_
  exact (isClean_inlineText_iff.mpr (hclean r hr cell hcell)).1

/-- A table of one cell. -/
def tableOf (cell : Content) : Content :=
  { kind := .table, children := [row [cell] []] }

/-- A text that is said for one platform. -/
def saidFor (p : Platform) (said : Text) : Content :=
  { kind := .hinted, children := [(paragraph said).tagged [p]] }

/-- Two columns below a header: a link beside what a platform says. -/
def linkTable : Content :=
  table ["Name", "a|b\nc"]
    [row [urlLink "x|y" "http://h/a\\|b", saidFor ⟨"m", .jvm, ["8"]⟩ "s|t"] []]

/-- The table of a link and of what a platform says has its lines. -/
theorem isTableText_toMarkdown_iff_linkTable :
    linkTable.kind = .table ∧ linkTable.children ≠ [] ∧
      IsTableText 2 [2] (linkTable.toMarkdown {} "core/index.md") := by
  have hrows : linkTable.children ≠ [] := List.cons_ne_nil _ _
  have hshown : ∀ r ∈ linkTable.children, ∀ cell ∈ r.children,
      ∀ u ∈ unescaped ⟨{}, "core/index.md"⟩ cell, IsClean u := by
    decide
  exact ⟨rfl, hrows,
    ((isTableText_toMarkdown_iff linkTable {} "core/index.md" rfl hrows).mpr hshown).2⟩

/-- An address or the name of a platform with a bar gives a row one bar too many,
and an address with a line feed gives the table one line too many. -/
theorem barsAndFeeds_breakTables :
    ¬ IsTableText 1 [1] ((tableOf (urlLink "t" "a|b")).toMarkdown {} "core/index.md") ∧
      ¬ IsTableText 1 [1] ((tableOf (urlLink "t" "a\nb")).toMarkdown {} "core/index.md") ∧
      ¬ IsTableText 1 [1]
        ((tableOf (saidFor ⟨"m|n", .jvm, []⟩ "x")).toMarkdown {} "core/index.md") :=
  ⟨fun h => absurd h.bars (by decide), fun h => absurd h.bars (by decide),
    fun h => absurd h.bars (by decide)⟩

end Content

/-! ## Tables of clean names -/

namespace PageTree

/-- Pages that document something are content, and so have their paths from names. -/
def DocumentsByContent (t : PageTree) : Prop :=
  ∀ p ∈ t.pages, p.ids ≠ [] → p.kind ≠ .rendererSpecific

/-- The address of the page that a link to a declaration leads to is clean. -/
theorem DocumentsByContent.isClean_relativeLink {t : PageTree} (ht : t.DocumentsByContent)
    {id : DeclId} {target : Text} (h : t.resolve? id = some target) (source : Text) :
    Markdown.IsClean (relativeLink source target) := by
  obtain ⟨id', -, hpath⟩ := List.exists_of_findSome?_eq_some h
  obtain ⟨p, hp, hid⟩ := hasPage_of_pathOf? hpath
  obtain ⟨e, he, heq⟩ := List.mem_map.mp hp
  obtain ⟨rfl, rfl⟩ := Prod.mk.inj heq
  have hkind := ht e.1 (List.mem_map_of_mem he) (List.ne_nil_of_mem hid)
  have hnone : ∀ c : Char, isSlugChar c = false → c ≠ '/' → c ≠ '.' →
      c ∉ relativeLink source (t.pagePath e.1 e.2) := by
    intro c hc hslash hdot hmem
    rcases mem_of_mem_relativeLink hmem with he | he | he
    · exact hslash he
    · exact hdot he
    · exact not_mem_pagePath hc hslash t hkind e.2 he
  exact Markdown.isClean_of_not_mem (hnone '|' (by decide) (by decide) (by decide))
    (hnone '\n' (by decide) (by decide) (by decide))

end PageTree

namespace Content

open Markdown

/-- The addresses in a part and the names of its platforms are clean. -/
def NamesClean (c : Content) : Prop :=
  ∀ n ∈ c.flatten, IsClean n.url ∧ ∀ p ∈ n.platforms, IsClean p.displayName

theorem namesClean_iff (c : Content) :
    c.NamesClean ↔ (IsClean c.url ∧ ∀ p ∈ c.platforms, IsClean p.displayName) ∧
      ∀ d ∈ c.children, d.NamesClean := by
  unfold NamesClean
  rw [flatten_eq, flattenAll_eq_flatMap, List.forall_mem_cons, List.forall_mem_flatMap]

variable {t : PageTree} {path : Text}

mutual

theorem NamesClean.isClean_unescaped (ht : t.DocumentsByContent) : ∀ {c : Content},
    c.NamesClean → ∀ u ∈ unescaped ⟨t, path⟩ c, IsClean u
  | ⟨kind, text, level, target, url, style, platforms, children⟩, h, u, hu => by
      obtain ⟨⟨hurl, -⟩, hchildren⟩ := (namesClean_iff _).mp h
      have hparts := isClean_unescapedAll ht hchildren u
      cases kind with
      | header | text | code | separator => cases hu
      | link =>
          rw [unescaped, Option.mem_toList, address?] at hu
          split at hu
          · exact Option.some.inj hu ▸ hurl
          · obtain ⟨page, hpage, rfl⟩ := Option.map_eq_some_iff.mp hu
            obtain ⟨id, -, hid⟩ := Option.bind_eq_some_iff.mp hpage
            exact ht.isClean_relativeLink hid path
      | hinted => exact isClean_unescapedVariants ht hchildren u hu
      | group | table | row => exact hparts hu

theorem isClean_unescapedAll (ht : t.DocumentsByContent) : ∀ {cs : List Content},
    (∀ c ∈ cs, c.NamesClean) → ∀ u ∈ unescapedAll ⟨t, path⟩ cs, IsClean u
  | [], _, _, hu => absurd hu List.not_mem_nil
  | c :: rest, h, u, hu => by
      rw [unescapedAll] at hu
      obtain ⟨hc, hrest⟩ := List.forall_mem_cons.mp h
      rcases List.mem_append.mp hu with hu | hu
      · exact hc.isClean_unescaped ht u hu
      · exact isClean_unescapedAll ht hrest u hu

theorem isClean_unescapedVariants (ht : t.DocumentsByContent) : ∀ {cs : List Content},
    (∀ c ∈ cs, c.NamesClean) → ∀ u ∈ unescapedVariants ⟨t, path⟩ cs, IsClean u
  | [], _, _, hu => absurd hu List.not_mem_nil
  | c :: rest, h, u, hu => by
      obtain ⟨hc, hrest⟩ := List.forall_mem_cons.mp h
      have hlater := isClean_unescapedVariants ht hrest u
      rw [unescapedVariants] at hu
      split at hu
      · exact hlater hu
      rcases List.mem_append.mp hu with hu | hu
      · rcases List.mem_cons.mp hu with rfl | hu
        · exact isClean_platformLabels ((namesClean_iff c).mp hc).1.2
        · exact hc.isClean_unescaped ht u hu
      · exact hlater hu

end

/-- Whatever is said in it, a table of clean names has its lines. -/
theorem NamesClean.isTableText_toMarkdown (ht : t.DocumentsByContent) {c : Content}
    (hc : c.NamesClean) (hkind : c.kind = .table) (hrows : c.children ≠ []) :
    IsTableText (columns c.children)
      ((bodyRows c.children).map fun r => r.children.length) (c.toMarkdown t path) := by
  have hchildren := ((namesClean_iff c).mp hc).2
  rw [toMarkdown_of_table hkind, isTableText_table_iff_unescaped hrows]
  intro r hr cell hcell
  exact (((namesClean_iff r).mp (hchildren r hr)).2 cell hcell).isClean_unescaped ht

end Content

end CrossDoc
