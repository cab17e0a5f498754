import CrossDoc.Proofs.ListingLines

/-!
# Nesting by indentation

The open declarations are marks that the text leaves: going back from a line to
the first mark that is indented less finds its owner.  A malformed declaration
leaves no mark and closes none, so the nesting is that of the well-formed
declarations; what is indented under a malformed one goes to whatever stands
around it.
-/

namespace CrossDoc.Listing

/-! ## Owners in the text

`lines` says which lines count, with their indentation. -/

/-- Of the lines before `n` that are indented less than it, `p` is the last. -/
def IsNearest (lines : Nat → Nat → Prop) (p n : Nat) : Prop :=
  ∃ i w, lines n i ∧ lines p w ∧ p < n ∧ w < i ∧ ∀ k v, p < k → k < n → lines k v → i ≤ v

/-- No line before `n` is indented less than it. -/
def IsOutermost (lines : Nat → Nat → Prop) (n : Nat) : Prop :=
  ∃ i, lines n i ∧ ∀ k v, k < n → lines k v → i ≤ v

/-- The symbols of a file are nested as their lines are. -/
structure NestsBy (lines : Nat → Nat → Prop) (f : SourceFile) : Prop where
  outermost : ∀ s ∈ f.symbols, IsOutermost lines s.location.line
  members : ∀ p ∈ f.declared, ∀ s ∈ p.members, IsNearest lines p.location.line s.location.line

/-! ## Marks -/

/-- What of an open declaration decides where further lines go. -/
structure Mark where
  indent : Nat
  line : Nat
  isClass : Bool

def OpenSymbol.mark (o : OpenSymbol) : Mark :=
  ⟨o.indent, o.symbol.location.line, o.symbol.kind.isClasslike⟩

def closeMarks (indent : Nat) (ms : List Mark) : List Mark :=
  ms.dropWhile fun m => indent ≤ m.indent

theorem marks_closeTo (indent : Nat) : ∀ (opened : List OpenSymbol) (loose : List Symbol),
    (closeTo indent loose opened).1.map OpenSymbol.mark =
      closeMarks indent (opened.map OpenSymbol.mark)
  | [], _ => rfl
  | o :: rest, loose => by
      rw [closeTo, List.map_cons, closeMarks, List.dropWhile_cons]
      by_cases h : indent ≤ o.indent
      · simp only [h, if_true, OpenSymbol.mark, decide_true]
        exact marks_closeTo indent rest _
      · simp [h, OpenSymbol.mark]

theorem closeMarks_cons {indent : Nat} {ms rest : List Mark} {m : Mark}
    (h : closeMarks indent ms = m :: rest) : m ∈ ms ∧ m.indent < indent := by
  have hmem : m ∈ ms := (List.dropWhile_suffix _).subset (h ▸ List.mem_cons_self)
  have hhead := List.head?_dropWhile_not (fun m : Mark => decide (indent ≤ m.indent)) ms
  unfold closeMarks at h
  rw [h] at hhead
  exact ⟨hmem, by simpa using hhead⟩

/-- To close further out, it does not matter what has been closed before. -/
theorem closeMarks_closeMarks {i j : Nat} (h : i ≤ j) (ms : List Mark) :
    closeMarks i (closeMarks j ms) = closeMarks i ms := by
  unfold closeMarks
  induction ms with
  | nil => rfl
  | cons m rest ih =>
      by_cases hj : j ≤ m.indent
      · have hi : i ≤ m.indent := Nat.le_trans h hj
        simpa [List.dropWhile_cons, hj, hi] using ih
      · simp [List.dropWhile_cons, hj]

theorem closeMarks_of_lt {i j : Nat} (h : j < i) (ms : List Mark) :
    closeMarks i (closeMarks j ms) = closeMarks j ms := by
  cases hm : closeMarks j ms with
  | nil => rfl
  | cons m rest =>
      have hlt : ¬ i ≤ m.indent := by
        have := (closeMarks_cons hm).2
        omega
      simp [closeMarks, hlt]

/-! ## Marks of a text -/

section Text

variable {ls : List Text}

/-- The marks are those of the lines before `next`: from every indentation they
lead to the nearest line that is indented less, or to one that is no class. -/
structure Tracks (ls : List Text) (next : Nat) (ms : List Mark) : Prop where
  placed : ∀ m ∈ ms, m.line < next ∧ HeadAt ls m.line m.indent
  none : ∀ i, closeMarks i ms = [] → ∀ k v, k < next → HeadAt ls k v → i ≤ v
  nearest : ∀ i m rest, closeMarks i ms = m :: rest → m.isClass = true →
    ∀ k v, m.line < k → k < next → HeadAt ls k v → i ≤ v

namespace Tracks

variable {next : Nat} {ms : List Mark}

theorem initial : Tracks ls 1 [] := by
  refine ⟨by simp, ?_, ?_⟩
  · rintro i - k v hk ⟨raw, hraw, -⟩
    obtain rfl : k = 0 := by omega
    cases hraw
  · intro i m rest h
    cases h

theorem isOutermost (h : Tracks ls next ms) {j : Nat} (hj : HeadAt ls next j)
    (hclose : closeMarks j ms = []) : IsOutermost (HeadAt ls) next :=
  ⟨j, hj, h.none j hclose⟩

theorem isNearest (h : Tracks ls next ms) {j : Nat} (hj : HeadAt ls next j) {m : Mark}
    {rest : List Mark} (hclose : closeMarks j ms = m :: rest) (hclass : m.isClass = true) :
    IsNearest (HeadAt ls) m.line next := by
  obtain ⟨hmem, hlt⟩ := closeMarks_cons hclose
  obtain ⟨hline, hhead⟩ := h.placed m hmem
  exact ⟨j, m.indent, hj, hhead, hline, hlt, h.nearest j m rest hclose hclass⟩

/-- A line without a declaration leaves the marks right. -/
theorem skip (h : Tracks ls next ms) (hno : ∀ v, ¬ HeadAt ls next v) :
    Tracks ls (next + 1) ms := by
  have hbefore : ∀ k v, k < next + 1 → HeadAt ls k v → k < next := by
    intro k v hk hv
    have hne : k ≠ next := fun he => hno v (he ▸ hv)
    omega
  refine ⟨?_, ?_, ?_⟩
  · intro m hm
    exact ⟨Nat.lt_succ_of_lt (h.placed m hm).1, (h.placed m hm).2⟩
  · intro i hi k v hk hv
    exact h.none i hi k v (hbefore k v hk hv) hv
  · intro i m rest hi hm k v hmk hk hv
    exact h.nearest i m rest hi hm k v hmk (hbefore k v hk hv) hv

/-- What is open outside of a declaration is right for the lines after it. -/
theorem outside (h : Tracks ls next ms) {i j : Nat} (hj : HeadAt ls next j) (hij : i ≤ j) :
    (closeMarks i ms = [] → ∀ k v, k < next + 1 → HeadAt ls k v → i ≤ v) ∧
      ∀ m rest, closeMarks i ms = m :: rest → m.isClass = true →
        ∀ k v, m.line < k → k < next + 1 → HeadAt ls k v → i ≤ v := by
  constructor
  · intro hi k v hk hv
    rcases Nat.lt_succ_iff_lt_or_eq.mp hk with hk | rfl
    · exact h.none i hi k v hk hv
    · exact hv.indent_eq hj ▸ hij
  · intro m rest hi hm k v hmk hk hv
    rcases Nat.lt_succ_iff_lt_or_eq.mp hk with hk | rfl
    · exact h.nearest i m rest hi hm k v hmk hk hv
    · exact hv.indent_eq hj ▸ hij

theorem placed_close (h : Tracks ls next ms) (j : Nat) :
    ∀ m ∈ closeMarks j ms, m.line < next + 1 ∧ HeadAt ls m.line m.indent := by
  intro m hm
  obtain ⟨hline, hhead⟩ := h.placed m ((List.dropWhile_suffix _).subset hm)
  exact ⟨Nat.lt_succ_of_lt hline, hhead⟩

/-- A declaration that is kept leaves its mark. -/
theorem push (h : Tracks ls next ms) {j : Nat} (hj : HeadAt ls next j) (isClass : Bool) :
    Tracks ls (next + 1) (⟨j, next, isClass⟩ :: closeMarks j ms) := by
  have hclose : ∀ i, closeMarks i (⟨j, next, isClass⟩ :: closeMarks j ms) =
      if i ≤ j then closeMarks i ms else ⟨j, next, isClass⟩ :: closeMarks j ms := by
    intro i
    by_cases hij : i ≤ j
    · have hsame := closeMarks_closeMarks hij ms
      rw [if_pos hij, ← hsame]
      simp [closeMarks, hij]
    · simp [closeMarks, hij]
  -- Up to the indentation of the new mark what was open decides, beyond it the mark.
  refine ⟨?_, ?_, ?_⟩
  · intro m hm
    rcases List.mem_cons.mp hm with rfl | hm
    · exact ⟨Nat.lt_succ_self next, hj⟩
    · exact h.placed_close j m hm
  · intro i hi
    rw [hclose] at hi
    split at hi
    · next hij => exact (h.outside hj hij).1 hi
    · cases hi
  · intro i m rest hi hm
    rw [hclose] at hi
    split at hi
    · next hij => exact (h.outside hj hij).2 m rest hi hm
    · obtain rfl := (List.cons.inj hi).1
      intro k v hmk hk
      dsimp only at hmk
      omega

/-- A declaration that is dropped leaves none, and nothing can be nested where
it was dropped. -/
theorem drop (h : Tracks ls next ms) {j : Nat} (hj : HeadAt ls next j) {m : Mark}
    {rest : List Mark} (hclose : closeMarks j ms = m :: rest) (hclass : m.isClass = false) :
    Tracks ls (next + 1) (closeMarks j ms) := by
  refine ⟨h.placed_close j, ?_, ?_⟩
  · intro i hi
    rcases Nat.lt_or_ge j i with hji | hij
    · rw [closeMarks_of_lt hji, hclose] at hi
      cases hi
    · rw [closeMarks_closeMarks hij] at hi
      exact (h.outside hj hij).1 hi
  · intro i m' rest' hi hm'
    rcases Nat.lt_or_ge j i with hji | hij
    · -- A deeper line finds the declaration that is no class.
      rw [closeMarks_of_lt hji, hclose] at hi
      obtain rfl := (List.cons.inj hi).1
      rw [hclass] at hm'
      cases hm'
    · rw [closeMarks_closeMarks hij] at hi
      exact (h.outside hj hij).2 m' rest' hi hm'

end Tracks

/-! ## Symbols -/

/-- Below the symbol everything is nested as the lines are. -/
def Nests (ls : List Text) (s : Symbol) : Prop :=
  ∀ p ∈ s.declared, ∀ m ∈ p.members, IsNearest (HeadAt ls) p.location.line m.location.line

theorem nests_iff {s : Symbol} : Nests ls s ↔
    ∀ m ∈ s.members, IsNearest (HeadAt ls) s.location.line m.location.line ∧ Nests ls m := by
  unfold Nests
  simp only [Symbol.declared_eq s, Symbol.declaredAll_eq_flatMap, List.mem_cons, List.mem_flatMap]
  constructor
  · intro h m hm
    exact ⟨h s (Or.inl rfl) m hm, fun p hp => h p (Or.inr ⟨m, hm, hp⟩)⟩
  · rintro h p (rfl | ⟨m, hm, hp⟩)
    · exact fun m hm => (h m hm).1
    · exact (h m hm).2 p hp

/-- The line can be a member of the innermost open declaration, or at the top
if none is open. -/
def Belongs (ls : List Text) (n : Nat) : List OpenSymbol → Prop
  | [] => IsOutermost (HeadAt ls) n
  | o :: _ => IsNearest (HeadAt ls) o.symbol.location.line n

/-- The open declarations are nested as the lines are. -/
def SpineNests (ls : List Text) : List OpenSymbol → Prop
  | [] => True
  | o :: rest => Belongs ls o.symbol.location.line rest ∧ Nests ls o.symbol ∧ SpineNests ls rest

theorem closeTo_nests (indent : Nat) : ∀ (opened : List OpenSymbol) (loose : List Symbol),
    SpineNests ls opened → (∀ s ∈ loose, Belongs ls s.location.line opened ∧ Nests ls s) →
      SpineNests ls (closeTo indent loose opened).1 ∧
        ∀ s ∈ (closeTo indent loose opened).2,
          IsOutermost (HeadAt ls) s.location.line ∧ Nests ls s
  | [], _, _, hloose => ⟨trivial, hloose⟩
  | o :: rest, loose, ⟨hbelongs, hnests, hrest⟩, hloose => by
      have hsymbol : Nests ls { o.symbol with members := o.symbol.members ++ loose } := by
        refine nests_iff.mpr fun m hm => ?_
        rcases List.mem_append.mp hm with hm | hm
        · exact nests_iff.mp hnests m hm
        · exact hloose m hm
      rw [closeTo]
      split
      · -- It is closed with its new members and is itself loose for the next one.
        refine closeTo_nests indent rest _ hrest ?_
        intro s hs
        rw [List.mem_singleton.mp hs]
        exact ⟨hbelongs, hsymbol⟩
      · exact ⟨⟨hbelongs, hsymbol, hrest⟩, by simp⟩

/-! ## Reading -/

/-- What holds of a listing while it is read, before the line `next`. -/
structure Draft.Nested (ls : List Text) (next : Nat) (d : Draft) : Prop where
  tracks : Tracks ls next (d.opened.map OpenSymbol.mark)
  spine : SpineNests ls d.opened
  closed : ∀ s ∈ d.closed, IsOutermost (HeadAt ls) s.location.line ∧ Nests ls s

namespace Draft.Nested

variable {d : Draft} {next : Nat}

theorem initial : Draft.Nested ls 1 {} :=
  ⟨Tracks.initial, trivial, by simp⟩

theorem finish (h : d.Nested ls next) (location : SourceLocation) :
    (d.finish location).Nested ls next := by
  unfold Draft.finish
  split
  · exact h
  · exact ⟨h.tracks, h.spine, h.closed⟩

theorem spine_close (h : d.Nested ls next) (indent : Nat) :
    SpineNests ls (d.close indent).opened ∧
      ∀ s ∈ (d.close indent).closed, IsOutermost (HeadAt ls) s.location.line ∧ Nests ls s := by
  obtain ⟨hopened, hloose⟩ := closeTo_nests indent d.opened [] h.spine (by simp)
  refine ⟨hopened, fun s hs => ?_⟩
  rcases List.mem_append.mp hs with hs | hs
  · exact h.closed s hs
  · exact hloose s hs

theorem nests_toSymbol (head : Head) (p : Pending) (location : SourceLocation) :
    Nests ls (head.toSymbol p location) :=
  nests_iff.mpr fun _ hm => absurd hm List.not_mem_nil

theorem readDeclaration (h : d.Nested ls next) {raw file : Text}
    (hraw : lineAt? ls next = some raw) (hline : IsDeclarationLine raw) :
    (d.readDeclaration (trim raw) (indentation raw) ⟨file, next⟩).Nested ls (next + 1) := by
  have hmarks := marks_closeTo (indentation raw) d.opened []
  obtain ⟨hspine, hclosed⟩ := h.spine_close (indentation raw)
  have hhead : ∀ {head}, readHead (trim raw) = .ok head → HeadAt ls next (indentation raw) :=
    fun {head} ok => ⟨raw, hraw, hline, rfl, head, ok⟩
  generalize hresult : d.readDeclaration (trim raw) (indentation raw) ⟨file, next⟩ = r
  have hreads := hresult ▸ readsDeclaration d (trim raw) (indentation raw) ⟨file, next⟩
  cases hreads with
  | @malformed problem hproblem =>
      -- Nothing is closed, which is right as the line is no head.
      refine ⟨h.tracks.skip ?_, h.spine, h.closed⟩
      rintro v ⟨raw', hraw', -, -, head, ok⟩
      rw [hraw] at hraw'
      rw [← Option.some.inj hraw', hproblem] at ok
      cases ok
  | @outermost head ok alone =>
      have hat := hhead ok
      have hempty : closeMarks (indentation raw) (d.opened.map OpenSymbol.mark) = [] := by
        rw [← hmarks]
        exact congrArg (List.map OpenSymbol.mark) alone
      refine ⟨?_, ?_, hclosed⟩
      · have hpush := h.tracks.push hat head.kind.isClasslike
        rw [hempty] at hpush
        exact hpush
      · exact ⟨h.tracks.isOutermost hat hempty, nests_toSymbol head _ _, trivial⟩
  | @member head o rest ok inside owner =>
      have hat := hhead ok
      have hcons : closeMarks (indentation raw) (d.opened.map OpenSymbol.mark) =
          o.mark :: rest.map OpenSymbol.mark := by
        rw [← hmarks]
        exact congrArg (List.map OpenSymbol.mark) inside
      refine ⟨?_, ?_, hclosed⟩
      · have hpush := h.tracks.push hat head.kind.isClasslike
        rw [hcons] at hpush
        exact hpush
      · exact ⟨h.tracks.isNearest hat hcons owner, nests_toSymbol head _ _, inside ▸ hspine⟩
  | @dropped head o rest ok inside owner =>
      have hat := hhead ok
      have hcons : closeMarks (indentation raw) (d.opened.map OpenSymbol.mark) =
          o.mark :: rest.map OpenSymbol.mark := by
        rw [← hmarks]
        exact congrArg (List.map OpenSymbol.mark) inside
      have hdrop := h.tracks.drop hat hcons owner
      rw [hcons] at hdrop
      exact ⟨hdrop, inside ▸ hspine, hclosed⟩

theorem readLine (h : d.Nested ls next) {raw file : Text} (hraw : lineAt? ls next = some raw) :
    (d.readLine raw ⟨file, next⟩).Nested ls (next + 1) := by
  by_cases hline : IsDeclarationLine raw
  · rw [readLine_of_isDeclarationLine hline]
    exact h.readDeclaration hraw hline
  · obtain ⟨hopened, hclosed⟩ := readLine_of_not_isDeclarationLine hline d ⟨file, next⟩
    have hno : ∀ v, ¬ HeadAt ls next v := by
      rintro v ⟨raw', hraw', hline', -⟩
      rw [hraw] at hraw'
      exact hline (Option.some.inj hraw' ▸ hline')
    exact ⟨hopened ▸ h.tracks.skip hno, hopened ▸ h.spine, hclosed ▸ h.closed⟩

theorem readLines (file : Text) {rest before : List Text} {d : Draft}
    (h : d.Nested (before ++ rest) (before.length + 1)) :
    (Draft.readLines file d (before.length + 1) rest).Nested (before ++ rest)
      ((before ++ rest).length + 1) :=
  readLines_induction (motive := fun n d => d.Nested (before ++ rest) n)
    (fun _ _ _ hraw h => h.readLine hraw) rest before d rfl h

/-- Closing the last declarations nests them all. -/
theorem nestsBy (h : d.Nested ls next) (file : Text) :
    NestsBy (HeadAt ls) ⟨file, d.package, (d.close 0).closed⟩ := by
  have hclosed := (h.spine_close 0).2
  refine ⟨fun s hs => (hclosed s hs).1, ?_⟩
  intro p hp s hs
  rw [SourceFile.declared, Symbol.declaredAll_eq_flatMap] at hp
  obtain ⟨top, htop, hp⟩ := List.mem_flatMap.mp hp
  exact (hclosed top htop).2 p hp s hs

end Draft.Nested

/-! ## Malformed lines -/

/-- Between the lines `p` and `n` stands a malformed declaration that is
indented less than `n`. -/
def IsCut (ls : List Text) (p n : Nat) : Prop :=
  ∃ k v i, p < k ∧ k < n ∧ MalformedAt ls k v ∧ HeadAt ls n i ∧ v < i

theorem isNearest_declarationAt_iff {p n : Nat} (h : IsNearest (HeadAt ls) p n) :
    IsNearest (DeclarationAt ls) p n ↔ ¬ IsCut ls p n := by
  obtain ⟨i, w, hn, hp, hpn, hwi, hbetween⟩ := h
  constructor
  · rintro ⟨j, -, hn', -, -, -, hall⟩ ⟨k, v, i', hpk, hkn, hk, hi', hvi⟩
    have hle := hall k v hpk hkn (declarationAt_iff.mpr (Or.inr hk))
    have hj := hn'.indent_eq (declarationAt_iff.mpr (Or.inl hi'))
    omega
  · intro hcut
    refine ⟨i, w, declarationAt_iff.mpr (Or.inl hn), declarationAt_iff.mpr (Or.inl hp), hpn, hwi,
      ?_⟩
    intro k v hpk hkn hk
    rcases declarationAt_iff.mp hk with hk | hk
    · exact hbetween k v hpk hkn hk
    · exact Nat.le_of_not_lt fun hvi => hcut ⟨k, v, i, hpk, hkn, hk, hn, hvi⟩

theorem isOutermost_declarationAt_iff {n : Nat} (h : IsOutermost (HeadAt ls) n) :
    IsOutermost (DeclarationAt ls) n ↔ ¬ IsCut ls 0 n := by
  obtain ⟨i, hn, hbefore⟩ := h
  constructor
  · rintro ⟨j, hn', hall⟩ ⟨k, v, i', -, hkn, hk, hi', hvi⟩
    have hle := hall k v hkn (declarationAt_iff.mpr (Or.inr hk))
    have hj := hn'.indent_eq (declarationAt_iff.mpr (Or.inl hi'))
    omega
  · intro hcut
    refine ⟨i, declarationAt_iff.mpr (Or.inl hn), ?_⟩
    intro k v hkn hk
    rcases declarationAt_iff.mp hk with hk | hk
    · exact hbefore k v hkn hk
    · exact Nat.le_of_not_lt fun hvi => hcut ⟨k, v, i, hk.pos, hkn, hk, hn, hvi⟩

/-- The symbols are nested as the well-formed declaration lines are.  They are
nested as all declaration lines are exactly if no malformed one stands between
a symbol and its owner, or before a symbol of the top level, and is indented
less than the symbol. -/
theorem parse_nestsBy (text file : Text) :
    NestsBy (HeadAt (Text.lines text)) (parse text file).1 ∧
      (NestsBy (DeclarationAt (Text.lines text)) (parse text file).1 ↔
        (∀ s ∈ (parse text file).1.symbols, ¬ IsCut (Text.lines text) 0 s.location.line) ∧
          ∀ p ∈ (parse text file).1.declared, ∀ s ∈ p.members,
            ¬ IsCut (Text.lines text) p.location.line s.location.line) := by
  have hnested : NestsBy (HeadAt (Text.lines text)) (parse text file).1 := by
    have hstart : Draft.Nested ([] ++ Text.lines text) (([] : List Text).length + 1) {} :=
      Draft.Nested.initial
    have hread := hstart.readLines file
    exact (hread.finish ⟨file, (Text.lines text).length⟩).nestsBy file
  refine ⟨hnested, ?_, ?_⟩
  · intro h
    constructor
    · intro s hs
      exact (isOutermost_declarationAt_iff (hnested.outermost s hs)).mp (h.outermost s hs)
    · intro p hp s hs
      exact (isNearest_declarationAt_iff (hnested.members p hp s hs)).mp (h.members p hp s hs)
  · rintro ⟨houtermost, hmembers⟩
    constructor
    · intro s hs
      exact (isOutermost_declarationAt_iff (hnested.outermost s hs)).mpr (houtermost s hs)
    · intro p hp s hs
      exact (isNearest_declarationAt_iff (hnested.members p hp s hs)).mpr (hmembers p hp s hs)

end Text

/-- A function below a line with an unknown kind becomes a member of the class
before that line. -/
theorem not_nestsBy_of_unknownKind :
    ¬ NestsBy (DeclarationAt (Text.lines "class A\nwidget B\n    fun f()\n"))
      (parse "class A\nwidget B\n    fun f()\n" "src/x.api").1 := by
  intro h
  have hkept : ∃ p ∈ (parse "class A\nwidget B\n    fun f()\n" "src/x.api").1.declared,
      ∃ s ∈ p.members, p.location.line = 1 ∧ s.location.line = 3 := by decide +kernel
  obtain ⟨p, hp, s, hs, hpLine, hsLine⟩ := hkept
  have hnearest := h.members p hp s hs
  rw [hpLine, hsLine] at hnearest
  obtain ⟨i, -, hthird, -, -, -, hbetween⟩ := hnearest
  have hsecond : DeclarationAt (Text.lines "class A\nwidget B\n    fun f()\n") 2 0 :=
    ⟨"widget B", by decide, ⟨by decide, by decide, by decide, by decide⟩, by decide⟩
  have hindent : DeclarationAt (Text.lines "class A\nwidget B\n    fun f()\n") 3 4 :=
    ⟨"    fun f()", by decide, ⟨by decide, by decide, by decide, by decide⟩, by decide⟩
  have hle := hbetween 2 0 (by decide) (by decide) hsecond
  rw [hthird.indent_eq hindent] at hle
  exact absurd hle (by decide)

end CrossDoc.Listing
