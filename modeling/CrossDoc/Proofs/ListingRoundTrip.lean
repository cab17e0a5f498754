import CrossDoc.Proofs.WrittenListing

/-!
# Reading back what is written

Reading the lines of a symbol has one effect, whatever is open around it: after
closing everything that is not indented less, the symbol is one member more of
what stands there.  So reading a written forest gives the forest.
-/

namespace CrossDoc

namespace Symbol

mutual

/-- The symbol without the places where it and its members were found. -/
def unplaced : Symbol → Symbol
  | ⟨kind, keyword, name, tail, visibility, deprecation, annotations, doc, _, members⟩ =>
      ⟨kind, keyword, name, tail, visibility, deprecation, annotations, doc, {},
        unplacedAll members⟩

def unplacedAll : List Symbol → List Symbol
  | [] => []
  | s :: rest => s.unplaced :: unplacedAll rest

end

theorem unplaced_eq (s : Symbol) :
    s.unplaced = { s with location := {}, members := unplacedAll s.members } := by
  cases s
  rw [unplaced]

end Symbol

namespace Listing

open CrossDoc.Symbol

/-! ## Closing -/

/-- The open declaration with further members. -/
def OpenSymbol.add (o : OpenSymbol) (ss : List Symbol) : OpenSymbol :=
  { o with symbol := { o.symbol with members := o.symbol.members ++ ss } }

theorem OpenSymbol.add_nil (o : OpenSymbol) : o.add [] = o := by
  obtain ⟨indent, s⟩ := o
  cases s
  simp only [OpenSymbol.add, List.append_nil]

theorem OpenSymbol.add_add (o : OpenSymbol) (ss ts : List Symbol) :
    (o.add ss).add ts = o.add (ss ++ ts) := by
  unfold OpenSymbol.add
  rw [List.append_assoc]

theorem closeTo_cons (indent : Nat) (loose : List Symbol) (o : OpenSymbol)
    (rest : List OpenSymbol) :
    closeTo indent loose (o :: rest) =
      if indent ≤ o.indent then closeTo indent [(o.add loose).symbol] rest
      else (o.add loose :: rest, []) := by
  rw [closeTo]
  rfl

theorem closeTo_closeTo {i j : Nat} (h : i ≤ j) : ∀ (opened : List OpenSymbol) (loose : List Symbol),
    closeTo i loose opened =
      ((closeTo i [] (closeTo j loose opened).1).1,
        (closeTo j loose opened).2 ++ (closeTo i [] (closeTo j loose opened).1).2)
  | [], loose => by simp [closeTo]
  | o :: rest, loose => by
      by_cases hj : j ≤ o.indent
      · have hi : i ≤ o.indent := Nat.le_trans h hj
        rw [closeTo_cons, closeTo_cons, if_pos hi, if_pos hj]
        exact closeTo_closeTo h rest _
      · have hindent : (o.add loose).indent = o.indent := rfl
        rw [closeTo_cons, closeTo_cons, if_neg hj, closeTo_cons, hindent, OpenSymbol.add_nil,
          List.nil_append]

/-- To close further out, it does not matter what has been closed before. -/
theorem Draft.close_close {i j : Nat} (h : i ≤ j) (d : Draft) :
    (d.close j).close i = d.close i := by
  have hclose := closeTo_closeTo h d.opened []
  unfold Draft.close
  dsimp only
  rw [hclose, List.append_assoc]

theorem lt_of_closeTo {indent : Nat} {o : OpenSymbol} {rest : List OpenSymbol} :
    ∀ {opened : List OpenSymbol} {loose : List Symbol},
      (closeTo indent loose opened).1 = o :: rest → o.indent < indent
  | [], _, h => nomatch h
  | p :: _, _, h => by
      rw [closeTo_cons] at h
      split at h
      · exact lt_of_closeTo h
      · next hp =>
        obtain rfl := (List.cons.inj h).1
        exact Nat.lt_of_not_le hp

/-- The innermost open declaration, or the top level if there is none, gets
further members. -/
def Draft.add (d : Draft) (ss : List Symbol) : Draft :=
  match d.opened with
  | [] => { d with closed := d.closed ++ ss }
  | o :: rest => { d with opened := o.add ss :: rest }

theorem Draft.add_nil (d : Draft) : d.add [] = d := by
  obtain ⟨package, pending, opened, closed, diagnostics⟩ := d
  cases opened with
  | nil => simp only [Draft.add, List.append_nil]
  | cons o rest => simp only [Draft.add, o.add_nil]

theorem Draft.add_add (d : Draft) (ss ts : List Symbol) : (d.add ss).add ts = d.add (ss ++ ts) := by
  obtain ⟨package, pending, opened, closed, diagnostics⟩ := d
  cases opened with
  | nil => simp only [Draft.add, List.append_assoc]
  | cons o rest => simp only [Draft.add, o.add_add]

/-- Nothing waits, and a declaration of this indentation has a place: the top
level or a class. -/
structure Draft.Takes (indent : Nat) (d : Draft) : Prop where
  idle : d.pending = {}
  owner : ∀ o ∈ (d.close indent).opened.head?, o.symbol.kind.isClasslike = true

theorem Draft.Takes.of_close {indent : Nat} {d d' : Draft} (h : d.Takes indent) {ss : List Symbol}
    (hclose : d'.close indent = (d.close indent).add ss) : d'.Takes indent := by
  have hpending : ∀ e : Draft, (e.add ss).pending = e.pending := by
    intro e
    unfold Draft.add
    split <;> rfl
  constructor
  · have hidle := congrArg Draft.pending hclose
    rw [hpending] at hidle
    exact hidle.trans h.idle
  · rw [hclose]
    unfold Draft.add
    split
    · next hnone =>
      dsimp only
      rw [hnone]
      exact nofun
    · next o rest hsome =>
      rintro p hp
      obtain rfl := Option.some.inj hp
      exact h.owner o (by rw [hsome]; rfl)

/-- The draft after a declaration of this indentation. -/
def Draft.push (d : Draft) (indent : Nat) (s : Symbol) : Draft :=
  { d.close indent with pending := {}, opened := ⟨indent, s⟩ :: (d.close indent).opened }

theorem readDeclaration_push {d : Draft} {indent : Nat} {text : Text} {head : Head}
    (ok : readHead text = .ok head)
    (howner : ∀ o ∈ (d.close indent).opened.head?, o.symbol.kind.isClasslike = true)
    (location : SourceLocation) :
    d.readDeclaration text indent location = d.push indent (head.toSymbol d.pending location) := by
  generalize hresult : d.readDeclaration text indent location = r
  have hreads := hresult ▸ readsDeclaration d text indent location
  cases hreads with
  | malformed hproblem =>
      rw [ok] at hproblem
      cases hproblem
  | outermost hok alone =>
      rw [ok] at hok
      obtain rfl := Except.ok.inj hok
      rw [Draft.push, alone]
  | member hok inside owner =>
      rw [ok] at hok
      obtain rfl := Except.ok.inj hok
      rw [Draft.push, inside]
  | dropped hok inside owner =>
      have hclass := howner _ (by rw [inside]; rfl)
      rw [owner] at hclass
      cases hclass

/-- A declaration stays open for what is indented more. -/
theorem Draft.close_push_of_lt {d : Draft} {i j : Nat} (h : i < j) (s : Symbol) :
    (d.push i s).close j = d.push i s := by
  have hopen : closeTo j [] (d.push i s).opened = ((d.push i s).opened, []) := by
    show closeTo j [] (⟨i, s⟩ :: (d.close i).opened) = _
    rw [closeTo_cons, if_neg (Nat.not_le_of_lt h), OpenSymbol.add_nil]
    rfl
  unfold Draft.close
  rw [hopen]
  dsimp only
  rw [List.append_nil]

/-- Below a class there is a place for members. -/
theorem Draft.takes_push {d : Draft} {i j : Nat} (h : i < j) {s : Symbol}
    (hclass : s.kind.isClasslike = true) : (d.push i s).Takes j := by
  refine ⟨rfl, ?_⟩
  rw [close_push_of_lt h]
  rintro o ho
  obtain rfl := Option.some.inj ho
  exact hclass

/-- What is loose goes to the innermost of the declarations that stay open. -/
theorem closeTo_loose (indent : Nat) (d : Draft) (ss : List Symbol) :
    { d.close indent with
      opened := (closeTo indent ss (d.close indent).opened).1
      closed := (d.close indent).closed ++ (closeTo indent ss (d.close indent).opened).2 } =
      (d.close indent).add ss := by
  cases hopened : (d.close indent).opened with
  | nil => simp only [Draft.add, hopened, closeTo]
  | cons o rest =>
      have hlt : ¬ indent ≤ o.indent := Nat.not_le_of_lt (lt_of_closeTo hopened)
      simp only [Draft.add, hopened, closeTo_cons, if_neg hlt, List.append_nil]

/-- A declaration that is read and closed again has been added. -/
theorem Draft.close_push {d : Draft} (hidle : d.pending = {}) (indent : Nat) (s : Symbol) :
    (d.push indent s).close indent = (d.close indent).add [s] := by
  have hfirst : closeTo indent [] (d.push indent s).opened =
      closeTo indent [s] (d.close indent).opened := by
    show closeTo indent [] (⟨indent, s⟩ :: (d.close indent).opened) = _
    rw [closeTo_cons, if_pos (Nat.le_refl _), OpenSymbol.add_nil]
  have hpending : (d.push indent s).pending = (d.close indent).pending := hidle.symm
  rw [← closeTo_loose, ← hfirst]
  show Draft.mk _ (d.push indent s).pending _ _ _ = Draft.mk _ (d.close indent).pending _ _ _
  rw [hpending]
  rfl

/-! ## Lines -/

theorem readLines_append (file : Text) : ∀ (ls ms : List Text) (d : Draft) (n : Nat),
    Draft.readLines file d n (ls ++ ms) =
      Draft.readLines file (Draft.readLines file d n ls) (n + ls.length) ms
  | [], _, _, _ => rfl
  | l :: rest, ms, d, n => by
      rw [List.cons_append, Draft.readLines, readLines_append file rest, Draft.readLines,
        List.length_cons]
      congr 1
      omega

theorem readLines_docs (file : Text) (indent : Nat) : ∀ (docs : List Text) (d : Draft) (n : Nat),
    (∀ l ∈ docs, EndsFilled l) →
      Draft.readLines file d n
          (docs.map fun l => List.replicate indent ' ' ++ (['/', '/', '/', ' '] ++ l)) =
        { d with pending := { d.pending with docLines := d.pending.docLines ++ docs } }
  | [], d, n, _ => by simp [Draft.readLines]
  | l :: rest, d, n, h => by
      rw [List.map_cons, Draft.readLines, readLine_doc d indent _ (h l List.mem_cons_self),
        readLines_docs file indent rest _ _ fun m hm => h m (List.mem_cons_of_mem l hm)]
      simp

theorem readLines_annotations (file : Text) (indent : Nat) :
    ∀ (names : List Text) (d : Draft) (n : Nat),
      (∀ a ∈ names, a ≠ [] ∧ ∀ c ∈ a, isAnnotationChar c = true) →
        Draft.readLines file d n (names.map fun a => List.replicate indent ' ' ++ '@' :: a) =
          { d with
            pending := { d.pending with
              annotations := d.pending.annotations ++ names
              deprecation :=
                if names.any deprecationNames.contains then some [] else d.pending.deprecation } }
  | [], d, n, _ => by simp [Draft.readLines]
  | a :: rest, d, n, h => by
      obtain ⟨hfilled, hchars⟩ := h a List.mem_cons_self
      rw [List.map_cons, Draft.readLines, readLine_annotation d indent _ hfilled hchars,
        readLines_annotations file indent rest _ _ fun m hm => h m (List.mem_cons_of_mem a hm)]
      by_cases ha : a ∈ deprecationNames
      · simp [ha]
      · simp [ha]

/-! ## Symbols -/

section Written

variable {s : Symbol}

/-- What waits for the declaration after the lines above it. -/
def pendingOf (s : Symbol) : Pending where
  docLines := s.docLines
  annotations := s.annotations
  deprecation := if s.annotations.any deprecationNames.contains then some [] else none

theorem toSymbol_pendingOf (h : s.IsWritable) (location : SourceLocation) :
    (headOf s).toSymbol (pendingOf s) location = { s with location := location, members := [] } := by
  have hdoc : Text.unlines s.docLines = s.doc := by
    unfold Symbol.docLines
    split
    · next hempty => rw [List.isEmpty_iff.mp hempty]; rfl
    · exact Text.join_splitAt s.doc
  have hdeprecation : (if s.deprecation.isSome then some [] else (pendingOf s).deprecation) =
      s.deprecation := by
    rcases h.deprecation with hsome | ⟨hnone, hnames⟩
    · rw [hsome]
      rfl
    · have hno : s.annotations.any deprecationNames.contains = false := by simpa using hnames
      rw [hnone, pendingOf, hno]
      rfl
  unfold Head.toSymbol
  rw [show (pendingOf s).docLines = s.docLines from rfl, hdoc,
    show (headOf s).deprecated = s.deprecation.isSome from rfl, hdeprecation]
  rfl

theorem readLines_ownLines (h : s.IsWritable) (file : Text) (full : Bool) {indent : Nat} {d : Draft}
    (hd : d.Takes indent) (n : Nat) :
    ∃ location, Draft.readLines file d n
        ((s.ownLines full).map (List.replicate indent ' ' ++ ·)) =
      d.push indent { s with location := location, members := [] } := by
  let waiting : Draft := { d with pending := pendingOf s }
  have habove (n : Nat) : Draft.readLines file d n
      (s.docLines.map (fun l => List.replicate indent ' ' ++ (['/', '/', '/', ' '] ++ l)) ++
        s.annotations.map fun a => List.replicate indent ' ' ++ '@' :: a) = waiting := by
    rw [readLines_append, readLines_docs file indent _ d n h.doc,
      readLines_annotations file indent _ _ _ h.annotations, hd.idle]
    rfl
  have hlines : (s.ownLines full).map (List.replicate indent ' ' ++ ·) =
      (s.docLines.map (fun l => List.replicate indent ' ' ++ (['/', '/', '/', ' '] ++ l)) ++
        s.annotations.map fun a => List.replicate indent ' ' ++ '@' :: a) ++
        [List.replicate indent ' ' ++ s.declaration full] := by
    rw [Symbol.ownLines, List.map_append, List.map_append, List.map_map, List.map_map]
    rfl
  have howner : ∀ o ∈ (waiting.close indent).opened.head?, o.symbol.kind.isClasslike = true :=
    hd.owner
  rw [hlines, readLines_append, habove, Draft.readLines, Draft.readLines,
    readLine_declaration _ _ _ h, readDeclaration_push (readHead_declaration h full) howner,
    toSymbol_pendingOf h]
  exact ⟨_, rfl⟩

/-- Reading the lines of the symbol adds it. -/
def IsReadBack (file : Text) (full : Bool) (s : Symbol) : Prop :=
  ∀ (indent : Nat) (d : Draft) (n : Nat), d.Takes indent → ∃ s' : Symbol,
    s'.unplaced = s.unplaced ∧
      (Draft.readLines file d n (s.written full indent)).close indent = (d.close indent).add [s']

theorem readLines_writtenAll (file : Text) (full : Bool) {ss : List Symbol}
    (h : ∀ s ∈ ss, IsReadBack file full s) {indent : Nat} {d : Draft} (n : Nat)
    (hd : d.Takes indent) :
    ∃ ss', unplacedAll ss' = unplacedAll ss ∧
      (Draft.readLines file d n (writtenAll full indent ss)).close indent =
        (d.close indent).add ss' := by
  induction ss generalizing d n with
  | nil => exact ⟨[], rfl, (Draft.add_nil _).symm⟩
  | cons s rest ih =>
      obtain ⟨s', hs, hfirst⟩ := h s List.mem_cons_self indent d n hd
      obtain ⟨ss', hss, hrest⟩ := ih (fun t ht => h t (List.mem_cons_of_mem s ht))
        (n + (s.written full indent).length) (hd.of_close hfirst)
      refine ⟨s' :: ss', ?_, ?_⟩
      · rw [unplacedAll, unplacedAll, hs, hss]
      · rw [writtenAll, readLines_append, hrest, hfirst, Draft.add_add]
        rfl

/-- What stands below a declaration becomes its members. -/
theorem readLines_members (h : s.IsWritable) (file : Text) (full : Bool)
    (hmembers : ∀ m ∈ s.members, IsReadBack file full m) (indent : Nat) (d : Draft) (n : Nat)
    (location : SourceLocation) :
    ∃ ms, unplacedAll ms = unplacedAll s.members ∧
      (Draft.readLines file (d.push indent { s with location := location, members := [] }) n
          (writtenAll full (indent + 4) s.members)).close (indent + 4) =
        d.push indent { s with location := location, members := ms } := by
  have hless : indent < indent + 4 := by omega
  cases hkind : s.kind.isClasslike with
  | false =>
      have hnone := h.leaf hkind
      refine ⟨[], by rw [hnone], ?_⟩
      rw [hnone, writtenAll, Draft.readLines, Draft.close_push_of_lt hless]
  | true =>
      have htakes := Draft.takes_push (d := d) hless
        (s := { s with location := location, members := [] }) hkind
      obtain ⟨ms, hms, hclose⟩ := readLines_writtenAll file full hmembers n htakes
      refine ⟨ms, hms, ?_⟩
      rw [hclose, Draft.close_push_of_lt hless]
      rfl

theorem isReadBack (file : Text) (full : Bool) (s : Symbol) (h : ∀ t ∈ s.declared, t.IsWritable) :
    IsReadBack file full s := by
  induction s using Symbol.memberInduction with
  | step s ih =>
      intro indent d n hd
      obtain ⟨hown, hbelow⟩ := forall_declared_iff.mp h
      have hmembers : ∀ m ∈ s.members, IsReadBack file full m := fun m hm => ih m hm (hbelow m hm)
      obtain ⟨location, hread⟩ := readLines_ownLines hown file full hd n
      obtain ⟨ms, hms, hclose⟩ := readLines_members hown file full hmembers indent d
        (n + ((s.ownLines full).map (List.replicate indent ' ' ++ ·)).length) location
      refine ⟨{ s with location := location, members := ms }, ?_, ?_⟩
      · rw [unplaced_eq, unplaced_eq, hms]
      · -- To close as far as the symbol is indented closes its members first.
        rw [← Draft.close_close (Nat.le_add_right indent 4), written_eq, readLines_append, hread,
          hclose, Draft.close_push hd.idle]

end Written

/-! ## Listings -/

theorem lineFeed_not_mem_written (full : Bool) (s : Symbol) :
    (∀ t ∈ s.declared, t.IsWritable) → ∀ indent, ∀ l ∈ s.written full indent, '\n' ∉ l := by
  induction s using Symbol.memberInduction with
  | step s ih =>
      intro h indent l hl
      obtain ⟨hown, hbelow⟩ := forall_declared_iff.mp h
      rw [written_eq] at hl
      rcases List.mem_append.mp hl with hl | hl
      · obtain ⟨own, hline, rfl⟩ := List.mem_map.mp hl
        rintro hmem
        rcases List.mem_append.mp hmem with hmem | hmem
        · exact absurd (List.eq_of_mem_replicate hmem) (by decide)
        · exact lineFeed_not_mem_ownLines hown full own hline hmem
      · rw [writtenAll_eq_flatMap] at hl
        obtain ⟨m, hm, hl⟩ := List.mem_flatMap.mp hl
        exact ih m hm (hbelow m hm) (indent + 4) l hl

theorem lines_write (full : Bool) {ss : List Symbol} (h : ∀ s ∈ declaredAll ss, s.IsWritable) :
    Text.lines (write full ss) = writtenAll full 0 ss := by
  refine Text.lines_flatMap fun l hl => ?_
  rw [writtenAll_eq_flatMap] at hl
  obtain ⟨s, hs, hl⟩ := List.mem_flatMap.mp hl
  exact lineFeed_not_mem_written full s (forall_declaredAll_iff.mp h s hs) 0 l hl

/-- A forest that is written and parsed comes back, up to the places where its
symbols were found, and nothing is reported. -/
theorem parse_write (full : Bool) {ss : List Symbol} (h : ∀ s ∈ declaredAll ss, s.IsWritable)
    (file : Text) :
    ∃ symbols, parse (write full ss) file = (⟨file, [], symbols⟩, []) ∧
      unplacedAll symbols = unplacedAll ss := by
  have hback : ∀ s ∈ ss, IsReadBack file full s := fun s hs =>
    isReadBack file full s (forall_declaredAll_iff.mp h s hs)
  have htakes : Draft.Takes 0 {} := ⟨rfl, nofun⟩
  obtain ⟨symbols, hsymbols, hclose⟩ := readLines_writtenAll file full hback 1 htakes
  refine ⟨symbols, ?_, hsymbols⟩
  generalize hdraft : Draft.readLines file {} 1 (writtenAll full 0 ss) = d at hclose
  have hpending : d.pending = {} := congrArg Draft.pending hclose
  have hpackage : d.package = [] := congrArg Draft.package hclose
  have hdiagnostics : d.diagnostics = [] := congrArg Draft.diagnostics hclose
  have hclosed : (d.close 0).closed = symbols := congrArg Draft.closed hclose
  have hfinish : ∀ location, d.finish location = d := by
    intro location
    rw [Draft.finish, hpending]
    rfl
  unfold parse
  dsimp only
  rw [lines_write full h, hdraft, hfinish, hpackage, hclosed, hdiagnostics]

/-- A deprecated interface with a documented method and an entry of a nested enum,
and an alias. -/
def smallForest : List Symbol :=
  [{ kind := .interfaceType, keyword := "interface", name := "Shape", tail := "<T> : Base"
     visibility := .protectedDecl, deprecation := some [], annotations := ["a.Api", "Deprecated"]
     doc := "A shape.\n\n  @see Other"
     members :=
       [{ kind := .function, keyword := "fun", name := "area", tail := "(x: Int): Int"
          doc := "The area." },
        { kind := .enumType, keyword := "enum", name := "Color", visibility := .privateDecl
          members := [{ kind := .enumEntry, keyword := "entry", name := "RED" }] }] },
   { kind := .typeAlias, keyword := "typealias", name := "Alias", tail := " = List<Shape>" }]

theorem isWritable_smallForest : ∀ s ∈ declaredAll smallForest, s.IsWritable := by
  decide +kernel

theorem parse_write_smallForest : (∀ s ∈ declaredAll smallForest, s.IsWritable) ∧
    ∃ symbols, parse (write false smallForest) "a.api" = (⟨"a.api", [], symbols⟩, []) ∧
      unplacedAll symbols = unplacedAll smallForest :=
  ⟨isWritable_smallForest, parse_write false isWritable_smallForest "a.api"⟩

end Listing

end CrossDoc
