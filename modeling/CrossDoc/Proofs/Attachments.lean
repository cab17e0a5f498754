import CrossDoc.Proofs.ListingAnswers
import Mathlib.Data.List.DropRight

/-!
# Documentation and annotations

What waits for a declaration is what the lines since the last declaration line
say: each line of documentation and each annotation with a name adds to it, other
lines do not, and a declaration line uses it up even if no declaration comes of it.
So a declaration has what stands between the declaration line before it and its
own; and what stands behind the last one is left over, with one warning.
-/

namespace CrossDoc.Listing

open CrossDoc.Symbol

instance (raw : Text) : Decidable (IsDeclarationLine raw) :=
  decidable_of_iff
    (trim raw ≠ [] ∧ Text.startsWith "//" (trim raw) = false ∧ (trim raw).head? ≠ some '@' ∧
      ¬ (Text.startsWith "package " (trim raw) = true ∨ trim raw = "package"))
    ⟨fun ⟨filled, comment, annotation, package⟩ => ⟨filled, comment, annotation, package⟩,
      fun h => ⟨h.filled, h.noComment, h.noAnnotation, h.noPackage⟩⟩

/-! ## What a line says -/

/-- The documentation in a line, without the space that may stand before it. -/
def docLine? (raw : Text) : Option Text :=
  (Text.dropPrefix? "///" (trim raw)).map fun doc => (Text.dropPrefix? " " doc).getD doc

/-- The characters behind an at sign that may make up a name. -/
def annotationChars (raw : Text) : Text := ((trim raw).drop 1).takeWhile isAnnotationChar

/-- The name of the annotation in a line. -/
def annotationName? (raw : Text) : Option Text :=
  if (trim raw).head? = some '@' ∧ annotationChars raw ≠ [] then some (annotationChars raw)
  else none

/-- The message of the deprecation in a line: what stands in quotes behind its name. -/
def deprecationMessage? (raw : Text) : Option Text :=
  (annotationName? raw).bind fun name =>
    if name = "Deprecated" ∨ name = "kotlin.Deprecated" then
      some (quotedText (((trim raw).drop 1).dropWhile isAnnotationChar))
    else none

/-- The line says nothing about a declaration and is none. -/
inductive IsNeutral (raw : Text) : Prop where
  | blank (empty : trim raw = [])
  | comment (slashes : Text.startsWith "//" (trim raw) = true)
      (noDoc : Text.startsWith "///" (trim raw) = false)
  | package (directive : Text.startsWith "package " (trim raw) = true ∨ trim raw = "package")
  | nameless (sign : (trim raw).head? = some '@') (noName : annotationChars raw = [])

/-- A line says nothing. -/
structure SaysNothing (raw : Text) : Prop where
  doc : docLine? raw = none
  annotation : annotationName? raw = none
  deprecation : deprecationMessage? raw = none

variable {raw : Text}

theorem head?_of_startsWith {c : Char} {p t : Text} (h : Text.startsWith (c :: p) t = true) :
    t.head? = some c := by
  match t with
  | [] => cases h
  | d :: rest =>
      simp only [Text.startsWith, Text.dropPrefix?] at h
      split at h
      · next hd => rw [hd]; rfl
      · cases h

theorem docLine?_eq_none_iff : docLine? raw = none ↔ Text.startsWith "///" (trim raw) = false := by
  rw [docLine?, Option.map_eq_none_iff, Text.startsWith, Option.isSome_eq_false_iff,
    Option.isNone_iff_eq_none]

theorem docLine?_of_head {c : Char} (h : (trim raw).head? = some c) (hc : c ≠ '/') :
    docLine? raw = none := by
  rw [docLine?_eq_none_iff, Bool.eq_false_iff]
  intro hslashes
  have hhead := head?_of_startsWith (p := ['/', '/']) hslashes
  exact hc (Option.some.inj (h.symm.trans hhead))

theorem annotationName?_eq_none_iff :
    annotationName? raw = none ↔ (trim raw).head? = some '@' → annotationChars raw = [] := by
  rw [annotationName?]
  split <;> simp_all

theorem deprecationMessage?_of_nameless (h : annotationName? raw = none) :
    deprecationMessage? raw = none := by
  rw [deprecationMessage?, h, Option.bind_none]

theorem SaysNothing.of_doc (hdoc : docLine? raw = none) (hsilent : annotationName? raw = none) :
    SaysNothing raw :=
  ⟨hdoc, hsilent, deprecationMessage?_of_nameless hsilent⟩

theorem IsNeutral.saysNothing (h : IsNeutral raw) : SaysNothing raw := by
  cases h with
  | blank empty =>
      refine .of_doc (docLine?_eq_none_iff.mpr ?_) (annotationName?_eq_none_iff.mpr ?_)
      · rw [empty]
        rfl
      · rw [empty]
        exact nofun
  | comment slashes noDoc =>
      have hhead := head?_of_startsWith (p := ['/']) slashes
      refine .of_doc (docLine?_eq_none_iff.mpr noDoc) (annotationName?_eq_none_iff.mpr ?_)
      exact fun h => absurd (h.symm.trans hhead) (by decide)
  | package directive =>
      have hhead : (trim raw).head? = some 'p' := by
        rcases directive with hstart | hword
        · exact head?_of_startsWith (p := "ackage ".toList) hstart
        · rw [hword]
          rfl
      refine .of_doc (docLine?_of_head hhead (by decide)) (annotationName?_eq_none_iff.mpr ?_)
      exact fun h => absurd (h.symm.trans hhead) (by decide)
  | nameless sign noName =>
      exact .of_doc (docLine?_of_head sign (by decide))
        (annotationName?_eq_none_iff.mpr fun _ => noName)

/-- Apart from declarations only neutral lines say nothing. -/
theorem isNeutral_iff (h : ¬ IsDeclarationLine raw) : IsNeutral raw ↔ SaysNothing raw := by
  refine ⟨IsNeutral.saysNothing, fun hnothing => ?_⟩
  by_cases hblank : trim raw = []
  · exact .blank hblank
  by_cases hcomment : Text.startsWith "//" (trim raw) = true
  · exact .comment hcomment (docLine?_eq_none_iff.mp hnothing.doc)
  by_cases hsign : (trim raw).head? = some '@'
  · exact .nameless hsign (annotationName?_eq_none_iff.mp hnothing.annotation hsign)
  by_cases hpackage : Text.startsWith "package " (trim raw) = true ∨ trim raw = "package"
  · exact .package hpackage
  exact absurd ⟨hblank, by simpa using hcomment, hsign, hpackage⟩ h

/-! ## What some lines say -/

/-- What some lines say about the declaration behind them. -/
def Pending.ofLines (W : List Text) : Pending where
  docLines := W.filterMap docLine?
  annotations := W.filterMap annotationName?
  deprecation := (W.filterMap deprecationMessage?).getLast?

/-- What waits, with what one more line says. -/
def Pending.add (p : Pending) (raw : Text) : Pending where
  docLines := p.docLines ++ (docLine? raw).toList
  annotations := p.annotations ++ (annotationName? raw).toList
  deprecation := (deprecationMessage? raw).or p.deprecation

theorem Pending.ofLines_concat (W : List Text) (raw : Text) :
    Pending.ofLines (W ++ [raw]) = (Pending.ofLines W).add raw := by
  have hone : ∀ f : Text → Option Text, [raw].filterMap f = (f raw).toList := by
    intro f
    rw [List.filterMap_cons]
    cases f raw <;> rfl
  unfold Pending.ofLines Pending.add
  simp only [List.filterMap_append, List.getLast?_append, hone]
  cases deprecationMessage? raw <;> rfl

theorem Pending.add_of_doc {doc : Text} (h : docLine? raw = some doc) (p : Pending) :
    p.add raw = { p with docLines := p.docLines ++ [doc] } := by
  have hsilent : annotationName? raw = none := by
    refine annotationName?_eq_none_iff.mpr fun hsign => ?_
    rw [docLine?_of_head hsign (by decide)] at h
    cases h
  have hdeprecation := deprecationMessage?_of_nameless hsilent
  simp [Pending.add, h, hsilent, hdeprecation]

/-- An annotation is read if it has a name. -/
theorem Pending.annotate?_trim (hsign : (trim raw).head? = some '@') (p : Pending) :
    p.annotate? (trim raw) = if annotationChars raw = [] then none else some (p.add raw) := by
  have hdoc := docLine?_of_head hsign (by decide)
  by_cases hname : annotationChars raw = []
  · rw [if_pos hname]
    exact if_pos (List.isEmpty_iff.mpr hname)
  · have hnamed : annotationName? raw = some (annotationChars raw) := if_pos ⟨hsign, hname⟩
    have hfilled : (annotationChars raw).isEmpty = false := by simpa using hname
    have hread : p.annotate? (trim raw) =
        if annotationChars raw = "Deprecated" ∨ annotationChars raw = "kotlin.Deprecated" then
          some { p with
            annotations := p.annotations ++ [annotationChars raw]
            deprecation := some (quotedText (((trim raw).drop 1).dropWhile isAnnotationChar)) }
        else some { p with annotations := p.annotations ++ [annotationChars raw] } :=
      if_neg (by rw [← annotationChars, hfilled]; simp)
    rw [if_neg hname, hread, Pending.add, deprecationMessage?, hdoc, hnamed, Option.bind_some]
    split <;> simp

theorem Pending.add_of_saysNothing (h : SaysNothing raw) (p : Pending) : p.add raw = p := by
  simp [Pending.add, h.doc, h.annotation, h.deprecation]

theorem Pending.isEmpty_ofLines (W : List Text) :
    (Pending.ofLines W).isEmpty = false ↔
      ∃ raw ∈ W, (docLine? raw).isSome ∨ (annotationName? raw).isSome := by
  rw [← not_iff_not, Bool.not_eq_false]
  simp only [Pending.isEmpty, Pending.ofLines, Bool.and_eq_true, List.isEmpty_iff,
    List.filterMap_eq_nil_iff, ← forall_and, not_exists, not_and, not_or, Bool.not_eq_true,
    Option.isSome_eq_false_iff, Option.isNone_iff_eq_none]

/-- The lines behind the last declaration line. -/
def linesLeft (ls : List Text) : List Text :=
  ls.rtakeWhile fun raw => !decide (IsDeclarationLine raw)

/-- The lines between a line and the declaration line before it. -/
def linesBefore (ls : List Text) (n : Nat) : List Text := linesLeft (ls.take (n - 1))

theorem linesBefore_length (ls : List Text) : linesBefore ls (ls.length + 1) = linesLeft ls := by
  rw [linesBefore, Nat.add_sub_cancel, List.take_length]

theorem linesBefore_succ {ls : List Text} {n : Nat} (h : lineAt? ls n = some raw) :
    linesBefore ls (n + 1) =
      if IsDeclarationLine raw then [] else linesBefore ls n ++ [raw] := by
  cases n with
  | zero => cases h
  | succ n =>
      have htake : ls.take (n + 1) = ls.take n ++ [raw] := by
        rw [List.take_add_one, show ls[n]? = some raw from h]
        rfl
      rw [linesBefore, linesBefore, Nat.add_sub_cancel, Nat.add_sub_cancel, htake, linesLeft,
        linesLeft, List.rtakeWhile_concat]
      by_cases hline : IsDeclarationLine raw <;> simp [hline]

/-- Also a line that is read as a declaration without being one ends what stands before it. -/
example : linesBefore ["/// a", "fun", "/// b", "", "fun f()"] 5 = ["/// b", ""] := by decide

/-! ## Lines that are no declarations -/

/-- What is malformed is reported as an error. -/
theorem Draft.of_mem_fail {d : Draft} {problem : Problem} {location : SourceLocation}
    {x : Diagnostic} (h : x ∈ (d.fail problem location).diagnostics) :
    x ∈ d.diagnostics ∨ x.severity = .error := by
  rcases List.mem_append.mp h with h | h
  · exact Or.inl h
  · exact Or.inr (by rw [List.mem_singleton.mp h])

/-- What a line that is no declaration can do. -/
inductive ReadsAside (d : Draft) (raw : Text) (location : SourceLocation) : Draft → Prop where
  /-- It says something about the next declaration. -/
  | attachment : ReadsAside d raw location { d with pending := d.pending.add raw }
  /-- It says nothing about declarations. -/
  | neutral (nothing : IsNeutral raw) (package : Text) :
      ReadsAside d raw location { d with package := package }
  /-- It is malformed and skipped. -/
  | malformed (nothing : IsNeutral raw) (problem : Problem) :
      ReadsAside d raw location (d.fail problem location)

theorem readsAside (h : ¬ IsDeclarationLine raw) (d : Draft) (location : SourceLocation) :
    ReadsAside d raw location (d.readLine raw location) := by
  unfold Draft.readLine
  dsimp only
  -- In the order of the branches: blank lines, documentation, comments, annotations, packages.
  split
  · next hblank => exact .neutral (.blank (List.isEmpty_iff.mp hblank)) d.package
  · next hfilled =>
    split
    · next doc hdoc =>
      have hline : docLine? raw = some ((Text.dropPrefix? " " doc).getD doc) := by
        rw [docLine?, hdoc, Option.map_some]
      rw [← Pending.add_of_doc hline]
      exact .attachment
    · next hdoc =>
      split
      · next hcomment =>
        have hnone : Text.startsWith "///" (trim raw) = false := by rw [Text.startsWith, hdoc]; rfl
        exact .neutral (.comment hcomment hnone) d.package
      · next hcomment =>
        split
        · next hsign =>
          rw [Pending.annotate?_trim hsign]
          by_cases hname : annotationChars raw = []
          · rw [if_pos hname]
            exact .malformed (.nameless hsign hname) _
          · rw [if_neg hname]
            exact .attachment
        · next hsign =>
          split
          · next hpackage =>
            unfold Draft.readPackage
            dsimp only
            split
            · exact .malformed (.package hpackage) _
            · split
              · exact .malformed (.package hpackage) _
              · exact .neutral (.package hpackage) _
          · next hpackage =>
            exact absurd ⟨by simpa using hfilled, by simpa using hcomment, hsign, hpackage⟩ h

/-! ## The word for deprecation -/

/-- The words of a line. -/
def words (t : Text) : List Text := (t.splitOnP isWordEnd).filter fun w => !w.isEmpty

/-- The word for deprecation stands first, or behind a visibility. -/
def marksDeprecated (text : Text) : Bool :=
  match words text with
  | [] => false
  | w :: rest => w == "deprecated" ||
      ((Visibility.ofName? w).isSome && rest.head? == some ("deprecated" : Text))

theorem words_cons_of_end {c : Char} (hc : isWordEnd c = true) (t : Text) :
    words (c :: t) = words t := by
  rw [words, List.splitOnP_cons_eq_if_modifyHead, if_pos hc]
  rfl

theorem words_dropWhile : ∀ t : Text, words (t.dropWhile isWordEnd) = words t
  | [] => rfl
  | c :: rest => by
      rw [List.dropWhile_cons]
      split
      · next hc => rw [words_dropWhile rest, words_cons_of_end hc]
      · rfl

theorem words_append {w : Text} (filled : w ≠ []) (chars : ∀ c ∈ w, isWordEnd c = false)
    {rest : Text} (hrest : ∀ c ∈ rest.head?, isWordEnd c = true) :
    words (w ++ rest) = w :: words rest := by
  have hfilled : (!w.isEmpty) = true := by simpa using filled
  cases rest with
  | nil =>
      rw [List.append_nil, words, List.splitOnP_eq_singleton chars, List.filter_singleton, hfilled]
      rfl
  | cons c rest =>
      have hc := hrest c rfl
      rw [words_cons_of_end hc, words, List.splitOnP_append_cons_of_forall_mem chars c hc,
        List.filter_cons, if_pos hfilled]
      rfl

/-- The words are those that are read one after the other. -/
theorem words_eq (t : Text) :
    words t = match nextWord? t with
      | none => []
      | some (w, rest) => w :: words rest := by
  rw [← words_dropWhile, nextWord?]
  have hhead := List.head?_dropWhile_not isWordEnd t
  generalize t.dropWhile isWordEnd = s at hhead ⊢
  cases s with
  | nil => rfl
  | cons c s =>
      have hc : isWordEnd c = false := hhead
      have hrest := List.head?_dropWhile_not (fun c => !isWordEnd c) (c :: s)
      have hword : words ((c :: s).takeWhile (fun c => !isWordEnd c) ++
          (c :: s).dropWhile fun c => !isWordEnd c) = _ :: words _ :=
        words_append (by simp [hc]) (fun x hx => by simpa using List.mem_takeWhile_imp hx)
          (fun x hx => by simpa [Option.mem_def.mp hx] using hrest)
      rw [List.takeWhile_append_dropWhile] at hword
      exact hword

theorem deprecated_headAfter {visibility : Option Visibility} {deprecated : Bool}
    {word rest : Text} {head : Head}
    (ok : headAfter visibility deprecated word rest = .ok head) : head.deprecated = deprecated := by
  unfold headAfter at ok
  dsimp only at ok
  split at ok
  · cases ok
  · cases ok
  · split at ok
    · cases ok
    · rw [← Except.ok.inj ok]

theorem deprecated_readHead {text : Text} {head : Head} (ok : readHead text = .ok head) :
    head.deprecated = marksDeprecated text := by
  rw [marksDeprecated, words_eq]
  unfold readHead at ok
  rw [wordAfter] at ok
  cases hfirst : nextWord? text with
  | none =>
      rw [hfirst] at ok
      exact deprecated_headAfter ok
  | some first =>
      obtain ⟨w, rest⟩ := first
      rw [hfirst, Option.getD_some] at ok
      dsimp only at ok ⊢
      by_cases hvisibility : (Visibility.ofName? w).isSome = true
      · -- The word behind the visibility decides; if there is none, the visibility stays the word.
        have hother : (w == ("deprecated" : Text)) = false := by
          rw [beq_eq_false_iff_ne]
          rintro rfl
          exact absurd hvisibility (by decide)
        rw [if_pos hvisibility, wordAfter] at ok
        rw [words_eq rest, hvisibility, hother, Bool.false_or, Bool.true_and]
        cases hsecond : nextWord? rest with
        | none =>
            rw [hsecond] at ok
            exact (deprecated_headAfter ok).trans hother
        | some second =>
            rw [hsecond] at ok
            exact deprecated_headAfter ok
      · rw [if_neg hvisibility] at ok
        rw [Bool.eq_false_iff.mpr hvisibility, Bool.false_and, Bool.or_false]
        exact deprecated_headAfter ok

/-! ## Declaration lines -/

/-- What a declaration line does with what waits. -/
structure Consumes (text : Text) (location : SourceLocation) (d d' : Draft) : Prop where
  pending : d'.pending = {}
  outline : d'.outline = d.outline ∨
    ∃ head, readHead text = .ok head ∧ d'.outline = d.outline ++ [head.toSymbol d.pending location]
  reported : ∀ x ∈ d'.diagnostics, x ∈ d.diagnostics ∨ x.severity = .error

theorem consumes_readDeclaration (d : Draft) (text : Text) (indent : Nat)
    (location : SourceLocation) :
    Consumes text location d (d.readDeclaration text indent location) := by
  have hclosed := d.outline_close indent
  generalize hresult : d.readDeclaration text indent location = r
  have hreads := hresult ▸ readsDeclaration d text indent location
  cases hreads with
  | @malformed problem hproblem => exact ⟨rfl, Or.inl rfl, fun x hx => Draft.of_mem_fail hx⟩
  | @outermost head ok alone =>
      refine ⟨rfl, Or.inr ⟨head, ok, ?_⟩, fun x hx => Or.inl hx⟩
      rw [← hclosed]
      exact outline_push d.pending (d.close indent) alone
  | @member head o rest ok inside owner =>
      refine ⟨rfl, Or.inr ⟨head, ok, ?_⟩, fun x hx => Or.inl hx⟩
      rw [← hclosed]
      exact outline_push d.pending (d.close indent) inside
  | @dropped head o rest ok inside owner =>
      refine ⟨rfl, Or.inl ?_, fun x hx => Draft.of_mem_fail hx⟩
      rw [← hclosed]
      show outline _ ++ spine (o :: rest) = outline _ ++ spine (d.close indent).opened
      rw [inside]
      rfl

/-! ## Reading -/

/-- The symbol has what the lines before its own say. -/
structure Attached (ls : List Text) (s : Symbol) : Prop where
  doc : s.doc = Text.unlines ((linesBefore ls s.location.line).filterMap docLine?)
  annotations : s.annotations = (linesBefore ls s.location.line).filterMap annotationName?
  /-- The word for deprecation goes before an annotation, and a later annotation before an
  earlier one. -/
  deprecation : ∃ raw, lineAt? ls s.location.line = some raw ∧ IsDeclarationLine raw ∧
    s.deprecation = if marksDeprecated (trim raw) then some []
      else ((linesBefore ls s.location.line).filterMap deprecationMessage?).getLast?

theorem attached_toSymbol {ls : List Text} {n : Nat} {head : Head} (file : Text)
    (hraw : lineAt? ls n = some raw) (hline : IsDeclarationLine raw)
    (ok : readHead (trim raw) = .ok head) :
    Attached ls (head.toSymbol (.ofLines (linesBefore ls n)) ⟨file, n⟩) where
  doc := rfl
  annotations := rfl
  deprecation := ⟨raw, hraw, hline, by rw [← deprecated_readHead ok]; rfl⟩

/-- What holds of a listing while it is read, before the line `next`. -/
structure Draft.Attaches (ls : List Text) (next : Nat) (d : Draft) : Prop where
  pending : d.pending = .ofLines (linesBefore ls next)
  declared : ∀ s ∈ d.outline, Attached ls s
  reported : ∀ x ∈ d.diagnostics, x.severity = .error

namespace Draft.Attaches

variable {ls : List Text} {file : Text} {next : Nat} {d : Draft}

theorem initial : Draft.Attaches ls 1 {} := ⟨rfl, nofun, nofun⟩

/-- A line that is no declaration adds to what waits, at most. -/
theorem step_of_not (h : d.Attaches ls next) (hraw : lineAt? ls next = some raw)
    (hline : ¬ IsDeclarationLine raw) :
    (d.readLine raw ⟨file, next⟩).Attaches ls (next + 1) := by
  have hwaits : (Pending.ofLines (linesBefore ls next)).add raw =
      .ofLines (linesBefore ls (next + 1)) := by
    rw [linesBefore_succ hraw, if_neg hline, Pending.ofLines_concat]
  generalize hresult : d.readLine raw ⟨file, next⟩ = r
  have hreads := hresult ▸ readsAside hline d ⟨file, next⟩
  cases hreads with
  | attachment => exact ⟨h.pending ▸ hwaits, h.declared, h.reported⟩
  | neutral nothing package =>
      rw [Pending.add_of_saysNothing nothing.saysNothing] at hwaits
      exact ⟨h.pending.trans hwaits, h.declared, h.reported⟩
  | malformed nothing problem =>
      rw [Pending.add_of_saysNothing nothing.saysNothing] at hwaits
      exact ⟨h.pending.trans hwaits, h.declared,
        fun x hx => (Draft.of_mem_fail hx).elim (h.reported x) id⟩

theorem step (h : d.Attaches ls next) (hraw : lineAt? ls next = some raw) :
    (d.readLine raw ⟨file, next⟩).Attaches ls (next + 1) := by
  by_cases hline : IsDeclarationLine raw
  · rw [readLine_of_isDeclarationLine hline]
    have hconsumes := consumes_readDeclaration d (trim raw) (indentation raw) ⟨file, next⟩
    refine ⟨?_, ?_, fun x hx => (hconsumes.reported x hx).elim (h.reported x) id⟩
    · -- Nothing waits behind a declaration line, also if it gives no symbol.
      rw [hconsumes.pending, linesBefore_succ hraw, if_pos hline]
      rfl
    · intro s hs
      rcases hconsumes.outline with hsame | ⟨head, ok, hmore⟩
      · exact h.declared s (hsame ▸ hs)
      · rw [hmore] at hs
        rcases List.mem_append.mp hs with hs | hs
        · exact h.declared s hs
        · rw [List.mem_singleton.mp hs, h.pending]
          exact attached_toSymbol file hraw hline ok
  · exact h.step_of_not hraw hline

end Draft.Attaches

/-- What the symbols and diagnostics of a listing make of its documentation and annotations. -/
structure Attaches (ls : List Text) (file : Text) (ss : List Symbol) (ds : List Diagnostic) :
    Prop where
  attached : ∀ s ∈ ss, Attached ls s
  /-- Of the lines before a declaration those say nothing that are blank, comments, package
  directives or annotations without a name. -/
  neutral : ∀ n, ∀ raw ∈ linesBefore ls n, IsNeutral raw ↔ SaysNothing raw
  /-- What is left over at the end is warned of once. -/
  leftover : ds.filter (·.severity = .warning) =
    if ∃ raw ∈ linesLeft ls, (docLine? raw).isSome ∨ (annotationName? raw).isSome then
      [⟨.warning, leftoverMessage, some ⟨file, ls.length⟩⟩]
    else []

theorem warnings_finish {ls : List Text} {d : Draft} (h : d.Attaches ls (ls.length + 1))
    (location : SourceLocation) :
    (d.finish location).diagnostics.filter (·.severity = .warning) =
      if ∃ raw ∈ linesLeft ls, (docLine? raw).isSome ∨ (annotationName? raw).isSome then
        [⟨.warning, leftoverMessage, some location⟩]
      else [] := by
  have hnone : d.diagnostics.filter (·.severity = .warning) = [] := by
    rw [List.filter_eq_nil_iff]
    intro x hx
    simp [h.reported x hx]
  have hempty := Pending.isEmpty_ofLines (linesLeft ls)
  unfold Draft.finish
  rw [h.pending, linesBefore_length]
  simp only [← hempty]
  cases (Pending.ofLines (linesLeft ls)).isEmpty with
  | true => exact hnone
  | false =>
      show (d.diagnostics ++ [_]).filter _ = _
      rw [List.filter_append, hnone]
      rfl

/-- **Documentation and annotations belong to the declaration behind them**, unless another
declaration line stands in between; behind the last one they are warned of. -/
theorem parse_attaches (text file : Text) :
    Attaches (Text.lines text) file (parse text file).1.declared (parse text file).2 := by
  have hread : Draft.Attaches (Text.lines text) ((Text.lines text).length + 1)
      (Draft.readLines file {} 1 (Text.lines text)) :=
    readLines_induction (fun _ _ _ hraw h => h.step hraw) _ [] {} rfl Draft.Attaches.initial
  refine ⟨fun s hs => ?_, fun n raw hraw => ?_, warnings_finish hread _⟩
  · -- At the end all declarations are closed, so the outline is that of the file.
    have hdeclared := hread.declared
    rw [← Draft.outline_finish _ ⟨file, (Text.lines text).length⟩, ← Draft.outline_close _ 0,
      Draft.outline, opened_close_zero, spine_nil, List.append_nil] at hdeclared
    obtain ⟨doc, annotations, deprecation⟩ := hdeclared s.alone (List.mem_map_of_mem hs)
    exact ⟨doc, annotations, deprecation⟩
  · exact isNeutral_iff (by simpa using List.mem_rtakeWhile_imp hraw)

end CrossDoc.Listing
