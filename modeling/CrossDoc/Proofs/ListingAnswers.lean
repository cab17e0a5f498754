import CrossDoc.Proofs.ListingLines

/-!
# One answer for every declaration line

A declaration line is answered once, by a symbol that carries its number or by
an error at its place.  Closing a declaration puts it below its owner, where it
comes next in depth-first order anyway; so what has been declared so far is a
list to which every line adds at the end.
-/

namespace CrossDoc

namespace Symbol

/-- The symbol without its members. -/
def alone (s : Symbol) : Symbol := { s with members := [] }

/-- The symbols of a forest in depth-first order, each without its members. -/
def outline (ss : List Symbol) : List Symbol := (declaredAll ss).map alone

theorem outline_nil : outline [] = [] := rfl

theorem outline_append (ss ts : List Symbol) : outline (ss ++ ts) = outline ss ++ outline ts := by
  simp [outline, declaredAll_eq_flatMap]

theorem outline_singleton (s : Symbol) : outline [s] = s.alone :: outline s.members := by
  simp [outline, declaredAll_eq_flatMap [s], declared_eq]

end Symbol

namespace Listing

open CrossDoc.Symbol

/-- The symbol stands for a declaration line of the text. -/
def IsDeclaredIn (ls : List Text) (file : Text) (s : Symbol) : Prop :=
  ∃ raw head pending, lineAt? ls s.location.line = some raw ∧ IsDeclarationLine raw ∧
    readHead (trim raw) = .ok head ∧ s.alone = head.toSymbol pending ⟨file, s.location.line⟩

/-- The symbols that carry the number of a line. -/
def symbolsOn (n : Nat) (ss : List Symbol) : List Symbol :=
  ss.filter fun s => s.location.line = n

/-- The errors that are reported at a place. -/
def errorsOn (location : SourceLocation) (ds : List Diagnostic) : List Diagnostic :=
  ds.filter fun d => d.severity = .error ∧ d.location = some location

/-- One symbol and no error, or one error and no symbol. -/
def OneAnswer (ss : List Symbol) (errors : List Diagnostic) : Prop :=
  (ss.length = 1 ∧ errors.length = 0) ∨ (ss.length = 0 ∧ errors.length = 1)

/-- The symbols and diagnostics answer the declaration lines of a text. -/
structure Answers (ls : List Text) (file : Text) (ss : List Symbol) (ds : List Diagnostic) :
    Prop where
  once : ∀ n raw, lineAt? ls n = some raw → IsDeclarationLine raw →
    OneAnswer (symbolsOn n ss) (errorsOn ⟨file, n⟩ ds)
  declared : ∀ s ∈ ss, IsDeclaredIn ls file s
  ascending : ss.Pairwise fun s t => s.location.line < t.location.line

theorem length_symbolsOn_alone (n : Nat) (ss : List Symbol) :
    (symbolsOn n (ss.map alone)).length = (symbolsOn n ss).length := by
  unfold symbolsOn
  rw [List.filter_map, List.length_map]
  rfl

/-- What is answered does not depend on the members of the symbols. -/
theorem Answers.of_alone {ls : List Text} {file : Text} {ss : List Symbol}
    {ds : List Diagnostic} (h : Answers ls file (ss.map alone) ds) : Answers ls file ss ds where
  once n raw hraw hline := by
    have honce := h.once n raw hraw hline
    unfold OneAnswer at honce ⊢
    rw [length_symbolsOn_alone] at honce
    exact honce
  declared s hs := h.declared s.alone (List.mem_map_of_mem hs)
  ascending := by
    have hascending := h.ascending
    rw [List.pairwise_map] at hascending
    exact hascending

/-! ## What has been declared -/

/-- What stands in the open declarations, the outermost first. -/
def spine (opened : List OpenSymbol) : List Symbol :=
  opened.reverse.flatMap fun o => outline [o.symbol]

theorem spine_nil : spine [] = [] := rfl

theorem spine_cons (o : OpenSymbol) (rest : List OpenSymbol) :
    spine (o :: rest) = spine rest ++ outline [o.symbol] := by
  simp only [spine, List.reverse_cons, List.flatMap_append, List.flatMap_singleton]

/-- What has been declared so far. -/
def Draft.outline (d : Draft) : List Symbol := Symbol.outline d.closed ++ spine d.opened

theorem outline_closeTo (indent : Nat) : ∀ (opened : List OpenSymbol) (loose : List Symbol),
    outline (closeTo indent loose opened).2 ++ spine (closeTo indent loose opened).1 =
      spine opened ++ outline loose
  | [], loose => by rw [closeTo, spine_nil, List.append_nil, List.nil_append]
  | o :: rest, loose => by
      have hsymbol : outline [{ o.symbol with members := o.symbol.members ++ loose }] =
          outline [o.symbol] ++ outline loose := by
        rw [outline_singleton, outline_singleton, outline_append]
        rfl
      rw [closeTo]
      split
      · rw [outline_closeTo indent rest, hsymbol, spine_cons, List.append_assoc]
      · rw [outline_nil, List.nil_append, spine_cons, spine_cons, hsymbol, List.append_assoc]

/-- Closing declarations changes nothing of what has been declared. -/
theorem Draft.outline_close (d : Draft) (indent : Nat) : (d.close indent).outline = d.outline := by
  have hclose := outline_closeTo indent d.opened []
  rw [outline_nil, List.append_nil] at hclose
  show Symbol.outline (d.closed ++ _) ++ spine (closeTo indent [] d.opened).1 = _
  rw [outline_append, List.append_assoc, hclose]
  rfl

theorem Draft.outline_finish (d : Draft) (location : SourceLocation) :
    (d.finish location).outline = d.outline := by
  unfold Draft.finish
  split <;> rfl

/-- At the end everything is closed. -/
theorem opened_close_zero (d : Draft) : (d.close 0).opened = [] := by
  have hall : ∀ (opened : List OpenSymbol) (loose : List Symbol),
      (closeTo 0 loose opened).1 = [] := by
    intro opened
    induction opened with
    | nil => exact fun _ => rfl
    | cons o rest ih =>
        intro loose
        rw [closeTo, if_pos (Nat.zero_le _)]
        exact ih _
  exact hall d.opened []

/-! ## What a line adds -/

/-- What reading a line appends to the symbols and to the diagnostics. -/
structure Adds (raw : Text) (location : SourceLocation) (d d' : Draft) (ss : List Symbol)
    (ds : List Diagnostic) : Prop where
  outline : d'.outline = d.outline ++ ss
  diagnostics : d'.diagnostics = d.diagnostics ++ ds
  declared : ∀ s ∈ ss, ∃ head pending, IsDeclarationLine raw ∧ readHead (trim raw) = .ok head ∧
    s = head.toSymbol pending location
  located : ∀ x ∈ ds, x.location = some location
  once : IsDeclarationLine raw → OneAnswer ss (errorsOn location ds)

section Line

variable {raw : Text} {d d' : Draft} {location : SourceLocation}

theorem Adds.length_le_one {ss : List Symbol} {ds : List Diagnostic}
    (h : Adds raw location d d' ss ds) : ss.length ≤ 1 := by
  cases ss with
  | nil => exact Nat.zero_le 1
  | cons s rest =>
      obtain ⟨-, -, hline, -⟩ := h.declared s List.mem_cons_self
      rcases h.once hline with ⟨hone, -⟩ | ⟨hnone, -⟩
      · exact Nat.le_of_eq hone
      · exact absurd hnone (by simp)

theorem adds_symbol (hline : IsDeclarationLine raw) {head : Head}
    (ok : readHead (trim raw) = .ok head) (p : Pending)
    (houtline : d'.outline = d.outline ++ [head.toSymbol p location])
    (hdiagnostics : d'.diagnostics = d.diagnostics) :
    ∃ ss ds, Adds raw location d d' ss ds := by
  refine ⟨[head.toSymbol p location], [], houtline, by rw [hdiagnostics, List.append_nil], ?_,
    nofun, fun _ => Or.inl ⟨rfl, rfl⟩⟩
  rintro s hs
  exact ⟨head, p, hline, ok, List.mem_singleton.mp hs⟩

theorem adds_error (message : Text) (houtline : d'.outline = d.outline)
    (hdiagnostics : d'.diagnostics = d.diagnostics ++ [⟨.error, message, some location⟩]) :
    ∃ ss ds, Adds raw location d d' ss ds := by
  refine ⟨[], _, by rw [houtline, List.append_nil], hdiagnostics, nofun, ?_, ?_⟩
  · rintro x hx
    rw [List.mem_singleton.mp hx]
  · intro _
    refine Or.inr ⟨rfl, ?_⟩
    simp [errorsOn]

theorem adds_nothing (hline : ¬ IsDeclarationLine raw) (houtline : d'.outline = d.outline)
    (hdiagnostics : d'.diagnostics = d.diagnostics) : ∃ ss ds, Adds raw location d d' ss ds :=
  ⟨[], [], by rw [houtline, List.append_nil], by rw [hdiagnostics, List.append_nil], nofun, nofun,
    fun h => absurd h hline⟩

theorem outline_push {opened : List OpenSymbol} {indent : Nat} {head : Head} (p : Pending)
    (d : Draft) (hopened : d.opened = opened) :
    ({ d with pending := {}, opened := ⟨indent, head.toSymbol p location⟩ :: opened } : Draft).outline =
      d.outline ++ [head.toSymbol p location] := by
  subst hopened
  show outline d.closed ++ spine (_ :: d.opened) = _
  rw [spine_cons, ← List.append_assoc, outline_singleton]
  rfl

theorem adds_readDeclaration (hline : IsDeclarationLine raw) (d : Draft) (indent : Nat)
    (location : SourceLocation) :
    ∃ ss ds, Adds raw location d (d.readDeclaration (trim raw) indent location) ss ds := by
  have hclosed := d.outline_close indent
  generalize hresult : d.readDeclaration (trim raw) indent location = r
  have hreads := hresult ▸ readsDeclaration d (trim raw) indent location
  cases hreads with
  | @malformed problem hproblem => exact adds_error problem.message rfl rfl
  | @outermost head ok alone =>
      refine adds_symbol hline ok d.pending ?_ rfl
      rw [← hclosed]
      exact outline_push d.pending (d.close indent) alone
  | @member head o rest ok inside owner =>
      refine adds_symbol hline ok d.pending ?_ rfl
      rw [← hclosed]
      exact outline_push d.pending (d.close indent) inside
  | @dropped head o rest ok inside owner =>
      refine adds_error _ ?_ rfl
      rw [← hclosed]
      show outline _ ++ spine (o :: rest) = outline _ ++ spine (d.close indent).opened
      rw [inside]
      rfl

/-- A line that is no declaration declares nothing and reports at its own place
only. -/
theorem adds_readLine_of_not (hline : ¬ IsDeclarationLine raw) (d : Draft)
    (location : SourceLocation) : ∃ ss ds, Adds raw location d (d.readLine raw location) ss ds := by
  unfold Draft.readLine
  dsimp only
  split
  · exact adds_nothing hline rfl rfl
  · next hfilled =>
    split
    · exact adds_nothing hline rfl rfl
    · split
      · exact adds_nothing hline rfl rfl
      · next hcomment =>
        split
        · split
          · exact adds_nothing hline rfl rfl
          · exact adds_error _ rfl rfl
        · next hannotation =>
          split
          · unfold Draft.readPackage
            dsimp only
            split
            · exact adds_error _ rfl rfl
            · split
              · exact adds_error _ rfl rfl
              · exact adds_nothing hline rfl rfl
          · next hpackage =>
            exact absurd
              ⟨by simpa using hfilled, by simpa using hcomment, hannotation, hpackage⟩ hline

theorem adds_readLine (raw : Text) (d : Draft) (location : SourceLocation) :
    ∃ ss ds, Adds raw location d (d.readLine raw location) ss ds := by
  by_cases hline : IsDeclarationLine raw
  · rw [readLine_of_isDeclarationLine hline]
    exact adds_readDeclaration hline d (indentation raw) location
  · exact adds_readLine_of_not hline d location

end Line

/-! ## Reading -/

/-- What holds of a listing while it is read, before the line `next`. -/
structure Draft.Answered (ls : List Text) (file : Text) (next : Nat) (d : Draft) : Prop where
  once : ∀ n raw, n < next → lineAt? ls n = some raw → IsDeclarationLine raw →
    OneAnswer (symbolsOn n d.outline) (errorsOn ⟨file, n⟩ d.diagnostics)
  declared : ∀ s ∈ d.outline, s.location.line < next ∧ IsDeclaredIn ls file s
  ascending : d.outline.Pairwise fun s t => s.location.line < t.location.line
  reported : ∀ x ∈ d.diagnostics, ∃ n < next, x.location = some ⟨file, n⟩

namespace Draft.Answered

variable {ls : List Text} {file : Text} {next : Nat} {d : Draft}

theorem initial : Draft.Answered ls file 1 {} := by
  have houtline : ({} : Draft).outline = [] := rfl
  refine ⟨?_, ?_, ?_, nofun⟩
  · intro n raw hn hraw
    obtain rfl : n = 0 := by omega
    cases hraw
  · rw [houtline]
    exact nofun
  · rw [houtline]
    exact List.Pairwise.nil

theorem symbolsOn_append (n : Nat) (ss ts : List Symbol) :
    symbolsOn n (ss ++ ts) = symbolsOn n ss ++ symbolsOn n ts := List.filter_append ..

theorem errorsOn_append (location : SourceLocation) (ds es : List Diagnostic) :
    errorsOn location (ds ++ es) = errorsOn location ds ++ errorsOn location es :=
  List.filter_append ..

/-- Of what is read before a line nothing belongs to that line. -/
theorem nothing_ahead (h : d.Answered ls file next) {n : Nat} (hn : next ≤ n) :
    symbolsOn n d.outline = [] ∧ errorsOn ⟨file, n⟩ d.diagnostics = [] := by
  unfold symbolsOn errorsOn
  rw [List.filter_eq_nil_iff, List.filter_eq_nil_iff]
  constructor
  · intro s hs
    have hlt := (h.declared s hs).1
    simp only [decide_eq_true_eq]
    omega
  · intro x hx
    obtain ⟨k, hk, hlocation⟩ := h.reported x hx
    simp only [hlocation, decide_eq_true_eq, Option.some.injEq, SourceLocation.mk.injEq, true_and]
    omega

/-- What a line adds belongs to that line. -/
theorem nothing_aside {raw : Text} {d' : Draft} {ss : List Symbol} {ds : List Diagnostic}
    (hadds : Adds raw ⟨file, next⟩ d d' ss ds) {n : Nat} (hn : n ≠ next) :
    symbolsOn n ss = [] ∧ errorsOn ⟨file, n⟩ ds = [] := by
  unfold symbolsOn errorsOn
  rw [List.filter_eq_nil_iff, List.filter_eq_nil_iff]
  constructor
  · intro s hs
    obtain ⟨head, pending, -, -, rfl⟩ := hadds.declared s hs
    exact fun h => hn (of_decide_eq_true h).symm
  · intro x hx
    simpa [hadds.located x hx] using fun _ => hn.symm

theorem step (h : d.Answered ls file next) {raw : Text} (hraw : lineAt? ls next = some raw) :
    (d.readLine raw ⟨file, next⟩).Answered ls file (next + 1) := by
  obtain ⟨ss, ds, hadds⟩ := adds_readLine raw d ⟨file, next⟩
  have hnew : ∀ s ∈ ss, s.location.line = next ∧ IsDeclaredIn ls file s := by
    intro s hs
    obtain ⟨head, pending, hline, ok, rfl⟩ := hadds.declared s hs
    exact ⟨rfl, raw, head, pending, hraw, hline, ok, rfl⟩
  refine ⟨?_, ?_, ?_, ?_⟩
  · intro n raw' hn hraw' hline
    rw [hadds.outline, hadds.diagnostics, symbolsOn_append, errorsOn_append]
    rcases Nat.lt_succ_iff_lt_or_eq.mp hn with hn | rfl
    · obtain ⟨hsymbols, herrors⟩ := nothing_aside hadds (Nat.ne_of_lt hn)
      rw [hsymbols, herrors, List.append_nil, List.append_nil]
      exact h.once n raw' hn hraw' hline
    · obtain ⟨hsymbols, herrors⟩ := h.nothing_ahead (Nat.le_refl n)
      obtain rfl : raw = raw' := Option.some.inj (hraw.symm.trans hraw')
      have hall : symbolsOn n ss = ss := by
        refine List.filter_eq_self.mpr fun s hs => ?_
        simpa using (hnew s hs).1
      rw [hsymbols, herrors, hall, List.nil_append, List.nil_append]
      exact hadds.once hline
  · rw [hadds.outline]
    intro s hs
    rcases List.mem_append.mp hs with hs | hs
    · exact ⟨Nat.lt_succ_of_lt (h.declared s hs).1, (h.declared s hs).2⟩
    · exact ⟨Nat.lt_succ_of_le (Nat.le_of_eq (hnew s hs).1), (hnew s hs).2⟩
  · rw [hadds.outline, List.pairwise_append]
    refine ⟨h.ascending, ?_, ?_⟩
    · match ss, hadds.length_le_one with
      | [], _ => exact List.Pairwise.nil
      | [s], _ => exact List.pairwise_singleton _ s
    · intro s hs t ht
      rw [(hnew t ht).1]
      exact (h.declared s hs).1
  · rw [hadds.diagnostics]
    intro x hx
    rcases List.mem_append.mp hx with hx | hx
    · obtain ⟨n, hn, hlocation⟩ := h.reported x hx
      exact ⟨n, Nat.lt_succ_of_lt hn, hlocation⟩
    · exact ⟨next, Nat.lt_succ_self next, hadds.located x hx⟩

/-- A warning at the end answers no line. -/
theorem errorsOn_finish (d : Draft) (location place : SourceLocation) :
    errorsOn place (d.finish location).diagnostics = errorsOn place d.diagnostics := by
  unfold Draft.finish
  split
  · rfl
  · show errorsOn place (d.diagnostics ++ [_]) = _
    rw [errorsOn_append]
    simp [errorsOn]

theorem finish (h : d.Answered ls file (ls.length + 1)) (location : SourceLocation) :
    Answers ls file d.outline (d.finish location).diagnostics := by
  refine ⟨?_, fun s hs => (h.declared s hs).2, h.ascending⟩
  intro n raw hraw hline
  rw [errorsOn_finish]
  exact h.once n raw (lt_of_lineAt? hraw) hraw hline

end Draft.Answered

/-- **Every declaration line is answered once**: it gives a symbol or an error,
every symbol stems from such a line, and depth-first order is that of the
lines. -/
theorem parse_answers (text file : Text) :
    Answers (Text.lines text) file (parse text file).1.declared (parse text file).2 := by
  have hread : Draft.Answered (Text.lines text) file ((Text.lines text).length + 1)
      (Draft.readLines file {} 1 (Text.lines text)) :=
    readLines_induction (fun _ _ _ hraw h => h.step hraw) _ [] {} rfl Draft.Answered.initial
  have hanswers := hread.finish ⟨file, (Text.lines text).length⟩
  apply Answers.of_alone
  rw [← Draft.outline_finish _ ⟨file, (Text.lines text).length⟩, ← Draft.outline_close _ 0,
    Draft.outline, opened_close_zero, spine_nil, List.append_nil] at hanswers
  exact hanswers

end Listing

end CrossDoc
