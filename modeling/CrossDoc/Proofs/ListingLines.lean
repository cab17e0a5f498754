import CrossDoc.Listing.Parser
import Mathlib.Data.List.TakeWhile

/-!
# The lines of a listing

Only a declaration line can open or close a declaration: all other lines change
what waits, the package or the diagnostics.  A declaration line either cannot
be taken apart, which leaves the open declarations as they are, or it closes
what is not indented less and then stands at the top, in a class, or nowhere.
-/

namespace CrossDoc

namespace Symbol

mutual

/-- What holds for a symbol whenever it holds for its members holds for every
symbol. -/
theorem memberInduction {motive : Symbol → Prop}
    (step : ∀ s, (∀ m ∈ s.members, motive m) → motive s) : ∀ s, motive s
  | ⟨_, _, _, _, _, _, _, _, _, members⟩ => step _ (memberInductionAll step members)

theorem memberInductionAll {motive : Symbol → Prop}
    (step : ∀ s, (∀ m ∈ s.members, motive m) → motive s) :
    ∀ ss : List Symbol, ∀ s ∈ ss, motive s
  | [], _, h => nomatch h
  | t :: rest, s, h => by
      rcases List.mem_cons.mp h with ht | h
      · exact ht ▸ memberInduction step t
      · exact memberInductionAll step rest s h

end

mutual

/-- The symbol and all below it, in depth-first order. -/
def declared : Symbol → List Symbol
  | ⟨kind, keyword, name, tail, visibility, deprecation, annotations, doc, location, members⟩ =>
      ⟨kind, keyword, name, tail, visibility, deprecation, annotations, doc, location, members⟩ ::
        declaredAll members

def declaredAll : List Symbol → List Symbol
  | [] => []
  | s :: rest => s.declared ++ declaredAll rest

end

theorem declared_eq (s : Symbol) : s.declared = s :: declaredAll s.members := by
  cases s
  rw [declared]

theorem declaredAll_eq_flatMap : ∀ ss : List Symbol, declaredAll ss = ss.flatMap declared
  | [] => rfl
  | s :: rest => by rw [declaredAll, declaredAll_eq_flatMap rest, List.flatMap_cons]

theorem forall_declaredAll_iff {P : Symbol → Prop} {ss : List Symbol} :
    (∀ t ∈ declaredAll ss, P t) ↔ ∀ s ∈ ss, ∀ t ∈ s.declared, P t := by
  rw [declaredAll_eq_flatMap, List.forall_mem_flatMap]

theorem forall_declared_iff {P : Symbol → Prop} {s : Symbol} :
    (∀ t ∈ s.declared, P t) ↔ P s ∧ ∀ m ∈ s.members, ∀ t ∈ m.declared, P t := by
  rw [declared_eq, List.forall_mem_cons, forall_declaredAll_iff]

end Symbol

/-- All symbols of a file in depth-first order. -/
def SourceFile.declared (f : SourceFile) : List Symbol := Symbol.declaredAll f.symbols

namespace Listing

/-- A line that is read as a declaration, whether it is one or not. -/
structure IsDeclarationLine (raw : Text) : Prop where
  filled : trim raw ≠ []
  noComment : Text.startsWith "//" (trim raw) = false
  noAnnotation : (trim raw).head? ≠ some '@'
  noPackage : ¬ (Text.startsWith "package " (trim raw) = true ∨ trim raw = "package")

theorem startsWith_of_dropPrefix? {t doc : Text} (h : Text.dropPrefix? "///" t = some doc) :
    Text.startsWith "//" t = true := by
  have hslashes : ("///" : Text) = ['/', '/', '/'] := rfl
  have hcomment : ("//" : Text) = ['/', '/'] := rfl
  rw [hslashes] at h
  rw [hcomment]
  match t with
  | [] => simp [Text.dropPrefix?] at h
  | [a] => simp [Text.dropPrefix?] at h
  | a :: b :: rest =>
      simp only [Text.dropPrefix?] at h
      split at h
      · next ha =>
        split at h
        · next hb => simp [Text.startsWith, Text.dropPrefix?, ← ha, ← hb]
        · cases h
      · cases h

theorem readLine_of_isDeclarationLine {raw : Text} (h : IsDeclarationLine raw) (d : Draft)
    (location : SourceLocation) :
    d.readLine raw location = d.readDeclaration (trim raw) (indentation raw) location := by
  have hdoc : Text.dropPrefix? "///" (trim raw) = none := by
    cases hd : Text.dropPrefix? "///" (trim raw) with
    | none => rfl
    | some doc =>
        have hcomment := startsWith_of_dropPrefix? hd
        rw [h.noComment] at hcomment
        cases hcomment
  have hfilled : (trim raw).isEmpty = false := by simpa using h.filled
  unfold Draft.readLine
  simp only [hfilled, hdoc, h.noComment, h.noAnnotation, h.noPackage, if_false,
    Bool.false_eq_true]

/-- Other lines leave the declarations alone. -/
theorem readLine_of_not_isDeclarationLine {raw : Text} (h : ¬ IsDeclarationLine raw) (d : Draft)
    (location : SourceLocation) :
    (d.readLine raw location).opened = d.opened ∧ (d.readLine raw location).closed = d.closed := by
  unfold Draft.readLine
  dsimp only
  split
  · exact ⟨rfl, rfl⟩
  · next hfilled =>
    split
    · exact ⟨rfl, rfl⟩
    · split
      · exact ⟨rfl, rfl⟩
      · next hcomment =>
        split
        · split <;> exact ⟨rfl, rfl⟩
        · next hannotation =>
          split
          · unfold Draft.readPackage
            dsimp only
            split
            · exact ⟨rfl, rfl⟩
            · split <;> exact ⟨rfl, rfl⟩
          · next hpackage =>
            exact absurd ⟨by simpa using hfilled, by simpa using hcomment, hannotation, hpackage⟩ h

/-- What a declaration line can do. -/
inductive ReadsDeclaration (d : Draft) (text : Text) (indent : Nat) (location : SourceLocation) :
    Draft → Prop where
  /-- It is no declaration and is skipped. -/
  | malformed {problem : Problem} (head : readHead text = .error problem) :
      ReadsDeclaration d text indent location
        { d.fail problem location with pending := {} }
  /-- Nothing is open around it. -/
  | outermost {head : Head} (ok : readHead text = .ok head) (alone : (d.close indent).opened = []) :
      ReadsDeclaration d text indent location
        { d.close indent with
          pending := {}
          opened := [⟨indent, head.toSymbol d.pending location⟩] }
  /-- The innermost open declaration is a class. -/
  | member {head : Head} {o : OpenSymbol} {rest : List OpenSymbol} (ok : readHead text = .ok head)
      (inside : (d.close indent).opened = o :: rest) (owner : o.symbol.kind.isClasslike = true) :
      ReadsDeclaration d text indent location
        { d.close indent with
          pending := {}
          opened := ⟨indent, head.toSymbol d.pending location⟩ :: o :: rest }
  /-- The innermost open declaration cannot have members. -/
  | dropped {head : Head} {o : OpenSymbol} {rest : List OpenSymbol} (ok : readHead text = .ok head)
      (inside : (d.close indent).opened = o :: rest) (owner : o.symbol.kind.isClasslike = false) :
      ReadsDeclaration d text indent location
        (Draft.fail { d.close indent with pending := {}, opened := o :: rest }
          (.nested head.name o.symbol.kind o.symbol.name) location)

theorem readsDeclaration (d : Draft) (text : Text) (indent : Nat) (location : SourceLocation) :
    ReadsDeclaration d text indent location (d.readDeclaration text indent location) := by
  unfold Draft.readDeclaration
  cases hhead : readHead text with
  | error problem => exact .malformed hhead
  | ok head =>
      cases hopened : (d.close indent).opened with
      | nil =>
          simp only [hopened]
          exact .outermost hhead hopened
      | cons o rest =>
          simp only [hopened]
          cases howner : o.symbol.kind.isClasslike with
          | true => simpa [howner] using .member hhead hopened howner
          | false =>
              rw [if_neg (by simp)]
              exact .dropped hhead hopened howner

/-! ## Numbers of lines -/

/-- The line with a number; lines are counted from one. -/
def lineAt? (ls : List Text) : Nat → Option Text
  | 0 => none
  | n + 1 => ls[n]?

theorem lt_of_lineAt? {ls : List Text} {n : Nat} {raw : Text} (h : lineAt? ls n = some raw) :
    n < ls.length + 1 := by
  cases n with
  | zero => exact Nat.succ_pos _
  | succ n => exact Nat.succ_lt_succ (List.getElem?_eq_some_iff.mp h).1

/-- The line with this number is a declaration line of this indentation. -/
def DeclarationAt (ls : List Text) (n indent : Nat) : Prop :=
  ∃ raw, lineAt? ls n = some raw ∧ IsDeclarationLine raw ∧ indentation raw = indent

/-- A declaration line with a kind and a name. -/
def HeadAt (ls : List Text) (n indent : Nat) : Prop :=
  ∃ raw, lineAt? ls n = some raw ∧ IsDeclarationLine raw ∧ indentation raw = indent ∧
    ∃ head, readHead (trim raw) = .ok head

/-- A declaration line without a known kind or without a name. -/
def MalformedAt (ls : List Text) (n indent : Nat) : Prop :=
  ∃ raw, lineAt? ls n = some raw ∧ IsDeclarationLine raw ∧ indentation raw = indent ∧
    ∃ problem, readHead (trim raw) = .error problem

theorem declarationAt_iff {ls : List Text} {n indent : Nat} :
    DeclarationAt ls n indent ↔ HeadAt ls n indent ∨ MalformedAt ls n indent := by
  unfold DeclarationAt HeadAt MalformedAt
  constructor
  · rintro ⟨raw, hraw, hline, hindent⟩
    cases hhead : readHead (trim raw) with
    | ok head => exact Or.inl ⟨raw, hraw, hline, hindent, head, hhead⟩
    | error problem => exact Or.inr ⟨raw, hraw, hline, hindent, problem, hhead⟩
  · rintro (⟨raw, hraw, hline, hindent, -⟩ | ⟨raw, hraw, hline, hindent, -⟩)
    · exact ⟨raw, hraw, hline, hindent⟩
    · exact ⟨raw, hraw, hline, hindent⟩

theorem DeclarationAt.indent_eq {ls : List Text} {n i j : Nat} (hi : DeclarationAt ls n i)
    (hj : DeclarationAt ls n j) : i = j := by
  obtain ⟨raw, hraw, -, rfl⟩ := hi
  obtain ⟨raw', hraw', -, rfl⟩ := hj
  rw [hraw] at hraw'
  rw [Option.some.inj hraw']

theorem HeadAt.indent_eq {ls : List Text} {n i j : Nat} (hi : HeadAt ls n i)
    (hj : HeadAt ls n j) : i = j :=
  (declarationAt_iff.mpr (Or.inl hi)).indent_eq (declarationAt_iff.mpr (Or.inl hj))

theorem MalformedAt.pos {ls : List Text} {n indent : Nat} (h : MalformedAt ls n indent) :
    0 < n := by
  obtain ⟨raw, hraw, -⟩ := h
  cases n with
  | zero => cases hraw
  | succ n => exact Nat.succ_pos n

/-- What passes from line to line holds after the last one. -/
theorem readLines_induction {ls : List Text} {file : Text} {motive : Nat → Draft → Prop}
    (step : ∀ n raw d, lineAt? ls n = some raw → motive n d →
      motive (n + 1) (d.readLine raw ⟨file, n⟩)) :
    ∀ (rest before : List Text) (d : Draft), before ++ rest = ls → motive (before.length + 1) d →
      motive (ls.length + 1) (Draft.readLines file d (before.length + 1) rest) := by
  intro rest
  induction rest with
  | nil =>
      rintro before d rfl h
      rwa [List.append_nil]
  | cons raw rest ih =>
      rintro before d rfl h
      have hraw : lineAt? (before ++ raw :: rest) (before.length + 1) = some raw := by
        simp [lineAt?]
      have hlength : (before ++ [raw]).length = before.length + 1 := by simp
      have hnext := ih (before ++ [raw]) (d.readLine raw ⟨file, before.length + 1⟩) (by simp)
      rw [hlength] at hnext
      exact hnext (step _ raw d hraw h)

end Listing

end CrossDoc
