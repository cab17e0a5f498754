import CrossDoc.Listing.Analysis
import Mathlib.Data.List.TakeWhile

/-!
# The shape of what a listing gives

Whatever stands in a listing, the symbols that are read from it have names of
identifier characters, and only classes among them have members.  The open
declarations carry this: all but the innermost are classes, so closing one
never gives a member to anything else.
-/

namespace CrossDoc

namespace Symbol

/-- A symbol as a listing can declare it, with all its members. -/
inductive WellFormed : Symbol → Prop where
  | intro {s : Symbol} (kind : s.kind ≠ .package) (named : s.name ≠ [])
      (identifier : ∀ c ∈ s.name, Listing.isIdentifierChar c = true)
      (leaf : s.kind.isClasslike = false → s.members = [])
      (members : ∀ m ∈ s.members, WellFormed m) : WellFormed s

namespace WellFormed

variable {s : Symbol}

theorem kind (h : s.WellFormed) : s.kind ≠ .package := by
  cases h
  assumption

theorem named (h : s.WellFormed) : s.name ≠ [] := by
  cases h
  assumption

theorem identifier (h : s.WellFormed) : ∀ c ∈ s.name, Listing.isIdentifierChar c = true := by
  cases h
  assumption

theorem leaf (h : s.WellFormed) : s.kind.isClasslike = false → s.members = [] := by
  cases h
  assumption

theorem members (h : s.WellFormed) : ∀ m ∈ s.members, m.WellFormed := by
  cases h
  assumption

/-- A class stays well formed when it gets further members. -/
theorem addMembers (h : s.WellFormed) {loose : List Symbol} (hloose : ∀ m ∈ loose, m.WellFormed)
    (hclass : loose = [] ∨ s.kind.isClasslike = true) :
    WellFormed { s with members := s.members ++ loose } := by
  refine ⟨h.kind, h.named, h.identifier, ?_, ?_⟩
  · intro hleaf
    rcases hclass with rfl | hclass
    · simpa using h.leaf hleaf
    · exact absurd (hclass.symm.trans hleaf) (by decide)
  · intro m hm
    rcases List.mem_append.mp hm with hm | hm
    · exact h.members m hm
    · exact hloose m hm

end WellFormed

end Symbol

/-- A package as a listing can name it; the root package has the empty
name. -/
def IsPackageText (name : Text) : Prop := name = [] ∨ Listing.isPackageName name = true

/-- A source file as reading a listing gives it. -/
structure SourceFile.WellFormed (f : SourceFile) : Prop where
  package : IsPackageText f.package
  symbols : ∀ s ∈ f.symbols, s.WellFormed

namespace Listing

/-! ## Declarations -/

/-- A declaration that is taken apart has a kind other than package and a name
of identifier characters. -/
theorem readHead_ok {text : Text} {head : Head} (h : readHead text = .ok head) :
    head.kind ≠ .package ∧ head.name ≠ [] ∧ ∀ c ∈ head.name, isIdentifierChar c = true := by
  obtain ⟨visibility, deprecated, word, rest, hparts⟩ :
      ∃ visibility deprecated word rest,
        readHead text = headAfter visibility deprecated word rest := ⟨_, _, _, _, rfl⟩
  rw [hparts, headAfter] at h
  split at h
  · cases h
  · cases h
  · next kind hkind hword =>
    dsimp only at h
    split at h
    · cases h
    · next hname =>
      obtain rfl := Except.ok.inj h
      refine ⟨?_, ?_, ?_⟩
      · intro hk
        exact hkind hk
      · intro hn
        exact hname (by simpa using hn)
      · intro c hc
        exact List.mem_takeWhile_imp hc

theorem toSymbol_wellFormed {text : Text} {head : Head} (h : readHead text = .ok head)
    (p : Pending) (location : SourceLocation) : (head.toSymbol p location).WellFormed := by
  obtain ⟨hkind, hname, hchars⟩ := readHead_ok h
  exact ⟨hkind, hname, hchars, fun _ => rfl, fun _ hm => absurd hm List.not_mem_nil⟩

/-! ## Open declarations -/

/-- Open declarations of which all but the innermost are classes. -/
structure IsSpine (opened : List OpenSymbol) : Prop where
  symbols : ∀ o ∈ opened, o.symbol.WellFormed
  classes : ∀ o ∈ opened.tail, o.symbol.kind.isClasslike = true

theorem isSpine_nil : IsSpine [] := ⟨by simp, by simp⟩

theorem IsSpine.tail {o : OpenSymbol} {rest : List OpenSymbol} (h : IsSpine (o :: rest)) :
    IsSpine rest :=
  ⟨fun x hx => h.symbols x (List.mem_cons_of_mem o hx),
    fun x hx => h.classes x (List.mem_of_mem_tail hx)⟩

/-- Closing declarations leaves a spine open and closes well-formed symbols. -/
theorem closeTo_spine (indent : Nat) : ∀ (opened : List OpenSymbol) (loose : List Symbol),
    IsSpine opened → (∀ s ∈ loose, s.WellFormed) →
    (loose = [] ∨ ∀ o ∈ opened.head?, o.symbol.kind.isClasslike = true) →
      IsSpine (closeTo indent loose opened).1 ∧
        ∀ s ∈ (closeTo indent loose opened).2, s.WellFormed
  | [], loose, _, hloose, _ => ⟨isSpine_nil, hloose⟩
  | o :: rest, loose, hspine, hloose, hclass => by
      have hsymbol := (hspine.symbols o (by simp)).addMembers hloose
        (hclass.imp id fun h => h o (by simp))
      rw [closeTo]
      split
      · -- What is closed goes to the next one open, which is a class.
        refine closeTo_spine indent rest _ hspine.tail ?_ (Or.inr ?_)
        · intro s hs
          rw [List.mem_singleton.mp hs]
          exact hsymbol
        · intro x hx
          exact hspine.classes x (List.mem_of_mem_head? hx)
      · refine ⟨⟨?_, hspine.classes⟩, by simp⟩
        intro x hx
        rcases List.mem_cons.mp hx with rfl | hx
        · exact hsymbol
        · exact hspine.symbols x (List.mem_cons_of_mem o hx)

/-! ## Lines -/

/-- What holds of a listing while it is read. -/
structure Draft.Sound (d : Draft) : Prop where
  package : IsPackageText d.package
  spine : IsSpine d.opened
  closed : ∀ s ∈ d.closed, s.WellFormed

namespace Draft.Sound

variable {d : Draft}

theorem initial : Draft.Sound {} :=
  ⟨Or.inl rfl, isSpine_nil, by simp⟩

theorem close (h : d.Sound) (indent : Nat) : (d.close indent).Sound := by
  obtain ⟨hopened, hloose⟩ :=
    closeTo_spine indent d.opened [] h.spine (by simp) (Or.inl rfl)
  refine ⟨h.package, hopened, ?_⟩
  intro s hs
  rcases List.mem_append.mp hs with hs | hs
  · exact h.closed s hs
  · exact hloose s hs

theorem readPackage (h : d.Sound) (text : Text) (location : SourceLocation) :
    (d.readPackage text location).Sound := by
  unfold Draft.readPackage
  dsimp only
  split
  · exact ⟨h.package, h.spine, h.closed⟩
  · next hname =>
    split
    · exact ⟨h.package, h.spine, h.closed⟩
    · exact ⟨Or.inr (by simpa using hname), h.spine, h.closed⟩

theorem readDeclaration (h : d.Sound) (text : Text) (indent : Nat) (location : SourceLocation) :
    (d.readDeclaration text indent location).Sound := by
  unfold Draft.readDeclaration
  split
  · exact ⟨h.package, h.spine, h.closed⟩
  · next head hhead =>
    have hs := toSymbol_wellFormed hhead d.pending location
    have hclose := h.close indent
    dsimp only
    split
    · -- Nothing is open any more, so the declaration stands at the top.
      refine ⟨hclose.package, ⟨?_, by simp⟩, hclose.closed⟩
      intro o ho
      rw [List.mem_singleton.mp ho]
      exact hs
    · next o rest hopened =>
      have hspine : IsSpine (o :: rest) := hopened ▸ hclose.spine
      split
      · next hclass =>
        refine ⟨hclose.package, ⟨?_, ?_⟩, hclose.closed⟩
        · intro x hx
          rcases List.mem_cons.mp hx with rfl | hx
          · exact hs
          · exact hspine.symbols x hx
        · intro x hx
          rcases List.mem_cons.mp hx with rfl | hx
          · exact hclass
          · exact hspine.classes x hx
      · -- A declaration that is no class has no members: the line is dropped.
        exact ⟨hclose.package, hclose.spine, hclose.closed⟩

theorem readLine (h : d.Sound) (raw : Text) (location : SourceLocation) :
    (d.readLine raw location).Sound := by
  unfold Draft.readLine
  dsimp only
  split
  · exact h
  · split
    · exact ⟨h.package, h.spine, h.closed⟩
    · split
      · exact h
      · split
        · split <;> exact ⟨h.package, h.spine, h.closed⟩
        · split
          · exact h.readPackage _ location
          · exact h.readDeclaration _ _ location

theorem readLines (file : Text) (ls : List Text) (line : Nat) (h : d.Sound) :
    (Draft.readLines file d line ls).Sound := by
  induction ls generalizing d line with
  | nil => exact h
  | cons raw rest ih => exact ih (line + 1) (h.readLine raw ⟨file, line⟩)

theorem finish (h : d.Sound) (location : SourceLocation) : (d.finish location).Sound := by
  unfold Draft.finish
  split
  · exact h
  · exact ⟨h.package, h.spine, h.closed⟩

end Draft.Sound

/-- Every listing gives a well-formed source file. -/
theorem parse_wellFormed (text file : Text) : (parse text file).1.WellFormed := by
  have hread := Draft.Sound.initial.readLines file (Text.lines text) 1
  have hend := hread.finish ⟨file, (Text.lines text).length⟩
  exact ⟨hend.package, (hend.close 0).closed⟩

end Listing

/-! ## Environments -/

namespace Environment

/-- What an analysis finds in listings: each is gathered by package, or kept as
a file of its own. -/
inductive OfListings : Environment → Prop where
  | empty : OfListings {}
  | symbols {e : Environment} (text file : Text) :
      OfListings e → OfListings (e.addSymbolListing (Listing.parse text file).1)
  | file {e : Environment} (text file : Text) :
      OfListings e → OfListings (e.addSourceFile (Listing.parse text file).1)

theorem mem_addToGroup {package : Text} {symbols : List Symbol} {g : SymbolGroup} :
    ∀ {gs : List SymbolGroup}, g ∈ addToGroup package symbols gs →
      g ∈ gs ∨ g = ⟨package, symbols⟩ ∨
        ∃ g' ∈ gs, g'.package = package ∧ g = ⟨g'.package, g'.symbols ++ symbols⟩
  | [], h => Or.inr (Or.inl (List.mem_singleton.mp h))
  | g' :: rest, h => by
      rw [addToGroup] at h
      split at h
      · next hp =>
        rcases List.mem_cons.mp h with rfl | h
        · exact Or.inr (Or.inr ⟨g', by simp, hp, rfl⟩)
        · exact Or.inl (List.mem_cons_of_mem g' h)
      · rcases List.mem_cons.mp h with rfl | h
        · exact Or.inl (by simp)
        · rcases mem_addToGroup h with h | h | ⟨x, hx, h⟩
          · exact Or.inl (List.mem_cons_of_mem g' h)
          · exact Or.inr (Or.inl h)
          · exact Or.inr (Or.inr ⟨x, List.mem_cons_of_mem g' hx, h⟩)

/-- The groups and files of listings are well formed. -/
theorem OfListings.wellFormed {e : Environment} (h : e.OfListings) :
    (∀ g ∈ e.groups, IsPackageText g.package ∧ ∀ s ∈ g.symbols, s.WellFormed) ∧
      ∀ f ∈ e.files, f.WellFormed := by
  induction h with
  | empty => exact ⟨by simp, by simp⟩
  | symbols text file _ ih =>
      have hparsed := Listing.parse_wellFormed text file
      refine ⟨?_, ih.2⟩
      intro g hg
      rcases mem_addToGroup hg with hg | rfl | ⟨g', hg', _, rfl⟩
      · exact ih.1 g hg
      · exact ⟨hparsed.package, hparsed.symbols⟩
      · refine ⟨(ih.1 g' hg').1, ?_⟩
        intro s hs
        rcases List.mem_append.mp hs with hs | hs
        · exact (ih.1 g' hg').2 s hs
        · exact hparsed.symbols s hs
  | file text file _ ih =>
      refine ⟨ih.1, ?_⟩
      intro f hf
      rcases List.mem_append.mp hf with hf | hf
      · exact ih.2 f hf
      · rw [List.mem_singleton.mp hf]
        exact Listing.parse_wellFormed text file

end Environment

namespace Listing

variable {disk : Disk}

theorem readListing_ofListings {e r : Environment} {path : Text} (h : e.OfListings)
    (hr : (readListing disk e path).run.value = .ok r) : r.OfListings := by
  unfold readListing at hr
  split at hr
  · cases hr
  · next text _ =>
    by_cases hsymbols : Path.extension path = symbolExtension
    · simp only [if_pos hsymbols] at hr
      exact Except.ok.inj hr ▸ .symbols text _ h
    · simp only [if_neg hsymbols] at hr
      exact Except.ok.inj hr ▸ .file text _ h

theorem readListings_ofListings :
    ∀ {paths : List Text} {e r : Environment}, e.OfListings →
      (readListings disk e paths).run.value = .ok r → r.OfListings
  | [], _, _, h, hr => Except.ok.inj hr ▸ h
  | path :: rest, e, r, h, hr => by
      rw [readListings, Traced.value_run_bind] at hr
      split at hr
      · next hnext => exact readListings_ofListings (readListing_ofListings h hnext) hr
      · cases hr

theorem readRoots_ofListings :
    ∀ {roots : List Text} {e r : Environment}, e.OfListings →
      (readRoots disk e roots).run.value = .ok r → r.OfListings
  | [], _, _, h, hr => Except.ok.inj hr ▸ h
  | root :: rest, e, r, h, hr => by
      rw [readRoots] at hr
      split at hr
      · cases hr
      · rw [Traced.value_run_bind] at hr
        split at hr
        · next hnext => exact readRoots_ofListings (readListings_ofListings h hnext) hr
        · cases hr

/-- What the analysis of a pass finds was read from listings. -/
theorem analyze_ofListings {settings : AnalysisSettings} {e : Environment}
    (h : (analyze disk settings).run.value = .ok e) : e.OfListings := by
  unfold analyze at h
  split at h
  · cases h
  · rw [Traced.value_run_bind] at h
    split at h
    · next hroots => exact Except.ok.inj h ▸ readRoots_ofListings .empty hroots
    · cases h

end Listing

end CrossDoc
