import CrossDoc.Proofs.ListingLines
import CrossDoc.Proofs.PathNames

/-!
# Listings as they are written

A forest of symbols is written with the documentation and the annotations of a
symbol above its declaration, and with its members below it, indented by four.
Each of these lines is read back as what it was written for.
-/

namespace CrossDoc

/-! ## Writing -/

namespace Symbol

/-- The lines of the documentation; an empty one has none. -/
def docLines (s : Symbol) : List Text := if s.doc.isEmpty then [] else Text.splitAt '\n' s.doc

/-- The visibility as far as it is written; with `full` also that of public
symbols. -/
def shownVisibility (full : Bool) (s : Symbol) : Option Visibility :=
  if s.visibility = .publicDecl ∧ full = false then none else some s.visibility

/-- The words of a declaration before the name. -/
def leadWords (visibility : Option Visibility) (deprecated : Bool) (keyword : Text) : List Text :=
  visibility.toList.map Visibility.name ++ (if deprecated then ["deprecated".toList] else []) ++
    [keyword]

def declaration (full : Bool) (s : Symbol) : Text :=
  (leadWords (s.shownVisibility full) s.deprecation.isSome s.keyword).flatMap (· ++ [' ']) ++
    (s.name ++ s.tail)

/-- What is written above the members. -/
def ownLines (full : Bool) (s : Symbol) : List Text :=
  s.docLines.map (['/', '/', '/', ' '] ++ ·) ++ s.annotations.map ('@' :: ·) ++
    [s.declaration full]

mutual

/-- The lines of a symbol and all below it, indented by at least `indent`. -/
def written (full : Bool) (indent : Nat) : Symbol → List Text
  | ⟨kind, keyword, name, tail, visibility, deprecation, annotations, doc, location, members⟩ =>
      (ownLines full ⟨kind, keyword, name, tail, visibility, deprecation, annotations, doc,
        location, members⟩).map (List.replicate indent ' ' ++ ·) ++
        writtenAll full (indent + 4) members

def writtenAll (full : Bool) (indent : Nat) : List Symbol → List Text
  | [] => []
  | s :: rest => s.written full indent ++ writtenAll full indent rest

end

theorem written_eq (full : Bool) (indent : Nat) (s : Symbol) : s.written full indent =
    (s.ownLines full).map (List.replicate indent ' ' ++ ·) ++
      writtenAll full (indent + 4) s.members := by
  cases s
  rw [written]

theorem writtenAll_eq_flatMap (full : Bool) (indent : Nat) :
    ∀ ss : List Symbol, writtenAll full indent ss = ss.flatMap (written full indent)
  | [] => rfl
  | s :: rest => by rw [writtenAll, writtenAll_eq_flatMap full indent rest, List.flatMap_cons]

end Symbol

namespace Listing

/-- The listing of a forest. -/
def write (full : Bool) (ss : List Symbol) : Text :=
  (Symbol.writtenAll full 0 ss).flatMap (· ++ ['\n'])

/-- The text does not end with a blank. -/
def EndsFilled (t : Text) : Prop := ∀ c ∈ t.getLast?, Text.isLineBlank c = false

instance (t : Text) : Decidable (EndsFilled t) :=
  decidable_of_iff (t.getLast?.all (fun c => !Text.isLineBlank c) = true) (by
    unfold EndsFilled
    cases t.getLast? <;> simp)

/-- What can stand behind a name: nothing, a bracket or a colon and what
follows it, or a text that is set off by one space. -/
structure IsTail (t : Text) : Prop where
  start : t = [] ∨ (t.head? = some '(' ∨ t.head? = some '<' ∨ t.head? = some ':') ∨
    t.head? = some ' ' ∧ t.tail ≠ [] ∧ trim t.tail = t.tail
  line : '\n' ∉ t
  ends : EndsFilled t

instance (t : Text) : Decidable (IsTail t) :=
  decidable_of_iff
    ((t = [] ∨ (t.head? = some '(' ∨ t.head? = some '<' ∨ t.head? = some ':') ∨
      t.head? = some ' ' ∧ t.tail ≠ [] ∧ trim t.tail = t.tail) ∧ '\n' ∉ t ∧ EndsFilled t)
    ⟨fun ⟨start, line, ends⟩ => ⟨start, line, ends⟩, fun ⟨start, line, ends⟩ => ⟨start, line, ends⟩⟩

def deprecationNames : List Text := ["Deprecated", "kotlin.Deprecated"]

end Listing

/-- A symbol that can be written so that it is read back. -/
structure Symbol.IsWritable (s : Symbol) : Prop where
  keyword : Kind.ofKeyword? s.keyword = some s.kind
  kind : s.kind ≠ .package
  named : s.name ≠ []
  identifier : ∀ c ∈ s.name, Listing.isIdentifierChar c = true
  tail : Listing.IsTail s.tail
  leaf : s.kind.isClasslike = false → s.members = []
  doc : ∀ l ∈ s.docLines, Listing.EndsFilled l
  annotations : ∀ a ∈ s.annotations, a ≠ [] ∧ ∀ c ∈ a, Listing.isAnnotationChar c = true
  deprecation : s.deprecation = some [] ∨
    s.deprecation = none ∧ ∀ a ∈ s.annotations, a ∉ Listing.deprecationNames

theorem Symbol.isWritable_iff {s : Symbol} : s.IsWritable ↔
    Kind.ofKeyword? s.keyword = some s.kind ∧ s.kind ≠ .package ∧ s.name ≠ [] ∧
      s.name.all Listing.isIdentifierChar = true ∧ Listing.IsTail s.tail ∧
      (s.kind.isClasslike = false → s.members = []) ∧ (∀ l ∈ s.docLines, Listing.EndsFilled l) ∧
      (∀ a ∈ s.annotations, a ≠ [] ∧ a.all Listing.isAnnotationChar = true) ∧
      (s.deprecation = some [] ∨
        s.deprecation = none ∧ ∀ a ∈ s.annotations, a ∉ Listing.deprecationNames) := by
  simp only [List.all_eq_true]
  constructor
  · intro h
    exact ⟨h.keyword, h.kind, h.named, h.identifier, h.tail, h.leaf, h.doc, h.annotations,
      h.deprecation⟩
  · rintro ⟨keyword, kind, named, identifier, tail, leaf, doc, annotations, deprecation⟩
    exact ⟨keyword, kind, named, identifier, tail, leaf, doc, annotations, deprecation⟩

instance (s : Symbol) : Decidable s.IsWritable := decidable_of_iff' _ Symbol.isWritable_iff

namespace Listing

/-! ## Trimming and words -/

theorem dropWhile_of_head {p : Char → Bool} {t : Text} (h : ∀ c ∈ t.head?, p c = false) :
    t.dropWhile p = t := by
  cases t with
  | nil => rfl
  | cons c rest => rw [List.dropWhile_cons, if_neg (by simp [h c rfl])]

theorem dropWhile_pad {p : Char → Bool} (hspace : p ' ' = true) (indent : Nat) (t : Text) :
    (List.replicate indent ' ' ++ t).dropWhile p = t.dropWhile p := by
  induction indent with
  | zero => rfl
  | succ n ih =>
      rw [List.replicate_succ, List.cons_append, List.dropWhile_cons, if_pos hspace, ih]

theorem trim_pad (indent : Nat) {t : Text} (hhead : ∀ c ∈ t.head?, Text.isLineBlank c = false)
    (hends : EndsFilled t) : trim (List.replicate indent ' ' ++ t) = t := by
  have hlast : ∀ c ∈ t.reverse.head?, Text.isLineBlank c = false := by
    rw [List.head?_reverse]
    exact hends
  rw [trim, Text.trimBy, Text.trimLeft, Text.trimRight, dropWhile_pad rfl,
    dropWhile_of_head hhead, dropWhile_of_head hlast, List.reverse_reverse]

theorem indentation_pad (indent : Nat) {t : Text} (h : ∀ c ∈ t.head?, Text.isBlank c = false) :
    indentation (List.replicate indent ' ' ++ t) = indent := by
  induction indent with
  | zero =>
      show indentation t = 0
      unfold indentation
      split
      · exact absurd (h ' ' rfl) (by decide)
      · exact absurd (h '\t' rfl) (by decide)
      · rfl
  | succ n ih =>
      rw [List.replicate_succ, List.cons_append, indentation, ih, Nat.add_comm]

/-- A word as declarations are made of. -/
structure IsWord (w : Text) : Prop where
  filled : w ≠ []
  chars : ∀ c ∈ w, isWordEnd c = false

theorem IsWord.head {w : Text} (h : IsWord w) (rest : Text) :
    ∀ c ∈ (w ++ rest).head?, isWordEnd c = false := by
  obtain ⟨c, cs, rfl⟩ := List.exists_cons_of_ne_nil h.filled
  rintro d hd
  obtain rfl := Option.some.inj hd
  exact h.chars _ List.mem_cons_self

theorem nextWord?_word (pad : Nat) {w : Text} (hw : IsWord w) (rest : Text) :
    nextWord? (List.replicate pad ' ' ++ (w ++ ' ' :: rest)) = some (w, ' ' :: rest) := by
  have hall : ∀ c ∈ w, (!isWordEnd c) = true := fun c hc => by rw [hw.chars c hc]; rfl
  have hfilled : (w ++ ' ' :: rest).isEmpty = false := by simp
  have htake : (w ++ ' ' :: rest).takeWhile (fun c => !isWordEnd c) = w := by
    rw [List.takeWhile_append_of_pos hall]
    exact List.append_nil w
  have hdrop : (w ++ ' ' :: rest).dropWhile (fun c => !isWordEnd c) = ' ' :: rest := by
    rw [List.dropWhile_append_of_pos hall]
    rfl
  rw [nextWord?, dropWhile_pad rfl, dropWhile_of_head (hw.head _)]
  simp only [hfilled, htake, hdrop]
  rfl

theorem wordAfter_word (pad : Nat) {w : Text} (hw : IsWord w) (before rest : Text) :
    wordAfter before (List.replicate pad ' ' ++ (w ++ ' ' :: rest)) = (w, ' ' :: rest) := by
  rw [wordAfter, nextWord?_word pad hw]
  rfl

/-! ## Declarations -/

def keywords : List Text :=
  ["class", "interface", "object", "enum", "entry", "fun", "val", "var", "typealias"]

theorem mem_keywords {w : Text} {kind : Kind} (h : Kind.ofKeyword? w = some kind)
    (hkind : kind ≠ .package) : w ∈ keywords := by
  unfold Kind.ofKeyword? at h
  split_ifs at h with hp hw hw hw hw hw hw hw hw
  · exact absurd (Option.some.inj h).symm hkind
  all_goals first
    | exact hw ▸ by decide
    | rcases hw with rfl | rfl <;> decide

/-- The words a written declaration can start with. -/
def leads : List Text :=
  "public" :: "protected" :: "internal" :: "private" :: "deprecated" :: keywords

theorem mem_leads_of_mem_keywords {w : Text} (h : w ∈ keywords) : w ∈ leads := by
  revert w
  decide

theorem isWord_lead {w : Text} (h : w ∈ leads) : IsWord w := by
  have hall : ∀ w ∈ leads, w ≠ [] ∧ (w.all fun c => !isWordEnd c) = true := by decide
  obtain ⟨hfilled, hchars⟩ := hall w h
  exact ⟨hfilled, by simpa using hchars⟩

theorem mem_leads (full : Bool) {s : Symbol} (h : s.keyword ∈ keywords) :
    ∀ w ∈ Symbol.leadWords (s.shownVisibility full) s.deprecation.isSome s.keyword, w ∈ leads := by
  have hnames : ∀ v : Visibility, v.name ∈ leads := by
    intro v
    cases v <;> decide
  unfold Symbol.leadWords
  intro w hw
  rcases List.mem_append.mp hw with hw | hw
  · rcases List.mem_append.mp hw with hw | hw
    · obtain ⟨v, -, rfl⟩ := List.mem_map.mp hw
      exact hnames v
    · split at hw
      · rw [List.mem_singleton.mp hw]
        decide
      · cases hw
  · rw [List.mem_singleton.mp hw]
    exact mem_leads_of_mem_keywords h

/-- The words before the name are told apart. -/
theorem readHead_words (v : Option Visibility) (deprecated : Bool) {keyword : Text}
    (h : keyword ∈ keywords) (rest : Text) :
    readHead ((Symbol.leadWords v deprecated keyword).flatMap (· ++ [' ']) ++ rest) =
      headAfter v deprecated keyword (' ' :: rest) := by
  have hkeyword : IsWord keyword := isWord_lead (mem_leads_of_mem_keywords h)
  have hothers : ∀ w ∈ keywords, Visibility.ofName? w = none ∧ w ≠ "deprecated" := by decide
  have hother := hothers keyword h
  have hvisibility : ∀ v : Visibility, IsWord v.name ∧ Visibility.ofName? v.name = some v := by
    intro v
    cases v <;> exact ⟨isWord_lead (by decide), by decide⟩
  have hdeprecated : IsWord "deprecated" ∧ Visibility.ofName? "deprecated" = none :=
    ⟨isWord_lead (by decide), by decide⟩
  have hfirst : ∀ {w : Text} (t : Text), IsWord w → wordAfter [] (w ++ ' ' :: t) = (w, ' ' :: t) :=
    fun t hw => wordAfter_word 0 hw [] t
  have hnext : ∀ {w : Text} (before t : Text), IsWord w →
      wordAfter before (' ' :: (w ++ ' ' :: t)) = (w, ' ' :: t) :=
    fun before t hw => wordAfter_word 1 hw before t
  unfold readHead Symbol.leadWords
  -- The letters of the word do not matter any more.
  generalize ("deprecated" : String).toList = d at hother hdeprecated ⊢
  obtain ⟨hdeprecated, hnone⟩ := hdeprecated
  have hkeep : (keyword == d) = false := beq_false_of_ne hother.2
  cases v with
  | none =>
      cases deprecated with
      | false => simp [hfirst _ hkeyword, hother.1, hkeep]
      | true => simp [hfirst _ hdeprecated, hnext _ _ hkeyword, hnone]
  | some v =>
      obtain ⟨hword, hname⟩ := hvisibility v
      cases deprecated with
      | false => simp [hfirst _ hword, hnext _ _ hkeyword, hname, hkeep]
      | true => simp [hfirst _ hword, hnext _ _ hkeyword, hnext _ _ hdeprecated, hname]

theorem isLineBlank_of_isAnnotationChar {c : Char} (h : isAnnotationChar c = true) :
    Text.isLineBlank c = false := by
  cases hblank : Text.isLineBlank c with
  | false => rfl
  | true =>
      have hcases : (c = ' ' ∨ c = '\t') ∨ c = '\r' := by
        simpa [Text.isLineBlank, Text.isBlank] using hblank
      rcases hcases with (rfl | rfl) | rfl <;> exact absurd h (by decide)

theorem isAnnotationChar_of_isIdentifierChar {c : Char} (h : isIdentifierChar c = true) :
    isAnnotationChar c = true := by
  rw [isAnnotationChar, h, Bool.true_or]

theorem EndsFilled.append {t : Text} (h : EndsFilled t) (hfilled : t ≠ []) (before : Text) :
    EndsFilled (before ++ t) := by
  obtain ⟨c, hc⟩ := Option.isSome_iff_exists.mp (List.getLast?_isSome.mpr hfilled)
  rintro d hd
  rw [List.getLast?_append, hc] at hd
  exact h d (hc.trans hd)

theorem endsFilled_of_forall {t : Text} (h : ∀ c ∈ t, Text.isLineBlank c = false) : EndsFilled t :=
  fun c hc => h c (List.mem_of_mem_getLast? hc)

namespace IsTail

variable {t : Text} (h : IsTail t)
include h

theorem isIdentifierChar_head : ∀ c ∈ t.head?, isIdentifierChar c = false := by
  intro c hc
  rcases h.start with rfl | (hopen | hopen | hopen) | ⟨hopen, -⟩
  · cases hc
  all_goals
    rw [hopen] at hc
    obtain rfl := Option.some.inj hc
    decide

theorem normalTail_eq : normalTail t = t := by
  rcases h.start with rfl | (hopen | hopen | hopen) | ⟨hopen, -, htrim⟩
  · rfl
  · simp [normalTail, hopen]
  · simp [normalTail, hopen]
  · simp [normalTail, hopen]
  · cases t with
    | nil => cases hopen
    | cons c u =>
        obtain rfl := Option.some.inj hopen
        have hspace : trim (' ' :: u) = trim u := rfl
        simp only [normalTail, List.head?_cons, hspace]
        rw [show trim u = u from htrim]
        rfl

end IsTail

section Writable

variable {s : Symbol} (h : s.IsWritable)

/-- What is read of the declaration of a symbol. -/
def headOf (s : Symbol) : Head :=
  ⟨s.visibility, s.deprecation.isSome, s.kind, s.keyword, s.name, s.tail⟩

include h

theorem isLineBlank_name : ∀ c ∈ s.name, Text.isLineBlank c = false := fun c hc =>
  isLineBlank_of_isAnnotationChar (isAnnotationChar_of_isIdentifierChar (h.identifier c hc))

theorem endsFilled_name_tail : EndsFilled (s.name ++ s.tail) := by
  by_cases htail : s.tail = []
  · rw [htail, List.append_nil]
    exact endsFilled_of_forall (isLineBlank_name h)
  · exact h.tail.ends.append htail s.name

theorem trim_name_tail : trim (' ' :: (s.name ++ s.tail)) = s.name ++ s.tail := by
  refine trim_pad 1 ?_ (endsFilled_name_tail h)
  obtain ⟨c, cs, hname⟩ := List.exists_cons_of_ne_nil h.named
  rw [hname]
  rintro d hd
  obtain rfl := Option.some.inj hd
  exact isLineBlank_name h _ (hname ▸ List.mem_cons_self)

theorem readHead_declaration (full : Bool) : readHead (s.declaration full) = .ok (headOf s) := by
  have hends := dropWhile_of_head h.tail.isIdentifierChar_head
  have htake : (s.name ++ s.tail).takeWhile isIdentifierChar = s.name := by
    have hnone : s.tail.takeWhile isIdentifierChar = [] := by
      have hparts := List.takeWhile_append_dropWhile (p := isIdentifierChar) (l := s.tail)
      rw [hends] at hparts
      exact List.append_left_eq_self.mp hparts
    rw [List.takeWhile_append_of_pos h.identifier, hnone, List.append_nil]
  have hdrop : (s.name ++ s.tail).dropWhile isIdentifierChar = s.tail := by
    rw [List.dropWhile_append_of_pos h.identifier, hends]
  have hname : s.name.isEmpty = false := by simpa using h.named
  have hvisibility : (s.shownVisibility full).getD .publicDecl = s.visibility := by
    unfold Symbol.shownVisibility
    split
    · next hpublic => exact hpublic.1.symm
    · rfl
  rw [Symbol.declaration, readHead_words _ _ (mem_keywords h.keyword h.kind), headAfter, h.keyword]
  split
  · next hnone => cases hnone
  · next hpackage => exact absurd (Option.some.inj hpackage) h.kind
  · next kind hkind hsome =>
    obtain rfl := Option.some.inj hsome
    simp only [trim_name_tail h, htake, hdrop, hname, h.tail.normalTail_eq, hvisibility]
    rfl

/-! ## Lines -/

/-- A declaration starts with one of the words that can start it. -/
theorem exists_lead (full : Bool) : ∃ w ∈ leads, ∃ rest, s.declaration full = w ++ ' ' :: rest := by
  have hleads := mem_leads full (mem_keywords h.keyword h.kind)
  have hwords : Symbol.leadWords (s.shownVisibility full) s.deprecation.isSome s.keyword ≠ [] :=
    List.append_ne_nil_of_right_ne_nil _ (List.cons_ne_nil _ _)
  obtain ⟨w, ws, hw⟩ := List.exists_cons_of_ne_nil hwords
  rw [Symbol.declaration]
  rw [hw] at hleads ⊢
  refine ⟨w, hleads w List.mem_cons_self, ws.flatMap (· ++ [' ']) ++ (s.name ++ s.tail), ?_⟩
  simp only [List.flatMap_cons, List.append_assoc, List.cons_append, List.nil_append]

theorem endsFilled_declaration (full : Bool) : EndsFilled (s.declaration full) :=
  (endsFilled_name_tail h).append (fun hnil => h.named (List.append_eq_nil_iff.mp hnil).1) _

end Writable

theorem isLineBlank_of_isWordEnd {c : Char} (h : isWordEnd c = false) :
    Text.isLineBlank c = false := by
  simp only [isWordEnd, Text.isSpace, Bool.or_eq_false_iff] at h
  exact h.1.1.1

/-- A text that starts with such a word is read as a declaration. -/
theorem isDeclarationLine_of_lead {raw w rest : Text} (hw : w ∈ leads)
    (hraw : trim raw = w ++ ' ' :: rest) : IsDeclarationLine raw := by
  have hall : ∀ w ∈ leads,
      w.head? ≠ some '/' ∧ w.head? ≠ some '@' ∧ w ≠ "package" ∧ ' ' ∉ w := by
    decide
  obtain ⟨hslash, hat, hpackage, hspace⟩ := hall w hw
  have hsplit : Text.splitAt ' ' (w ++ ' ' :: rest) = w :: Text.splitAt ' ' rest :=
    Text.splitAt_append rest hspace
  obtain ⟨c, cs, hcons⟩ := List.exists_cons_of_ne_nil (isWord_lead hw).filled
  have hslash : c ≠ '/' := fun hc => hslash (by rw [hcons, hc]; rfl)
  have hat : c ≠ '@' := fun hc => hat (by rw [hcons, hc]; rfl)
  refine ⟨?_, ?_, ?_, ?_⟩
  · simp [hraw]
  · rw [hraw, hcons]
    simp [Text.startsWith, Text.dropPrefix?, hslash.symm]
  · rw [hraw, hcons]
    simpa using hat
  · rw [hraw]
    rintro (hstart | heq)
    · obtain ⟨u, hu⟩ := Option.isSome_iff_exists.mp hstart
      have hdirective : w ++ ' ' :: rest = "package".toList ++ ' ' :: u := by
        rw [Text.dropPrefix?_eq_some.mp hu]
        rfl
      rw [hdirective, Text.splitAt_append u (by decide)] at hsplit
      exact hpackage (List.cons.inj hsplit).1.symm
    · rw [heq] at hsplit
      exact absurd (congrArg List.length hsplit) (by
        have hpieces : (Text.splitAt ' ' "package").length = 1 := by decide
        rw [hpieces, List.length_cons]
        have hne := List.length_pos_iff.mpr (Text.splitAt_ne_nil (c := ' ') rest)
        omega)

section Draft

variable (d : Draft) (indent : Nat) (location : SourceLocation)

theorem readLine_doc {l : Text} (hends : EndsFilled l) :
    d.readLine (List.replicate indent ' ' ++ (['/', '/', '/', ' '] ++ l)) location =
      { d with pending := { d.pending with docLines := d.pending.docLines ++ [l] } } := by
  -- The space before an empty line is trimmed away with the blanks at the end.
  have hread : ∀ {doc : Text}, trim (List.replicate indent ' ' ++ (['/', '/', '/', ' '] ++ l)) =
      '/' :: '/' :: '/' :: doc → (Text.dropPrefix? " " doc).getD doc = l →
        d.readLine (List.replicate indent ' ' ++ (['/', '/', '/', ' '] ++ l)) location =
          { d with pending := { d.pending with docLines := d.pending.docLines ++ [l] } } := by
    intro doc htrim hdoc
    have hprefix : Text.dropPrefix? "///" ('/' :: '/' :: '/' :: doc) = some doc := rfl
    unfold Draft.readLine
    simp only [htrim, hprefix, hdoc, List.isEmpty_cons]
    rfl
  by_cases hl : l = []
  · subst hl
    have htrim : trim (List.replicate indent ' ' ++ ['/', '/', '/', ' ']) = ['/', '/', '/'] := by
      rw [trim, Text.trimBy, Text.trimLeft, dropWhile_pad rfl]
      rfl
    exact hread htrim rfl
  · exact hread (trim_pad indent (fun _ hc => Option.some.inj hc ▸ rfl) (hends.append hl _)) rfl

theorem annotate?_name (p : Pending) {a : Text} (hfilled : a ≠ [])
    (hchars : ∀ c ∈ a, isAnnotationChar c = true) :
    p.annotate? ('@' :: a) = some { p with
      annotations := p.annotations ++ [a]
      deprecation := if a ∈ deprecationNames then some [] else p.deprecation } := by
  have hname : a.takeWhile isAnnotationChar = a := List.takeWhile_eq_self_iff.mpr hchars
  have hrest : a.dropWhile isAnnotationChar = [] := List.dropWhile_eq_nil_iff.mpr hchars
  have hempty : a.isEmpty = false := by simpa using hfilled
  have hdeprecation : a ∈ deprecationNames ↔ a = "Deprecated" ∨ a = "kotlin.Deprecated" := by
    rw [deprecationNames, List.mem_cons, List.mem_singleton]
  have hmessage : quotedText [] = [] := rfl
  simp only [Pending.annotate?, List.drop_succ_cons, List.drop_zero, hname, hrest, hempty,
    ← hdeprecation, hmessage]
  by_cases hd : a ∈ deprecationNames
  · simp [hd]
  · simp [hd]

theorem readLine_annotation {a : Text} (hfilled : a ≠ [])
    (hchars : ∀ c ∈ a, isAnnotationChar c = true) :
    d.readLine (List.replicate indent ' ' ++ '@' :: a) location =
      { d with
        pending := { d.pending with
          annotations := d.pending.annotations ++ [a]
          deprecation := if a ∈ deprecationNames then some [] else d.pending.deprecation } } := by
  have htrim : trim (List.replicate indent ' ' ++ '@' :: a) = '@' :: a := by
    refine trim_pad indent (fun _ hc => Option.some.inj hc ▸ rfl) ?_
    have hends := endsFilled_of_forall fun c hc => isLineBlank_of_isAnnotationChar (hchars c hc)
    exact hends.append hfilled ['@']
  have hdoc : Text.dropPrefix? "///" ('@' :: a) = none := rfl
  have hcomment : Text.startsWith "//" ('@' :: a) = false := rfl
  unfold Draft.readLine
  simp only [htrim, hdoc, hcomment, List.isEmpty_cons, List.head?_cons,
    annotate?_name d.pending hfilled hchars]
  rfl

theorem readLine_declaration {s : Symbol} (h : s.IsWritable) (full : Bool) :
    d.readLine (List.replicate indent ' ' ++ s.declaration full) location =
      d.readDeclaration (s.declaration full) indent location := by
  obtain ⟨w, hw, rest, hlead⟩ := exists_lead h full
  have hhead : ∀ c ∈ (s.declaration full).head?, Text.isLineBlank c = false := by
    rw [hlead]
    exact fun c hc => isLineBlank_of_isWordEnd ((isWord_lead hw).head _ c hc)
  have htrim := trim_pad indent hhead (endsFilled_declaration h full)
  have hindent : indentation (List.replicate indent ' ' ++ s.declaration full) = indent := by
    refine indentation_pad indent fun c hc => ?_
    have hblank := hhead c hc
    rw [Text.isLineBlank, Bool.or_eq_false_iff] at hblank
    exact hblank.1
  rw [readLine_of_isDeclarationLine (isDeclarationLine_of_lead hw (htrim.trans hlead)), htrim,
    hindent]

end Draft

/-! ## No line feed in a line -/

section LineFeed

variable {s : Symbol}

theorem lineFeed_not_mem_docLines : ∀ l ∈ s.docLines, '\n' ∉ l := by
  unfold Symbol.docLines
  split
  · exact nofun
  · exact fun l hl => Text.not_mem_of_mem_splitAt hl

theorem lineFeed_not_mem_declaration (h : s.IsWritable) (full : Bool) :
    '\n' ∉ s.declaration full := by
  intro hmem
  rcases List.mem_append.mp hmem with hmem | hmem
  · obtain ⟨w, hw, hmem⟩ := List.mem_flatMap.mp hmem
    have hword := isWord_lead (mem_leads full (mem_keywords h.keyword h.kind) w hw)
    rcases List.mem_append.mp hmem with hmem | hmem
    · exact absurd (hword.chars '\n' hmem) (by decide)
    · exact absurd hmem (by decide)
  · rcases List.mem_append.mp hmem with hmem | hmem
    · exact absurd (h.identifier '\n' hmem) (by decide)
    · exact h.tail.line hmem

theorem lineFeed_not_mem_ownLines (h : s.IsWritable) (full : Bool) :
    ∀ l ∈ s.ownLines full, '\n' ∉ l := by
  intro l hl
  rcases List.mem_append.mp hl with hl | hl
  · rcases List.mem_append.mp hl with hl | hl
    · obtain ⟨doc, hdoc, rfl⟩ := List.mem_map.mp hl
      simpa using lineFeed_not_mem_docLines doc hdoc
    · obtain ⟨a, ha, rfl⟩ := List.mem_map.mp hl
      rintro hmem
      rcases List.mem_cons.mp hmem with hat | hmem
      · exact absurd hat (by decide)
      · exact absurd ((h.annotations a ha).2 '\n' hmem) (by decide)
  · rw [List.mem_singleton.mp hl]
    exact lineFeed_not_mem_declaration h full

end LineFeed

end Listing

end CrossDoc
