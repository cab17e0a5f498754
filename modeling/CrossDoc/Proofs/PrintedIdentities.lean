import CrossDoc.Proofs.DirectoryPages
import CrossDoc.Proofs.Production
import CrossDoc.Proofs.TextPieces
import Mathlib.Data.Set.Operations

/-!
# Printed identities

The printed form of an identity joins its parts with slashes and dots.  In what listings
declare, no package, class or callable has a slash and no class has a dot; the signature may
have both, but it comes last.  So the printed form tells the identity, and reports and lists
that carry nothing else keep declarations apart.
-/

namespace CrossDoc

namespace DeclId

/-- The parts before the signature can be told apart in the printed form. -/
structure IsPlain (d : DeclId) : Prop where
  package : '/' ∉ d.package
  classes : ∀ t ∈ d.classes, t ≠ [] ∧ '/' ∉ t ∧ '.' ∉ t
  callable : '/' ∉ d.callable

variable {d e owner : DeclId}

/-! ## Taking the printed form apart -/

theorem toText_eq (d : DeclId) :
    d.toText = d.package ++ '/' ::
      (Text.join ['.'] d.classes ++ '/' :: (d.callable ++ '/' :: d.signature)) := by
  simp [toText]

theorem IsPlain.slash_not_mem_join (h : d.IsPlain) : '/' ∉ Text.join ['.'] d.classes := by
  intro hmem
  rcases Text.exists_of_mem_join hmem with hdot | ⟨t, ht, hslash⟩
  · exact absurd hdot (by decide)
  · exact (h.classes t ht).2.1 hslash

/-- Joined class names are the pieces between the dots, none of them empty. -/
theorem IsPlain.classes_eq (h : d.IsPlain) :
    d.classes = (Text.splitAt '.' (Text.join ['.'] d.classes)).filter fun t => !t.isEmpty := by
  by_cases hnil : d.classes = []
  · rw [hnil]
    rfl
  · rw [Text.splitAt_join hnil fun t ht => (h.classes t ht).2.2]
    refine (List.filter_eq_self.mpr fun t ht => ?_).symm
    simpa using (h.classes t ht).1

/-- **The printed form tells the identity** if only the signature has the
separators. -/
theorem IsPlain.toText_inj (hd : d.IsPlain) (he : e.IsPlain) (h : d.toText = e.toText) : d = e := by
  rw [toText_eq, toText_eq, Text.append_slash_inj hd.package he.package,
    Text.append_slash_inj hd.slash_not_mem_join he.slash_not_mem_join,
    Text.append_slash_inj hd.callable he.callable] at h
  obtain ⟨hpackage, hjoin, hcallable, hsignature⟩ := h
  have hclasses : d.classes = e.classes := by rw [hd.classes_eq, he.classes_eq, hjoin]
  cases d
  cases e
  simp_all

-- Other identities may share their printed form.
example : toText ⟨"a", ["B", "C"], [], []⟩ = toText ⟨"a", ["B.C"], [], []⟩ := by decide

/-! ## Identities of what listings declare -/

theorem ne_of_isIdentifierChar {c : Char} (h : Listing.isIdentifierChar c = true) :
    c ≠ '/' ∧ c ≠ '.' := by
  constructor
  · rintro rfl
    exact absurd h (by decide)
  · rintro rfl
    exact absurd h (by decide)

theorem isPlain_ofPackage {name : Text} (h : IsPackageText name) : (ofPackage name).IsPlain := by
  refine ⟨?_, nofun, nofun⟩
  rcases h with rfl | h
  · exact List.not_mem_nil
  · intro hslash
    simp only [Listing.isPackageName, Bool.and_eq_true, List.all_eq_true] at h
    exact absurd (h.2 _ hslash) (by decide)

/-- A member has a plain identity inside a plain one. -/
theorem IsPlain.declId (h : owner.IsPlain) {name : Text} (hne : name ≠ [])
    (hname : ∀ c ∈ name, Listing.isIdentifierChar c = true) (kind : Kind) (discriminator : Text) :
    (Symbol.declId owner kind name discriminator).IsPlain := by
  have hslash : '/' ∉ name := fun hmem => (ne_of_isIdentifierChar (hname _ hmem)).1 rfl
  have hdot : '.' ∉ name := fun hmem => (ne_of_isIdentifierChar (hname _ hmem)).2 rfl
  have hclass : (owner.withClass name).IsPlain :=
    ⟨h.package, List.forall_mem_append.mpr
      ⟨h.classes, List.forall_mem_singleton.mpr ⟨hne, hslash, hdot⟩⟩, nofun⟩
  have hcallable : ∀ signature, (owner.withCallable name signature).IsPlain :=
    fun _ => ⟨h.package, h.classes, hslash⟩
  cases kind with
  | classType | interfaceType | objectType | enumType | enumEntry | typeAlias => exact hclass
  | function => exact hcallable discriminator
  | package | property => exact hcallable []

end DeclId

namespace Declaration

/-- By induction along members, since each of them has an identifier for a name. -/
theorem isPlain_id {ds : List Declaration} (hroots : ∀ d ∈ ds, d.id.IsPlain)
    (hmembers : ∀ q ∈ flattenAll ds, ∀ n ∈ q.children, n.label.IsMemberOf q.id) :
    ∀ d ∈ flattenAll ds, d.id.IsPlain := by
  refine reachInduction (motive := fun d => d.id.IsPlain) hroots fun q hq hplain n hn => ?_
  have hmember := hmembers q hq n hn
  obtain ⟨discriminator, hid⟩ := hmember.id
  rw [show n.id = Symbol.declId q.id n.kind n.name discriminator from hid]
  exact hplain.declId hmember.named hmember.identifier n.kind discriminator

end Declaration

namespace Symbol

open Declaration

variable {p : Platform} {owner : DeclId} {ss : List Symbol}

/-- Overloads and repeated symbols included, translated symbols have plain
identities. -/
theorem isPlain_id_translate (howner : owner.IsPlain) (hss : ∀ s ∈ ss, s.WellFormed) :
    ∀ d ∈ flattenAll (ss.map (translate p owner)), d.id.IsPlain := by
  refine isPlain_id ?_ fun q hq => ?_
  · intro d hd
    obtain ⟨s, hs, rfl⟩ := List.mem_map.mp hd
    rw [translate_eq]
    exact howner.declId (hss s hs).named (hss s hs).identifier s.kind s.discriminator
  · rw [flattenAll_eq_flatMap] at hq
    obtain ⟨d, hd, hq⟩ := List.mem_flatMap.mp hq
    obtain ⟨s, hs, rfl⟩ := List.mem_map.mp hd
    -- One symbol on its own is never repeated.
    have halone : q ∈ flattenAll (translateAll p owner [] [s]) := by
      show q ∈ flattenAll [translate p owner s]
      rwa [flattenAll, flattenAll, List.append_nil]
    exact (proper_of_mem_translateAll (List.forall_mem_singleton.mpr (hss s hs)) halone).members

end Symbol

namespace Listing

/-- The identities of all that a listing declares, as a platform sees it: the
package and what its symbols are translated to, overloads and repeated symbols
included. -/
def ids (p : Platform) (text file : Text) : List DeclId :=
  let f := (parse text file).1
  .ofPackage f.package ::
    (Declaration.flattenAll (f.symbols.map (Symbol.translate p (.ofPackage f.package)))).map (·.id)

theorem isPlain_of_mem_ids {p : Platform} {text file : Text} :
    ∀ d ∈ ids p text file, d.IsPlain := by
  have hfile := parse_wellFormed text file
  have hpackage := DeclId.isPlain_ofPackage hfile.package
  refine List.forall_mem_cons.mpr ⟨hpackage, List.forall_mem_map.mpr ?_⟩
  exact Symbol.isPlain_id_translate hpackage hfile.symbols

end Listing

/-! ## Reports and lists -/

namespace RunContext

theorem undocumentedMessage_inj {d e : Declaration} {p : Platform}
    (h : undocumentedMessage d p = undocumentedMessage e p) : d.id.toText = e.id.toText := by
  have hplatform := List.append_cancel_right (List.append_cancel_right h)
  exact List.append_cancel_left (List.append_cancel_right hplatform)

end RunContext

namespace JsonValue

/-- The printed identity in an entry of the search index. -/
def dri? (v : JsonValue) : Option Text := (v.field? "dri").bind text?

end JsonValue

namespace DocModule

/-- What carries the printed identities and nothing else keeps the declarations
of a module apart. -/
structure PrintedApart (m : DocModule) : Prop where
  declarations : ∀ d ∈ m.declarations, ∀ e ∈ m.declarations, d.id.toText = e.id.toText → d = e
  /-- On each platform a warning is about one declaration. -/
  warnings : ∀ p, ∀ d ∈ m.declarations, ∀ e ∈ m.declarations,
    RunContext.undocumentedMessage d p = RunContext.undocumentedMessage e p → d = e
  /-- The entries of the search index are about different declarations, and
  each is about one. -/
  search : ∃ entries,
    (∀ v, JsonValue.IsJson (PageTree.ofModule m).searchIndex v ↔ v = .array entries) ∧
    (entries.map JsonValue.dri?).Nodup ∧
    ∀ e ∈ entries, ∃! d, d ∈ m.declarations ∧ e.dri? = some d.id.toText

variable {m : DocModule}

theorem Coherent.isPlain (h : m.Coherent) : ∀ d ∈ m.declarations, d.id.IsPlain := by
  refine Declaration.isPlain_id (fun d hd => ?_) h.members
  have hpackage := h.packages d hd
  rw [show d.id = .ofPackage d.name from hpackage.id]
  exact DeclId.isPlain_ofPackage hpackage.text

theorem Coherent.eq_of_toText (h : m.Coherent) {d e : Declaration} (hd : d ∈ m.declarations)
    (he : e ∈ m.declarations) (htext : d.id.toText = e.id.toText) : d = e :=
  List.inj_on_of_nodup_map h.nodup_ids hd he ((h.isPlain d hd).toText_inj (h.isPlain e he) htext)

theorem Coherent.printedApart (h : m.Coherent) : m.PrintedApart where
  declarations d hd e he := h.eq_of_toText hd he
  warnings p d hd e he hmessage := h.eq_of_toText hd he (RunContext.undocumentedMessage_inj hmessage)
  search := by
    have hsublist := PageTree.sublist_documentedIds_ofModule m
    rw [← PageTree.map_mainId_ofModule] at hsublist
    have hdri : ∀ p : Page, (p.searchObject p.mainId).dri? = some p.mainId.toText := fun _ => rfl
    refine ⟨_, fun v => (PageTree.isJson_searchIndex_ofModule m).iff_eq, ?_, ?_⟩
    · have hprinted : (m.declarations.map fun d => some d.id.toText).Nodup :=
        h.nodup_ids.of_map.map_on fun d hd e he he' =>
          h.eq_of_toText hd he (Option.some.inj he')
      have hentries := hsublist.map fun id => some id.toText
      rw [List.map_map, List.map_map] at hentries
      rw [List.map_map]
      exact hentries.nodup hprinted
    · refine List.forall_mem_map.mpr fun p hp => ?_
      obtain ⟨d, hd, hid⟩ := List.mem_map.mp (hsublist.subset (List.mem_map_of_mem hp))
      refine ⟨d, ⟨hd, ?_⟩, fun e he => ?_⟩
      · rw [hdri, hid]
      · have htext : p.mainId.toText = e.id.toText := Option.some.inj he.2
        rw [← hid] at htext
        exact (h.eq_of_toText hd he.1 htext).symm

end DocModule

/-! ## Listings and runs over them -/

/-- **Printed identities tell declarations apart.**  Whatever some listings declare, equal
printed forms come from equal identities; and in every module that a run over listings
translates, merges or transforms, the warnings and the search index keep the declarations apart. -/
theorem Listing.injOn_toText :
    (∀ listings : Set (Platform × Text × Text), Set.InjOn DeclId.toText
      {d | ∃ l ∈ listings, d ∈ ids l.1 l.2.1 l.2.2}) ∧
    ∀ (c : RunContext) (m : DocModule), c.OfListings → c.Produces m → m.PrintedApart := by
  refine ⟨fun listings d hd e he => ?_, fun c m hc hm => (hm.coherent hc).printedApart⟩
  obtain ⟨l, -, hd⟩ := hd
  obtain ⟨k, -, he⟩ := he
  exact (isPlain_of_mem_ids d hd).toText_inj (isPlain_of_mem_ids e he)

/-- Two overloads of a function and a nested class, seen by two passes. -/
theorem RunContext.printedApart_twoViewsModule :
    twoViewsRun.OfListings ∧ twoViewsRun.Produces twoViewsModule ∧ twoViewsModule.count = 7 ∧
      twoViewsModule.PrintedApart :=
  ⟨overListings_ofListings, produces_twoViewsModule, by decide +kernel,
    Listing.injOn_toText.2 _ _ overListings_ofListings produces_twoViewsModule⟩

end CrossDoc
