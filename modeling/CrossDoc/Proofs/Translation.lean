import CrossDoc.Proofs.Identity

/-!
# Translated modules are coherent

The module of a pass starts without packages, and each group of symbols adds
members to one package.  What is added is coherent in itself and differs from
what the package has, so every module on the way is coherent.
-/

namespace CrossDoc

open Declaration

/-- The members of a declaration differ and are given identities inside it. -/
structure Declaration.Proper (d : Declaration) : Prop where
  unique : (d.children.map (·.id)).Nodup
  members : ∀ n ∈ d.children, n.label.IsMemberOf d.id

theorem DocModule.coherent_iff {m : DocModule} :
    m.Coherent ↔ (m.packages.map (·.id)).Nodup ∧
      ∀ t ∈ m.packages, t.label.IsPackage ∧ ∀ d ∈ t.flatten, d.Proper := by
  constructor
  · intro h
    refine ⟨h.unique.1, fun t ht => ⟨h.packages t ht, fun d hd => ?_⟩⟩
    have hdm := flatten_subset ht hd
    exact ⟨h.unique.2 d hdm, h.members d hdm⟩
  · rintro ⟨hunique, htrees⟩
    have hproper : ∀ d ∈ m.declarations, d.Proper := by
      intro d hd
      unfold DocModule.declarations at hd
      rw [flattenAll_eq_flatMap] at hd
      obtain ⟨t, ht, hdt⟩ := List.mem_flatMap.mp hd
      exact (htrees t ht).2 d hdt
    exact ⟨⟨hunique, fun d hd => (hproper d hd).unique⟩, fun t ht => (htrees t ht).1,
      fun d hd => (hproper d hd).members⟩

namespace Symbol

variable {p : Platform} {owner : DeclId}

/-! ## Translated symbols -/

theorem translate_eq (p : Platform) (owner : DeclId) (s : Symbol) :
    translate p owner s =
      { kind := s.kind
        name := s.name
        id := s.idIn owner
        parent := some owner
        facts := .singleton p s.facts
        children := translateAll p (s.idIn owner) [] s.members } := by
  cases s
  rw [translate]

theorem mem_translateAll {d : Declaration} : ∀ {ss : List Symbol} {seen : List DeclId},
    d ∈ translateAll p owner seen ss → ∃ s ∈ ss, d = translate p owner s
  | [], _, h => nomatch h
  | s :: rest, seen, h => by
      rw [translateAll] at h
      split at h
      · obtain ⟨t, ht, hd⟩ := mem_translateAll h
        exact ⟨t, List.mem_cons_of_mem s ht, hd⟩
      · rcases List.mem_cons.mp h with rfl | h
        · exact ⟨s, by simp, rfl⟩
        · obtain ⟨t, ht, hd⟩ := mem_translateAll h
          exact ⟨t, List.mem_cons_of_mem s ht, hd⟩

/-- Translated siblings differ from each other and from those seen before. -/
theorem nodup_ids_translateAll (p : Platform) (owner : DeclId) :
    ∀ (ss : List Symbol) {seen : List DeclId}, seen.Nodup →
      (seen ++ (translateAll p owner seen ss).map (·.id)).Nodup
  | [], seen, h => by simpa [translateAll] using h
  | s :: rest, seen, h => by
      rw [translateAll]
      split
      · exact nodup_ids_translateAll p owner rest h
      · next hnew =>
        -- The new identity joins those seen, which is what the hypothesis is about.
        have hid : s.idIn owner ∉ seen := by simpa using hnew
        have ih := nodup_ids_translateAll p owner rest (List.nodup_cons.mpr ⟨hid, h⟩)
        have hs : (translate p owner s).id = s.idIn owner := by rw [translate_eq]
        rw [List.map_cons, hs, List.perm_middle.nodup_iff]
        exact ih

theorem WellFormed.label_translate {s : Symbol} (h : s.WellFormed) (howner : owner.IsOwner) :
    (translate p owner s).label.IsMemberOf owner := by
  rw [translate_eq]
  exact ⟨howner, h.kind, h.named, h.identifier, rfl, s.discriminator, rfl⟩

/-- A symbol with members has an identity that they can be given theirs
from. -/
theorem WellFormed.isOwner_idIn {s m : Symbol} (h : s.WellFormed) (hm : m ∈ s.members) :
    (s.idIn owner).IsOwner := by
  apply isOwner_declId
  cases hclass : s.kind.isClasslike with
  | true => rfl
  | false =>
      rw [h.leaf hclass] at hm
      cases hm

theorem WellFormed.proper_translate {s : Symbol} (h : s.WellFormed) :
    (translate p owner s).Proper := by
  rw [translate_eq]
  constructor
  · exact nodup_ids_translateAll p (s.idIn owner) s.members List.nodup_nil
  · intro n hn
    obtain ⟨m, hm, rfl⟩ := mem_translateAll hn
    exact (h.members m hm).label_translate (h.isOwner_idIn hm)

/-- Every declaration of translated symbols is that of a well-formed symbol. -/
theorem proper_of_mem_translateAll {ss : List Symbol} {seen : List DeclId}
    (hss : ∀ s ∈ ss, s.WellFormed) {d : Declaration}
    (hd : d ∈ flattenAll (translateAll p owner seen ss)) : d.Proper := by
  have hsymbol : ∃ owner s, s.WellFormed ∧ d = translate p owner s := by
    refine reachInduction (motive := fun d => ∃ owner s, s.WellFormed ∧ d = translate p owner s)
      ?_ ?_ d hd
    · intro t ht
      obtain ⟨s, hs, rfl⟩ := mem_translateAll ht
      exact ⟨owner, s, hss s hs, rfl⟩
    · rintro _ _ ⟨owner, s, hs, rfl⟩ n hn
      rw [translate_eq] at hn
      obtain ⟨m, hm, rfl⟩ := mem_translateAll hn
      exact ⟨s.idIn owner, m, hs.members m hm, rfl⟩
  obtain ⟨owner, s, hs, rfl⟩ := hsymbol
  exact hs.proper_translate

end Symbol

namespace DocModule

variable {p : Platform} {name : Text}

/-! ## Members for a package -/

/-- Either a package of the name is changed, the first of them, or one is added
at the end. -/
theorem updatePackage_cases (p : Platform) (name : Text) (f : Declaration → Declaration)
    (ds : List Declaration) :
    (∃ before d after, ds = before ++ d :: after ∧ d.id.package = name ∧
      (ds.find? fun d => d.id.package == name) = some d ∧
        updatePackage p name f ds = before ++ f d :: after) ∨
    ((∀ d ∈ ds, d.id.package ≠ name) ∧
      updatePackage p name f ds = ds ++ [f (emptyPackage p name)]) := by
  induction ds with
  | nil =>
      right
      exact ⟨by simp, rfl⟩
  | cons d rest ih =>
      rw [updatePackage]
      by_cases h : d.id.package = name
      · exact Or.inl ⟨[], d, rest, rfl, h, by simp [h], by simp [h]⟩
      · rw [if_neg h]
        rcases ih with ⟨before, e, after, hds, he, hfind, hup⟩ | hall
        · refine Or.inl ⟨d :: before, e, after, ?_, he, ?_, ?_⟩
          · rw [hds]
            rfl
          · simpa [h] using hfind
          · rw [hup]
            rfl
        · refine Or.inr ⟨?_, ?_⟩
          · intro e he
            rcases List.mem_cons.mp he with rfl | he
            · exact h
            · exact hall.1 e he
          · rw [hall.2]
            rfl

/-- A package stays proper all over when translated symbols are added to it. -/
theorem proper_addMembers {d : Declaration} {symbols : List Symbol} {seen : List DeclId}
    (hseen : seen = d.children.map (·.id)) (hid : d.id = .ofPackage name)
    (hproper : ∀ x ∈ d.flatten, x.Proper) (hsymbols : ∀ s ∈ symbols, s.WellFormed) :
    ∀ x ∈ Declaration.flatten { d with
      children := d.children ++ Symbol.translateAll p (.ofPackage name) seen symbols },
      x.Proper := by
  intro x hx
  subst hseen
  rw [flatten_eq] at hx hproper
  have hd := hproper d (by simp)
  rcases List.mem_cons.mp hx with rfl | hx
  · constructor
    · rw [List.map_append]
      exact Symbol.nodup_ids_translateAll p _ symbols hd.unique
    · intro n hn
      rcases List.mem_append.mp hn with hn | hn
      · exact hd.members n hn
      · obtain ⟨s, hs, rfl⟩ := Symbol.mem_translateAll hn
        rw [show DeclId.ofPackage name = d.id from hid.symm]
        exact (hsymbols s hs).label_translate (hid ▸ DeclId.isOwner_ofPackage name)
  · rw [flattenAll_append] at hx
    rcases List.mem_append.mp hx with hx | hx
    · exact hproper x (List.mem_cons_of_mem d hx)
    · exact Symbol.proper_of_mem_translateAll hsymbols hx

theorem childIds_of_find? {m : DocModule} {d : Declaration}
    (h : (m.packages.find? fun d => d.id.package == name) = some d) :
    m.childIds name = d.children.map (·.id) := by
  unfold childIds findPackage?
  rw [h]

theorem childIds_of_forall_ne {m : DocModule} (h : ∀ d ∈ m.packages, d.id.package ≠ name) :
    m.childIds name = [] := by
  have hnone : (m.packages.find? fun d => d.id.package == name) = none := by
    rw [List.find?_eq_none]
    intro d hd
    simpa using h d hd
  unfold childIds findPackage?
  rw [hnone]

theorem proper_emptyPackage : ∀ x ∈ (emptyPackage p name).flatten, x.Proper := by
  intro x hx
  obtain rfl := List.mem_singleton.mp hx
  exact ⟨List.nodup_nil, by simp⟩

theorem Coherent.addSymbols {m : DocModule} (h : m.Coherent) (p : Platform)
    (hname : IsPackageText name) {symbols : List Symbol}
    (hsymbols : ∀ s ∈ symbols, s.WellFormed) : (m.addSymbols p name symbols).Coherent := by
  rw [coherent_iff] at h ⊢
  obtain ⟨hunique, htrees⟩ := h
  rcases updatePackage_cases p name (fun d => { d with
      children := d.children ++
        Symbol.translateAll p (.ofPackage name) (m.childIds name) symbols }) m.packages
    with ⟨before, d, after, hds, hd, hfind, hup⟩ | ⟨hall, hup⟩
  · -- The package is there: its members differ from the new ones, and its label stays.
    rw [show (m.addSymbols p name symbols).packages = _ from hup]
    rw [hds] at hunique htrees
    refine ⟨by simpa using hunique, ?_⟩
    intro t ht
    rcases List.mem_append.mp ht with ht | ht
    · exact htrees t (List.mem_append_left _ ht)
    · rcases List.mem_cons.mp ht with rfl | ht
      · obtain ⟨hlabel, hproper⟩ := htrees d (by simp)
        exact ⟨hlabel,
          proper_addMembers (childIds_of_find? hfind) (hlabel.id_eq hd) hproper hsymbols⟩
      · exact htrees t (by simp [ht])
  · -- The package is new: no other has its name, so none has its identity.
    rw [show (m.addSymbols p name symbols).packages = _ from hup]
    constructor
    · rw [List.map_append, List.nodup_append]
      refine ⟨hunique, by simp, ?_⟩
      rintro id hid _ hid' rfl
      obtain ⟨d, hd, rfl⟩ := List.mem_map.mp hid
      rw [List.map_singleton, List.mem_singleton] at hid'
      exact hall d hd (congrArg DeclId.package hid')
    · intro t ht
      rcases List.mem_append.mp ht with ht | ht
      · exact htrees t ht
      · obtain rfl := List.mem_singleton.mp ht
        exact ⟨⟨rfl, rfl, rfl, hname⟩, proper_addMembers (childIds_of_forall_ne hall) rfl
          proper_emptyPackage hsymbols⟩

/-- A module without packages is coherent. -/
theorem coherent_ofPass (a : AnalyzedPass) : (ofPass a).Coherent :=
  coherent_iff.mpr ⟨List.nodup_nil, fun _ ht => absurd ht List.not_mem_nil⟩

end DocModule

namespace Assembly

/-! ## Passes -/

theorem value_addPackage (a : AnalyzedPass) (m : DocModule) (package : Text)
    (symbols : List Symbol) :
    (addPackage a m package symbols).value =
      if skips a.pass package then m else m.addSymbols a.platform package symbols := by
  unfold addPackage
  split
  · split <;> rfl
  · rfl

theorem coherent_addPackage {a : AnalyzedPass} {m : DocModule} (h : m.Coherent) {package : Text}
    (hpackage : IsPackageText package) {symbols : List Symbol}
    (hsymbols : ∀ s ∈ symbols, s.WellFormed) :
    (addPackage a m package symbols).value.Coherent := by
  rw [value_addPackage]
  split
  · exact h
  · exact h.addSymbols a.platform hpackage hsymbols

theorem coherent_addGroups (a : AnalyzedPass) :
    ∀ {gs : List SymbolGroup} {m : DocModule}, m.Coherent →
      (∀ g ∈ gs, IsPackageText g.package ∧ ∀ s ∈ g.symbols, s.WellFormed) →
        (addGroups a m gs).value.Coherent
  | [], _, h, _ => h
  | g :: rest, m, h, hgs => by
      obtain ⟨hpackage, hsymbols⟩ := hgs g (by simp)
      rw [addGroups, Traced.value_bind]
      exact coherent_addGroups a (coherent_addPackage h hpackage hsymbols)
        fun g' hg' => hgs g' (List.mem_cons_of_mem g hg')

theorem coherent_addFiles (a : AnalyzedPass) :
    ∀ {fs : List SourceFile} {m : DocModule}, m.Coherent → (∀ f ∈ fs, f.WellFormed) →
      (addFiles a m fs).value.Coherent
  | [], _, h, _ => h
  | f :: rest, m, h, hfs => by
      have hf := hfs f (by simp)
      rw [addFiles, Traced.value_bind, Traced.value_bind]
      exact coherent_addFiles a (coherent_addPackage h hf.package hf.symbols)
        fun f' hf' => hfs f' (List.mem_cons_of_mem f hf')

variable {a : AnalyzedPass} {c : RunContext} {m : DocModule}
    (henvironment : ∀ e, a.environment = some e → e.OfListings)
include henvironment

/-- The symbols of a pass give a coherent module. -/
theorem coherent_ofGroups (h : (ofGroups a c).value = .ok m) : m.Coherent := by
  unfold ofGroups at h
  split at h
  · cases h
  · next e he =>
    obtain rfl := Except.ok.inj h
    exact coherent_addGroups a (DocModule.coherent_ofPass a) (henvironment e he).wellFormed.1

/-- The source files of a pass give a coherent module. -/
theorem coherent_ofFiles (h : (ofFiles a c).value = .ok m) : m.Coherent := by
  unfold ofFiles at h
  split at h
  · cases h
  · next e he =>
    obtain rfl := Except.ok.inj h
    exact coherent_addFiles a (DocModule.coherent_ofPass a) (henvironment e he).wellFormed.2

end Assembly

end CrossDoc
