import CrossDoc.Proofs.ListingLines
import CrossDoc.Proofs.PassModules
import CrossDoc.Proofs.Survivors
import Mathlib.Data.List.Perm.Basic

/-!
# Repeated symbols

Translation looks for repeated symbols in two places: among the members of a
symbol, and among all symbols of a package whatever group they come from.  Both
come to the same: a symbol is repeated if an earlier sibling has its identity.
The declarations of a pass are the symbols that are not repeated, nor anything
above them, in their order; and each repeated symbol is reported once, also those
that stand below another one and are dropped with it.
-/

namespace CrossDoc

open Declaration FirstOccurrence

/-- A symbol where it stands: the identity of its owner, and the siblings before it. -/
structure Occurrence where
  owner : DeclId
  before : List Symbol
  symbol : Symbol

namespace Occurrence

def id (x : Occurrence) : DeclId := x.symbol.idIn x.owner

/-- An earlier sibling has the identity of the symbol. -/
def IsRepeated (x : Occurrence) : Prop := ∃ s ∈ x.before, s.idIn x.owner = x.id

instance (x : Occurrence) : Decidable x.IsRepeated :=
  inferInstanceAs (Decidable (∃ s ∈ x.before, s.idIn x.owner = x.id))

theorem isRepeated_iff (x : Occurrence) :
    x.IsRepeated ↔ x.id ∈ x.before.map (Symbol.idIn x.owner) :=
  List.mem_map.symm

/-- What a declaration of the symbol says of itself, and its facts. -/
def said (p : Platform) (x : Occurrence) : Label × FactsMap :=
  (⟨x.symbol.kind, x.symbol.name, x.id, some x.owner⟩, .singleton p x.symbol.facts)

/-- The warning about a repeated symbol. -/
def warning (x : Occurrence) : Diagnostic :=
  ⟨.warning, "duplicate declaration " ++ x.id.toText ++ " ignored", some x.symbol.location⟩

end Occurrence

/-- What a declaration says of itself, and its facts. -/
def Declaration.said (d : Declaration) : Label × FactsMap := (d.label, d.facts)

namespace Symbol

mutual

/-- A symbol and all below it in depth-first order, each with the occurrences that
enclose it, the innermost first. -/
def occurrences (above : List Occurrence) (owner : DeclId) (before : List Symbol) :
    Symbol → List (Occurrence × List Occurrence)
  | ⟨kind, keyword, name, tail, visibility, deprecation, annotations, doc, location, members⟩ =>
      let s : Symbol :=
        ⟨kind, keyword, name, tail, visibility, deprecation, annotations, doc, location, members⟩
      (⟨owner, before, s⟩, above) ::
        occurrencesAll (⟨owner, before, s⟩ :: above) (s.idIn owner) [] members

def occurrencesAll (above : List Occurrence) (owner : DeclId) (before : List Symbol) :
    List Symbol → List (Occurrence × List Occurrence)
  | [] => []
  | s :: rest =>
      s.occurrences above owner before ++ occurrencesAll above owner (before ++ [s]) rest

end

/-- Neither the symbol nor any that encloses it is repeated. -/
def IsKept (x : Occurrence × List Occurrence) : Prop := ∀ y ∈ x.1 :: x.2, ¬ y.IsRepeated

instance (x : Occurrence × List Occurrence) : Decidable (IsKept x) :=
  inferInstanceAs (Decidable (∀ y ∈ x.1 :: x.2, ¬ y.IsRepeated))

/-! ## What is kept -/

section Kept

variable {p : Platform} {above : List Occurrence} {above' : List Declaration} {owner : DeclId}
  {before : List Symbol}

theorem occurrences_eq (above : List Occurrence) (owner : DeclId) (before : List Symbol)
    (s : Symbol) :
    s.occurrences above owner before =
      (⟨owner, before, s⟩, above) ::
        occurrencesAll (⟨owner, before, s⟩ :: above) (s.idIn owner) [] s.members := by
  cases s
  rw [occurrences]

/-- A symbol is among those that stand in a list of siblings if it is one of them or
stands below one. -/
theorem mem_occurrencesAll {x : Occurrence × List Occurrence} : ∀ {ss before : List Symbol},
    x ∈ occurrencesAll above owner before ss →
      ∃ s ∈ ss, ∃ earlier, x ∈ s.occurrences above owner earlier
  | [], _, h => nomatch h
  | s :: rest, before, h => by
      rw [occurrencesAll] at h
      rcases List.mem_append.mp h with h | h
      · exact ⟨s, List.mem_cons_self, before, h⟩
      · obtain ⟨t, ht, earlier, h⟩ := mem_occurrencesAll h
        exact ⟨t, List.mem_cons_of_mem s ht, earlier, h⟩

/-- What stands below a symbol stands below all that encloses it. -/
theorem suffix_of_mem_occurrences (s : Symbol) : ∀ {above : List Occurrence} {owner : DeclId}
    {before : List Symbol}, ∀ x ∈ s.occurrences above owner before,
      ⟨owner, before, s⟩ :: above <:+ x.1 :: x.2 := by
  induction s using Symbol.memberInduction with
  | step s ih =>
      intro above owner before x hx
      rw [occurrences_eq] at hx
      rcases List.mem_cons.mp hx with rfl | hx
      · exact List.suffix_rfl
      · obtain ⟨m, hm, earlier, hx⟩ := mem_occurrencesAll hx
        exact (List.suffix_cons _ _).trans (ih m hm x hx)

/-- Nothing is kept below a repeated symbol. -/
theorem filter_isKept_of_isRepeated {s : Symbol}
    (h : (⟨owner, before, s⟩ : Occurrence).IsRepeated) :
    (s.occurrences above owner before).filter (IsKept ·) = [] := by
  rw [List.filter_eq_nil_iff]
  intro x hx hkept
  have hsuffix := suffix_of_mem_occurrences s x hx
  exact of_decide_eq_true hkept _ (hsuffix.subset List.mem_cons_self) h

/-- What declarations say from a place upwards. -/
def saidAlong (x : Declaration × List Declaration) :
    (Label × FactsMap) × List (Label × FactsMap) :=
  (x.1.said, x.2.map Declaration.said)

/-- What the declarations of some symbols are to say from a place upwards. -/
def expectedAlong (p : Platform) (x : Occurrence × List Occurrence) :
    (Label × FactsMap) × List (Label × FactsMap) :=
  (x.1.said p, x.2.map (Occurrence.said p))

theorem said_translate (p : Platform) (owner : DeclId) (before : List Symbol) (s : Symbol) :
    (translate p owner s).said = (⟨owner, before, s⟩ : Occurrence).said p := by
  rw [translate_eq]
  rfl

/-- Where everything above is kept, the declaration of a symbol holds what is kept of it. -/
def IsTranslated (p : Platform) (s : Symbol) : Prop :=
  ∀ {above : List Occurrence} {above' : List Declaration} {owner : DeclId} {before : List Symbol},
    above'.map Declaration.said = above.map (Occurrence.said p) →
    (∀ y ∈ (⟨owner, before, s⟩ : Occurrence) :: above, ¬ y.IsRepeated) →
      ((translate p owner s).walk above').map saidAlong =
        ((s.occurrences above owner before).filter (IsKept ·)).map (expectedAlong p)

/-- By induction on the siblings: those seen are the identities of those before. -/
theorem walkAll_translateAll_of
    (habove : above'.map Declaration.said = above.map (Occurrence.said p))
    (hkept : ∀ y ∈ above, ¬ y.IsRepeated) : ∀ {ss : List Symbol} {seen : List DeclId}
      {before : List Symbol}, (∀ s ∈ ss, IsTranslated p s) →
      (∀ id, id ∈ seen ↔ id ∈ before.map (idIn owner)) →
        (walkAll above' (translateAll p owner seen ss)).map saidAlong =
          ((occurrencesAll above owner before ss).filter (IsKept ·)).map (expectedAlong p)
  | [], _, _, _, _ => rfl
  | s :: rest, seen, before, hss, hseen => by
      obtain ⟨hs, hrest⟩ := List.forall_mem_cons.mp hss
      have hrepeated : (⟨owner, before, s⟩ : Occurrence).IsRepeated ↔ s.idIn owner ∈ seen := by
        rw [Occurrence.isRepeated_iff, hseen]
        rfl
      rw [translateAll, occurrencesAll, List.filter_append, List.map_append]
      split
      · -- A repeated symbol goes with all below it, and its identity is known already.
        next hin =>
        rw [List.contains_iff_mem] at hin
        rw [filter_isKept_of_isRepeated (hrepeated.mpr hin), List.map_nil, List.nil_append]
        refine walkAll_translateAll_of habove hkept hrest fun id => ?_
        rw [List.map_append, List.mem_append, ← hseen, List.map_singleton, List.mem_singleton]
        exact ⟨Or.inl, fun h => h.elim (fun h => h) fun h => h ▸ hin⟩
      · next hin =>
        rw [List.contains_iff_mem] at hin
        have hfirst : ∀ y ∈ (⟨owner, before, s⟩ : Occurrence) :: above, ¬ y.IsRepeated :=
          List.forall_mem_cons.mpr ⟨mt hrepeated.mp hin, hkept⟩
        rw [walkAll, List.map_append, hs habove hfirst]
        congr 1
        refine walkAll_translateAll_of habove hkept hrest fun id => ?_
        rw [List.map_append, List.mem_append, ← hseen, List.map_singleton, List.mem_singleton,
          List.mem_cons, or_comm]

theorem isTranslated (p : Platform) (s : Symbol) : IsTranslated p s := by
  induction s using Symbol.memberInduction with
  | step s ih =>
      intro above above' owner before habove hkept
      have hsaid := said_translate p owner before s
      have hmembers : (walkAll (translate p owner s :: above')
          (translateAll p (s.idIn owner) [] s.members)).map saidAlong =
            ((occurrencesAll (⟨owner, before, s⟩ :: above) (s.idIn owner) [] s.members).filter
              (IsKept ·)).map (expectedAlong p) :=
        walkAll_translateAll_of (by simp [hsaid, habove]) hkept ih (by simp)
      have hchildren : (translate p owner s).children =
          translateAll p (s.idIn owner) [] s.members := by
        rw [translate_eq]
      have hhere : decide (IsKept (⟨owner, before, s⟩, above)) = true := decide_eq_true hkept
      rw [walk_eq, occurrences_eq, hchildren, List.filter_cons, if_pos hhere, List.map_cons,
        List.map_cons, hmembers]
      congr 1
      exact Prod.ext hsaid habove

/-- Of a forest of symbols exactly those are translated that are not repeated, nor anything
above them. -/
theorem walkAll_translateAll (p : Platform) (owner : DeclId) (ss : List Symbol) :
    (walkAll [] (translateAll p owner [] ss)).map saidAlong =
      ((occurrencesAll [] owner [] ss).filter (IsKept ·)).map (expectedAlong p) :=
  walkAll_translateAll_of rfl (by simp) (fun s _ => isTranslated p s) (by simp)

end Kept

/-! ## What is reported -/

section Reported

variable {above : List Occurrence} {owner : DeclId} {before : List Symbol}

/-- The occurrences that are repeated, whether they would be kept otherwise or not. -/
def repeated (xs : List (Occurrence × List Occurrence)) : List Occurrence :=
  (xs.map Prod.fst).filter (Occurrence.IsRepeated ·)

theorem repeated_append (xs ys : List (Occurrence × List Occurrence)) :
    repeated (xs ++ ys) = repeated xs ++ repeated ys := by
  rw [repeated, List.map_append, List.filter_append]
  rfl

theorem repeated_cons (x : Occurrence) (above : List Occurrence)
    (xs : List (Occurrence × List Occurrence)) :
    repeated ((x, above) :: xs) = (if x.IsRepeated then [x] else []) ++ repeated xs := by
  rw [repeated, List.map_cons, List.filter_cons]
  split
  · next h => rw [if_pos (of_decide_eq_true h)]; rfl
  · next h => rw [if_neg (fun h' => h (decide_eq_true h'))]; rfl

theorem duplicates_eq (owner : DeclId) (s : Symbol) :
    duplicates owner s = duplicatesAll (s.idIn owner) [] s.members := by
  cases s
  rw [duplicates]

/-- What is reported below a symbol are the repeated symbols there. -/
def IsReported (s : Symbol) : Prop :=
  ∀ (above : List Occurrence) (owner : DeclId),
    (duplicates owner s).Perm
      ((repeated (occurrencesAll above (s.idIn owner) [] s.members)).map Occurrence.warning)

theorem duplicatesAll_perm_of : ∀ {ss : List Symbol} {seen : List DeclId} {before : List Symbol},
    (∀ s ∈ ss, IsReported s) → (∀ id, id ∈ seen ↔ id ∈ before.map (idIn owner)) →
      (duplicatesAll owner seen ss).Perm
        ((repeated (occurrencesAll above owner before ss)).map Occurrence.warning)
  | [], _, _, _, _ => List.Perm.nil
  | s :: rest, seen, before, hss, hseen => by
      obtain ⟨hs, hrest⟩ := List.forall_mem_cons.mp hss
      have hself : (if seen.contains (s.idIn owner) then [duplicate (s.idIn owner) s.location]
          else []) = (if (⟨owner, before, s⟩ : Occurrence).IsRepeated
            then [(⟨owner, before, s⟩ : Occurrence)] else []).map Occurrence.warning := by
        have hrepeated : seen.contains (s.idIn owner) = true ↔
            (⟨owner, before, s⟩ : Occurrence).IsRepeated := by
          rw [List.contains_iff_mem, hseen, Occurrence.isRepeated_iff]
          rfl
        by_cases h : (⟨owner, before, s⟩ : Occurrence).IsRepeated
        · rw [if_pos (hrepeated.mpr h), if_pos h]
          rfl
        · rw [if_neg (mt hrepeated.mp h), if_neg h]
          rfl
      have hlater : (duplicatesAll owner (s.idIn owner :: seen) rest).Perm
          ((repeated (occurrencesAll above owner (before ++ [s]) rest)).map
            Occurrence.warning) := by
        refine duplicatesAll_perm_of hrest fun id => ?_
        rw [List.map_append, List.mem_append, ← hseen, List.map_singleton, List.mem_singleton,
          List.mem_cons, or_comm]
      rw [duplicatesAll, occurrencesAll, occurrences_eq, List.cons_append, repeated_cons,
        repeated_append, ← List.append_assoc, List.map_append, List.map_append, ← hself]
      exact (List.perm_append_comm.trans ((hs _ owner).append_left _)).append hlater

theorem isReported (s : Symbol) : IsReported s := by
  induction s using Symbol.memberInduction with
  | step s ih =>
      intro above owner
      rw [duplicates_eq]
      exact duplicatesAll_perm_of ih (by simp)

/-- Of a forest of symbols exactly the repeated ones are reported, each at its place. -/
theorem duplicatesAll_perm (owner : DeclId) (ss : List Symbol) :
    (duplicatesAll owner [] ss).Perm
      ((repeated (occurrencesAll [] owner [] ss)).map Occurrence.warning) :=
  duplicatesAll_perm_of (fun s _ => isReported s) (by simp)

/-- Of the identities seen before, only the set counts. -/
theorem duplicatesAll_congr : ∀ (ss : List Symbol) {seen seen' : List DeclId},
    (∀ id, id ∈ seen ↔ id ∈ seen') → duplicatesAll owner seen ss = duplicatesAll owner seen' ss
  | [], _, _, _ => rfl
  | s :: rest, seen, seen', h => by
      have hrest : ∀ id, id ∈ s.idIn owner :: seen ↔ id ∈ s.idIn owner :: seen' := by
        intro id
        rw [List.mem_cons, List.mem_cons, h]
      have hself : seen.contains (s.idIn owner) = seen'.contains (s.idIn owner) := by
        rw [Bool.eq_iff_iff, List.contains_iff_mem, List.contains_iff_mem, h]
      rw [duplicatesAll, duplicatesAll, hself, duplicatesAll_congr rest hrest]

/-- Later symbols are looked at with the identities of the earlier ones. -/
theorem duplicatesAll_append : ∀ (xs ys : List Symbol) {seen seen' : List DeclId},
    (∀ id, id ∈ seen' ↔ id ∈ seen ∨ id ∈ xs.map (idIn owner)) →
      duplicatesAll owner seen (xs ++ ys) =
        duplicatesAll owner seen xs ++ duplicatesAll owner seen' ys
  | [], ys, seen, seen', h => duplicatesAll_congr ys fun id => by simp [h]
  | s :: rest, ys, seen, seen', h => by
      have hrest : ∀ id, id ∈ seen' ↔
          id ∈ s.idIn owner :: seen ∨ id ∈ rest.map (idIn owner) := by
        intro id
        rw [h, List.map_cons, List.mem_cons, List.mem_cons, or_left_comm, or_assoc]
      rw [List.cons_append, duplicatesAll, duplicatesAll, duplicatesAll_append rest ys hrest,
        ← List.append_assoc]

end Reported

end Symbol

/-! ## The reports of a pass -/

/-- The diagnostic of an event. -/
def Event.diagnostic? : Event → Option Diagnostic
  | .diagnostic d => some d
  | .relayed e => e.diagnostic?
  | _ => none

namespace Traced

variable {α β : Type}

/-- The diagnostics that a computation reports, in their order. -/
def diagnostics (t : Traced α) : List Diagnostic := t.events.filterMap Event.diagnostic?

theorem diagnostics_bind (t : Traced α) (f : α → Traced β) :
    (t >>= f).diagnostics = t.diagnostics ++ (f t.value).diagnostics := by
  rw [diagnostics, events_bind, List.filterMap_append]
  rfl

theorem diagnostics_pure (a : α) : (pure a : Traced α).diagnostics = [] := rfl

theorem diagnostics_log (level : Log.Level) (module message : Text) :
    (log level module message).diagnostics = [] := rfl

theorem diagnostics_diagnose (ds : List Diagnostic) : (diagnose ds).diagnostics = ds := by
  show (ds.map Event.diagnostic).filterMap Event.diagnostic? = ds
  rw [List.filterMap_map]
  exact List.filterMap_some

end Traced

namespace Assembly

open CrossDoc.Symbol CrossDoc.SymbolGroup CrossDoc.Traced

variable {a : AnalyzedPass}

theorem diagnostics_addPackage (a : AnalyzedPass) (m : DocModule) (package : Text)
    (symbols : List Symbol) :
    (addPackage a m package symbols).diagnostics =
      if skips a.pass package then []
      else duplicatesAll (.ofPackage package) (m.childIds package) symbols := by
  unfold addPackage
  split
  · split <;> rfl
  · rw [diagnostics_bind, diagnostics_diagnose, diagnostics_pure, List.append_nil]

theorem diagnostics_addGroups_append (a : AnalyzedPass) : ∀ (gs hs : List SymbolGroup)
    (m : DocModule), (addGroups a m (gs ++ hs)).diagnostics =
      (addGroups a m gs).diagnostics ++ (addGroups a (addGroups a m gs).value hs).diagnostics
  | [], _, _ => rfl
  | g :: rest, hs, m => by
      rw [List.cons_append, addGroups, addGroups, diagnostics_bind, diagnostics_bind,
        diagnostics_addGroups_append a rest hs, List.append_assoc]
      rfl

theorem diagnostics_addGroups_singleton (a : AnalyzedPass) (m : DocModule) (g : SymbolGroup) :
    (addGroups a m [g]).diagnostics = (addPackage a m g.package g.symbols).diagnostics := by
  rw [addGroups, diagnostics_bind]
  exact List.append_nil _

/-- What one more group brings to light stands in its package. -/
theorem duplicatesAll_concat (p : Platform) (gs : List SymbolGroup) (g : SymbolGroup)
    (name : Text) :
    duplicatesAll (.ofPackage name) [] (symbolsOf name (gs ++ [g])) =
      duplicatesAll (.ofPackage name) [] (symbolsOf name gs) ++
        if name = g.package then
          duplicatesAll (.ofPackage g.package)
            ((packageOf p gs g.package).children.map (·.id)) g.symbols
        else [] := by
  rw [symbolsOf_concat]
  by_cases h : name = g.package
  · subst h
    rw [if_pos rfl, if_pos rfl]
    refine duplicatesAll_append _ _ fun id => ?_
    rw [packageOf, ids_translateAll, List.mem_eraseDups]
    simp
  · rw [if_neg h, if_neg (Ne.symm h), List.append_nil, List.append_nil]

theorem flatMap_ite_eq {β : Type} {k : Text} {zs : List β} : ∀ {names : List Text},
    names.Nodup → (names.flatMap fun name => if name = k then zs else []) =
      if k ∈ names then zs else []
  | [], _ => rfl
  | j :: rest, h => by
      obtain ⟨hj, hrest⟩ := List.nodup_cons.mp h
      rw [List.flatMap_cons, flatMap_ite_eq hrest]
      by_cases hk : j = k
      · subst hk
        simp [hj]
      · simp [hk, Ne.symm hk]

/-- Package by package, a package that is new with a group adds nothing to what the
groups before it brought to light. -/
theorem flatMap_packageNames_concat (pass : Pass) (gs : List SymbolGroup) (g : SymbolGroup) :
    ((packageNames pass (gs ++ [g])).flatMap fun name =>
        duplicatesAll (.ofPackage name) [] (symbolsOf name gs)) =
      (packageNames pass gs).flatMap fun name =>
        duplicatesAll (.ofPackage name) [] (symbolsOf name gs) := by
  rw [packageNames_concat]
  split
  · rfl
  · next hnew =>
    rw [Bool.or_eq_true, not_or, List.contains_iff_mem] at hnew
    have hnone := symbolsOf_eq_nil_of_not_mem (by simpa using hnew.1) hnew.2
    rw [List.flatMap_append, List.flatMap_singleton, hnone, duplicatesAll, List.append_nil]

/-- The groups of a pass bring to light what the symbols of each package do, in some
order. -/
theorem diagnostics_addGroups (a : AnalyzedPass) (gs : List SymbolGroup) :
    (addGroups a (.ofPass a) gs).diagnostics.Perm
      ((packageNames a.pass gs).flatMap fun name =>
        duplicatesAll (.ofPackage name) [] (symbolsOf name gs)) := by
  induction gs using List.reverseRecOn with
  | nil => exact List.Perm.nil
  | append_singleton gs g ih =>
      -- The last group is looked at with what its package has from the groups before.
      have hnew : (addGroups a (moduleOf a gs) [g]).diagnostics =
          if g.package ∈ packageNames a.pass (gs ++ [g]) then
            duplicatesAll (.ofPackage g.package)
              ((packageOf a.platform gs g.package).children.map (·.id)) g.symbols
          else [] := by
        rw [diagnostics_addGroups_singleton, diagnostics_addPackage]
        have hmem : g.package ∈ packageNames a.pass (gs ++ [g]) ↔
            skips a.pass g.package = false := by
          rw [mem_packageNames]
          simp
        cases hskip : skips a.pass g.package with
        | true => simp [hmem, hskip]
        | false => simp [hmem, hskip, childIds_moduleOf a gs hskip]
      simp only [duplicatesAll_concat a.platform]
      refine List.Perm.trans ?_ (List.flatMap_append_perm _ _ _)
      rw [flatMap_packageNames_concat, flatMap_ite_eq (nodup_packageNames _ _), ← hnew,
        diagnostics_addGroups_append, value_addGroups]
      exact ih.append_right _

/-! ## Passes -/

theorem diagnostics_ofGroups {a : AnalyzedPass} {e : Environment} (h : a.environment = some e)
    (c : RunContext) :
    (ofGroups a c).diagnostics = (addGroups a (.ofPass a) e.groups).diagnostics := by
  unfold ofGroups
  rw [h]
  exact (diagnostics_bind _ _).trans (List.append_nil _)

/-- The symbols of a package in all groups, and all below them, where they stand. -/
def occurrencesIn (gs : List SymbolGroup) (name : Text) : List (Occurrence × List Occurrence) :=
  occurrencesAll [] (.ofPackage name) [] (symbolsOf name gs)

/-- The module and the diagnostics of a pass with some symbol groups. -/
structure DropsRepeated (a : AnalyzedPass) (gs : List SymbolGroup) (m : DocModule)
    (ds : List Diagnostic) : Prop where
  /-- The packages are those that the pass translates. -/
  packages : m.packages.map (·.id) = (packageNames a.pass gs).map .ofPackage
  /-- The declarations of a package, each with those that enclose it, are in their order the
  symbols that are not repeated nor enclosed by one that is. -/
  kept : ∀ d ∈ m.packages, (walkAll [] d.children).map saidAlong =
    ((occurrencesIn gs d.id.package).filter (IsKept ·)).map (expectedAlong a.platform)
  /-- The diagnostics are warnings about the repeated symbols, whatever encloses them. -/
  reported : ds.Perm ((packageNames a.pass gs).flatMap fun name =>
    (repeated (occurrencesIn gs name)).map Occurrence.warning)

/-- **Repeated symbols are dropped exactly and reported exactly**, among the symbols of a
package in whatever group they come, and among the members of a symbol. -/
theorem ofGroups_dropsRepeated (a : AnalyzedPass) (e : Environment) (c : RunContext) :
    ∃ m, (ofGroups { a with environment := some e } c).value = .ok m ∧
      DropsRepeated a e.groups m (ofGroups { a with environment := some e } c).diagnostics := by
  refine ⟨moduleOf a e.groups, value_ofGroups rfl c, ids_packages a e.groups, ?_, ?_⟩
  · intro d hd
    obtain ⟨name, -, rfl⟩ := List.mem_map.mp hd
    exact walkAll_translateAll a.platform (.ofPackage name) (symbolsOf name e.groups)
  · rw [diagnostics_ofGroups rfl]
    refine (diagnostics_addGroups { a with environment := some e } e.groups).trans ?_
    exact List.Perm.flatMap_left _ fun name _ =>
      duplicatesAll_perm (.ofPackage name) (symbolsOf name e.groups)

end Assembly

end CrossDoc
