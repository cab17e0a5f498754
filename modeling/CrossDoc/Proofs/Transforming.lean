import CrossDoc.Proofs.Forest
import CrossDoc.Refinement.Chain

/-!
# Running the base transforms

A base transform gives a module and reports what it does.  Here the report is
set aside: include files only annotate the packages of a module, and they are
applied without failure when all of them can be read.
-/

namespace CrossDoc

/-- `e` differs from `d` in its facts only, and not in its platforms. -/
structure Declaration.SameButFacts (d e : Declaration) : Prop where
  label : e.label = d.label
  children : e.children = d.children
  platforms : e.platforms = d.platforms

namespace DocModule

open Declaration

/-! ## Include files -/

/-- `r` has the packages of `m`, with other facts about the same platforms. -/
def Annotates (m r : DocModule) : Prop :=
  ∃ g : Declaration → Declaration, (∀ d : Declaration, d.SameButFacts (g d)) ∧
    r.packages = m.packages.map g

theorem Annotates.refl (m : DocModule) : m.Annotates m :=
  ⟨fun d => d, fun _ => ⟨rfl, rfl, rfl⟩, (List.map_id' _).symm⟩

theorem Annotates.trans {m r s : DocModule} (h : m.Annotates r) (h' : r.Annotates s) :
    m.Annotates s := by
  obtain ⟨g, hg, hr⟩ := h
  obtain ⟨g', hg', hs⟩ := h'
  refine ⟨g' ∘ g, fun d => ⟨?_, ?_, ?_⟩, ?_⟩
  · exact (hg' (g d)).label.trans (hg d).label
  · exact (hg' (g d)).children.trans (hg d).children
  · exact (hg' (g d)).platforms.trans (hg d).platforms
  · rw [hs, hr, List.map_map]

theorem annotates_applySection (m : DocModule) (p : Platform) (s : IncludeSection) :
    m.Annotates (m.applySection p s) := by
  unfold applySection
  split
  · split
    · exact ⟨fun d => d, fun _ => ⟨rfl, rfl, rfl⟩, (List.map_id' _).symm⟩
    · refine ⟨_, fun d => ?_, rfl⟩
      split
      · exact ⟨rfl, rfl, PlatformMap.platforms_map d.facts _⟩
      · exact ⟨rfl, rfl, rfl⟩
  · exact .refl m

theorem applyPackageSection_eq_self {p : Platform} {name text : Text} {m : DocModule}
    (h : ∀ d ∈ m.packages, d.name ≠ name) : m.applyPackageSection p name text = m := by
  have hpackages : (m.packages.map fun d =>
      if d.name = name then
        { d with facts := d.facts.map fun q f => if q = p then f.applyComment text else f }
      else d) = m.packages := by
    refine (List.map_congr_left fun d hd => ?_).trans (List.map_id' _)
    rw [if_neg (h d hd)]
  rw [applyPackageSection, hpackages]

/-- Sections about packages apply wherever they find one. -/
theorem applySection_package {p : Platform} {s : IncludeSection} (m : DocModule)
    (h : s.kind = .package) : m.applySection p s = m.applyPackageSection p s.name s.text := by
  unfold applySection matchesSection
  rw [h]
  dsimp only
  split
  · rfl
  · next hnone =>
    rw [applyPackageSection_eq_self]
    simpa using hnone

/-- A view of packages that keeps their names, and goes with changes of their
facts, goes with a section about a package. -/
theorem filterMap_applyPackageSection {view : Declaration → Option Declaration} {p : Platform}
    {name text : Text} {m : DocModule} (hname : ∀ d e, view d = some e → e.name = d.name)
    (hfacts : ∀ d : Declaration,
      view { d with facts := d.facts.map fun q f => if q = p then f.applyComment text else f } =
        (view d).map fun e =>
          { e with facts := e.facts.map fun q f => if q = p then f.applyComment text else f }) :
    (m.applyPackageSection p name text).packages.filterMap view =
      (applyPackageSection p name text
        { m with packages := m.packages.filterMap view }).packages := by
  unfold applyPackageSection
  dsimp only
  rw [List.filterMap_map, List.map_filterMap]
  apply List.filterMap_congr
  intro d _
  dsimp only [Function.comp_apply]
  split
  · next h =>
    rw [hfacts]
    refine Option.map_congr fun e he => ?_
    rw [if_pos ((hname d e he).trans h)]
  · next h =>
    refine (Option.map_id' (x := view d)).symm.trans (Option.map_congr fun e he => ?_)
    rw [if_neg fun heq => h ((hname d e he).symm.trans heq)]

theorem value_applySections_cons (p : Platform) (path : Text) (m : DocModule)
    (s : IncludeSection) (rest : List IncludeSection) :
    (applySections p path m (s :: rest)).value =
      (applySections p path (m.applySection p s) rest).value := by
  rw [applySections]
  split <;> rfl

theorem annotates_applySections (p : Platform) (path : Text) :
    ∀ (ss : List IncludeSection) (m : DocModule), m.Annotates (applySections p path m ss).value
  | [], m => .refl m
  | s :: rest, m => by
      rw [value_applySections_cons]
      exact (annotates_applySection m p s).trans
        (annotates_applySections p path rest (m.applySection p s))

/-- The answer of the include files of a pass, the first of which is looked
at. -/
theorem value_applyIncludes_cons (disk : Disk) (p : Platform) (m : DocModule) (path : Text)
    (rest : List Text) :
    (applyIncludes disk p m (path :: rest)).run.value =
      match disk.read? path with
      | none => .error (unreadableInclude p path)
      | some text =>
          (applyIncludes disk p (applySections p path m (IncludeSection.parse text)).value
            rest).run.value := by
  rw [applyIncludes]
  cases disk.read? path with
  | none => rfl
  | some text => exact Traced.value_run_bind _ _

theorem value_applyAllIncludes_cons (disk : Disk) (m : DocModule) (a : AnalyzedPass)
    (rest : List AnalyzedPass) :
    (applyAllIncludes disk m (a :: rest)).run.value =
      match (applyIncludes disk a.platform m a.pass.includes).run.value with
      | .ok next => (applyAllIncludes disk next rest).run.value
      | .error e => .error e := by
  rw [applyAllIncludes, Traced.value_run_bind]
  cases (applyIncludes disk a.platform m a.pass.includes).run.value <;> rfl

theorem value_applyAllIncludes_singleton (disk : Disk) (m : DocModule) (a : AnalyzedPass) :
    (applyAllIncludes disk m [a]).run.value =
      (applyIncludes disk a.platform m a.pass.includes).run.value := by
  rw [value_applyAllIncludes_cons]
  cases (applyIncludes disk a.platform m a.pass.includes).run.value <;> rfl

theorem annotates_applyIncludes {disk : Disk} {p : Platform} :
    ∀ {paths : List Text} {m r : DocModule},
      (applyIncludes disk p m paths).run.value = .ok r → m.Annotates r
  | [], m, _, h => Except.ok.inj h ▸ .refl m
  | path :: rest, m, r, h => by
      rw [value_applyIncludes_cons] at h
      split at h
      · cases h
      · exact (annotates_applySections p path _ m).trans (annotates_applyIncludes h)

/-- What every section keeps, the include files of a pass keep. -/
theorem applyIncludes_induction {disk : Disk} {p : Platform} {motive : DocModule → Prop}
    (hsection : ∀ m s, motive m → motive (m.applySection p s)) :
    ∀ {paths : List Text} {m r : DocModule},
      (applyIncludes disk p m paths).run.value = .ok r → motive m → motive r
  | [], _, _, h, hm => Except.ok.inj h ▸ hm
  | path :: rest, m, r, h, hm => by
      rw [value_applyIncludes_cons] at h
      split at h
      · cases h
      · next text _ =>
        have sections : ∀ (ss : List IncludeSection) (m : DocModule), motive m →
            motive (applySections p path m ss).value := by
          intro ss
          induction ss with
          | nil => exact fun _ hm => hm
          | cons s rest ih =>
              intro m hm
              rw [value_applySections_cons]
              exact ih _ (hsection m s hm)
        exact applyIncludes_induction hsection h (sections _ m hm)

/-- What every section keeps, the include files of all passes keep. -/
theorem applyAllIncludes_induction {disk : Disk} {motive : DocModule → Prop}
    (hsection : ∀ p m s, motive m → motive (m.applySection p s)) :
    ∀ {passes : List AnalyzedPass} {m r : DocModule},
      (applyAllIncludes disk m passes).run.value = .ok r → motive m → motive r
  | [], _, _, h, hm => Except.ok.inj h ▸ hm
  | a :: rest, m, r, h, hm => by
      rw [value_applyAllIncludes_cons] at h
      split at h
      · next hfirst =>
        exact applyAllIncludes_induction hsection h
          (applyIncludes_induction (hsection a.platform) hfirst hm)
      · cases h

/-- A change of modules that goes with sections goes with include files. -/
theorem value_applyIncludes_map {disk disk' : Disk} {p : Platform} {change : DocModule → DocModule}
    (hsection : ∀ m s, change (m.applySection p s) = (change m).applySection p s) :
    ∀ {paths : List Text} (m : DocModule), (∀ path ∈ paths, disk.read? path = disk'.read? path) →
      (applyIncludes disk' p (change m) paths).run.value =
        (applyIncludes disk p m paths).run.value.map change
  | [], _, _ => rfl
  | path :: rest, m, hread => by
      have sections : ∀ (ss : List IncludeSection) (m : DocModule),
          (applySections p path (change m) ss).value = change (applySections p path m ss).value := by
        intro ss
        induction ss with
        | nil => exact fun _ => rfl
        | cons s rest ih =>
            intro m
            rw [value_applySections_cons, value_applySections_cons, ← hsection, ih]
      rw [value_applyIncludes_cons, value_applyIncludes_cons, ← hread path (by simp)]
      cases disk.read? path with
      | none => rfl
      | some text =>
          dsimp only
          rw [sections]
          exact value_applyIncludes_map hsection _ fun path' h' =>
            hread path' (List.mem_cons_of_mem path h')

/-- Only the texts of the include files count. -/
theorem value_applyIncludes_congr {disk disk' : Disk} {p : Platform} (m : DocModule)
    {paths : List Text} (hread : ∀ path ∈ paths, disk.read? path = disk'.read? path) :
    (applyIncludes disk p m paths).run.value = (applyIncludes disk' p m paths).run.value := by
  have hsame := @value_applyIncludes_map disk disk' p (fun x => x) (fun _ _ => rfl) paths m hread
  rw [hsame]
  cases (applyIncludes disk p m paths).run.value <;> rfl

theorem annotates_applyAllIncludes {disk : Disk} :
    ∀ {passes : List AnalyzedPass} {m r : DocModule},
      (applyAllIncludes disk m passes).run.value = .ok r → m.Annotates r
  | [], m, _, h => Except.ok.inj h ▸ .refl m
  | a :: rest, m, r, h => by
      rw [value_applyAllIncludes_cons] at h
      split at h
      · next hfirst => exact (annotates_applyIncludes hfirst).trans (annotates_applyAllIncludes h)
      · cases h

theorem applyIncludes_ok {disk : Disk} (p : Platform) :
    ∀ {paths : List Text} (m : DocModule), (∀ path ∈ paths, (disk.read? path).isSome) →
      ∃ r, (applyIncludes disk p m paths).run.value = .ok r
  | [], m, _ => ⟨m, rfl⟩
  | path :: rest, m, h => by
      obtain ⟨text, htext⟩ := Option.isSome_iff_exists.mp (h path (by simp))
      rw [value_applyIncludes_cons, htext]
      exact applyIncludes_ok p _ fun path' h' => h path' (List.mem_cons_of_mem path h')

theorem applyAllIncludes_ok {disk : Disk} :
    ∀ {passes : List AnalyzedPass} (m : DocModule),
      (∀ a ∈ passes, ∀ path ∈ a.pass.includes, (disk.read? path).isSome) →
      ∃ r, (applyAllIncludes disk m passes).run.value = .ok r
  | [], m, _ => ⟨m, rfl⟩
  | a :: rest, m, h => by
      obtain ⟨next, hnext⟩ := applyIncludes_ok a.platform m (h a (by simp))
      rw [value_applyAllIncludes_cons, hnext]
      exact applyAllIncludes_ok next fun b hb => h b (List.mem_cons_of_mem a hb)

/-! ## Annotated declarations -/

/-- What stands in an annotated module annotates something. -/
theorem Annotates.exists_of_mem {m r : DocModule} (h : m.Annotates r) {n : Declaration}
    (hn : n ∈ r.declarations) : ∃ d ∈ m.declarations, d.SameButFacts n := by
  obtain ⟨g, hg, hr⟩ := h
  unfold declarations at hn
  rw [hr] at hn
  obtain ⟨t, ht, hnt⟩ := mem_flattenAll.mp hn
  obtain ⟨d, hd, rfl⟩ := List.mem_map.mp ht
  rcases hnt with rfl | hnt
  · exact ⟨d, mem_flattenAll_self hd, hg d⟩
  · rw [(hg d).children] at hnt
    exact ⟨n, flattenAll_children_subset hd hnt, rfl, rfl, rfl⟩

end DocModule

/-! ## The chain -/

/-- What the base transforms after the first make of a module. -/
def RunContext.refined (c : RunContext) (m : DocModule) : DocModule :=
  ((((m.filter c.keepsSuppression).filter c.keepsVisibility).filter c.keepsDeprecation).filter
    c.keepsPackage).mapFacts c.linkSource

namespace BaseTransform

theorem value_moduleDocumentation (m : DocModule) (c : RunContext) :
    (moduleDocumentation.apply m c).value =
      (m.applyAllIncludes c.disk c.passes).run.value := rfl

/-- The transforms after the first do not fail. -/
theorem value_applyAll_all (m : DocModule) (c : RunContext) :
    (applyAll all m c).value =
      match (moduleDocumentation.apply m c).value with
      | .ok documented => .ok (c.refined documented)
      | .error e => .error e := by
  unfold all
  rw [applyAll, Traced.value_bind]
  cases (moduleDocumentation.apply m c).value <;> rfl

end BaseTransform

end CrossDoc
