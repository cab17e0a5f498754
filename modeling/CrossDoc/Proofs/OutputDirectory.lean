import CrossDoc.Proofs.BuiltinRuns
import CrossDoc.Proofs.OutputPaths

/-!
# The directory of a module

The files of a run belong in one directory, that of the slug of the module.
Pages that stand at places get there unless a name leads up or nowhere: slugs
keep dots, so a module or a package can be called as the directory itself or
the one above.  The search index takes the name of the module as it is, and
so stands with the other files only where the slug changes nothing.
-/

namespace CrossDoc

/-! ## Components -/

theorem Text.head?_splitAt {sep : Char} (x : Text) : ∀ t : Text,
    (splitAt sep (t ++ sep :: x)).head? = some (t.takeWhile (· ≠ sep))
  | [] => by rw [List.nil_append, splitAt, if_pos rfl]; rfl
  | c :: rest => by
      have ih : (splitAt sep (rest ++ sep :: x)).head? = some (rest.takeWhile (· ≠ sep)) :=
        head?_splitAt x rest
      rw [List.cons_append, splitAt]
      split
      · next hc => simp [hc]
      · next hc =>
        obtain ⟨more, hmore⟩ := List.head?_eq_some_iff.mp ih
        rw [hmore]
        simp [hc]

namespace Path

/-- The names of the directory that a path is in and of the one above. -/
def dots : List Text := [dot, dotDot]

/-- The path leads below the directory, without a detour. -/
structure LiesIn (directory path : Text) : Prop where
  relative : isAbsolute path = false
  plain : ∀ n ∈ Text.splitAt slash path, n ≠ [] ∧ n ∉ dots
  first : (Text.splitAt slash path).head? = some directory

end Path

theorem underscore_not_mem_dots : ∀ t ∈ Path.dots, '_' ∉ t := by decide

theorem slug_ne_nil (name : Text) : slug name ≠ [] := by
  unfold slug
  split
  · decide
  · next h => simpa using h

/-- Slugs keep the names that are made of dots, and make no new ones. -/
theorem slug_mem_dots {name : Text} : slug name ∈ Path.dots ↔ name ∈ Path.dots := by
  constructor
  · intro h
    exact eq_of_slug_eq rfl (underscore_not_mem_dots _ h) ▸ h
  · revert name
    decide

namespace PageTree

open Declaration

variable {config : Config} {m : DocModule} {p : FilePlace}

theorem slug_displayName_mem_dots {name : Text} :
    slug (packageDisplayName name) ∈ Path.dots ↔ name ∈ Path.dots := by
  constructor
  · intro h
    exact name_of_slug_displayName rfl (underscore_not_mem_dots _ h) ▸ h
  · revert name
    decide

/-! ## Places -/

theorem exists_file_of_mem_places (h : p ∈ places config m) :
    ∃ stem : Text, p.file = stem ++ ".md" := by
  rcases List.mem_append.mp h with h | h
  · rcases List.mem_cons.mp h with rfl | h
    · exact ⟨"index", rfl⟩
    · obtain ⟨d, _, h⟩ := List.mem_flatMap.mp h
      rcases List.mem_cons.mp h with rfl | h
      · exact ⟨"index", rfl⟩
      · obtain ⟨chain, _, rfl⟩ := List.mem_map.mp h
        exact ⟨_, rfl⟩
  · obtain ⟨name, _, rfl⟩ := List.mem_map.mp h
    exact ⟨_, rfl⟩

/-- The names of files are those of no directory. -/
theorem plain_file (h : p ∈ places config m) : p.file ≠ [] ∧ p.file ∉ Path.dots := by
  obtain ⟨stem, hstem⟩ := exists_file_of_mem_places h
  have hlength : 2 < p.file.length := by
    rw [hstem, List.length_append]
    exact Nat.lt_add_left _ (by decide)
  have hdots : ∀ t ∈ Path.dots, t.length ≤ 2 := by decide
  refine ⟨fun hnil => ?_, fun hmem => ?_⟩
  · rw [hnil] at hlength
    cases hlength
  · exact absurd (hdots _ hmem) (Nat.not_le.mpr hlength)

end PageTree

theorem FilePlace.splitAt_toPath {p : FilePlace} (hp : p.Plain) {root : Text} (hroot : '/' ∉ root) :
    Text.splitAt Path.slash (p.toPath root) = root :: (p.directory.toList ++ [p.file]) := by
  rw [toPath_eq, show Path.slash = '/' from rfl, Text.splitAt_append _ hroot]
  obtain ⟨_ | directory, file⟩ := p
  · rw [tail, Text.splitAt_of_not_mem hp.file]
    rfl
  · rw [tail, Text.splitAt_append _ (hp.directory directory rfl), Text.splitAt_of_not_mem hp.file]
    rfl

/-- A path without a leading slash is a relative one. -/
theorem Path.isAbsolute_of_head?_splitAt {path first : Text}
    (h : (Text.splitAt slash path).head? = some first) (hfirst : first ≠ []) :
    isAbsolute path = false := by
  cases path with
  | nil => rfl
  | cons c rest =>
      by_contra hc
      obtain rfl : c = slash := by simpa [isAbsolute] using hc
      rw [Text.splitAt, if_pos rfl] at h
      exact hfirst (Option.some.inj h).symm

namespace PageTree

open Declaration

variable {config : Config} {m : DocModule} {p : FilePlace}

/-- A page lies in the directory of the module if its package leads neither up nor nowhere. -/
theorem liesIn_toPath (hp : p ∈ places config m) (hroot : slug m.name ∉ Path.dots)
    (hdirectory : ∀ d, p.directory = some d → d ∉ Path.dots) :
    Path.LiesIn (slug m.name) (p.toPath (slug m.name)) := by
  have hsplit := FilePlace.splitAt_toPath (plain_of_mem_places hp)
    (not_mem_slug (c := '/') (by decide) m.name)
  have hfirst : (Text.splitAt Path.slash (p.toPath (slug m.name))).head? = some (slug m.name) := by
    rw [hsplit]
    rfl
  refine ⟨Path.isAbsolute_of_head?_splitAt hfirst (slug_ne_nil _), fun n hn => ?_, hfirst⟩
  rw [hsplit, List.mem_cons, List.mem_append, Option.mem_toList, List.mem_singleton] at hn
  rcases hn with rfl | hn | rfl
  · exact ⟨slug_ne_nil _, hroot⟩
  · obtain ⟨d, _, hslug⟩ := exists_package_of_directory hp hn
    exact ⟨hslug ▸ slug_ne_nil _, hdirectory n hn⟩
  · exact plain_file hp

theorem not_mem_dots_searchIndexName : searchIndexName ≠ [] ∧ searchIndexName ∉ Path.dots := by
  decide

/-- The search index lies in the directory of the module just if the name of the module is that
of the directory. -/
theorem liesIn_searchPath (hroot : slug m.name ∉ Path.dots) :
    Path.LiesIn (slug m.name) (searchPath m) ↔ slug m.name = m.name := by
  rw [searchPath_eq]
  constructor
  · intro h
    have hfirst := h.first
    rw [show Path.slash = '/' from rfl, Text.head?_splitAt] at hfirst
    have hslug : m.name.takeWhile (· ≠ '/') = slug m.name := Option.some.inj hfirst
    by_cases hname : m.name = []
    · rw [hname] at hslug
      exact absurd hslug (by decide)
    · rw [← hslug]
      refine (List.takeWhile_prefix _).eq_of_length ?_
      rw [hslug, length_slug hname]
  · intro h
    have hsplit : Text.splitAt Path.slash (m.name ++ '/' :: searchIndexName) =
        [m.name, searchIndexName] := by
      rw [← h, show Path.slash = '/' from rfl, Text.splitAt_append _ (not_mem_slug (by decide) _),
        Text.splitAt_of_not_mem (by decide)]
    have hfirst : (Text.splitAt Path.slash (m.name ++ '/' :: searchIndexName)).head? =
        some (slug m.name) := by
      rw [hsplit, h]
      rfl
    refine ⟨Path.isAbsolute_of_head?_splitAt hfirst (slug_ne_nil _), fun n hn => ?_, hfirst⟩
    rw [hsplit, List.mem_pair] at hn
    rcases hn with rfl | rfl
    · exact ⟨h ▸ slug_ne_nil _, h ▸ hroot⟩
    · exact not_mem_dots_searchIndexName

/-- The pages other than the search index lie in the directory of the module just if no name leads
up or nowhere. -/
theorem liesIn_places_iff :
    (∀ p ∈ places config m, Path.LiesIn (slug m.name) (p.toPath (slug m.name))) ↔
      m.name ∉ Path.dots ∧ ∀ d ∈ m.packages, d.name ∉ Path.dots := by
  constructor
  · intro h
    refine ⟨fun hname => ?_, fun d hd hname => ?_⟩
    · have hroot := h ⟨none, "index.md"⟩ (List.mem_append_left _ List.mem_cons_self)
      exact (hroot.plain _ (List.mem_of_head? hroot.first)).2 (slug_mem_dots.mpr hname)
    · have hplace : packagePlace (packageDisplayName d.name) ∈ places config m :=
        List.mem_append_left _ (List.mem_cons_of_mem _
          (List.mem_flatMap.mpr ⟨d, hd, List.mem_cons_self⟩))
      have hplain := (h _ hplace).plain (slug (packageDisplayName d.name))
      rw [FilePlace.splitAt_toPath (plain_of_mem_places hplace) (not_mem_slug (by decide) _)]
        at hplain
      exact (hplain (by simp [packagePlace])).2 (slug_displayName_mem_dots.mpr hname)
  · rintro ⟨hname, hpackages⟩ p hp
    refine liesIn_toPath hp (fun hmem => hname (slug_mem_dots.mp hmem)) ?_
    intro directory hdirectory hmem
    obtain ⟨d, hd, rfl⟩ := exists_package_of_directory hp hdirectory
    exact hpackages d hd (slug_displayName_mem_dots.mp hmem)

theorem liesIn_paths_iff :
    (∀ q ∈ (finished config m).value.paths, Path.LiesIn (slug m.name) q) ↔
      slug m.name = m.name ∧ m.name ∉ Path.dots ∧ ∀ d ∈ m.packages, d.name ∉ Path.dots := by
  rw [paths_finished, List.forall_mem_append, List.forall_mem_map, liesIn_places_iff,
    List.forall_mem_singleton, and_comm]
  refine and_congr_left fun h => liesIn_searchPath ?_
  exact fun hmem => h.1 (slug_mem_dots.mp hmem)

end PageTree

/-! ## What is handed to the writer -/

/-- The path that a step of writing is about. -/
def WriteStep.path : WriteStep → Text
  | .write path _ => path
  | .copy _ path => path

theorem PageTree.map_path_steps {t : PageTree} (h : t.AllWritten) :
    t.steps.map WriteStep.path = t.paths := by
  rw [PageTree.steps_eq h, List.map_map, ← PageTree.map_fst_files]
  rfl

/-- No package of a listing is called as a directory itself or the one above. -/
theorem not_mem_dots_of_isPackageText {name : Text} (h : IsPackageText name) :
    name ∉ Path.dots := by
  rcases h with rfl | h
  · decide
  · have hdots : ∀ t ∈ Path.dots, Listing.isPackageName t = false := by decide
    exact fun hmem => absurd (h.symm.trans (hdots _ hmem)) (by decide)

namespace Generator

/-- **When a run stays in the directory of its module.**  In every run without further plugins, the
paths that are handed to the writer all lie in the directory of the slug of the module exactly when
the slug is the name of the module itself and neither the module nor a package is called by one or
two dots.  Listings have no such packages. -/
theorem steps_lieIn_iff {g : Generator} {p : Prepared} (hg : g.UsesBuiltin)
    (hvalid : g.config.validate = .ok ()) (hp : g.prepare.run.value = .ok p) :
    ∃ m, g.Documents p m ∧
      ((∀ s ∈ p.tree.steps, Path.LiesIn (slug m.name) s.path) ↔
        slug m.name = m.name ∧ m.name ∉ Path.dots ∧ ∀ d ∈ m.packages, d.name ∉ Path.dots) ∧
      ∀ disk, g.analyzer = .ofListings disk → ∀ d ∈ m.packages, d.name ∉ Path.dots := by
  obtain ⟨m, hm⟩ := exists_documents hg hvalid hp
  refine ⟨m, hm, ?_, fun disk hanalyzer d hd => ?_⟩
  · have hpaths := PageTree.map_path_steps (PageTree.allWritten_finished g.config m)
    rw [← hm.tree] at hpaths
    have hiff : (∀ q ∈ p.tree.paths, Path.LiesIn (slug m.name) q) ↔ _ :=
      hm.tree ▸ PageTree.liesIn_paths_iff
    rw [← hpaths, List.forall_mem_map] at hiff
    exact hiff
  · have hcoherent := hm.produced.coherent (hm.ofListings disk hanalyzer)
    exact not_mem_dots_of_isPackageText (hcoherent.packages d hd).text

/-- A run over one listing, for a module of some name. -/
def listedRun (name : Text) : Generator :=
  let disk : Disk := ⟨.directory "src" (.file "a.api" "package p\nclass C\n" .empty) .empty⟩
  { config := { outputDir := "out", passes := [{ moduleName := name, sourceRoots := ["src"] }] }
    analyzer := .ofListings disk
    disk := disk }

theorem listedRun_usesBuiltin (name : Text) : (listedRun name).UsesBuiltin where
  noExtra := rfl
  enabled _ _ := rfl

theorem exists_prepared {β : Type} {g : Generator} {f : Prepared → β} {b : β}
    (h : g.prepare.run.value.map f = .ok b) : ∃ p, g.prepare.run.value = .ok p ∧ f p = b := by
  cases hp : g.prepare.run.value with
  | error e =>
      rw [hp] at h
      cases h
  | ok p =>
      rw [hp] at h
      exact ⟨p, rfl, Except.ok.inj h⟩

/-- The module `m` keeps its name, so its five files lie in one directory. -/
theorem steps_lieIn_iff_listedRun :
    (listedRun "m").UsesBuiltin ∧ (listedRun "m").config.validate = .ok () ∧
      ∃ p, (listedRun "m").prepare.run.value = .ok p ∧ p.tree.steps.length = 5 ∧
        ∀ s ∈ p.tree.steps, Path.LiesIn "m" s.path := by
  have hvalid : (listedRun "m").config.validate = .ok () := by decide
  have hsteps : (listedRun "m").prepare.run.value.map (fun p => p.tree.steps.length) = .ok 5 := by
    simp only [prepare, Traced.value_run_bind, value_installPlugins]
    decide +kernel
  obtain ⟨p, hp, hlength⟩ := exists_prepared hsteps
  obtain ⟨m, hm, hiff, hlisted⟩ := steps_lieIn_iff (listedRun_usesBuiltin "m") hvalid hp
  have hname : m.name = "m" := (Option.some.inj hm.named).symm
  rw [hname] at hiff
  refine ⟨listedRun_usesBuiltin "m", hvalid, p, hp, hlength, hiff.mpr ⟨by decide, by decide, ?_⟩⟩
  exact hlisted _ rfl

/-- The search index of `my module` lies beside the directory of its pages. -/
theorem listedRun_leavesDirectory :
    (listedRun "my module").UsesBuiltin ∧ (listedRun "my module").config.validate = .ok () ∧
      ∃ p, (listedRun "my module").prepare.run.value = .ok p ∧ p.tree.name = "my module" ∧
        p.tree.steps.map WriteStep.path =
          ["my_module/index.md", "my_module/p/index.md", "my_module/p/C.md",
            "my_module/navigation.md", "my module/search-index.json"] ∧
        ¬ ∀ s ∈ p.tree.steps, Path.LiesIn (slug p.tree.name) s.path := by
  have hsteps : (listedRun "my module").prepare.run.value.map
      (fun p => (p.tree.name, p.tree.steps.map WriteStep.path)) =
        .ok ("my module", ["my_module/index.md", "my_module/p/index.md", "my_module/p/C.md",
          "my_module/navigation.md", "my module/search-index.json"]) := by
    simp only [prepare, Traced.value_run_bind, value_installPlugins]
    decide +kernel
  obtain ⟨p, hp, hboth⟩ := exists_prepared hsteps
  obtain ⟨hname, hpaths⟩ := Prod.mk.inj hboth
  refine ⟨listedRun_usesBuiltin _, by decide, p, hp, hname, hpaths, fun hall => ?_⟩
  have hindex : ("my module/search-index.json" : Text) ∈ p.tree.steps.map WriteStep.path := by
    rw [hpaths]
    decide
  obtain ⟨s, hs, hpath⟩ := List.mem_map.mp hindex
  have hfirst := (hall s hs).first
  rw [hpath, hname] at hfirst
  exact absurd hfirst (by decide)

end Generator

end CrossDoc
