import CrossDoc.Proofs.ApartNames
import CrossDoc.Proofs.Production

/-!
# When pages keep their files

Joining names with dots and putting pages into directories never makes two
pages share a path.  What can is `slug`, which maps different names to one,
and a class with the name that the page of its package has.  Apart from these,
every page has a file of its own.
-/

namespace CrossDoc

open Declaration PageTree

/-! ## Names of listings -/

/-- A package is not shown under a name with a hyphen. -/
theorem hyphen_not_mem_displayName {name : Text} (h : IsPackageText name) :
    '-' ∉ packageDisplayName name := by
  unfold packageDisplayName
  split
  · decide
  · next hne =>
    have hchars : Listing.isPackageName name = true := by
      rcases h with rfl | h
      · exact absurd rfl hne
      · exact h
    unfold Listing.isPackageName at hchars
    simp only [Bool.and_eq_true, List.all_eq_true] at hchars
    intro hmem
    exact absurd (hchars.2 '-' hmem) (by decide)

namespace DocModule

/-- The names of a module do not get in each other's way in the output. -/
structure NamesApart (m : DocModule) : Prop where
  /-- Packages are shown under names with different slugs. -/
  packages : (m.packages.map fun d => slug (packageDisplayName d.name)).Nodup
  /-- Classes of one owner have different slugs. -/
  classes : ∀ d ∈ m.packages, ClassesApart d.children
  /-- No class of a package has the name that the page of the package has. -/
  index : ∀ d ∈ m.packages, ∀ n ∈ classesOf d.children, n.name ≠ "index"

/-- The file names beside the directories of packages that a package can
have. -/
def takenNames (config : Config) : List Text :=
  if config.generateIndexPages then ["index.md", "navigation.md", "alltypes.md"]
  else ["index.md", "navigation.md"]

/-- No package has the name of a file that stands beside its directory. -/
def AvoidsFiles (config : Config) (m : DocModule) : Prop :=
  ∀ d ∈ m.packages, d.name ∉ takenNames config

/-- A way down the classes as listings give it. -/
theorem Coherent.chain {m : DocModule} (h : m.Coherent) {d : Declaration} (hd : d ∈ m.packages) :
    ∀ chain ∈ classChains d.children, chain ≠ [] ∧ ∀ t ∈ chain, t ≠ [] ∧ '.' ∉ t := by
  refine names_of_mem_classChains (P := fun t => t ≠ [] ∧ '.' ∉ t) ?_
  intro x hx
  have hmember : ∃ q ∈ m.declarations, x ∈ q.children := by
    rcases mem_flattenAll_cases hx with hx | ⟨q, hq, hx⟩
    · exact ⟨d, mem_flattenAll_self hd, hx⟩
    · exact ⟨q, flattenAll_children_subset hd hq, hx⟩
  obtain ⟨q, hq, hxq⟩ := hmember
  have hlabel := h.members q hq x hxq
  exact ⟨hlabel.named, fun hdot => absurd (hlabel.identifier '.' hdot) (by decide)⟩

end DocModule

namespace PageTree

variable {config : Config} {m : DocModule} {p : FilePlace}

/-! ## Different places -/

theorem directory_of_mem_packagePlaces {d : Declaration} (h : p ∈ packagePlaces d) :
    p.directory = some (slug (packageDisplayName d.name)) := by
  rcases List.mem_cons.mp h with rfl | h
  · rfl
  · obtain ⟨chain, _, rfl⟩ := List.mem_map.mp h
    rfl

theorem slash_not_mem_file (name : Text) : '/' ∉ slug name ++ ".md" := by
  rw [List.mem_append, not_or]
  exact ⟨not_mem_slug (by decide) name, by decide⟩

theorem plain_of_mem_places (h : p ∈ places config m) : p.Plain := by
  rcases List.mem_append.mp h with h | h
  · rcases List.mem_cons.mp h with rfl | h
    · exact FilePlace.plain_of_beside (by decide)
    · obtain ⟨d, _, hp⟩ := List.mem_flatMap.mp h
      constructor
      · intro directory hdirectory
        rw [directory_of_mem_packagePlaces hp] at hdirectory
        exact Option.some.inj hdirectory ▸ not_mem_slug (by decide) _
      · rcases List.mem_cons.mp hp with rfl | hp
        · exact show '/' ∉ "index.md".toList by decide
        · obtain ⟨chain, _, rfl⟩ := List.mem_map.mp hp
          exact slash_not_mem_file _
  · obtain ⟨name, _, rfl⟩ := List.mem_map.mp h
    exact FilePlace.plain_of_beside (slash_not_mem_file name)

/-- Only the pages of packages and classes can get in each other's way. -/
theorem nodup_places_iff :
    (places config m).Nodup ↔ (m.packages.flatMap packagePlaces).Nodup := by
  have hinside : ∀ p ∈ m.packages.flatMap packagePlaces, p.directory ≠ none := by
    intro p hp
    obtain ⟨d, _, hpd⟩ := List.mem_flatMap.mp hp
    rw [directory_of_mem_packagePlaces hpd]
    simp
  have hfixed : (FilePlace.mk none "index.md" :: (listingNames config).map fixedPlace).Nodup := by
    unfold listingNames
    cases config.generateIndexPages <;> decide
  rw [List.nodup_cons] at hfixed
  rw [places, List.nodup_append, List.nodup_cons]
  constructor
  · exact fun h => h.1.2
  · -- Pages of packages and classes have a directory, and the others have none.
    intro h
    refine ⟨⟨fun hmem => hinside _ hmem rfl, h⟩, hfixed.2, ?_⟩
    rintro a ha b hb rfl
    rcases List.mem_cons.mp ha with rfl | ha
    · exact hfixed.1 hb
    · obtain ⟨name, _, rfl⟩ := List.mem_map.mp hb
      exact hinside _ ha rfl

theorem classPlace_inj {package : Text} {a b : List Text}
    (ha : a ≠ [] ∧ ∀ t ∈ a, t ≠ [] ∧ '.' ∉ t) (hb : b ≠ [] ∧ ∀ t ∈ b, t ≠ [] ∧ '.' ∉ t) :
    classPlace package a = classPlace package b ↔ a.map slug = b.map slug := by
  rw [← slug_join_inj ha hb, classPlace, classPlace, FilePlace.mk.injEq]
  simp

/-- The page of a class takes the place of that of its package only for a class
named as that. -/
theorem packagePlace_eq_classPlace {package : Text} {chain : List Text}
    (h : chain ≠ [] ∧ ∀ t ∈ chain, t ≠ [] ∧ '.' ∉ t) :
    packagePlace package = classPlace package chain ↔ chain = ["index".toList] := by
  constructor
  · intro heq
    have hfile : "index".toList ++ ".md".toList = slug (Text.join "." chain) ++ ".md".toList :=
      congrArg FilePlace.file heq
    have hslug := (List.append_cancel_right hfile).symm
    have hjoin := eq_of_slug_eq hslug (by decide)
    have hsplit : Text.splitAt '.' (Text.join "." chain) = chain :=
      Text.splitAt_join h.1 fun t ht => (h.2 t ht).2
    rw [hjoin] at hsplit
    exact hsplit.symm.trans (by decide)
  · rintro rfl
    rfl

/-- The pages of a package stand apart when its classes do, and none of them
has the name of the page of the package. -/
theorem nodup_packagePlaces_iff (h : m.Coherent) {d : Declaration} (hd : d ∈ m.packages) :
    (packagePlaces d).Nodup ↔
      ClassesApart d.children ∧ ∀ n ∈ classesOf d.children, n.name ≠ "index" := by
  have hchain := h.chain hd
  rw [packagePlaces, List.nodup_cons, and_comm, classesApart_iff, slugChains]
  refine and_congr ?_ ?_
  · exact nodup_map_congr fun a ha b hb => classPlace_inj (hchain a ha) (hchain b hb)
  · constructor
    · intro hnot n hn hname
      apply hnot
      have hsingle := singleton_mem_classChains.mpr ⟨n, hn, hname⟩
      exact List.mem_map.mpr
        ⟨_, hsingle, ((packagePlace_eq_classPlace (hchain _ hsingle)).mpr rfl).symm⟩
    · intro hall hmem
      obtain ⟨chain, hmemChain, heq⟩ := List.mem_map.mp hmem
      obtain rfl := (packagePlace_eq_classPlace (hchain chain hmemChain)).mp heq.symm
      obtain ⟨n, hn, hname⟩ := singleton_mem_classChains.mp hmemChain
      exact hall n hn hname

theorem nodup_places_iff_namesApart (h : m.Coherent) :
    (places config m).Nodup ↔ m.NamesApart := by
  rw [nodup_places_iff,
    nodup_flatMap_keyed packagePlaces fun d => slug (packageDisplayName d.name)]
  · constructor
    · rintro ⟨hplaces, hpackages⟩
      have hapart := fun d hd => (nodup_packagePlaces_iff h hd).mp (hplaces d hd)
      exact ⟨hpackages, fun d hd => (hapart d hd).1, fun d hd => (hapart d hd).2⟩
    · rintro ⟨hpackages, hclasses, hindex⟩
      exact ⟨fun d hd => (nodup_packagePlaces_iff h hd).mpr ⟨hclasses d hd, hindex d hd⟩,
        hpackages⟩
  · intro a b hab
    refine ⟨packagePlace (packageDisplayName a.name), by simp [packagePlaces], ?_⟩
    simp [packagePlaces, packagePlace, hab]
  · intro a b x hxa hxb
    have hdirectory :=
      (directory_of_mem_packagePlaces hxa).symm.trans (directory_of_mem_packagePlaces hxb)
    exact Option.some.inj hdirectory

/-! ## The search index -/

/-- The path of a place and the one of the search index go the same way only
if what follows the directories does. -/
theorem tail_of_searchPath {n x y z : Text}
    (h : (slug n ++ '/' :: x) ++ z = n ++ '/' :: y) : x ++ z = y := by
  by_cases hn : n = []
  · subst hn
    exact absurd (List.cons.inj h).1 (by decide)
  · -- Slugs are as long as names, so both start with a name of one length.
    rw [List.append_assoc] at h
    exact (List.cons.inj (List.append_inj h (length_slug hn)).2).2

theorem searchPath_tail {n x y z : Text}
    (h : (n ++ '/' :: x) ++ z = slug n ++ '/' :: y) : x ++ z = y := by
  by_cases hn : n = []
  · subst hn
    exact absurd (List.cons.inj h).1 (by decide)
  · rw [List.append_assoc] at h
    exact (List.cons.inj (List.append_inj h (length_slug hn).symm).2).2

theorem searchPath_eq (m : DocModule) : searchPath m = m.name ++ '/' :: searchIndexName := by
  rw [searchPath, List.append_assoc]
  rfl

/-! ## Files beside the directories -/

theorem file_fixedPlace {name : Text} (h : name ∈ listingNames config) :
    (fixedPlace name).file ∈ DocModule.takenNames config ∨
      (fixedPlace name).file = "alphabetical-index.md" := by
  revert name
  unfold listingNames DocModule.takenNames
  cases config.generateIndexPages <;> decide

theorem file_of_directory_none (hp : p ∈ places config m) (hnone : p.directory = none) :
    p.file ∈ DocModule.takenNames config ∨ p.file = "alphabetical-index.md" := by
  rcases List.mem_append.mp hp with hp | hp
  · rcases List.mem_cons.mp hp with rfl | hp
    · left
      unfold DocModule.takenNames
      cases config.generateIndexPages <;> decide
    · obtain ⟨d, _, hpd⟩ := List.mem_flatMap.mp hp
      rw [directory_of_mem_packagePlaces hpd] at hnone
      cases hnone
  · obtain ⟨name, hname, rfl⟩ := List.mem_map.mp hp
    exact file_fixedPlace hname

/-- A taken name is that of a listing, and a package can be shown under it. -/
theorem mem_takenNames {name : Text} (h : name ∈ DocModule.takenNames config) :
    ('_' ∉ name ∧ name ≠ searchIndexName) ∧
      (slug name = name ∧ packageDisplayName name = name) ∧
        (name = "index.md" ∨ ⟨none, name⟩ ∈ (listingNames config).map fixedPlace) := by
  revert name
  unfold listingNames DocModule.takenNames
  cases config.generateIndexPages <;> decide

theorem tail_ne_searchIndexName (h : p ∈ places config m) : p.tail ≠ searchIndexName := by
  obtain ⟨_ | directory, file⟩ := p
  · rcases file_of_directory_none h rfl with hfile | hfile
    · exact (mem_takenNames hfile).1.2
    · obtain rfl : file = "alphabetical-index.md".toList := hfile
      decide
  · intro heq
    have hslash : '/' ∈ searchIndexName := heq ▸ by simp [FilePlace.tail]
    exact absurd hslash (by decide)

theorem searchPath_not_mem :
    searchPath m ∉ (places config m).map (FilePlace.toPath (slug m.name)) := by
  intro hmem
  obtain ⟨p, hp, heq⟩ := List.mem_map.mp hmem
  rw [FilePlace.toPath_eq, searchPath_eq] at heq
  have htail := tail_of_searchPath ((List.append_nil _).trans heq)
  exact tail_ne_searchIndexName hp ((List.append_nil _).symm.trans htail)

/-- **Paths differ exactly when names stay apart.** -/
theorem nodup_paths_iff (h : m.Coherent) :
    (finished config m).value.paths.Nodup ↔ m.NamesApart := by
  have hplaces : ((places config m).map (FilePlace.toPath (slug m.name))).Nodup ↔
      ((places config m).map fun p => p).Nodup :=
    nodup_map_congr fun a ha b hb =>
      FilePlace.toPath_inj _ (plain_of_mem_places ha) (plain_of_mem_places hb)
  rw [paths_finished, List.nodup_append, hplaces, List.map_id', nodup_places_iff_namesApart h]
  refine and_iff_left ⟨List.nodup_singleton _, ?_⟩
  rintro a ha b hb rfl
  rw [List.mem_singleton] at hb
  exact searchPath_not_mem (hb ▸ ha)

/-! ## Files and directories -/

/-- Only the root package is shown under a name whose slug has underscores that
are not its own. -/
theorem name_of_slug_displayName {name w : Text} (h : slug (packageDisplayName name) = w)
    (hw : '_' ∉ w) : name = w := by
  unfold packageDisplayName at h
  split at h
  · exact absurd (h ▸ by decide) hw
  · exact eq_of_slug_eq h hw

/-- The directories are those of packages. -/
theorem exists_package_of_directory {directory : Text} (hp : p ∈ places config m)
    (hsome : p.directory = some directory) :
    ∃ d ∈ m.packages, slug (packageDisplayName d.name) = directory := by
  rcases List.mem_append.mp hp with hp | hp
  · rcases List.mem_cons.mp hp with rfl | hp
    · cases hsome
    · obtain ⟨d, hd, hpd⟩ := List.mem_flatMap.mp hp
      rw [directory_of_mem_packagePlaces hpd] at hsome
      exact ⟨d, hd, Option.some.inj hsome⟩
  · obtain ⟨name, _, rfl⟩ := List.mem_map.mp hp
    cases hsome

/-- A file stands above others when a package has taken its name. -/
theorem exists_taken_of_isAbove (h : m.Coherent) {q : FilePlace} (hp : p ∈ places config m)
    (hq : q ∈ places config m)
    (habove : Path.IsAbove (p.toPath (slug m.name)) (q.toPath (slug m.name))) :
    ∃ d ∈ m.packages, d.name ∈ DocModule.takenNames config := by
  rw [FilePlace.isAbove_iff _ (plain_of_mem_places hp) (plain_of_mem_places hq)] at habove
  obtain ⟨hnone, hsome⟩ := habove
  obtain ⟨d, hd, hslug⟩ := exists_package_of_directory hq hsome
  rcases file_of_directory_none hp hnone with hfile | hfile
  · have hname := name_of_slug_displayName hslug (mem_takenNames hfile).1.1
    exact ⟨d, hd, hname ▸ hfile⟩
  · have hname := eq_of_slug_eq (hslug.trans hfile) (by decide)
    have hhyphen := hyphen_not_mem_displayName (h.packages d hd).text
    rw [show packageDisplayName d.label.name = _ from hname] at hhyphen
    exact absurd (by decide) hhyphen

/-- The search index stands above nothing and below nothing. -/
theorem not_isAbove_searchPath : ¬ Path.IsAbove (searchPath m) (searchPath m) := by
  intro habove
  have hlength := habove.length_le
  rw [List.length_append, List.length_singleton] at hlength
  omega

theorem not_isAbove_place_searchPath (p : FilePlace) :
    ¬ Path.IsAbove (p.toPath (slug m.name)) (searchPath m) := by
  rintro ⟨z, hz⟩
  rw [FilePlace.toPath_eq, searchPath_eq, List.append_assoc] at hz
  have hslash : '/' ∈ searchIndexName := tail_of_searchPath hz ▸ by simp [Path.slash]
  exact absurd hslash (by decide)

theorem not_isAbove_searchPath_place (h : m.Coherent) (hp : p ∈ places config m) :
    ¬ Path.IsAbove (searchPath m) (p.toPath (slug m.name)) := by
  rintro ⟨z, hz⟩
  rw [FilePlace.toPath_eq, searchPath_eq, List.append_assoc] at hz
  have htail : searchIndexName ++ '/' :: z = p.tail := searchPath_tail hz
  have hplain := plain_of_mem_places hp
  obtain ⟨_ | directory, file⟩ := p
  · have hfile : searchIndexName ++ '/' :: z = file := htail
    have hslash : '/' ∈ file := hfile ▸ by simp
    exact hplain.file hslash
  · have hsplit := (Text.append_slash_inj (by decide) (hplain.directory directory rfl)).mp htail
    obtain ⟨d, hd, hslug⟩ := exists_package_of_directory hp rfl
    have hhyphen := not_mem_slug_of_not_mem (by decide)
      (hyphen_not_mem_displayName (h.packages d hd).text)
    rw [show slug (packageDisplayName d.label.name) = _ from hslug, ← hsplit.1] at hhyphen
    exact absurd (by decide) hhyphen

/-- A package with a taken name has its directory below a file. -/
theorem exists_isAbove_of_taken {d : Declaration} (hd : d ∈ m.packages)
    (hname : d.name ∈ DocModule.takenNames config) :
    ∃ p ∈ places config m, ∃ q ∈ places config m,
      Path.IsAbove (p.toPath (slug m.name)) (q.toPath (slug m.name)) := by
  obtain ⟨_, ⟨hslug, hdisplay⟩, hplace⟩ := mem_takenNames hname
  have hp : FilePlace.mk none d.name ∈ places config m := by
    rcases hplace with hindex | hplace
    · exact List.mem_append_left _ (hindex ▸ List.mem_cons_self)
    · exact List.mem_append_right _ hplace
  have hq : packagePlace (packageDisplayName d.name) ∈ places config m :=
    List.mem_append_left _ (List.mem_cons_of_mem _
      (List.mem_flatMap.mpr ⟨d, hd, List.mem_cons_self⟩))
  refine ⟨_, hp, _, hq, ?_⟩
  rw [FilePlace.isAbove_iff _ (plain_of_mem_places hp) (plain_of_mem_places hq)]
  exact ⟨rfl, congrArg some ((congrArg slug hdisplay).trans hslug)⟩

/-- **No path leads below another exactly when no package takes the name of a
file beside its directory.** -/
theorem not_isAbove_iff (h : m.Coherent) :
    (∀ p ∈ (finished config m).value.paths, ∀ q ∈ (finished config m).value.paths,
      ¬ Path.IsAbove p q) ↔ m.AvoidsFiles config := by
  rw [paths_finished]
  constructor
  · intro hnone d hd hname
    obtain ⟨p, hp, q, hq, habove⟩ := exists_isAbove_of_taken hd hname
    exact hnone _ (List.mem_append_left _ (List.mem_map_of_mem hp)) _
      (List.mem_append_left _ (List.mem_map_of_mem hq)) habove
  · intro havoids p hp q hq habove
    rcases List.mem_append.mp hp with hp | hp
    · obtain ⟨a, ha, rfl⟩ := List.mem_map.mp hp
      rcases List.mem_append.mp hq with hq | hq
      · obtain ⟨b, hb, rfl⟩ := List.mem_map.mp hq
        obtain ⟨d, hd, hname⟩ := exists_taken_of_isAbove h ha hb habove
        exact havoids d hd hname
      · exact not_isAbove_place_searchPath a (List.mem_singleton.mp hq ▸ habove)
    · obtain rfl := List.mem_singleton.mp hp
      rcases List.mem_append.mp hq with hq | hq
      · obtain ⟨b, hb, rfl⟩ := List.mem_map.mp hq
        exact not_isAbove_searchPath_place h hb habove
      · exact not_isAbove_searchPath (List.mem_singleton.mp hq ▸ habove)

/-! ## Every page has a file -/

mutual

theorem isWritten_classPage (above : List Text) : ∀ (d : Declaration),
    ∀ e ∈ Page.walk above d.classPage, e.1.IsWritten
  | ⟨_, name, _, _, _, children⟩, e, he => by
      rw [classPage, Page.walk] at he
      rcases List.mem_cons.mp he with rfl | he
      · intro h
        cases h
      · exact isWritten_classPages (above ++ [name]) children e he

theorem isWritten_classPages (above : List Text) : ∀ (ds : List Declaration),
    ∀ e ∈ Page.walkAll above (classPages ds), e.1.IsWritten
  | [], _, he => nomatch he
  | d :: rest, e, he => by
      rw [classPages] at he
      split at he
      · rw [Page.walkAll] at he
        rcases List.mem_append.mp he with he | he
        · exact isWritten_classPage above d e he
        · exact isWritten_classPages above rest e he
      · exact isWritten_classPages above rest e he

end

theorem allWritten_ofModule (m : DocModule) : (ofModule m).AllWritten := by
  intro e he
  unfold walk ofModule at he
  dsimp only at he
  generalize m.packages = ds at he
  induction ds with
  | nil => cases he
  | cons d rest ih =>
      rw [List.map_cons, Page.walkAll] at he
      rcases List.mem_append.mp he with he | he
      · rw [packagePage, Page.walk] at he
        rcases List.mem_cons.mp he with rfl | he
        · intro h
          cases h
        · exact isWritten_classPages _ d.children e he
      · exact ih he

theorem isWritten_ofLinks (name : Text) (t : PageTree) (content : Content) :
    (Page.ofLinks name t content).IsWritten := by
  intro h
  cases h

theorem isWritten_newPages (t : PageTree) : ∀ (p : PageTransform), ∀ q ∈ p.newPages t, q.IsWritten
  | .navigation, q, hq => by
      obtain rfl := List.mem_singleton.mp hq
      exact isWritten_ofLinks _ t _
  | .indexPages, q, hq => by
      rcases List.mem_pair.mp hq with rfl | rfl
      · exact isWritten_ofLinks _ t _
      · exact isWritten_ofLinks _ t _
  | .searchIndex, q, hq => by
      obtain rfl := List.mem_singleton.mp hq
      exact fun _ => rfl

theorem allWritten_apply {t : PageTree} (h : t.AllWritten) (p : PageTransform) :
    (p.apply t).value.AllWritten := by
  rw [value_apply]
  intro e he
  unfold walk at he
  rw [walkAll_append, walkAll_leaves (newPages_leaves t p)] at he
  rcases List.mem_append.mp he with he | he
  · exact h e he
  · obtain ⟨q, hq, rfl⟩ := List.mem_map.mp he
    exact isWritten_newPages t p q hq

theorem allWritten_finished (config : Config) (m : DocModule) :
    (finished config m).value.AllWritten := by
  have hall : ∀ (ps : List PageTransform) (t : PageTree), t.AllWritten →
      (ps.foldlM (fun t p => p.apply t) t : Traced PageTree).value.AllWritten := by
    intro ps
    induction ps with
    | nil => exact fun t ht => ht
    | cons p rest ih => exact fun t ht => ih _ (allWritten_apply ht p)
  exact hall _ _ (allWritten_ofModule m)

end PageTree

namespace RunContext

/-- **When pages keep their files.**  Over listings, the paths of a run differ
exactly when names stay apart, and no file is in the way of a directory exactly
when no package takes the name of one.  As many files are left as pages were
written exactly when names stay apart, and then each is that of its page. -/
theorem outputPaths_iff (c : RunContext) (hc : c.OfListings) {m : DocModule} (hm : c.Produces m)
    {t : PageTree} (ht : (PageTree.finished c.config m).value = t) :
    (t.paths.Nodup ↔ m.NamesApart) ∧
      ((∀ p ∈ t.paths, ∀ q ∈ t.paths, ¬ Path.IsAbove p q) ↔ m.AvoidsFiles c.config) ∧
      ∀ disk, ∃ memory,
        (MemoryFiles.writer.writeTree t ⟨disk, []⟩).value = (.ok t.paths.length, memory) ∧
          (memory.files.length = t.paths.length ↔ m.NamesApart) ∧
          (m.NamesApart → ∀ f ∈ t.files, memory.find? f.1 = some f.2) := by
  subst ht
  have hcoherent := hm.coherent hc
  have hnodup : (PageTree.finished c.config m).value.paths.Nodup ↔ m.NamesApart :=
    nodup_paths_iff hcoherent
  refine ⟨hnodup, not_isAbove_iff hcoherent, fun disk => ?_⟩
  refine ⟨_, writeTree_memory (allWritten_finished c.config m) disk, ?_, ?_⟩
  · rw [MemoryFiles.length_files_putAll, map_fst_files, ← hnodup]
    constructor
    · intro hlength
      rw [← (List.dedup_sublist _).eq_of_length hlength]
      exact List.nodup_dedup _
    · intro h
      rw [h.dedup]
  · intro hapart f hf
    refine MemoryFiles.find?_putAll_of_mem ?_ hf
    rw [map_fst_files]
    exact hnodup.mpr hapart

/-- Names stand apart in the two views, so each of the six pages has a file. -/
theorem outputPaths_iff_twoViewsRun :
    twoViewsRun.OfListings ∧ twoViewsRun.Produces twoViewsModule ∧ twoViewsModule.NamesApart ∧
      ∃ memory,
        (MemoryFiles.writer.writeTree (PageTree.finished twoViewsRun.config twoViewsModule).value
          ⟨{}, []⟩).value = (.ok 6, memory) ∧ memory.files.length = 6 := by
  obtain ⟨hnodup, _, hfiles⟩ :=
    outputPaths_iff twoViewsRun overListings_ofListings produces_twoViewsModule rfl
  have hapart : twoViewsModule.NamesApart := hnodup.mp (by decide +kernel)
  obtain ⟨memory, hwrite, hlength, _⟩ := hfiles {}
  have hpaths :
      (PageTree.finished twoViewsRun.config twoViewsModule).value.paths.length = 6 := by
    decide +kernel
  rw [hpaths] at hwrite hlength
  exact ⟨overListings_ofListings, produces_twoViewsModule, hapart, memory, hwrite,
    hlength.mpr hapart⟩

/-- A pass over two classes whose names have one slug. -/
def oneSlugRun : RunContext := overListings [(.jvm, "package p\nclass A$B\nclass A_B\n")]

def oneSlugModule : DocModule := oneSlugRun.symbolModules.headD default

/-- Six pages are written, and the page of `A_B` replaces that of `A$B`. -/
theorem oneSlugRun_overwrites : oneSlugRun.OfListings ∧ oneSlugRun.Produces oneSlugModule ∧
    ¬ (PageTree.finished oneSlugRun.config oneSlugModule).value.paths.Nodup ∧
      ∃ memory,
        (MemoryFiles.writer.writeTree (PageTree.finished oneSlugRun.config oneSlugModule).value
          ⟨{}, []⟩).value = (.ok 6, memory) ∧ memory.files.length = 5 := by
  have hproduced : oneSlugRun.Produces oneSlugModule :=
    produces_symbolModules _ List.mem_cons_self
  have hwrite := PageTree.writeTree_memory
    (PageTree.allWritten_finished oneSlugRun.config oneSlugModule) {}
  have hpaths :
      (PageTree.finished oneSlugRun.config oneSlugModule).value.paths.length = 6 := by
    decide +kernel
  rw [hpaths] at hwrite
  have hfiles : (MemoryFiles.putAll ⟨{}, []⟩
      (PageTree.finished oneSlugRun.config oneSlugModule).value.files).files.length = 5 := by
    rw [MemoryFiles.length_files_putAll, PageTree.map_fst_files]
    decide +kernel
  exact ⟨overListings_ofListings, hproduced, by decide +kernel, _, hwrite, hfiles⟩

end RunContext

end CrossDoc
