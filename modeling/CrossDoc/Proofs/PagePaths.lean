import CrossDoc.Page.Creation
import CrossDoc.Plugin.Builtin
import CrossDoc.Proofs.PathNames
import CrossDoc.Proofs.Writing

/-!
# Paths of the pages of a module

The pages of a module stand at places that its names tell: one for every
package, one for every way down the classes of a package, and some with fixed
names.  The search index is the only page that is not below the directory of
the module as the others are, but where the name of the module leads.
-/

namespace CrossDoc

/-! ## Ways down the classes -/

namespace Declaration

mutual

/-- The names on the ways from a class to the classes in it, depth first. -/
def classChain : Declaration → List (List Text)
  | ⟨_, name, _, _, _, children⟩ => [name] :: (classChains children).map (name :: ·)

/-- The names on the ways down the classes among siblings. -/
def classChains : List Declaration → List (List Text)
  | [] => []
  | d :: rest =>
      if d.kind.isClasslike then d.classChain ++ classChains rest else classChains rest

end

/-- The classes among siblings. -/
def classesOf (ds : List Declaration) : List Declaration := ds.filter (·.kind.isClasslike)

theorem classChain_eq (d : Declaration) :
    d.classChain = [d.name] :: (classChains d.children).map (d.name :: ·) := by
  cases d
  rw [classChain]

theorem classChains_eq (ds : List Declaration) :
    classChains ds = (classesOf ds).flatMap classChain := by
  induction ds with
  | nil => rfl
  | cons d rest ih =>
      rw [classChains, ih]
      unfold classesOf
      rw [List.filter_cons]
      split
      · rw [List.flatMap_cons]
      · rfl

end Declaration

namespace PageTree

open Declaration

/-- The place of the page that stands at the end of a way down a package. -/
def classPlace (package : Text) (chain : List Text) : FilePlace :=
  ⟨some (slug package), slug (Text.join "." chain) ++ ".md"⟩

def packagePlace (package : Text) : FilePlace := ⟨some (slug package), "index.md"⟩

/-- The place of a page with a fixed name. -/
def fixedPlace (name : Text) : FilePlace := ⟨none, slug name ++ ".md"⟩

mutual

theorem paths_classPage (t : PageTree) (package : Text) : ∀ (inner : List Text) (d : Declaration),
    (Page.walk (package :: inner) d.classPage).map (fun e => t.pagePath e.1 e.2) =
      d.classChain.map fun chain => (classPlace package (inner ++ chain)).toPath t.directory
  | inner, ⟨_, name, _, _, _, children⟩ => by
      have ih := paths_classPages t package (inner ++ [name]) children
      rw [classPage, Page.walk, classChain, List.map_cons, List.map_cons, List.map_map]
      congr 1
      · simp [pagePath, Page.isDocumentation, classPlace, FilePlace.toPath]
      · rw [show package :: inner ++ [name] = package :: (inner ++ [name]) from rfl, ih]
        simp [Function.comp_def]

theorem paths_classPages (t : PageTree) (package : Text) :
    ∀ (inner : List Text) (ds : List Declaration),
      (Page.walkAll (package :: inner) (classPages ds)).map (fun e => t.pagePath e.1 e.2) =
        (classChains ds).map fun chain => (classPlace package (inner ++ chain)).toPath t.directory
  | _, [] => rfl
  | inner, d :: rest => by
      rw [classPages, classChains]
      split
      · rw [Page.walkAll, List.map_append, List.map_append, paths_classPage t package inner d,
          paths_classPages t package inner rest]
      · exact paths_classPages t package inner rest

end

/-- The places of the pages of a package. -/
def packagePlaces (d : Declaration) : List FilePlace :=
  packagePlace (packageDisplayName d.name) ::
    (classChains d.children).map (classPlace (packageDisplayName d.name))

theorem paths_packagePages (t : PageTree) (ds : List Declaration) :
    (Page.walkAll [] (ds.map packagePage)).map (fun e => t.pagePath e.1 e.2) =
      (ds.flatMap packagePlaces).map (FilePlace.toPath t.directory) := by
  induction ds with
  | nil => rfl
  | cons d rest ih =>
      have hclasses := paths_classPages t (packageDisplayName d.name) [] d.children
      rw [List.map_cons, Page.walkAll, List.map_append, ih,
        List.flatMap_cons, List.map_append]
      congr 1
      rw [packagePage, Page.walk, List.map_cons, packagePlaces, List.map_cons, List.map_map]
      rw [List.nil_append, hclasses]
      congr 1
      simp [pagePath, Page.isDocumentation, packagePlace, FilePlace.toPath]

/-! ## The page tree of a run -/

/-- The page tree of a module after the page transforms of a configuration. -/
def finished (config : Config) (m : DocModule) : Traced PageTree := do
  (Plugin.pageTransforms config).foldlM (fun t p => p.apply t) (← PageTree.create m)

/-- The names of the pages that list pages. -/
def listingNames (config : Config) : List Text :=
  if config.generateIndexPages then [navigationName, allTypesName, alphabeticalIndexName]
  else [navigationName]

/-- The places of all pages but the search index. -/
def places (config : Config) (m : DocModule) : List FilePlace :=
  ⟨none, "index.md"⟩ :: m.packages.flatMap packagePlaces ++ (listingNames config).map fixedPlace

def searchPath (m : DocModule) : Text := m.name ++ "/" ++ searchIndexName

theorem walkAll_append (above : List Text) (qs : List Page) : ∀ ps : List Page,
    Page.walkAll above (ps ++ qs) = Page.walkAll above ps ++ Page.walkAll above qs
  | [] => rfl
  | p :: rest => by
      rw [List.cons_append, Page.walkAll, Page.walkAll, walkAll_append above qs rest,
        List.append_assoc]

theorem walkAll_leaves : ∀ {ps : List Page}, (∀ p ∈ ps, p.children = []) →
    Page.walkAll [] ps = ps.map fun p => (p, [])
  | [], _ => rfl
  | ⟨_, _, _, _, _, children, _, _⟩ :: rest, h => by
      obtain rfl : children = [] := h _ List.mem_cons_self
      rw [Page.walkAll, walkAll_leaves fun p hp => h p (List.mem_cons_of_mem _ hp), Page.walk,
        Page.walkAll]
      rfl

/-- A page transform adds pages without pages below them. -/
theorem newPages_leaves (t : PageTree) : ∀ (p : PageTransform), ∀ q ∈ p.newPages t, q.children = []
  | .navigation, q, hq => by
      obtain rfl := List.mem_singleton.mp hq
      rfl
  | .indexPages, q, hq => by
      rcases List.mem_pair.mp hq with rfl | rfl
      · rfl
      · rfl
  | .searchIndex, q, hq => by
      obtain rfl := List.mem_singleton.mp hq
      rfl

/-- The paths of the pages that a page transform adds. -/
def transformPaths (name : Text) : PageTransform → List Text
  | .navigation => [(fixedPlace navigationName).toPath (slug name)]
  | .indexPages => [allTypesName, alphabeticalIndexName].map fun n =>
      (fixedPlace n).toPath (slug name)
  | .searchIndex => [name ++ "/" ++ searchIndexName]

theorem paths_eq (t : PageTree) : t.paths =
    t.rootPath :: (Page.walkAll [] t.children).map fun e => t.pagePath e.1 e.2 := by
  rw [paths, pathed, List.map_map]
  rfl

theorem value_apply (t : PageTree) (p : PageTransform) :
    (p.apply t).value = { t with children := t.children ++ p.newPages t } := by
  cases p <;> rfl

theorem pagePath_ofLinks (t : PageTree) (name : Text) (content : Content) :
    t.pagePath (.ofLinks name t content) [] = (fixedPlace name).toPath (slug t.name) :=
  List.append_assoc (slug t.name ++ ['/']) (slug name) ['.', 'm', 'd']

theorem paths_apply (t : PageTree) (p : PageTransform) :
    (p.apply t).value.paths = t.paths ++ transformPaths t.name p := by
  have hnew : (Page.walkAll [] (p.newPages t)).map (fun e => t.pagePath e.1 e.2) =
      transformPaths t.name p := by
    rw [walkAll_leaves (newPages_leaves t p), List.map_map]
    cases p with
    | navigation =>
        show [t.pagePath t.navigationPage []] = _
        rw [navigationPage, pagePath_ofLinks]
        rfl
    | indexPages =>
        show [t.pagePath t.allTypesPage [], t.pagePath t.alphabeticalIndexPage []] = _
        rw [allTypesPage, alphabeticalIndexPage, pagePath_ofLinks, pagePath_ofLinks]
        rfl
    | searchIndex => rfl
  rw [value_apply, ← hnew, paths_eq, paths_eq, walkAll_append, List.map_append]
  rfl

theorem name_apply (t : PageTree) (p : PageTransform) : (p.apply t).value.name = t.name := by
  rw [value_apply]

theorem paths_foldlM : ∀ (ps : List PageTransform) (t : PageTree),
    (ps.foldlM (fun t p => p.apply t) t : Traced PageTree).value.paths =
      t.paths ++ ps.flatMap (transformPaths t.name)
  | [], t => (List.append_nil _).symm
  | p :: rest, t => by
      rw [List.foldlM_cons, Traced.value_bind, paths_foldlM rest, paths_apply, name_apply,
        List.flatMap_cons, List.append_assoc]

theorem rootPath_eq (t : PageTree) :
    t.rootPath = FilePlace.toPath t.directory ⟨none, "index.md"⟩ := by
  rw [FilePlace.toPath, List.append_assoc]
  rfl

/-- The pages of a run stand at their places, and the search index beside
them. -/
theorem paths_finished (config : Config) (m : DocModule) :
    (finished config m).value.paths =
      (places config m).map (FilePlace.toPath (slug m.name)) ++ [searchPath m] := by
  have hpackages := paths_packagePages (ofModule m) m.packages
  have hlistings : (Plugin.pageTransforms config).flatMap (transformPaths m.name) =
      ((listingNames config).map fixedPlace).map (FilePlace.toPath (slug m.name)) ++
        [searchPath m] := by
    unfold Plugin.pageTransforms listingNames
    cases config.generateIndexPages <;> rfl
  rw [finished, Traced.value_bind, show (create m).value = ofModule m from rfl, paths_foldlM,
    paths_eq, show (ofModule m).children = m.packages.map packagePage from rfl, hpackages,
    rootPath_eq, show (ofModule m).name = m.name from rfl,
    show (ofModule m).directory = slug m.name from rfl, hlistings, places, List.map_append,
    List.map_cons, List.append_assoc]

end PageTree

end CrossDoc
