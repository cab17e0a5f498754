import CrossDoc.Proofs.DirectoryPages
import CrossDoc.Proofs.LinkResolution
import CrossDoc.Proofs.TableLines

/-!
# The navigation page as text

The navigation page nests a list for the pages below a page in the item of that page.
Written out, the items of all these lists are one list of lines: those of the pages in
depth-first order, each indented by how many pages it is below.
-/

namespace CrossDoc

namespace Markdown

variable {base : LinkBase}

/-! ## Lists -/

theorem joinNonempty_singleton (sep t : Text) : Text.joinNonempty sep [t] = t := by
  cases t <;> rfl

theorem listItems_nil (depth : Nat) : listItems base depth [] = [] := by
  rw [listItems]

theorem listItems_cons (depth : Nat) (c : Content) (rest : List Content) :
    listItems base depth (c :: rest) =
      List.replicate (depth * 2) ' ' ++ "- " ++ itemText base c.children ++ "\n" ++
        (lastList base (depth + 1) c.children).getD [] ++ listItems base depth rest := by
  cases c
  rw [listItems]

theorem listItems_append (depth : Nat) (cs ds : List Content) :
    listItems base depth (cs ++ ds) = listItems base depth cs ++ listItems base depth ds := by
  induction cs with
  | nil => rw [List.nil_append, listItems_nil, List.nil_append]
  | cons c rest ih =>
      rw [List.cons_append, listItems_cons, listItems_cons, ih, ← List.append_assoc]

theorem lastList_cons_of_not_list {c : Content} (h : isList c = false) (depth : Nat)
    (rest : List Content) : lastList base depth (c :: rest) = lastList base depth rest := by
  obtain ⟨kind, text, level, target, url, style, platforms, children⟩ := c
  have hlist : ¬ (kind = .group ∧ style = "list") := by simpa [isList] using h
  rw [lastList]
  cases lastList base depth rest with
  | some later => rfl
  | none => exact if_neg hlist

theorem lastList_list (depth : Nat) (cs : List Content) :
    lastList base depth [.group cs "list"] = some (listItems base depth cs) := by
  rw [Content.group, lastList, lastList]
  rfl

/-- The list of what is below, which is left out when nothing is. -/
def nestedList (below : List Content) : List Content :=
  if below.isEmpty then [] else [.group below "list"]

/-- An item is a link and, below it, what is in its nested list. -/
theorem listItems_item (depth : Nat) (text : Text) (id : DeclId) (below : List Content) :
    listItems base depth [.group (.linkTo text id :: nestedList below) "item"] =
      List.replicate (depth * 2) ' ' ++ "- " ++ link base text (some id) [] ++ "\n" ++
        listItems base (depth + 1) below := by
  have hlink : inlineText base (.linkTo text id) = link base text (some id) [] := by
    rw [Content.linkTo, inlineText]
  have hitem : itemText base (.linkTo text id :: nestedList below) =
      link base text (some id) [] := by
    have hparts : (Content.linkTo text id :: nestedList below).filter (fun c => !isList c) =
        [.linkTo text id] := by
      unfold nestedList
      split <;> rfl
    rw [itemText, hparts, inlineTexts, inlineTexts, hlink, joinNonempty_singleton]
  have hnested : (lastList base (depth + 1) (.linkTo text id :: nestedList below)).getD [] =
      listItems base (depth + 1) below := by
    rw [lastList_cons_of_not_list rfl, nestedList]
    split
    · next hempty =>
      rw [List.isEmpty_iff.mp hempty, lastList, listItems_nil]
      rfl
    · rw [lastList_list]
      rfl
  rw [listItems_cons, listItems_nil, List.append_nil, Content.group]
  dsimp only
  rw [hitem, hnested]

end Markdown

/-! ## The list of pages -/

open Markdown

/-- The line of a page in a list on the page at a path: a link to where the page is written. -/
def PageTree.navigationLine (t : PageTree) (path : Text) (e : Page × List Text) : Text :=
  List.replicate (2 * e.2.length) ' ' ++ "- [" ++ singleLine e.1.name ++ "](" ++
    relativeLink path (t.pagePath e.1 e.2) ++ ")"

namespace Page

/-- The page documents one declaration, and links to this lead to where the page is written. -/
structure IsFound (t : PageTree) (e : Page × List Text) : Prop where
  documentsOne : e.1.DocumentsOne
  resolved : t.resolve? e.1.mainId = some (t.pagePath e.1 e.2)

variable {t : PageTree} {path : Text}

/-- The line of a page and the lines of what is below. -/
theorem listItems_page {id : DeclId} {name : Text} {address : Text}
    (h : t.resolve? id = some address) (depth : Nat) (below : List Content) :
    listItems ⟨t, path⟩ depth [.group (.linkTo name id :: nestedList below) "item"] =
      List.replicate (2 * depth) ' ' ++ "- [" ++ singleLine name ++ "](" ++
        relativeLink path address ++ ")" ++ ['\n'] ++ listItems ⟨t, path⟩ (depth + 1) below := by
  have hlink : link ⟨t, path⟩ name (some id) [] =
      "[" ++ singleLine name ++ "](" ++ relativeLink path address ++ ")" := by
    rw [link_eq, address?, if_neg (by simp), Option.bind_some, h]
    rfl
  rw [listItems_item, hlink, Nat.mul_comm depth 2]
  simp

mutual

theorem listItems_navigationItem (above : List Text) : ∀ p : Page,
    (∀ e ∈ p.walk above, IsFound t e) →
      listItems ⟨t, path⟩ above.length p.navigationItem =
        (p.walk above).flatMap fun e => t.navigationLine path e ++ ['\n']
  | ⟨kind, name, ids, platforms, content, children, targetPath, strategy⟩, h => by
      rw [walk] at h ⊢
      obtain ⟨⟨⟨hkind, hids⟩, hresolved⟩, hbelow⟩ := List.forall_mem_cons.mp h
      obtain rfl : kind = .content := hkind
      obtain ⟨id, rfl⟩ : ∃ id, ids = [id] := ⟨_, hids⟩
      -- The nested list is one level deeper, as the pages below are below one page more.
      have ih := listItems_navigationItems (above ++ [name]) children hbelow
      rw [List.length_append, List.length_singleton] at ih
      rw [navigationItem]
      exact (listItems_page hresolved above.length (navigationItems children)).trans
        (congrArg _ ih)

theorem listItems_navigationItems (above : List Text) : ∀ ps : List Page,
    (∀ e ∈ walkAll above ps, IsFound t e) →
      listItems ⟨t, path⟩ above.length (navigationItems ps) =
        (walkAll above ps).flatMap fun e => t.navigationLine path e ++ ['\n']
  | [], _ => listItems_nil _
  | p :: rest, h => by
      rw [walkAll] at h ⊢
      obtain ⟨hp, hrest⟩ := List.forall_mem_append.mp h
      rw [navigationItems, listItems_append, List.flatMap_append,
        listItems_navigationItem above p hp, listItems_navigationItems above rest hrest]

end

end Page

namespace PageTree

open Page

/-- The links of the navigation page are on one line each. -/
theorem lineFeed_not_mem_navigationLine (t : PageTree) (path : Text) {e : Page × List Text}
    (h : e.1.kind ≠ .rendererSpecific) : '\n' ∉ t.navigationLine path e := by
  have hname := lineFeed_not_mem_singleLine e.1.name
  have haddress : '\n' ∉ relativeLink path (t.pagePath e.1 e.2) := by
    intro hfeed
    rcases mem_of_mem_relativeLink hfeed with hslash | hdot | hpath
    · exact absurd hslash (by decide)
    · exact absurd hdot (by decide)
    · exact not_mem_pagePath (by decide) (by decide) t h e.2 hpath
  simp [navigationLine, hname, haddress]

/-- Where every page of a tree is found, its navigation page shows them all. -/
theorem toMarkdown_navigationPage {t created : PageTree} (h : ∀ e ∈ created.walk, IsFound t e)
    (path : Text) :
    created.navigationPage.content.toMarkdown t path =
      "# " ++ created.name ++ "\n\n" ++
        (created.walk.map (t.navigationLine path)).flatMap (· ++ ['\n']) ++ "\n" := by
  have hitems : listItems ⟨t, path⟩ 0 (navigationItems created.children) =
      (created.walk.map (t.navigationLine path)).flatMap (· ++ ['\n']) := by
    rw [List.flatMap_map]
    exact listItems_navigationItems [] created.children h
  have hheader : block ⟨t, path⟩ (.header 1 created.name) = "# " ++ created.name ++ "\n\n" := by
    rw [Content.header, block]
    rfl
  have hlist : block ⟨t, path⟩ (.group (navigationItems created.children) "list") =
      listItems ⟨t, path⟩ 0 (navigationItems created.children) ++ "\n" := by
    rw [Content.group, block]
    exact if_pos rfl
  have hpage : created.navigationPage.content.toMarkdown t path =
      block ⟨t, path⟩ (.header 1 created.name) ++
        (block ⟨t, path⟩ (.group (navigationItems created.children) "list") ++ []) := by
    rw [navigationPage, ofLinks, Content.toMarkdown, Content.group, block, if_neg (by decide),
      blocks, blocks, blocks]
  rw [hpage, hheader, hlist, hitems, List.append_nil, ← List.append_assoc]

/-! ## The tree of a module -/

variable {m : DocModule} (ps : List PageTransform)

theorem value_extended (m : DocModule) :
    (extended ps m).value =
      { ofModule m with
        children := (ofModule m).children ++ ps.flatMap fun p => p.newPages (ofModule m) } := by
  rw [extended, Traced.value_bind]
  exact value_foldlM ps (ofModule m)

/-- The pages of the module come first, and then the pages that are appended. -/
theorem walk_extended (m : DocModule) :
    (extended ps m).value.walk =
      (ofModule m).walk ++ (ps.flatMap fun p => p.newPages (ofModule m)).map fun p => (p, []) := by
  have hleaves : ∀ q ∈ ps.flatMap (fun p => p.newPages (ofModule m)), q.children = [] := by
    intro q hq
    obtain ⟨p, -, hq⟩ := List.mem_flatMap.mp hq
    exact newPages_leaves (ofModule m) p q hq
  rw [value_extended, walk, walkAll_append, walkAll_leaves hleaves]
  rfl

theorem isFound_extended (hdistinct : (m.declarations.map (·.id)).Nodup) :
    ∀ e ∈ (ofModule m).walk, IsFound (extended ps m).value e := by
  intro e he
  have hdocuments := documentsOne_ofModule m e he
  have hnodup : (extended ps m).value.documentedIds.Nodup := by
    rw [documentedIds_extended]
    exact hdistinct.sublist (sublist_documentedIds_ofModule m)
  -- The pages that are appended document nothing, so none of them comes between.
  have hpage : (extended ps m).value.HasPage e.1.mainId
      ((extended ps m).value.pagePath e.1 e.2) := by
    refine ⟨e.1, List.mem_map.mpr ⟨e, ?_, rfl⟩, ?_⟩
    · rw [walk_extended]
      exact List.mem_append_left _ he
    · rw [hdocuments.2]
      exact List.mem_singleton_self _
  exact ⟨hdocuments, resolve?_of_hasPage hnodup hpage⟩

/-- **The navigation page shows the page tree.**  Below its title it has a line for each page of
the module, in depth-first order and indented by the number of pages above it, that links to where
this page is written, whichever pages are appended besides. -/
theorem navigationPage_showsPages (ps : List PageTransform) {m : DocModule}
    (hdistinct : (m.declarations.map (·.id)).Nodup) :
    let created := (create m).value
    let t := (extended ps m).value
    let path := t.pagePath created.navigationPage []
    (.navigation ∈ ps → (created.navigationPage, []) ∈ t.walk) ∧
      created.navigationPage.content.toMarkdown t path =
        "# " ++ m.name ++ "\n\n" ++
          (created.walk.map (t.navigationLine path)).flatMap (· ++ ['\n']) ++ "\n" ∧
      ∀ e ∈ created.walk, e ∈ t.walk ∧ '\n' ∉ t.navigationLine path e := by
  refine ⟨fun hnavigation => ?_, ?_, fun e he => ⟨?_, ?_⟩⟩
  · rw [walk_extended]
    refine List.mem_append_right _ (List.mem_map.mpr ⟨_, ?_, rfl⟩)
    exact List.mem_flatMap.mpr ⟨.navigation, hnavigation, List.mem_singleton_self _⟩
  · exact toMarkdown_navigationPage (isFound_extended ps hdistinct) _
  · rw [walk_extended]
    exact List.mem_append_left _ he
  · refine lineFeed_not_mem_navigationLine _ _ ?_
    rw [(documentsOne_ofModule m e he).1]
    exact nofun

theorem navigationPage_showsPages_sampleModel :
    (sampleModel.declarations.map (·.id)).Nodup ∧
      let created := (create sampleModel).value
      let t := (extended [.navigation, .searchIndex] sampleModel).value
      let path := t.pagePath created.navigationPage []
      (created.navigationPage, []) ∈ t.walk ∧
        created.navigationPage.content.toMarkdown t path =
          "# " ++ sampleModel.name ++ "\n\n" ++
            (created.walk.map (t.navigationLine path)).flatMap (· ++ ['\n']) ++ "\n" := by
  have hdistinct : (sampleModel.declarations.map (·.id)).Nodup := by decide
  have hshows := navigationPage_showsPages [.navigation, .searchIndex] hdistinct
  exact ⟨hdistinct, hshows.1 List.mem_cons_self, hshows.2.1⟩

example :
    (create sampleModel).value.walk.map
        ((create sampleModel).value.navigationLine "m/navigation.md") =
      (["- [a](a/index.md)", "  - [Outer](a/Outer.md)", "    - [Inner](a/Outer.Inner.md)"] :
        List Text) := by
  decide

end PageTree

end CrossDoc
