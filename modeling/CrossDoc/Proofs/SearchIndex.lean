import CrossDoc.Page.Directory
import CrossDoc.Proofs.WrittenJson

/-!
# What the search index says

The search index is written by hand, with separators and whitespace between the
parts.  By the grammar of JSON it stands for exactly one value: an array with
an object for every page that documents a declaration, in depth-first order,
with the texts as they are on the pages.
-/

namespace CrossDoc

/-! ## The index -/

open JsonValue

namespace Page

/-- What the index says about a page under one of its identities. -/
def searchObject (p : Page) (id : DeclId) : JsonValue :=
  .object
    [("name", .string p.name), ("dri", .string id.toText),
      ("platforms", .array (p.platforms.map fun q => .string q.displayName))]

/-- The entry of a page in the index: a page that documents declarations has one
under the first of them. -/
def searchEntry? (p : Page) : Option JsonValue :=
  match p.kind, p.ids with
  | .content, id :: _ => some (p.searchObject id)
  | _, _ => none

theorem isValue_platforms (ps : List Platform) :
    IsValue ('[' :: (Text.join ", " (ps.map fun q => JsonString.quoted q.displayName) ++ [']']))
      (.array (ps.map fun q => .string q.displayName)) := by
  have hitems : List.Forall₂ (Indented IsValue)
      (ps.map fun q => JsonString.quoted q.displayName) (ps.map fun q => .string q.displayName) :=
    List.forall₂_map_left_iff.mpr (List.forall₂_map_right_iff.mpr
      (List.forall₂_same.mpr fun q _ => .of (isValue_quoted q.displayName)))
  have hjoined := IsValue.array (IsEnclosed.join (b := [' ']) (w := []) (by decide) nofun hitems)
  rwa [List.append_nil] at hjoined

/-- The members of the line of a page, as they are written. -/
def searchFields (p : Page) : List Text :=
  [JsonString.quoted "name" ++ ": " ++ JsonString.quoted p.name,
    JsonString.quoted "dri" ++ ": " ++ JsonString.quoted p.mainId.toText,
    JsonString.quoted "platforms" ++ ": " ++
      '[' :: (Text.join ", " (p.platforms.map fun q => JsonString.quoted q.displayName) ++ [']'])]

theorem searchLine_eq (p : Page) : PageTree.searchLine p =
    "\n  " ++ ('\x7b' :: (Text.join ", " p.searchFields ++ ['\x7d'])) := by
  have hname : JsonString.quoted "name" = "\"name\"".toList := by decide
  have hdri : JsonString.quoted "dri" = "\"dri\"".toList := by decide
  have hplatforms : JsonString.quoted "platforms" = "\"platforms\"".toList := by decide
  -- `delta`, since `unfold` would compute the literals to make an equation
  delta PageTree.searchLine
  simp only [searchFields, Text.join, hname, hdri, hplatforms]
  simp

theorem isValue_searchLine (p : Page) :
    Indented IsValue (PageTree.searchLine p) (p.searchObject p.mainId) := by
  have hspace : IsBlank [' '] := by decide
  have hfields : List.Forall₂ (Indented (IsMember IsValue)) p.searchFields
      [("name", .string p.name), ("dri", .string p.mainId.toText),
        ("platforms", .array (p.platforms.map fun q => .string q.displayName))] :=
    .cons (.of (IsMember.quoted "name" hspace (isValue_quoted p.name)))
      (.cons (.of (IsMember.quoted "dri" hspace (isValue_quoted p.mainId.toText)))
        (.cons (.of (IsMember.quoted "platforms" hspace (isValue_platforms p.platforms))) .nil))
  have hjoined := IsValue.object (IsEnclosed.join (b := [' ']) (w := []) (by decide) nofun hfields)
  rw [List.append_nil] at hjoined
  exact ⟨_, _, by decide, hjoined, searchLine_eq p⟩

/-- A page that documents nothing has neither a line nor an entry. -/
theorem searchLines_entries : ∀ ps : List Page,
    List.Forall₂ (fun p e => Indented IsValue (PageTree.searchLine p) e)
      (ps.filter isDocumentation) (ps.filterMap searchEntry?)
  | [] => .nil
  | p :: ps => by
      have hrest := searchLines_entries ps
      rcases hids : p.ids with _ | ⟨id, more⟩
      · simpa [isDocumentation, searchEntry?, hids] using hrest
      by_cases hkind : p.kind = .content
      · have hmain : p.mainId = id := by simp [mainId, hids]
        have hline := isValue_searchLine p
        rw [hmain] at hline
        simpa [isDocumentation, searchEntry?, hids, hkind] using ⟨hline, hrest⟩
      · -- A page of another kind has no entry, whatever it documents.
        have hentry : p.searchEntry? = none := by
          unfold searchEntry?
          split
          · contradiction
          · rfl
        simpa [isDocumentation, hentry, hids, hkind] using hrest

end Page

namespace PageTree

/-- The value that the index stands for. -/
theorem isJson_searchIndex (t : PageTree) :
    IsJson t.searchIndex (.array (t.pages.filterMap Page.searchEntry?)) := by
  have hlines : (t.documentation.map fun e => searchLine e.1) =
      (t.pages.filter Page.isDocumentation).map searchLine := by
    simp only [documentation, pages, List.filter_map, List.map_map]
    rfl
  have hitems := List.forall₂_map_left_iff.mpr (Page.searchLines_entries t.pages)
  rw [← hlines] at hitems
  unfold searchIndex
  cases hls : t.documentation.map fun e => searchLine e.1 with
  | nil =>
      rw [hls] at hitems
      have hjoined := IsValue.array (IsEnclosed.join (b := []) (w := []) nofun nofun hitems)
      exact ⟨[], _, ['\n'], nofun, hjoined, by decide, rfl⟩
  | cons first further =>
      rw [hls] at hitems
      have hjoined :=
        IsValue.array (IsEnclosed.join (b := []) (w := ['\n']) nofun (by decide) hitems)
      exact ⟨[], _, ['\n'], nofun, hjoined, by decide, by simp⟩

/-- **The search index stands for one JSON value**, the array of the entries of
all pages that document a declaration, in depth-first order. -/
theorem isJson_searchIndex_iff (t : PageTree) (v : JsonValue) :
    IsJson t.searchIndex v ↔ v = .array (t.pages.filterMap Page.searchEntry?) :=
  (isJson_searchIndex t).iff_eq

end PageTree

end CrossDoc
