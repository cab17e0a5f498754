import CrossDoc.Render.Output
import Mathlib.Data.List.Dedup

/-!
# Writing files to memory

Writing to memory never fails.  A file replaces an earlier one of the same
path, so one file is left for each path that was written to.
-/

namespace CrossDoc

namespace MemoryFiles

/-- The paths of the files. -/
def paths (m : MemoryFiles) : List Text := m.files.map Prod.fst

/-- Writes files one after the other. -/
def putAll (m : MemoryFiles) (ws : List (Text × Text)) : MemoryFiles :=
  ws.foldl (fun m w => m.put w.1 w.2) m

variable {m : MemoryFiles}

/-! ## One file -/

theorem paths_put (m : MemoryFiles) (path content : Text) :
    (m.put path content).paths = (m.paths.filter (· != path)) ++ [path] := by
  rw [paths, put, List.map_append, paths, List.filter_map]
  rfl

theorem nodup_paths_put (h : m.paths.Nodup) (path content : Text) :
    (m.put path content).paths.Nodup := by
  rw [paths_put, List.nodup_append]
  refine ⟨h.filter _, List.nodup_singleton path, ?_⟩
  rintro a ha b hb rfl
  rw [List.mem_singleton.mp hb, List.mem_filter] at ha
  exact absurd ha.2 (by simp)

theorem find?_put (m : MemoryFiles) (path content q : Text) :
    (m.put path content).find? q = if q = path then some content else m.find? q := by
  rw [find?, put, List.find?_append]
  by_cases hq : q = path
  · subst hq
    have hgone : (m.files.filter fun f => f.1 != q).find? (fun f => f.1 == q) = none := by
      rw [List.find?_eq_none]
      intro f hf hfq
      rw [List.mem_filter] at hf
      exact absurd hf.2 (by simpa using hfq)
    simp [hgone]
  · have hkept : (m.files.filter fun f => f.1 != path).find? (fun f => f.1 == q) =
        m.files.find? fun f => f.1 == q := by
      rw [List.find?_filter]
      congr 1
      funext f
      by_cases hf : f.1 = q <;> simp [hf, hq]
    have hne : (path == q) = false := by simpa using fun he => hq he.symm
    rw [hkept]
    simp [hne, hq, find?]

/-! ## Several files -/

theorem nodup_paths_putAll : ∀ (ws : List (Text × Text)) {m : MemoryFiles}, m.paths.Nodup →
    (m.putAll ws).paths.Nodup
  | [], _, h => h
  | w :: rest, _, h => nodup_paths_putAll rest (nodup_paths_put h w.1 w.2)

theorem mem_paths_putAll (q : Text) : ∀ (ws : List (Text × Text)) (m : MemoryFiles),
    q ∈ (m.putAll ws).paths ↔ q ∈ m.paths ∨ q ∈ ws.map Prod.fst
  | [], m => by simp [putAll]
  | w :: rest, m => by
      have ih := mem_paths_putAll q rest (m.put w.1 w.2)
      rw [putAll, List.foldl_cons, ← putAll, ih, paths_put]
      by_cases hq : q = w.1 <;> simp [hq]

/-- There is one file for every path that was written to. -/
theorem length_files_putAll (disk : Disk) (ws : List (Text × Text)) :
    (putAll ⟨disk, []⟩ ws).files.length = (ws.map Prod.fst).dedup.length := by
  have hempty : (MemoryFiles.mk disk []).paths.Nodup := List.nodup_nil
  -- Neither list repeats a path, and both have the paths that were written to.
  have hperm : (putAll ⟨disk, []⟩ ws).paths.Perm (ws.map Prod.fst).dedup := by
    rw [List.perm_ext_iff_of_nodup (nodup_paths_putAll ws hempty) (List.nodup_dedup _)]
    intro q
    rw [mem_paths_putAll, List.mem_dedup]
    simp [paths]
  rw [← hperm.length_eq, paths, List.length_map]

/-- A file stays if nothing is written to its path again. -/
theorem find?_putAll_of_not_mem {q : Text} : ∀ {ws : List (Text × Text)} {m : MemoryFiles},
    q ∉ ws.map Prod.fst → (m.putAll ws).find? q = m.find? q
  | [], _, _ => rfl
  | w :: rest, m, h => by
      rw [List.map_cons, List.mem_cons, not_or] at h
      rw [putAll, List.foldl_cons, ← putAll, find?_putAll_of_not_mem h.2, find?_put, if_neg h.1]

theorem find?_putAll_of_mem {w : Text × Text} : ∀ {ws : List (Text × Text)} {m : MemoryFiles},
    (ws.map Prod.fst).Nodup → w ∈ ws → (m.putAll ws).find? w.1 = some w.2
  | [], _, _, h => nomatch h
  | v :: rest, m, hnodup, h => by
      rw [List.map_cons, List.nodup_cons] at hnodup
      rw [putAll, List.foldl_cons, ← putAll]
      rcases List.mem_cons.mp h with rfl | h
      · rw [find?_putAll_of_not_mem hnodup.1, find?_put, if_pos rfl]
      · exact find?_putAll_of_mem hnodup.2 h

/-! ## Writing steps -/

/-- Steps that write files all succeed, and leave these files. -/
theorem performAll_writes : ∀ (ws : List (Text × Text)) (count : Nat) (m : MemoryFiles),
    (writer.performAll count (ws.map fun w => .write w.1 w.2) m).value =
      (.ok (count + ws.length), m.putAll ws)
  | [], _, _ => rfl
  | w :: rest, count, m => by
      have ih := performAll_writes rest (count + 1) (m.put w.1 w.2)
      rw [List.map_cons, Writer.performAll]
      show (writer.performAll (count + 1) _ (m.put w.1 w.2)).value = _
      rw [ih, List.length_cons, Nat.add_assoc, Nat.add_comm 1]
      rfl

end MemoryFiles

/-! ## Writing a page tree -/

/-- A page that is not content is written, neither copied nor left out. -/
def Page.IsWritten (p : Page) : Prop := p.kind = .rendererSpecific → p.strategy.kind = .write

namespace PageTree

variable {t : PageTree}

def AllWritten (t : PageTree) : Prop := ∀ e ∈ t.walk, e.1.IsWritten

/-- The paths of the root page and of all pages below it. -/
def paths (t : PageTree) : List Text := t.rootPath :: t.pathed.map Prod.snd

/-- What is written for a page. -/
def fileContent (t : PageTree) (p : Page) (path : Text) : Text :=
  if p.kind = .rendererSpecific then p.strategy.payload else p.content.toMarkdown t path

/-- The files of all pages, the root page first. -/
def files (t : PageTree) : List (Text × Text) :=
  (t.rootPath, t.content.toMarkdown t t.rootPath) ::
    t.pathed.map fun e => (e.2, t.fileContent e.1 e.2)

theorem map_fst_files (t : PageTree) : t.files.map Prod.fst = t.paths := by
  rw [files, List.map_cons, List.map_map]
  rfl

theorem pageStep?_eq {p : Page} (h : p.IsWritten) (path : Text) :
    t.pageStep? p path = some (.write path (t.fileContent p path)) := by
  unfold pageStep? fileContent
  split
  · next hkind => rw [h hkind]
  · rfl

theorem steps_eq (h : t.AllWritten) : t.steps = t.files.map fun f => .write f.1 f.2 := by
  have hpages : t.pathed.filterMap (fun e => t.pageStep? e.1 e.2) =
      t.pathed.map fun e => .write e.2 (t.fileContent e.1 e.2) := by
    rw [← List.filterMap_eq_map]
    apply List.filterMap_congr
    intro e he
    obtain ⟨w, hw, rfl⟩ := List.mem_map.mp he
    exact pageStep?_eq (h w hw) _
  rw [steps, hpages, files, List.map_cons, List.map_map]
  rfl

/-- A tree all of whose pages are written leaves their files in memory, of two
for one path the last. -/
theorem writeTree_memory (h : t.AllWritten) (disk : Disk) :
    (MemoryFiles.writer.writeTree t ⟨disk, []⟩).value =
      (.ok t.paths.length, MemoryFiles.putAll ⟨disk, []⟩ t.files) := by
  rw [Writer.writeTree, steps_eq h, MemoryFiles.performAll_writes, Nat.zero_add,
    ← map_fst_files, List.length_map]

end PageTree

end CrossDoc
