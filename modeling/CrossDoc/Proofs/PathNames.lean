import CrossDoc.Proofs.TextPieces
import CrossDoc.Render.Location

/-!
# Names in paths

A path is taken apart at its slashes, and a qualified name at its dots.  A
slug holds no slash, so components can be told from each other; but it does
not tell every two names apart, only those that differ in more than characters
a file name does not keep.
-/

namespace CrossDoc

/-! ## Slugs -/

theorem slug_of_ne_nil {name : Text} (h : name ≠ []) :
    slug name = name.map fun c => if isSlugChar c then c else '_' := by
  rw [slug, if_neg]
  simpa using h

theorem length_slug {name : Text} (h : name ≠ []) : (slug name).length = name.length := by
  rw [slug_of_ne_nil h, List.length_map]

/-- A character that file names do not keep occurs in no slug. -/
theorem not_mem_slug {c : Char} (h : isSlugChar c = false) (name : Text) : c ∉ slug name := by
  by_cases hname : name = []
  · subst hname
    intro hc
    obtain rfl := List.mem_singleton.mp hc
    exact absurd h (by decide)
  · rw [slug_of_ne_nil hname]
    intro hc
    obtain ⟨d, _, hd⟩ := List.mem_map.mp hc
    split at hd
    · next hkept =>
      subst hd
      exact absurd (hkept.symm.trans h) (by decide)
    · subst hd
      exact absurd h (by decide)

/-- A slug has no new characters but the underscore. -/
theorem not_mem_slug_of_not_mem {c : Char} (hc : c ≠ '_') {name : Text} (h : c ∉ name) :
    c ∉ slug name := by
  by_cases hname : name = []
  · subst hname
    intro hmem
    exact hc (List.mem_singleton.mp hmem)
  · rw [slug_of_ne_nil hname]
    intro hmem
    obtain ⟨d, hd, hdc⟩ := List.mem_map.mp hmem
    split at hdc
    · exact h (hdc ▸ hd)
    · exact hc hdc.symm

/-- A slug without an underscore is the name itself. -/
theorem eq_of_slug_eq {name w : Text} (h : slug name = w) (hw : '_' ∉ w) : name = w := by
  by_cases hname : name = []
  · subst hname
    exact absurd (h ▸ by decide) hw
  · subst h
    rw [slug_of_ne_nil hname] at hw ⊢
    have hkept : ∀ c ∈ name, (if isSlugChar c then c else '_') = c := by
      intro c hc
      split
      · rfl
      · next hdrop =>
        refine absurd (List.mem_map.mpr ⟨c, hc, ?_⟩) hw
        exact if_neg hdrop
    rw [List.map_congr_left hkept, List.map_id']

/-- Qualified names keep their dots. -/
theorem slug_join : ∀ {chain : List Text}, chain ≠ [] → (∀ t ∈ chain, t ≠ []) →
    slug (Text.join "." chain) = Text.join "." (chain.map slug)
  | [], h, _ => absurd rfl h
  | [t], _, _ => rfl
  | t :: u :: rest, _, h => by
      have ht := h t (by simp)
      have hrest := slug_join (List.cons_ne_nil u rest)
        fun v hv => h v (List.mem_cons_of_mem t hv)
      have hjoin : Text.join "." (u :: rest) ≠ [] := by
        cases rest with
        | nil => exact h u (by simp)
        | cons v more => simp [Text.join]
      rw [Text.join, slug_of_ne_nil (by simp [ht]), List.map_append, List.map_append,
        ← slug_of_ne_nil ht, ← slug_of_ne_nil hjoin, hrest]
      rfl

/-- The slugs of two qualified names agree when those of their parts do. -/
theorem slug_join_inj {a b : List Text} (ha : a ≠ [] ∧ ∀ t ∈ a, t ≠ [] ∧ '.' ∉ t)
    (hb : b ≠ [] ∧ ∀ t ∈ b, t ≠ [] ∧ '.' ∉ t) :
    slug (Text.join "." a) = slug (Text.join "." b) ↔ a.map slug = b.map slug := by
  have hsplit : ∀ {c : List Text}, (c ≠ [] ∧ ∀ t ∈ c, t ≠ [] ∧ '.' ∉ t) →
      Text.splitAt '.' (Text.join "." (c.map slug)) = c.map slug := by
    intro c hc
    refine Text.splitAt_join (by simpa using hc.1) ?_
    intro s hs
    obtain ⟨t, ht, rfl⟩ := List.mem_map.mp hs
    exact not_mem_slug_of_not_mem (by decide) (hc.2 t ht).2
  rw [slug_join ha.1 fun t ht => (ha.2 t ht).1, slug_join hb.1 fun t ht => (hb.2 t ht).1]
  constructor
  · intro h
    rw [← hsplit ha, ← hsplit hb, h]
  · intro h
    rw [h]

/-! ## Places -/

/-- The second path leads below the first, taken as that of a directory. -/
def Path.IsAbove (p q : Text) : Prop := p ++ [Path.slash] <+: q

instance (p q : Text) : Decidable (Path.IsAbove p q) :=
  inferInstanceAs (Decidable (_ <+: _))

/-- A file of the module: in the directory of a package, or beside these. -/
structure FilePlace where
  directory : Option Text
  file : Text
deriving DecidableEq

namespace FilePlace

/-- The path of a place below the directory of the module. -/
def toPath (root : Text) : FilePlace → Text
  | ⟨none, file⟩ => root ++ "/" ++ file
  | ⟨some directory, file⟩ => root ++ "/" ++ directory ++ "/" ++ file

/-- Neither name holds a slash. -/
structure Plain (p : FilePlace) : Prop where
  directory : ∀ d, p.directory = some d → '/' ∉ d
  file : '/' ∉ p.file

theorem plain_of_beside {file : Text} (h : '/' ∉ file) : (FilePlace.mk none file).Plain :=
  ⟨by simp, h⟩

/-- What follows the directory of the module. -/
def tail : FilePlace → Text
  | ⟨none, file⟩ => file
  | ⟨some directory, file⟩ => directory ++ '/' :: file

theorem toPath_eq (root : Text) (p : FilePlace) : p.toPath root = root ++ '/' :: p.tail := by
  obtain ⟨_ | d, file⟩ := p
  · simp [toPath, tail]
  · simp [toPath, tail]

variable {p q : FilePlace}

/-- Paths tell plain places apart. -/
theorem toPath_inj (root : Text) (hp : p.Plain) (hq : q.Plain) :
    p.toPath root = q.toPath root ↔ p = q := by
  refine ⟨fun h => ?_, fun h => h ▸ rfl⟩
  rw [toPath_eq, toPath_eq] at h
  have htail : p.tail = q.tail := (List.cons.inj (List.append_cancel_left h)).2
  obtain ⟨_ | d, f⟩ := p
  · obtain ⟨_ | d', f'⟩ := q
    · exact congrArg (FilePlace.mk none) htail
    · refine absurd hp.file ?_
      rw [show f = d' ++ '/' :: f' from htail]
      simp
  · obtain ⟨_ | d', f'⟩ := q
    · refine absurd hq.file ?_
      rw [show f' = d ++ '/' :: f from htail.symm]
      simp
    · obtain ⟨rfl, rfl⟩ := (Text.append_slash_inj (hp.directory d rfl)
        (hq.directory d' rfl)).mp htail
      rfl

/-- One path leads below another only from a file beside the directories to
the directory of its name. -/
theorem isAbove_iff (root : Text) (hp : p.Plain) (hq : q.Plain) :
    Path.IsAbove (p.toPath root) (q.toPath root) ↔
      p.directory = none ∧ q.directory = some p.file := by
  have hcancel : Path.IsAbove (p.toPath root) (q.toPath root) ↔ p.tail ++ ['/'] <+: q.tail := by
    rw [Path.IsAbove, toPath_eq, toPath_eq, List.append_assoc, List.cons_append,
      List.prefix_append_right_inj, List.cons_prefix_cons]
    exact ⟨fun h => h.2, fun h => ⟨rfl, h⟩⟩
  have hinside : ∀ {x : Text}, ¬ x ++ ['/'] <+: q.file := by
    intro x hx
    exact hq.file (hx.subset (by simp))
  -- A file has no slash, so only the directory of `q` can start with one of `p`.
  rw [hcancel]
  obtain ⟨_ | d, f⟩ := p
  · obtain ⟨_ | d', f'⟩ := q
    · simpa [tail] using hinside
    · rw [show tail ⟨none, f⟩ ++ ['/'] = f ++ '/' :: [] from rfl,
        show tail ⟨some d', f'⟩ = d' ++ '/' :: f' from rfl,
        Text.append_slash_prefix hp.file (hq.directory d' rfl)]
      simp [eq_comm]
  · refine iff_of_false ?_ (by simp)
    rw [show tail ⟨some d, f⟩ ++ ['/'] = d ++ '/' :: (f ++ ['/']) by simp [tail]]
    obtain ⟨_ | d', f'⟩ := q
    · intro h
      exact hq.file (h.subset (by simp))
    · rw [show tail ⟨some d', f'⟩ = d' ++ '/' :: f' from rfl,
        Text.append_slash_prefix (hp.directory d rfl) (hq.directory d' rfl)]
      exact fun h => hinside h.2

-- A package named as the page of the module has its directory where that page is.
example : Path.IsAbove "m/index.md" "m/index.md/index.md" := by decide

end FilePlace

/-! ## What paths are made of -/

namespace Path

theorem dropCommon_fst_suffix : ∀ as bs : List Text, (dropCommon as bs).1 <:+ as
  | [], _ => List.nil_suffix
  | _ :: _, [] => List.suffix_rfl
  | a :: as, b :: bs => by
      rw [dropCommon]
      split
      · exact (dropCommon_fst_suffix as bs).trans (List.suffix_cons a as)
      · exact List.suffix_rfl

variable {c : Char} {p e : Text}

theorem mem_of_mem_elements (h : e ∈ elements p) (hc : c ∈ e) : c = slash ∨ c ∈ p := by
  rw [elements] at h
  rcases List.mem_append.mp h with h | h
  · rcases List.mem_append.mp h with h | h
    · split at h
      · rw [List.mem_singleton.mp h] at hc
        exact Or.inl (List.mem_singleton.mp hc)
      · cases h
    · exact Or.inr (Text.mem_of_mem_splitAt (List.mem_filter.mp h).1 hc)
  · split at h
    · rw [List.mem_singleton.mp h] at hc
      cases hc
    · cases h

theorem mem_of_mem_relativeElements {target base : Text} {es : List Text}
    (h : relativeElements? target base = some es) (he : e ∈ es) (hc : c ∈ e) :
    c = slash ∨ c = '.' ∨ c ∈ target := by
  rw [relativeElements?] at h
  split at h
  · cases h
  dsimp only at h
  split at h
  · obtain rfl := Option.some.inj h
    rw [List.mem_singleton.mp he] at hc
    exact Or.inr (Or.inl (List.mem_singleton.mp hc))
  split at h
  · cases h
  obtain rfl := Option.some.inj h
  rcases List.mem_append.mp he with he | he
  · rw [(List.mem_replicate.mp he).2] at hc
    exact Or.inr (Or.inl (by simpa [dotDot] using hc))
  · have hahead := (dropCommon_fst_suffix (elements target) (elements base)).subset he
    rcases mem_of_mem_elements hahead hc with hc | hc
    · exact Or.inl hc
    · exact Or.inr (Or.inr hc)

end Path

/-- The way to a path has no characters but those of the path, dots and slashes. -/
theorem mem_of_mem_relativeLink {c : Char} {source target : Text}
    (h : c ∈ relativeLink source target) : c = '/' ∨ c = '.' ∨ c ∈ target := by
  rw [relativeLink] at h
  split at h
  · next way hway =>
    split at h
    · exact Or.inr (Or.inr h)
    obtain ⟨es, hes, rfl⟩ := Option.map_eq_some_iff.mp hway
    rcases Text.exists_of_mem_join h with hc | ⟨e, he, hc⟩
    · exact Or.inl (List.mem_singleton.mp hc)
    · exact Path.mem_of_mem_relativeElements hes he hc
  · exact Or.inr (Or.inr h)

/-- A path that comes from names has slashes and what file names keep. -/
theorem PageTree.not_mem_pagePath {c : Char} (hc : isSlugChar c = false) (hslash : c ≠ '/')
    (t : PageTree) {p : Page} (hp : p.kind ≠ .rendererSpecific) (above : List Text) :
    c ∉ t.pagePath p above := by
  have hslug : ∀ name, c ∉ slug name := not_mem_slug hc
  have hliteral : ∀ {l : Text}, (l.all fun d => isSlugChar d || d == '/') = true → c ∉ l := by
    intro l hl hmem
    have hkept := List.all_eq_true.mp hl c hmem
    rw [hc, Bool.false_or, beq_iff_eq] at hkept
    exact hslash hkept
  have hdot : c ∉ (".md" : Text) := hliteral rfl
  have hindex : c ∉ ("/index.md" : Text) := hliteral rfl
  have hsep : c ∉ ("/" : Text) := hliteral rfl
  unfold pagePath directory
  rw [if_neg hp]
  split
  · cases above <;>
      simp only [List.mem_append, hslug, hdot, hindex, hsep, or_self, not_false_eq_true]
  · simp only [List.mem_append, hslug, hdot, hsep, or_self, not_false_eq_true]

end CrossDoc
