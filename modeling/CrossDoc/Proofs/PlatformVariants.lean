import CrossDoc.Page.Creation
import CrossDoc.Proofs.PlatformUnion

/-!
# Variants of a content

Values that may differ between platforms are rendered one by one, and platforms
that render alike share a variant.  The loop that gathers the variants is told by
two lists: the renderings, each where it first occurs, and for each of them the
platforms that render so.
-/

namespace CrossDoc

theorem Content.tagged_tagged_platforms (c : Content) (ps : List Platform) :
    (c.tagged ps).tagged c.platforms = c := by
  cases c
  rfl

namespace PlatformMap

open FirstOccurrence

variable {α : Type}

/-- What a map renders to, platform by platform. -/
def renderings (render : α → Content) (m : PlatformMap α) : List Content :=
  m.entries.map fun e => render e.2

/-- The platforms of a map that render to a content, in their order. -/
def showing (render : α → Content) (m : PlatformMap α) (c : Content) : List Platform :=
  (m.filter fun _ v => decide (render v = c)).platforms

/-- All platforms of a map render alike. -/
def IsUniform (render : α → Content) (m : PlatformMap α) : Prop :=
  ∀ c ∈ m.renderings render, ∀ d ∈ m.renderings render, c = d

instance (render : α → Content) (m : PlatformMap α) : Decidable (m.IsUniform render) :=
  inferInstanceAs (Decidable (∀ c ∈ m.renderings render, ∀ d ∈ m.renderings render, c = d))

/-- Some platforms are split up: no part is empty, no two parts share a platform,
and each of the platforms is in a part. -/
structure Splits (ps : List Platform) (parts : List (List Platform)) : Prop where
  inhabited : ∀ part ∈ parts, part ≠ []
  apart : parts.Pairwise List.Disjoint
  complete : ∀ p, p ∈ ps ↔ ∃ part ∈ parts, p ∈ part

variable {render : α → Content} {m : PlatformMap α} {c d : Content} {p : Platform}

theorem mem_showing :
    p ∈ m.showing render c ↔ ∃ v, (p, v) ∈ m.entries ∧ render v = c := by
  simp [showing, platforms, filter]

theorem showing_ne_nil (h : c ∈ m.renderings render) : m.showing render c ≠ [] := by
  obtain ⟨⟨p, v⟩, hv, hc⟩ := List.mem_map.mp h
  exact List.ne_nil_of_mem (mem_showing.mpr ⟨v, hv, hc⟩)

/-! ## Gathering variants -/

/-- A platform joins the variant that looks the same, or brings a new one. -/
theorem addVariant_map (p : Platform) (c : Content) (shown : Content → List Platform) :
    ∀ {cs : List Content}, cs.Nodup →
      addVariant p c (cs.map fun d => (d, shown d)) =
        (cs.map fun d => (d, if d = c then shown d ++ [p] else shown d)) ++
          if c ∈ cs then [] else [(c, [p])]
  | [], _ => rfl
  | d :: rest, h => by
      rw [List.nodup_cons] at h
      rw [List.map_cons, addVariant]
      by_cases hd : d = c
      · subst hd
        have hrest : ∀ x ∈ rest,
            (x, shown x) = (x, if x = d then shown x ++ [p] else shown x) := by
          intro x hx
          have hne : x ≠ d := fun hxd => h.1 (hxd ▸ hx)
          rw [if_neg hne]
        simp [List.map_congr_left hrest]
      · have hmem : c ∈ d :: rest ↔ c ∈ rest := by simp [Ne.symm hd]
        rw [if_neg hd, addVariant_map p c shown h.2]
        simp [hd, hmem]

theorem showing_append_singleton (es : List (Platform × α)) (e : Platform × α) (c : Content) :
    showing render ⟨es ++ [e]⟩ c =
      if c = render e.2 then showing render ⟨es⟩ c ++ [e.1] else showing render ⟨es⟩ c := by
  by_cases hc : c = render e.2
  · simp [showing, filter, platforms, List.filter_append, hc]
  · have hne : render e.2 ≠ c := fun he => hc he.symm
    simp [showing, filter, platforms, List.filter_append, hc, hne]

/-- The variants are the distinct renderings as they first occur, each with the
platforms that render so. -/
theorem variants_eq (render : α → Content) (m : PlatformMap α) :
    m.variants render =
      (m.renderings render).eraseDups.map fun c => (c, m.showing render c) := by
  obtain ⟨es⟩ := m
  induction es using List.reverseRecOn with
  | nil => rfl
  | append_singleton es e ih =>
      have hstep : variants render ⟨es ++ [e]⟩ =
          addVariant e.1 (render e.2) (variants render ⟨es⟩) := by
        simp [variants]
      have hrenderings : renderings render ⟨es ++ [e]⟩ =
          renderings render ⟨es⟩ ++ [render e.2] := by
        simp [renderings]
      have hmem : render e.2 ∈ (renderings render ⟨es⟩).eraseDups ↔
          render e.2 ∈ renderings render ⟨es⟩ := List.mem_eraseDups
      rw [hstep, ih, addVariant_map _ _ _ (nodup_eraseDups _), hrenderings,
        eraseDups_append_singleton]
      simp only [showing_append_singleton, hmem]
      by_cases hold : render e.2 ∈ renderings render ⟨es⟩
      · simp [hold]
      · -- No platform so far renders as this one does.
        have hnone : showing render ⟨es⟩ (render e.2) = [] := by
          rw [List.eq_nil_iff_forall_not_mem]
          intro p hp
          obtain ⟨v, hv, hrender⟩ := mem_showing.mp hp
          exact hold (List.mem_map.mpr ⟨(p, v), hv, hrender⟩)
        simp [hold, hnone]

/-- The parts of the platforms that render alike split up all of them. -/
theorem splits_showing (hm : m.Distinct) :
    Splits m.platforms ((m.renderings render).eraseDups.map (m.showing render)) where
  inhabited := by
    intro part hpart
    obtain ⟨c, hc, rfl⟩ := List.mem_map.mp hpart
    exact showing_ne_nil (List.mem_eraseDups.mp hc)
  apart := by
    rw [List.pairwise_map]
    refine (nodup_eraseDups _).imp fun {c d} hne p hpc hpd => hne ?_
    obtain ⟨v, hv, rfl⟩ := mem_showing.mp hpc
    obtain ⟨w, hw, rfl⟩ := mem_showing.mp hpd
    rw [mem_entries_iff hm] at hv hw
    rw [Option.some.inj (hv.symm.trans hw)]
  complete := by
    intro p
    constructor
    · intro hp
      obtain ⟨⟨p, v⟩, hv, rfl⟩ := List.mem_map.mp hp
      have hrendered : render v ∈ m.renderings render := List.mem_map.mpr ⟨(p, v), hv, rfl⟩
      refine ⟨_, List.mem_map_of_mem (List.mem_eraseDups.mpr hrendered), ?_⟩
      exact mem_showing.mpr ⟨v, hv, rfl⟩
    · rintro ⟨part, hpart, hp⟩
      obtain ⟨c, -, rfl⟩ := List.mem_map.mp hpart
      obtain ⟨v, hv, -⟩ := mem_showing.mp hp
      exact List.mem_map.mpr ⟨(p, v), hv, rfl⟩

/-! ## Content -/

theorem IsUniform.eraseDups_renderings (h : m.IsUniform render) (hc : c ∈ m.renderings render) :
    (m.renderings render).eraseDups = [c] := by
  have hsame : ∀ d ∈ (m.renderings render).eraseDups, d = c := fun d hd =>
    h d (List.mem_eraseDups.mp hd) c hc
  have hnodup := nodup_eraseDups (m.renderings render)
  cases hdups : (m.renderings render).eraseDups with
  | nil =>
      have hmem := List.mem_eraseDups.mpr hc
      rw [hdups] at hmem
      cases hmem
  | cons d rest =>
      rw [hdups] at hsame hnodup
      obtain ⟨rfl, hrest⟩ := List.forall_mem_cons.mp hsame
      have hnone : rest = [] := List.eq_nil_iff_forall_not_mem.mpr fun x hx =>
        (List.nodup_cons.mp hnodup).1 (hrest x hx ▸ hx)
      rw [hnone]

theorem IsUniform.showing_eq (h : m.IsUniform render) (hc : c ∈ m.renderings render) :
    m.showing render c = m.platforms := by
  have hall : ∀ e ∈ m.entries, decide (render e.2 = c) = true := fun e he =>
    decide_eq_true (h _ (List.mem_map_of_mem he) c hc)
  rw [showing, filter, List.filter_eq_self.mpr hall]

theorem exists_pair_of_not_isUniform (h : ¬ m.IsUniform render) :
    ∃ c d rest, (m.renderings render).eraseDups = c :: d :: rest := by
  match hdups : (m.renderings render).eraseDups with
  | c :: d :: rest => exact ⟨c, d, rest, rfl⟩
  | [] =>
      refine absurd (fun c hc => ?_) h
      rw [← List.mem_eraseDups, hdups] at hc
      cases hc
  | [x] =>
      refine absurd (fun c hc d hd => ?_) h
      rw [← List.mem_eraseDups, hdups, List.mem_singleton] at hc hd
      rw [hc, hd]

theorem content_of_not_isUniform (h : ¬ m.IsUniform render) :
    m.content render =
      { kind := .hinted
        platforms := (m.renderings render).eraseDups.flatMap (m.showing render)
        children := (m.renderings render).eraseDups.map fun c =>
          c.tagged (m.showing render c) } := by
  obtain ⟨c, d, rest, hdups⟩ := exists_pair_of_not_isUniform h
  rw [content, variants_eq, hdups]
  simp [List.flatMap_map]

theorem content_of_isUniform (h : m.IsUniform render) (hc : c ∈ m.renderings render) :
    m.content render =
      if c.children.isEmpty && c.text.isEmpty then .group [] [] else c.tagged m.platforms := by
  rw [content, variants_eq, h.eraseDups_renderings hc, List.map_singleton, h.showing_eq hc]

/-- **Platform variants.**  Where the platforms of a map do not all render alike,
its content is a node with one variant for each rendering, in the order in which
these first occur.  A variant is tagged with the platforms that render so, in the
order of the map, and the tags split up the platforms.  Where all of them render
alike and there is something to show, the content is this rendering for all
platforms.  Else it is the empty group. -/
theorem content_variants (render : α → Content) (m : PlatformMap α) (hm : m.Distinct)
    (hrender : ∀ v, (render v).platforms = []) :
    (¬ m.IsUniform render →
      m.content render =
        { kind := .hinted
          platforms := (m.renderings render).eraseDups.flatMap (m.showing render)
          children := (m.renderings render).eraseDups.map fun c =>
            c.tagged (m.showing render c) } ∧
      (m.content render).children.map (·.tagged []) = (m.renderings render).eraseDups ∧
      (m.renderings render).eraseDups.Nodup ∧
      Splits m.platforms ((m.content render).children.map (·.platforms))) ∧
    (∀ c ∈ m.renderings render, m.IsUniform render → c.children ≠ [] ∨ c.text ≠ [] →
      m.content render = c.tagged m.platforms) ∧
    (m.IsUniform render → (∀ c ∈ m.renderings render, c.children = [] ∧ c.text = []) →
      m.content render = .group [] []) := by
  refine ⟨fun h => ?_, fun c hc h hsome => ?_, fun h hnone => ?_⟩
  · have hcontent := content_of_not_isUniform h
    have hplain : ∀ c ∈ (m.renderings render).eraseDups,
        (c.tagged (m.showing render c)).tagged [] = c := by
      intro c hc
      obtain ⟨e, -, rfl⟩ := List.mem_map.mp (List.mem_eraseDups.mp hc)
      rw [← hrender e.2]
      exact Content.tagged_tagged_platforms (render e.2) _
    refine ⟨hcontent, ?_, nodup_eraseDups _, ?_⟩
    · rw [hcontent, List.map_map]
      exact (List.map_congr_left hplain).trans (List.map_id' _)
    · rw [hcontent, List.map_map]
      exact splits_showing hm
  · rw [content_of_isUniform h hc, if_neg]
    simpa [← not_and_or] using hsome
  · cases hshown : m.renderings render with
    | nil =>
        rw [content, variants_eq, hshown]
        rfl
    | cons c rest =>
        have hc : c ∈ m.renderings render := by simp [hshown]
        rw [content_of_isUniform h hc, if_pos]
        simp [hnone c hc]

/-- Facts that two of three platforms share. -/
def sharedFacts : FactsMap :=
  ⟨[(⟨"core", .jvm, []⟩, { documentation := "Shared." }),
    (⟨"core", .js, []⟩, { documentation := "Browser only." }),
    (⟨"core", .native, []⟩, { documentation := "Shared." })]⟩

theorem content_variants_sharedFacts :
    sharedFacts.Distinct ∧ (∀ f : Facts, f.description.platforms = []) ∧
      ¬ sharedFacts.IsUniform Facts.description ∧
      (sharedFacts.content Facts.description).children.map (·.tagged []) =
        (sharedFacts.renderings Facts.description).eraseDups ∧
      Splits sharedFacts.platforms
        ((sharedFacts.content Facts.description).children.map (·.platforms)) := by
  have hdistinct : sharedFacts.Distinct := by decide
  have hplain : ∀ f : Facts, f.description.platforms = [] := fun _ => rfl
  have hvaries : ¬ sharedFacts.IsUniform Facts.description := by decide
  obtain ⟨-, hrenderings, -, hsplits⟩ :=
    (content_variants Facts.description sharedFacts hdistinct hplain).1 hvaries
  exact ⟨hdistinct, hplain, hvaries, hrenderings, hsplits⟩

example :
    sharedFacts.content Facts.description =
      { kind := .hinted
        platforms := [⟨"core", .jvm, []⟩, ⟨"core", .native, []⟩, ⟨"core", .js, []⟩]
        children := [
          (Facts.description { documentation := "Shared." }).tagged
            [⟨"core", .jvm, []⟩, ⟨"core", .native, []⟩],
          (Facts.description { documentation := "Browser only." }).tagged
            [⟨"core", .js, []⟩]] } := by
  decide

end PlatformMap

end CrossDoc
