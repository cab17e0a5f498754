import CrossDoc.Config.Validation
import CrossDoc.Proofs.FirstOccurrence
import CrossDoc.Proofs.TextOrder
import CrossDoc.Run.Context

/-!
# The identity of a pass

A pass is identified by its module, its family and the set of its targets.  The
checks of a configuration remember the identities of the passes seen so far, so a
configuration that can be run has no two passes of one identity, and looking up
the identity of a pass finds this pass.
-/

namespace CrossDoc

/-! ## What the checks demand -/

theorem SourceLink.problem?_eq_none_iff {l : SourceLink} :
    l.problem? = none ↔ '\\' ∉ l.path ∧ l.url ≠ [] := by
  unfold problem?
  split <;> simp_all

namespace Pass

variable {p q : Pass} {seen : List Platform}

/-- Neither the order of the targets counts nor how often one is named. -/
theorem platform_eq_iff : p.platform = q.platform ↔
    p.moduleName = q.moduleName ∧ p.family = q.family ∧ ∀ t, t ∈ p.targets ↔ t ∈ q.targets := by
  rw [platform, platform, Platform.mk.injEq, Text.sortedSet_eq_iff]

/-- The pass names its module, and its links and package options say what they are about. -/
structure IsComplete (p : Pass) : Prop where
  moduleName : p.moduleName ≠ []
  sourceLinks : ∀ l ∈ p.sourceLinks, '\\' ∉ l.path ∧ l.url ≠ []
  externalLinks : ∀ l ∈ p.externalLinks, l.url ≠ []
  packageOptions : ∀ o ∈ p.packageOptions, o.packagePrefix ≠ []

/-- A pass has no problem when it is complete and no other one seen has its identity. -/
theorem problem?_eq_none_iff :
    p.problem? seen = none ↔ p.IsComplete ∧ p.platform ∉ seen := by
  have hchecks : p.problem? seen = none ↔ p.moduleName ≠ [] ∧ p.platform ∉ seen ∧
      (∀ l ∈ p.sourceLinks, l.problem? = none) ∧ (∀ l ∈ p.externalLinks, l.url ≠ []) ∧
      ∀ o ∈ p.packageOptions, o.packagePrefix ≠ [] := by
    have hcheck : ∀ (failed : Prop) [Decidable failed] (problem : PassProblem)
        (later : Option PassProblem),
        (if failed then some problem else later) = none ↔ ¬ failed ∧ later = none := by
      intro failed _ problem later
      split <;> simp_all
    rw [problem?, ← List.findSome?_eq_none_iff, hcheck, hcheck]
    cases p.sourceLinks.findSome? SourceLink.problem? <;> simp [hcheck]
  rw [hchecks]
  simp only [SourceLink.problem?_eq_none_iff]
  constructor
  · rintro ⟨hmodule, hseen, hsource, hexternal, hoptions⟩
    exact ⟨⟨hmodule, hsource, hexternal, hoptions⟩, hseen⟩
  · rintro ⟨hp, hseen⟩
    exact ⟨hp.moduleName, hseen, hp.sourceLinks, hp.externalLinks, hp.packageOptions⟩

end Pass

namespace Config

variable {c : Config}

theorem passProblem?_eq_none_iff {ps : List Pass} : ∀ {number : Nat} {seen : List Platform},
    passProblem? number seen ps = none ↔
      (∀ p ∈ ps, p.IsComplete) ∧ (ps.map (·.platform)).Nodup ∧ ∀ p ∈ ps, p.platform ∉ seen := by
  induction ps with
  | nil => simp [passProblem?]
  | cons p rest ih =>
      intro number seen
      have hstep : passProblem? number seen (p :: rest) = none ↔ p.problem? seen = none ∧
          passProblem? (number + 1) (p.platform :: seen) rest = none := by
        rw [passProblem?]
        cases p.problem? seen <;> simp
      have hapart : (∀ q ∈ rest, q.platform ∉ p.platform :: seen) ↔
          p.platform ∉ rest.map (·.platform) ∧ ∀ q ∈ rest, q.platform ∉ seen := by
        simp only [List.mem_cons, not_or, forall_and, List.mem_map, not_exists, not_and]
      rw [hstep, Pass.problem?_eq_none_iff, ih, hapart, List.map_cons, List.nodup_cons,
        List.forall_mem_cons, List.forall_mem_cons]
      constructor
      · rintro ⟨⟨hp, hseen⟩, hrest, hnodup, hnew, hfresh⟩
        exact ⟨⟨hp, hrest⟩, ⟨hnew, hnodup⟩, hseen, hfresh⟩
      · rintro ⟨⟨hp, hrest⟩, ⟨hnew, hnodup⟩, hseen, hfresh⟩
        exact ⟨⟨hp, hseen⟩, hrest, hnodup, hnew, hfresh⟩

/-- A configuration can be run exactly if it names a format, its passes are complete and no two
of them have one identity. -/
theorem validate_eq_ok_iff : c.validate = .ok () ↔
    c.format ≠ [] ∧ (∀ p ∈ c.passes, p.IsComplete) ∧ (c.passes.map (·.platform)).Nodup := by
  have hproblem : c.validate = .ok () ↔ c.problem? = none := by
    rw [validate]
    cases c.problem? <;> simp
  rw [hproblem, problem?]
  split
  · next hformat => simp [List.isEmpty_iff.mp hformat]
  · next hformat =>
    rw [passProblem?_eq_none_iff]
    simp_all

end Config

/-! ## Looking up a pass -/

namespace RunContext

/-- The context has these passes in their order, each under its identity. -/
def HasPasses (r : RunContext) (ps : List Pass) : Prop :=
  r.passes.map (fun a => (a.platform, a.pass)) = ps.map fun p => (p.platform, p)

variable {r : RunContext} {ps : List Pass}

/-- A pass is looked up among the passes alone. -/
theorem HasPasses.passFor?_eq (h : r.HasPasses ps) (platform : Platform) :
    r.passFor? platform = ps.find? fun p => p.platform == platform := by
  have hpairs : r.passFor? platform = ((r.passes.map fun a => (a.platform, a.pass)).find?
      fun pair => pair.1 == platform).map Prod.snd := by
    rw [passFor?, List.find?_map, Option.map_map]
    rfl
  rw [hpairs, h, List.find?_map, Option.map_map]
  exact Option.map_id'

theorem HasPasses.map_pass (h : r.HasPasses ps) : r.passes.map (·.pass) = ps := by
  have hpasses := congrArg (List.map Prod.snd) h
  rw [List.map_map, List.map_map] at hpasses
  exact hpasses.trans (List.map_id' ps)

end RunContext

namespace Config

/-- **Passes and their identities determine each other.**  Two passes have one identity exactly if
they agree in module, family and set of targets.  A configuration that can be run has no two passes
of one identity, so in a context with its passes the identity of each pass leads to this pass; and
a configuration with two such passes is refused. -/
theorem validate_identifiesPasses (p q : Pass) (c : Config) :
    (p.platform = q.platform ↔
      p.moduleName = q.moduleName ∧ p.family = q.family ∧ ∀ t, t ∈ p.targets ↔ t ∈ q.targets) ∧
    (c.validate = .ok () ↔
      c.format ≠ [] ∧ (∀ p ∈ c.passes, p.IsComplete) ∧ (c.passes.map (·.platform)).Nodup) ∧
    (c.validate = .ok () → ∀ r : RunContext, r.HasPasses c.passes →
      ∀ (i : Nat) (hi : i < c.passes.length), r.passFor? c.passes[i].platform = some c.passes[i]) ∧
    ∀ (i j : Nat) (hij : i < j) (hj : j < c.passes.length),
      c.passes[i].platform = c.passes[j].platform → ∃ e, c.validate = .error e := by
  refine ⟨Pass.platform_eq_iff, validate_eq_ok_iff, fun hvalid r hr i hi => ?_,
    fun i j hij hj hsame => ?_⟩
  · obtain ⟨-, -, hnodup⟩ := validate_eq_ok_iff.mp hvalid
    rw [hr.passFor?_eq]
    exact FirstOccurrence.find?_key_of_mem hnodup (List.getElem_mem hi)
  · cases hvalid : c.validate with
    | error e => exact ⟨e, rfl⟩
    | ok _ =>
        obtain ⟨-, -, hnodup⟩ := validate_eq_ok_iff.mp hvalid
        have hi : i < c.passes.length := hij.trans hj
        have hapart := List.pairwise_iff_getElem.mp hnodup i j (by simpa) (by simpa) hij
        simp only [List.getElem_map] at hapart
        exact absurd hsame hapart

def kitPass (targets : List Text) : Pass where
  moduleName := "kit"
  family := .native
  targets := targets

def pairConfig (p q : Pass) : Config where
  passes := [p, q]

/-- The passes of a configuration without what their analysis finds. -/
def unanalyzed (c : Config) : RunContext where
  config := c
  passes := c.passes.map fun p => { platform := p.platform, pass := p }

theorem hasPasses_unanalyzed (c : Config) : (unanalyzed c).HasPasses c.passes := by
  rw [RunContext.HasPasses, unanalyzed, List.map_map]
  rfl

/-- Two lists that name one set of targets, and one that names another set. -/
def bothTargets : List Text := ["macosArm64", "linuxX64"]

def repeatedTargets : List Text := ["linuxX64", "macosArm64", "linuxX64"]

def linuxTargets : List Text := ["linuxX64"]

theorem validate_identifiesPasses_targets :
    (kitPass bothTargets).platform = (kitPass repeatedTargets).platform ∧
    (∃ e, (pairConfig (kitPass bothTargets) (kitPass repeatedTargets)).validate = .error e) ∧
    (pairConfig (kitPass bothTargets) (kitPass linuxTargets)).validate = .ok () ∧
    (unanalyzed (pairConfig (kitPass bothTargets) (kitPass linuxTargets))).passFor?
      (kitPass linuxTargets).platform = some (kitPass linuxTargets) := by
  have hset : ∀ a b t : Text, t ∈ [a, b] ↔ t ∈ [b, a, b] := by
    intro a b t
    simp only [List.mem_cons, List.not_mem_nil, or_false]
    tauto
  obtain ⟨hidentity, -, -, hrefused⟩ := validate_identifiesPasses (kitPass bothTargets)
    (kitPass repeatedTargets) (pairConfig (kitPass bothTargets) (kitPass repeatedTargets))
  obtain ⟨hother, haccepted, hfound, -⟩ := validate_identifiesPasses (kitPass bothTargets)
    (kitPass linuxTargets) (pairConfig (kitPass bothTargets) (kitPass linuxTargets))
  have hsame : (kitPass bothTargets).platform = (kitPass repeatedTargets).platform :=
    hidentity.mpr ⟨rfl, rfl, hset _ _⟩
  have hvalid : (pairConfig (kitPass bothTargets) (kitPass linuxTargets)).validate = .ok () := by
    refine haccepted.mpr ⟨by decide, fun p hp => ?_, ?_⟩
    · rcases List.mem_pair.mp hp with rfl | rfl
      · exact ⟨by decide, nofun, nofun, nofun⟩
      · exact ⟨by decide, nofun, nofun, nofun⟩
    · rw [pairConfig, List.map_cons, List.map_singleton, List.nodup_cons, List.mem_singleton, hother]
      exact ⟨fun h => absurd ((h.2.2 "macosArm64").mp (by decide)) (by decide),
        List.nodup_singleton _⟩
  refine ⟨hsame, hrefused 0 1 (by decide) (by decide) hsame, hvalid, ?_⟩
  exact hfound hvalid _ (hasPasses_unanalyzed _) 1 (by decide)

end Config

end CrossDoc
