import CrossDoc.Config.Basic
import CrossDoc.Proofs.FirstOccurrence
import CrossDoc.Proofs.LongestKey
import CrossDoc.Proofs.TextPieces

/-!
# The options of a package

An entry of package options is about the packages whose names start with the
segments of its prefix.  Of the entries that are about a package, the one with
the longest prefix says what holds for it, and the pass does if there is none.

Two prefixes of one name are equal if they are equally long, so the order of the
entries counts between equal prefixes only.
-/

namespace CrossDoc

/-- The text is empty, the whole name, or what stands in front of one of its dots. -/
def IsSegmentPrefix (q package : Text) : Prop :=
  q = [] ∨ q = package ∨ ∃ rest, package = q ++ '.' :: rest

theorem IsSegmentPrefix.isPrefix {q package : Text} : IsSegmentPrefix q package → q <+: package
  | .inl h => h ▸ List.nil_prefix
  | .inr (.inl h) => h ▸ List.prefix_refl q
  | .inr (.inr ⟨rest, h⟩) => ⟨'.' :: rest, h.symm⟩

namespace PackageOptions

variable {package : Text}

theorem covers_iff {o : PackageOptions} :
    o.covers package = true ↔ IsSegmentPrefix o.packagePrefix package := by
  unfold covers
  split
  · next hnone =>
    constructor
    · intro h
      cases h
    · intro h
      obtain ⟨rest, hrest⟩ := h.isPrefix
      rw [Text.dropPrefix?_eq_some.mpr hrest.symm] at hnone
      cases hnone
  · next rest hsome =>
    obtain rfl := Text.dropPrefix?_eq_some.mp hsome
    cases rest with
    | nil => simp [IsSegmentPrefix]
    | cons c rest => simp [IsSegmentPrefix]

/-- The entries stand in the order in which they are declared, and a later one replaces an earlier
one only if its prefix is longer. -/
theorem isLongestSearch : IsLongestSearch packagePrefix longest where
  nil := fun found => by rw [longest]
  first := fun _ _ => rfl
  next := fun _ _ _ => rfl

end PackageOptions

namespace Pass

variable {p : Pass} {package : Text} {o o' : PackageOptions}

/-- The entry has the longest of the prefixes that are about the package, and is the first with
this prefix. -/
structure Chooses (p : Pass) (package : Text) (o : PackageOptions) : Prop where
  covers : IsSegmentPrefix o.packagePrefix package
  longest : ∀ o' ∈ p.packageOptions, IsSegmentPrefix o'.packagePrefix package →
    o'.packagePrefix.length ≤ o.packagePrefix.length
  first : p.packageOptions.find? (·.packagePrefix == o.packagePrefix) = some o

theorem chooses_iff : p.Chooses package o ↔
    IsFirstLongest (·.packagePrefix) (IsSegmentPrefix · package) p.packageOptions o :=
  ⟨fun h => ⟨h.covers, h.longest, h.first⟩, fun h => ⟨h.wanted, h.longest, h.first⟩⟩

theorem Chooses.mem (h : p.Chooses package o) : o ∈ p.packageOptions := (chooses_iff.mp h).mem

/-- At most one entry is chosen. -/
theorem Chooses.unique (h : p.Chooses package o) (h' : p.Chooses package o') : o = o' :=
  (chooses_iff.mp h).unique (fun _ => IsSegmentPrefix.isPrefix) (chooses_iff.mp h')

theorem chooses_optionsFor (h : ∃ o ∈ p.packageOptions, IsSegmentPrefix o.packagePrefix package) :
    p.Chooses package (p.optionsFor package) := by
  obtain ⟨o, hlongest, ho⟩ := PackageOptions.isLongestSearch.exists_isFirstLongest
    (IsSegmentPrefix · package) (fun _ => PackageOptions.covers_iff) h
  rw [optionsFor, hlongest, Option.getD_some]
  exact chooses_iff.mpr ho

theorem optionsFor_of_forall_not
    (h : ∀ o ∈ p.packageOptions, ¬ IsSegmentPrefix o.packagePrefix package) :
    p.optionsFor package = p.defaultOptions := by
  have hnone : p.packageOptions.filter (·.covers package) = [] := by
    refine List.filter_eq_nil_iff.mpr fun o ho hcovers => ?_
    exact h o ho (PackageOptions.covers_iff.mp hcovers)
  rw [optionsFor, hnone]
  rfl

/-! ## Changes that do not count -/

theorem optionsFor_perm {os : List PackageOptions} (hperm : os.Perm p.packageOptions)
    (hnodup : (p.packageOptions.map (·.packagePrefix)).Nodup) :
    optionsFor { p with packageOptions := os } package = p.optionsFor package := by
  by_cases h : ∃ o ∈ p.packageOptions, IsSegmentPrefix o.packagePrefix package
  · have hchosen := chooses_optionsFor h
    have hsame : Chooses { p with packageOptions := os } package (p.optionsFor package) :=
      { covers := hchosen.covers
        longest := fun o' ho' => hchosen.longest o' (hperm.mem_iff.mp ho')
        first := FirstOccurrence.find?_key_of_mem ((hperm.map _).nodup_iff.mpr hnodup)
          (hperm.mem_iff.mpr hchosen.mem) }
    exact (chooses_optionsFor ⟨_, hsame.mem, hsame.covers⟩).unique hsame
  · have hnone : ∀ o ∈ p.packageOptions, ¬ IsSegmentPrefix o.packagePrefix package :=
      fun o ho hcovers => h ⟨o, ho, hcovers⟩
    rw [optionsFor_of_forall_not hnone]
    exact optionsFor_of_forall_not fun o ho => hnone o (hperm.mem_iff.mp ho)

theorem optionsFor_insert {before after : List PackageOptions}
    (hentries : p.packageOptions = before ++ after)
    (h : ¬ IsSegmentPrefix o.packagePrefix package) :
    optionsFor { p with packageOptions := before ++ o :: after } package =
      p.optionsFor package := by
  have hfilter : (before ++ o :: after).filter (·.covers package) =
      p.packageOptions.filter (·.covers package) := by
    have hdrop : (o :: after).filter (·.covers package) = after.filter (·.covers package) :=
      List.filter_cons_of_neg (mt PackageOptions.covers_iff.mp h)
    rw [hentries, List.filter_append, List.filter_append, hdrop]
  rw [optionsFor, optionsFor]
  dsimp only
  rw [hfilter]
  rfl

/-- **The options of a package are those with the longest prefix.**  They are the entry whose
prefix is the longest of all that are about the package, the first one where several have this
prefix, and the values of the pass where no entry is about the package.  So neither the order of
entries with different prefixes counts, nor an entry that is not about the package. -/
theorem optionsFor_longestPrefix (p : Pass) (package : Text) :
    (∀ o, p.Chooses package o → p.optionsFor package = o) ∧
    ((∃ o ∈ p.packageOptions, IsSegmentPrefix o.packagePrefix package) →
      p.Chooses package (p.optionsFor package)) ∧
    ((∀ o ∈ p.packageOptions, ¬ IsSegmentPrefix o.packagePrefix package) →
      p.optionsFor package =
        { packagePrefix := []
          includeNonPublic := p.includeNonPublic
          reportUndocumented := p.reportUndocumented
          skipDeprecated := p.skipDeprecated
          suppress := false }) ∧
    (∀ os : List PackageOptions, os.Perm p.packageOptions →
      (p.packageOptions.map (·.packagePrefix)).Nodup →
      optionsFor { p with packageOptions := os } package = p.optionsFor package) ∧
    ∀ before after o, p.packageOptions = before ++ after →
      ¬ IsSegmentPrefix o.packagePrefix package →
      optionsFor { p with packageOptions := before ++ o :: after } package =
        p.optionsFor package := by
  refine ⟨fun o ho => ?_, chooses_optionsFor, optionsFor_of_forall_not,
    fun os => optionsFor_perm, fun before after o => optionsFor_insert⟩
  exact (chooses_optionsFor ⟨o, ho.mem, ho.covers⟩).unique ho

/-- Two entries for one prefix, one for the segments in front of them, one that ends within a
segment and one for all packages. -/
def nestedOptionsPass : Pass where
  packageOptions := [
    { packagePrefix := "com.foo", includeNonPublic := true },
    { packagePrefix := "com.foo.impl", suppress := true },
    { packagePrefix := "com.foo.impl", skipDeprecated := true },
    { packagePrefix := "com.foo.impl.i" },
    { packagePrefix := [], reportUndocumented := false }]

theorem optionsFor_longestPrefix_nestedOptions :
    (∃ o ∈ nestedOptionsPass.packageOptions, IsSegmentPrefix o.packagePrefix "com.foo.impl.io") ∧
      nestedOptionsPass.Chooses "com.foo.impl.io"
        { packagePrefix := "com.foo.impl", suppress := true } := by
  have hcovers : ∃ o ∈ nestedOptionsPass.packageOptions,
      IsSegmentPrefix o.packagePrefix "com.foo.impl.io" :=
    ⟨{ packagePrefix := [], reportUndocumented := false }, by decide, .inl rfl⟩
  exact ⟨hcovers, (optionsFor_longestPrefix nestedOptionsPass "com.foo.impl.io").2.1 hcovers⟩

end Pass

end CrossDoc
