import CrossDoc.Proofs.LongestKey
import CrossDoc.Proofs.TextPieces
import CrossDoc.Proofs.Trimming
import CrossDoc.Refinement.SourceLinks

/-!
# Links to sources

A file is linked through the longest directory of a link that covers it.  What covers one
file is told apart by its length, so links for different directories may be given in any
order.  The address is that of the directory, what follows the directory in the file,
and the line.
-/

namespace CrossDoc

namespace Path

variable {dir file : Text}

/-- The path has lost the slashes at its end, but it is still the root directory if it was. -/
structure IsStripped (path dir : Text) : Prop where
  slashes : ∃ n, path = dir ++ List.replicate n '/'
  bare : dir.getLast? = some '/' → dir = ['/']
  filled : dir = [] → path = []

theorem isStripped_dropEndSlashes (path : Text) : IsStripped path (dropEndSlashes path) := by
  obtain ⟨n, hpath⟩ := Text.trimRight_append_replicate slash path
  rw [dropEndSlashes]
  by_cases hnil : Text.trimRight (· == slash) path = []
  · rw [hnil, List.nil_append] at hpath
    rw [hnil]
    cases n with
    | zero =>
        rw [hpath]
        exact ⟨⟨0, rfl⟩, nofun, fun _ => rfl⟩
    | succ n =>
        rw [hpath]
        exact ⟨⟨n, rfl⟩, fun _ => rfl, nofun⟩
  · have hfilled : (Text.trimRight (· == slash) path).isEmpty = false := by simpa using hnil
    simp only [hfilled, Bool.false_and, Bool.false_eq_true, if_false]
    exact ⟨⟨n, hpath⟩, fun hlast => absurd hlast (Text.getLast?_trimRight_ne slash path),
      fun h => absurd h hnil⟩

/-- The path with a slash at its end. -/
def withEndSlash (dir : Text) : Text := if dir.getLast? = some '/' then dir else dir ++ ['/']

/-- The file is the directory, which is not empty, or its path goes on below it. -/
def Covers (dir file : Text) : Prop := dir ≠ [] ∧ (file = dir ∨ withEndSlash dir <+: file)

theorem covers_iff : covers dir file = true ↔ Covers dir file := by
  rw [covers, Bool.and_eq_true, Bool.or_eq_true, beq_iff_eq, Text.startsWith_iff]
  simp [Covers, withEndSlash, endsWithSlash, slash]

theorem prefix_withEndSlash (dir : Text) : dir <+: withEndSlash dir := by
  rw [withEndSlash]
  split
  · exact List.prefix_refl dir
  · exact List.prefix_append dir ['/']

theorem Covers.isPrefix (h : Covers dir file) : dir <+: file := by
  rcases h.2 with hsame | hbelow
  · exact hsame ▸ List.prefix_refl dir
  · exact (prefix_withEndSlash dir).trans hbelow

end Path

namespace SourceLink

variable {links links' : List SourceLink} {l : SourceLink} {at_ : SourceLocation} {file t : Text}

/-! ## The link of a file -/

/-- Of the links with the longest directory that covers the file the link is the first. -/
def Chooses (links : List SourceLink) (file : Text) (l : SourceLink) : Prop :=
  IsFirstLongest directory (Path.Covers · file) links l

theorem isLongestSearch : IsLongestSearch directory longest where
  nil := fun found => by rw [longest]
  first := fun _ _ => rfl
  next := fun _ _ _ => rfl

theorem Chooses.unique {k : SourceLink} (h : Chooses links file l) (h' : Chooses links file k) :
    l = k :=
  IsFirstLongest.unique (fun _ => Path.Covers.isPrefix) h h'

theorem exists_best? (h : ∃ l ∈ links, Path.Covers l.directory file) :
    ∃ l, best? links file = some l ∧ Chooses links file l :=
  isLongestSearch.exists_isFirstLongest (Path.Covers · file) (fun _ => Path.covers_iff) h

theorem best?_of_chooses (h : Chooses links file l) : best? links file = some l := by
  obtain ⟨k, hbest, hk⟩ := exists_best? ⟨l, h.mem, h.wanted⟩
  rw [hbest, h.unique hk]

theorem best?_of_forall_not (h : ∀ l ∈ links, ¬ Path.Covers l.directory file) :
    best? links file = none := by
  have hnone : links.filter (fun l => Path.covers l.directory file) = [] :=
    List.filter_eq_nil_iff.mpr fun l hl hcovers => h l hl (Path.covers_iff.mp hcovers)
  rw [best?, hnone]
  rfl

/-- The lists hold the same links, and those for one directory in the same order. -/
def SameByDirectory (links links' : List SourceLink) : Prop :=
  ∀ dir, links.filter (·.directory == dir) = links'.filter (·.directory == dir)

theorem SameByDirectory.mem (h : SameByDirectory links links') (hl : l ∈ links) : l ∈ links' := by
  have hsame : l ∈ links.filter (·.directory == l.directory) :=
    List.mem_filter.mpr ⟨hl, beq_self_eq_true _⟩
  rw [h] at hsame
  exact (List.mem_filter.mp hsame).1

theorem SameByDirectory.symm (h : SameByDirectory links links') : SameByDirectory links' links :=
  fun dir => (h dir).symm

theorem Chooses.of_sameByDirectory (h : Chooses links file l)
    (hsame : SameByDirectory links links') : Chooses links' file l where
  wanted := h.wanted
  longest := fun k hk => h.longest k (hsame.symm.mem hk)
  first := by
    have hfirst := h.first
    rwa [← List.head?_filter, hsame, List.head?_filter] at hfirst

/-- The order of links for different directories does not count. -/
theorem best?_of_sameByDirectory (h : SameByDirectory links links') (file : Text) :
    best? links' file = best? links file := by
  by_cases hcovers : ∃ l ∈ links, Path.Covers l.directory file
  · obtain ⟨l, hbest, hl⟩ := exists_best? hcovers
    rw [hbest, best?_of_chooses (hl.of_sameByDirectory h)]
  · push Not at hcovers
    rw [best?_of_forall_not hcovers, best?_of_forall_not fun l hl => hcovers l (h.symm.mem hl)]

/-! ## The address -/

/-- The address of the link without slashes at its end, what follows the directory in the file,
behind a slash, and the line if the link marks lines and there is one. -/
def IsAddress (l : SourceLink) (at_ : SourceLocation) (t : Text) : Prop :=
  ∃ base rest : Text, (∃ n, l.url = base ++ List.replicate n '/') ∧ base.getLast? ≠ some '/' ∧
    at_.file = l.directory ++ rest ∧
    t = base ++ (if rest = [] ∨ rest.head? = some '/' then rest else '/' :: rest) ++
      (if l.lineSuffix ≠ [] ∧ 0 < at_.line then l.lineSuffix ++ Text.ofNat at_.line else [])

theorem isAddress_address (h : Path.Covers l.directory at_.file) :
    l.IsAddress at_ (l.address at_) := by
  obtain ⟨rest, hrest⟩ := h.isPrefix
  refine ⟨_, rest, Text.trimRight_append_replicate '/' l.url, Text.getLast?_trimRight_ne '/' l.url,
    hrest.symm, ?_⟩
  rw [address, ← hrest, List.drop_left]
  simp [Path.slash]

theorem IsAddress.ne_nil (h : l.IsAddress at_ t) (hurl : ∃ c ∈ l.url, c ≠ '/') : t ≠ [] := by
  obtain ⟨base, rest, ⟨n, hbase⟩, -, -, rfl⟩ := h
  obtain ⟨c, hc, hne⟩ := hurl
  rw [hbase] at hc
  rcases List.mem_append.mp hc with hc | hc
  · simp [List.ne_nil_of_mem hc]
  · exact absurd (List.mem_replicate.mp hc).2 hne

theorem isAddress_resolve (h : Chooses links at_.file l) : l.IsAddress at_ (resolve links at_) := by
  rw [resolve, best?_of_chooses h]
  exact isAddress_address h.wanted

theorem resolve_eq_nil_iff (hurls : ∀ l ∈ links, ∃ c ∈ l.url, c ≠ '/') :
    resolve links at_ = [] ↔ ∀ l ∈ links, ¬ Path.Covers l.directory at_.file := by
  constructor
  · intro hnil l hl hcovers
    obtain ⟨k, -, hk⟩ := exists_best? ⟨l, hl, hcovers⟩
    exact (isAddress_resolve hk).ne_nil (hurls k hk.mem) hnil
  · intro h
    rw [resolve, best?_of_forall_not h]

/-- **Sources are linked through the longest directory.**  Where no directory of a link, taken
without slashes at its end, covers the file, there is no address.  Otherwise one link is chosen,
the first of those with the longest directory that covers the file, and the address is made of it.
The order of links for different directories does not count. -/
theorem resolve_longestDirectory (links : List SourceLink) (at_ : SourceLocation)
    (hurls : ∀ l ∈ links, ∃ c ∈ l.url, c ≠ '/') :
    (∀ l : SourceLink, Path.IsStripped l.path l.directory) ∧
    (resolve links at_ = [] ↔ ∀ l ∈ links, ¬ Path.Covers l.directory at_.file) ∧
    ((∃ l ∈ links, Path.Covers l.directory at_.file) → ∃! l, Chooses links at_.file l) ∧
    (∀ l, Chooses links at_.file l → l.IsAddress at_ (resolve links at_)) ∧
    ∀ links', SameByDirectory links links' → resolve links' at_ = resolve links at_ := by
  refine ⟨fun l => Path.isStripped_dropEndSlashes l.path, resolve_eq_nil_iff hurls, fun h => ?_,
    fun l => isAddress_resolve, fun links' h => ?_⟩
  · obtain ⟨l, -, hl⟩ := exists_best? h
    exact ⟨l, hl, fun k hk => hk.unique hl⟩
  · rw [resolve, best?_of_sameByDirectory h, resolve]

/-- Two links for one directory, one for the directory above, one for a directory with a shorter
name beside it, and one for the root directory. -/
def nestedLinks : List SourceLink := [
  { path := "src", url := "https://example.org/blob/main/src/" },
  { path := "src/jvm//", url := "https://jvm.example.org/tree", lineSuffix := "#L" },
  { path := "src/jvm", url := "https://example.org/" },
  { path := "src/jv", url := "https://example.org" },
  { path := "//", url := "https://example.org" }]

theorem resolve_longestDirectory_nestedLinks :
    (∀ l ∈ nestedLinks, ∃ c ∈ l.url, c ≠ '/') ∧
    (∃! l, Chooses nestedLinks "src/jvm/a/B.api" l) ∧
    resolve nestedLinks ⟨"src/jvm/a/B.api", 12⟩ = "https://jvm.example.org/tree/a/B.api#L12" ∧
    resolve nestedLinks ⟨"srcs/B.api", 12⟩ = [] := by
  have hurls : ∀ l ∈ nestedLinks, ∃ c ∈ l.url, c ≠ '/' := by
    have hcolon : ∀ l ∈ nestedLinks, ':' ∈ l.url := by decide +kernel
    exact fun l hl => ⟨':', hcolon l hl, by decide⟩
  have hcovers : ∃ l ∈ nestedLinks, Path.Covers l.directory "src/jvm/a/B.api" :=
    ⟨{ path := "src", url := "https://example.org/blob/main/src/" }, by decide,
      Path.covers_iff.mp (by decide +kernel)⟩
  obtain ⟨-, -, hchosen, -, -⟩ :=
    resolve_longestDirectory nestedLinks ⟨"src/jvm/a/B.api", 12⟩ hurls
  exact ⟨hurls, hchosen hcovers, by decide +kernel, by decide +kernel⟩

end SourceLink

end CrossDoc
