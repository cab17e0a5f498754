import CrossDoc.Proofs.Filtering
import CrossDoc.Proofs.Transforming

/-!
# What the base transforms keep

A pass *admits* facts about a declaration when its options ask for none of
them to go.  The chain of base transforms keeps what is admitted together with
all above it, and nothing else, although each of its filters looks at one
condition only and a later one may undo what an earlier one found.
-/

namespace CrossDoc

/-- The options of a pass let facts about a declaration stay. -/
structure Pass.Admits (pass : Pass) (id : DeclId) (f : Facts) : Prop where
  package : (pass.optionsFor id.package).suppress = false
  file : ∀ at_, f.source = some at_ → isSuppressedFile pass.suppressedFiles at_.file = false
  visibility : f.visibility = .publicDecl ∨ f.visibility = .protectedDecl ∨
    (pass.optionsFor id.package).includeNonPublic = true
  deprecation : (pass.optionsFor id.package).skipDeprecated = true → f.deprecation = none

namespace RunContext

open Declaration

variable (c : RunContext)

/-- The pass of a platform, if there is one, admits facts about a
declaration. -/
def Admits (id : DeclId) (p : Platform) (f : Facts) : Prop :=
  ∀ pass, c.passFor? p = some pass → pass.Admits id f

/-- All that a declaration says on a platform is admitted. -/
def AdmitsOn (p : Platform) (d : Declaration) : Prop :=
  ∀ f, (p, f) ∈ d.facts.entries → c.Admits d.id p f

/-- The pass of a platform asks for empty packages to go. -/
def SkipsEmpty (p : Platform) : Prop :=
  ∃ pass, c.passFor? p = some pass ∧ pass.skipEmptyPackages = true

/-- A package has a member on a platform that may stay there. -/
def HasAdmitted (p : Platform) (d : Declaration) : Prop :=
  ∃ child ∈ d.children, p ∈ child.platforms ∧ c.AdmitsOn p child

variable {c} {d e : Declaration} {p : Platform} {f : Facts}

/-! ## Tests -/

theorem keepsSuppression_iff : c.keepsSuppression d p f = true ↔
    ∀ pass, c.passFor? p = some pass → (pass.optionsFor d.id.package).suppress = false ∧
      ∀ at_, f.source = some at_ → isSuppressedFile pass.suppressedFiles at_.file = false := by
  unfold keepsSuppression
  cases c.passFor? p with
  | none => simp
  | some pass => cases f.source <;> simp

theorem keepsVisibility_iff : c.keepsVisibility d p f = true ↔
    ∀ pass, c.passFor? p = some pass → f.visibility = .publicDecl ∨
      f.visibility = .protectedDecl ∨ (pass.optionsFor d.id.package).includeNonPublic = true := by
  unfold keepsVisibility optionsFor?
  cases c.passFor? p with
  | none => simp
  | some pass => cases f.visibility <;> simp [Visibility.isExposed]

theorem keepsDeprecation_iff : c.keepsDeprecation d p f = true ↔
    ∀ pass, c.passFor? p = some pass →
      (pass.optionsFor d.id.package).skipDeprecated = true → f.deprecation = none := by
  unfold keepsDeprecation optionsFor?
  cases c.passFor? p with
  | none => simp
  | some pass => cases f.deprecation <;> simp

/-- The first three filters together ask for what is admitted. -/
theorem admits_iff : c.Admits d.id p f ↔
    c.keepsSuppression d p f = true ∧ c.keepsVisibility d p f = true ∧
      c.keepsDeprecation d p f = true := by
  rw [keepsSuppression_iff, keepsVisibility_iff, keepsDeprecation_iff]
  constructor
  · intro h
    refine ⟨fun pass hpass => ?_, fun pass hpass => ?_, fun pass hpass => ?_⟩
    · exact ⟨(h pass hpass).package, (h pass hpass).file⟩
    · exact (h pass hpass).visibility
    · exact (h pass hpass).deprecation
  · rintro ⟨hsuppression, hvisibility, hdeprecation⟩ pass hpass
    exact ⟨(hsuppression pass hpass).1, (hsuppression pass hpass).2, hvisibility pass hpass,
      hdeprecation pass hpass⟩

theorem keepsPackage_iff : c.keepsPackage d p f = true ↔
    (d.kind = .package → c.SkipsEmpty p → ∃ child ∈ d.children, p ∈ child.platforms) := by
  unfold keepsPackage SkipsEmpty
  simp only [Bool.or_eq_true, List.any_eq_true, PlatformMap.isSome_find?, bne_iff_ne]
  cases c.passFor? p with
  | none => simp
  | some pass =>
      by_cases hkind : d.kind = .package
      · cases hskip : pass.skipEmptyPackages <;> simp [hkind, hskip, Declaration.platforms]
      · simp [hkind]

/-! ## One filter -/

/-- A declaration says something on a platform, and all of it is admitted. -/
def StandsOn (c : RunContext) (p : Platform) (d : Declaration) : Prop :=
  p ∈ d.platforms ∧ c.AdmitsOn p d

theorem StandsOn.of_keepsOn (h : c.StandsOn p d) (hkeeps : KeepsOn p (fun g => g) d e) :
    c.StandsOn p e := by
  refine ⟨hkeeps.mem_platforms h.1, ?_⟩
  intro g hg
  obtain ⟨old, hold, rfl⟩ := (hkeeps.entries g).mp hg
  rw [id_eq_of_label hkeeps.label]
  exact h.2 _ hold

theorem forall₂_standing {ds es : List Declaration}
    (h : List.Forall₂ (KeepsOn p fun g => g) ds es) (hstands : ∀ d ∈ ds, c.StandsOn p d) :
    ∀ e ∈ es, c.StandsOn p e := by
  induction h with
  | nil =>
      intro e he
      cases he
  | cons hkeeps _ ih =>
      intro e he
      rcases List.mem_cons.mp he with rfl | he
      · exact (hstands _ (by simp)).of_keepsOn hkeeps
      · exact ih (fun d hd => hstands d (List.mem_cons_of_mem _ hd)) e he

/-- A filter that keeps what is admitted keeps the lines that stand. -/
theorem exists_standing_line {keep : KeepTest} {siblings ds : List Declaration}
    (hkeep : ∀ d g, c.Admits d.id p g → keep d p g = true) (hline : IsLine siblings ds)
    (hstands : ∀ d ∈ ds, c.StandsOn p d) :
    ∃ es, IsLine (filterAll keep [] siblings) es ∧ List.Forall₂ (KeepsOn p fun g => g) ds es ∧
      ∀ e ∈ es, c.StandsOn p e := by
  obtain ⟨es, hes, hsame⟩ := exists_line_filterAll hline List.not_mem_nil
    (fun d hd => (hstands d hd).1) (fun d hd g hg => hkeep d g ((hstands d hd).2 g hg))
  exact ⟨es, hes, hsame, forall₂_standing hsame hstands⟩

/-! ## Empty packages -/

theorem membersPlain_filterAll {ds : List Declaration} (h : MembersPlain ds) (keep : KeepTest)
    (removed : List Platform) : MembersPlain (filterAll keep removed ds) := by
  intro q hq n hn
  obtain ⟨d, hd, above, hdq⟩ := exists_of_mem_filterAll hq
  rw [(eq_of_filter hdq).2.2, filterAll_eq_filterMap] at hn
  obtain ⟨b, hb, hbn⟩ := List.mem_filterMap.mp hn
  rw [kind_eq_of_label (eq_of_filter hbn).1]
  exact h d hd b hb

/-- The test for empty packages holds along a line that does not end with a
package on a platform from which empty ones go. -/
theorem keepsPackage_of_line {siblings es : List Declaration} (hline : IsLine siblings es)
    (hon : ∀ e ∈ es, p ∈ e.platforms) (hplain : ∀ e ∈ es.tail, e.kind ≠ .package)
    (hskip : ∀ e, es = [e] → ¬ c.SkipsEmpty p) : ∀ e ∈ es, ∀ g, c.keepsPackage e p g = true := by
  intro e he g
  rw [keepsPackage_iff]
  intro hkind hempty
  obtain ⟨b, rest, rfl⟩ := List.exists_cons_of_ne_nil (List.ne_nil_of_mem he)
  rcases List.mem_cons.mp he with rfl | he
  · -- A package can only be the first; what comes next in the line is a member of it.
    cases rest with
    | nil => exact absurd hempty (hskip e rfl)
    | cons b' rest => exact ⟨b', hline.2.1, hon b' (by simp)⟩
  · exact absurd hkind (hplain e he)

/-- A package that the filter for empty ones leaves has a member left. -/
theorem exists_child_of_keepsPackage {ds : List Declaration} {removed : List Platform}
    {n : Declaration} (hplain : MembersPlain ds)
    (hn : n ∈ flattenAll (filterAll c.keepsPackage removed ds)) (hkind : n.kind = .package)
    (hp : p ∈ n.platforms) (hskip : c.SkipsEmpty p) :
    ∃ child ∈ n.children, p ∈ child.platforms := by
  obtain ⟨d, hd, above, hdn⟩ := exists_of_mem_filterAll hn
  obtain ⟨hlabel, hfacts, hchildren⟩ := eq_of_filter hdn
  obtain ⟨f, hf⟩ := mem_platforms_iff.mp hp
  rw [hfacts, mem_keptFacts] at hf
  obtain ⟨-, habove, hkeep⟩ := hf
  obtain ⟨child, hchild, hon⟩ :=
    keepsPackage_iff.mp hkeep ((kind_eq_of_label hlabel).symm.trans hkind) hskip
  -- The test does not look at the facts, so `d` loses the platform with no entry.
  have hstays : p ∉ above ++ d.droppedPlatforms c.keepsPackage above := by
    rw [List.mem_append, mem_droppedPlatforms]
    rintro (h | ⟨g, _, h | h⟩)
    · exact habove h
    · exact habove h
    · have hsame : c.keepsPackage d p g = c.keepsPackage d p f := rfl
      rw [hsame, hkeep] at h
      cases h
  have hline : IsLine d.children [child] := ⟨hchild, trivial⟩
  have hpasses : ∀ x ∈ [child], ∀ g, (p, g) ∈ x.facts.entries → c.keepsPackage x p g = true := by
    intro x hx g _
    rw [List.mem_singleton.mp hx, keepsPackage_iff]
    exact fun hpackage => absurd hpackage (hplain d hd child hchild)
  obtain ⟨es, hes, hsame⟩ := exists_line_filterAll hline hstays (by simpa using hon) hpasses
  cases hsame with
  | cons h _ => exact ⟨_, hchildren ▸ hes.1, h.mem_platforms hon⟩

/-! ## What the first three filters leave -/

/-- The declarations that filtering by suppression, visibility and deprecation
leaves. -/
def exposed (c : RunContext) (ds : List Declaration) : List Declaration :=
  filterAll c.keepsDeprecation []
    (filterAll c.keepsVisibility [] (filterAll c.keepsSuppression [] ds))

theorem membersPlain_exposed {ds : List Declaration} (h : MembersPlain ds) :
    MembersPlain (c.exposed ds) :=
  membersPlain_filterAll (membersPlain_filterAll (membersPlain_filterAll h _ []) _ []) _ []

theorem forall₂_keepsOn_trans {change : Declaration → Facts → Facts} :
    ∀ {ds es bs : List Declaration}, List.Forall₂ (KeepsOn p fun g => g) ds es →
      List.Forall₂ (fun e => KeepsOn p (change e) e) es bs →
      (∀ d e, change e = change d) → List.Forall₂ (fun d => KeepsOn p (change d) d) ds bs
  | _, _, _, .nil, .nil, _ => .nil
  | _, _, _, .cons h hs, .cons h' hs', hchange =>
      .cons (hchange _ _ ▸ h.trans h') (forall₂_keepsOn_trans hs hs' hchange)

/-- A line that stands is found again behind the three filters, and still
stands. -/
theorem exists_line_exposed {siblings ds : List Declaration} (hline : IsLine siblings ds)
    (hstands : ∀ d ∈ ds, c.StandsOn p d) :
    ∃ es, IsLine (c.exposed siblings) es ∧ List.Forall₂ (KeepsOn p fun g => g) ds es ∧
      ∀ e ∈ es, c.StandsOn p e := by
  obtain ⟨es₁, hline₁, hsame₁, hstands₁⟩ :=
    exists_standing_line (fun _ _ h => (admits_iff.mp h).1) hline hstands
  obtain ⟨es₂, hline₂, hsame₂, hstands₂⟩ :=
    exists_standing_line (fun _ _ h => (admits_iff.mp h).2.1) hline₁ hstands₁
  obtain ⟨es₃, hline₃, hsame₃, hstands₃⟩ :=
    exists_standing_line (fun _ _ h => (admits_iff.mp h).2.2) hline₂ hstands₂
  have hsame := forall₂_keepsOn_trans hsame₁ hsame₂ fun _ _ => rfl
  exact ⟨es₃, hline₃, forall₂_keepsOn_trans hsame hsame₃ fun _ _ => rfl, hstands₃⟩

/-- What the three filters leave was there before, and is admitted. -/
theorem admits_of_mem_exposed {ds : List Declaration} {n : Declaration}
    (hn : n ∈ flattenAll (c.exposed ds)) (hf : (p, f) ∈ n.facts.entries) :
    ∃ d ∈ flattenAll ds, d.label = n.label ∧ (p, f) ∈ d.facts.entries ∧ c.Admits d.id p f := by
  obtain ⟨d₃, hd₃, hlabel₃, hf₃, hdeprecation⟩ := passes_of_mem_filterAll hn hf
  obtain ⟨d₂, hd₂, hlabel₂, hf₂, hvisibility⟩ := passes_of_mem_filterAll hd₃ hf₃
  obtain ⟨d₁, hd₁, hlabel₁, hf₁, hsuppression⟩ := passes_of_mem_filterAll hd₂ hf₂
  refine ⟨d₁, hd₁, hlabel₁.trans (hlabel₂.trans hlabel₃), hf₁, ?_⟩
  -- Each test was passed by another declaration, but looks at its identity only.
  rw [admits_iff]
  refine ⟨hsuppression, ?_, ?_⟩
  · rw [keepsVisibility_iff, id_eq_of_label hlabel₁]
    exact keepsVisibility_iff.mp hvisibility
  · rw [keepsDeprecation_iff, id_eq_of_label (hlabel₁.trans hlabel₂)]
    exact keepsDeprecation_iff.mp hdeprecation

/-! ## The chain -/

/-- A line that stands is found again after the whole chain, but for a package
alone on a platform from which empty packages go. -/
theorem exists_line_refined {m : DocModule} {ds : List Declaration}
    (hplain : MembersPlain m.packages) (hline : IsLine m.packages ds)
    (hstands : ∀ d ∈ ds, c.StandsOn p d) (hskip : ∀ d, ds = [d] → ¬ c.SkipsEmpty p) :
    ∃ es, IsLine (c.refined m).packages es ∧
      List.Forall₂ (fun d => KeepsOn p (c.linkSource d p) d) ds es := by
  obtain ⟨es, hes, hsame, hesStand⟩ := exists_line_exposed hline hstands
  have htail : ∀ e ∈ es.tail, e.kind ≠ .package := by
    cases es with
    | nil => simp
    | cons b rest =>
        intro e he
        obtain ⟨q, hq, heq⟩ := IsLine.member (mem_flattenAll_self hes.1) hes.2 e he
        exact membersPlain_exposed hplain q hq e heq
  have halone : ∀ e, es = [e] → ¬ c.SkipsEmpty p := by
    rintro e rfl
    obtain ⟨d, rfl⟩ := List.length_eq_one_iff.mp hsame.length_eq
    exact hskip d rfl
  have hpasses := keepsPackage_of_line hes (fun e he => (hesStand e he).1) htail halone
  obtain ⟨es₁, hes₁, hsame₁⟩ := exists_line_filterAll hes List.not_mem_nil
    (fun e he => (hesStand e he).1) (fun e he g _ => hpasses e he g)
  obtain ⟨es₂, hes₂, hsame₂⟩ := exists_line_mapFactsAll p hes₁
  refine ⟨es₂, hes₂, ?_⟩
  exact forall₂_keepsOn_trans (forall₂_keepsOn_trans hsame hsame₁ fun _ _ => rfl) hsame₂
    fun _ _ => rfl

/-- What stands on a platform after the chain stood there before, and is
admitted. -/
theorem exists_of_mem_refined {m : DocModule} {n : Declaration}
    (hn : n ∈ (c.refined m).declarations) (hf : (p, f) ∈ n.facts.entries) :
    ∃ d ∈ m.declarations, d.label = n.label ∧
      ∃ old, (p, old) ∈ d.facts.entries ∧ f = c.linkSource d p old ∧ c.Admits d.id p old := by
  obtain ⟨b, hb, rfl⟩ := exists_of_mem_mapFactsAll hn
  obtain ⟨old, hold, rfl⟩ := mem_entries_mapFacts.mp hf
  obtain ⟨e, he, hlabel, hold, -⟩ := passes_of_mem_filterAll hb hold
  obtain ⟨d, hd, hde, hold, hadmits⟩ := admits_of_mem_exposed he hold
  have hsame : d.label = (b.mapFacts c.linkSource).label :=
    (hde.trans hlabel).trans (label_mapFacts b).symm
  exact ⟨d, hd, hsame, old, hold, rfl, hadmits⟩

/-- Source links change nothing that a pass looks at. -/
theorem Admits.linkSource {id : DeclId} (h : c.Admits id p f) (d : Declaration) :
    c.Admits id p (c.linkSource d p f) := by
  have hkept : (c.linkSource d p f).source = f.source ∧
      (c.linkSource d p f).visibility = f.visibility ∧
      (c.linkSource d p f).deprecation = f.deprecation := by
    unfold RunContext.linkSource
    split
    · dsimp only
      split <;> exact ⟨rfl, rfl, rfl⟩
    · exact ⟨rfl, rfl, rfl⟩
  obtain ⟨hsource, hvisibility, hdeprecation⟩ := hkept
  intro pass hpass
  have ha := h pass hpass
  refine ⟨ha.package, ?_, ?_, ?_⟩
  · rw [hsource]
    exact ha.file
  · rw [hvisibility]
    exact ha.visibility
  · rw [hdeprecation]
    exact ha.deprecation

/-- `final` keeps of the module `m` what the passes admit. -/
structure IsRefinement (c : RunContext) (m final : DocModule) : Prop where
  /-- What is kept is admitted. -/
  admitted : ∀ n ∈ final.declarations, ∀ p f, (p, f) ∈ n.facts.entries → c.Admits n.id p f
  /-- A package has a member wherever empty ones go. -/
  inhabited : ∀ n ∈ final.declarations, n.kind = .package → ∀ p ∈ n.platforms,
    c.SkipsEmpty p → ∃ child ∈ n.children, p ∈ child.platforms
  /-- What is kept was there before, up to source links. -/
  origin : ∀ n ∈ final.declarations, ∀ p f, (p, f) ∈ n.facts.entries →
    ∃ d ∈ m.declarations, d.label = n.label ∧
      ∃ old, (p, old) ∈ d.facts.entries ∧ f = c.linkSource d p old
  /-- A declaration that is admitted on a platform with all that encloses it is
  kept there with all that encloses it.  A package alone needs a member that is
  admitted where empty ones go. -/
  complete : ∀ ds p, IsLine m.packages ds → (∀ d ∈ ds.getLast?, p ∈ d.platforms) →
    (∀ d ∈ ds, c.AdmitsOn p d) → (∀ d, ds = [d] → c.SkipsEmpty p → c.HasAdmitted p d) →
    ∃ es, IsLine final.packages es ∧
      List.Forall₂ (fun d => KeepsOn p (c.linkSource d p) d) ds es

theorem isRefinement_refined {m : DocModule} (hplain : MembersPlain m.packages)
    (hnested : ∀ q ∈ m.declarations, ∀ n ∈ q.children, n.platforms ⊆ q.platforms) :
    c.IsRefinement m (c.refined m) where
  admitted n hn p f hf := by
    obtain ⟨d, _, hlabel, old, _, rfl, hadmits⟩ := exists_of_mem_refined hn hf
    rw [← id_eq_of_label hlabel]
    exact hadmits.linkSource d
  inhabited n hn hkind p hp hskip := by
    obtain ⟨d, hd, rfl⟩ := exists_of_mem_mapFactsAll hn
    rw [kind_eq_of_label (label_mapFacts d)] at hkind
    rw [platforms_mapFacts] at hp
    obtain ⟨child, hchild, hon⟩ :=
      exists_child_of_keepsPackage (membersPlain_exposed hplain) hd hkind hp hskip
    refine ⟨child.mapFacts c.linkSource, ?_, ?_⟩
    · rw [children_mapFacts]
      exact List.mem_map_of_mem hchild
    · rw [platforms_mapFacts]
      exact hon
  origin n hn p f hf := by
    obtain ⟨d, hd, hlabel, old, hold, hf, _⟩ := exists_of_mem_refined hn hf
    exact ⟨d, hd, hlabel, old, hold, hf⟩
  complete ds p hline hlast hadmits hpackage := by
    have hon := IsLine.platform hnested (fun _ => mem_flattenAll_self) hline hlast
    have hstands : ∀ d ∈ ds, c.StandsOn p d := fun d hd => ⟨hon d hd, hadmits d hd⟩
    by_cases halone : ∃ d, ds = [d] ∧ c.SkipsEmpty p
    · -- The line down to the member is kept, and so is its first declaration.
      obtain ⟨d, rfl, hskip⟩ := halone
      obtain ⟨child, hchild, hchildStands⟩ := hpackage d rfl hskip
      have hboth : ∀ x ∈ [d, child], c.StandsOn p x := by
        intro x hx
        rcases List.mem_cons.mp hx with rfl | hx
        · exact hstands x (by simp)
        · exact List.mem_singleton.mp hx ▸ hchildStands
      obtain ⟨es, hes, hsame⟩ := exists_line_refined hplain
        (show IsLine m.packages [d, child] from ⟨hline.1, hchild, trivial⟩) hboth
        (by simp)
      cases hsame with
      | cons h _ => exact ⟨[_], ⟨hes.1, trivial⟩, .cons h .nil⟩
    · exact exists_line_refined hplain hline hstands fun d hd hskip => halone ⟨d, hd, hskip⟩

end RunContext

namespace DocModule

/-- Exactly the roots of a module are packages. -/
def PackagesOnTop (m : DocModule) : Prop :=
  (∀ d ∈ m.packages, d.kind = .package) ∧
    ∀ q ∈ m.declarations, ∀ n ∈ q.children, n.kind ≠ .package

/-- The platforms of a member are among those of its owner. -/
def PlatformsNested (m : DocModule) : Prop :=
  ∀ q ∈ m.declarations, ∀ n ∈ q.children, n.platforms ⊆ q.platforms

instance (m : DocModule) : Decidable m.PackagesOnTop :=
  inferInstanceAs (Decidable (_ ∧ _))

instance (m : DocModule) : Decidable m.PlatformsNested :=
  inferInstanceAs (Decidable (∀ q ∈ m.declarations, ∀ n ∈ q.children, _))

theorem Annotates.packagesOnTop {m r : DocModule} (h : m.Annotates r) (hm : m.PackagesOnTop) :
    r.PackagesOnTop := by
  constructor
  · obtain ⟨g, hg, hr⟩ := h
    intro d hd
    rw [hr] at hd
    obtain ⟨b, hb, rfl⟩ := List.mem_map.mp hd
    exact (Declaration.kind_eq_of_label (hg b).label).trans (hm.1 b hb)
  · intro q hq n hn
    obtain ⟨d, hd, hdq⟩ := h.exists_of_mem hq
    exact hm.2 d hd n (hdq.children ▸ hn)

theorem Annotates.platformsNested {m r : DocModule} (h : m.Annotates r)
    (hm : m.PlatformsNested) : r.PlatformsNested := by
  intro q hq n hn
  obtain ⟨d, hd, hdq⟩ := h.exists_of_mem hq
  rw [hdq.platforms]
  exact hm d hd n (hdq.children ▸ hn)

end DocModule

namespace RunContext

/-- The include files of all passes can be read. -/
def IncludesReadable (c : RunContext) : Prop :=
  ∀ a ∈ c.passes, ∀ path ∈ a.pass.includes, (c.disk.read? path).isSome

instance (c : RunContext) : Decidable c.IncludesReadable :=
  inferInstanceAs (Decidable (∀ a ∈ c.passes, ∀ path ∈ a.pass.includes, _))

/-- **The base transforms keep what is admitted, and nothing else.**  They do
not fail when the include files can be read, and refine what these made of the
module. -/
theorem applyAll_isRefinement (c : RunContext) (m : DocModule) (htop : m.PackagesOnTop)
    (hnested : m.PlatformsNested) (hread : c.IncludesReadable) :
    ∃ documented final, (BaseTransform.moduleDocumentation.apply m c).value = .ok documented ∧
      m.Annotates documented ∧ (BaseTransform.applyAll BaseTransform.all m c).value = .ok final ∧
      c.IsRefinement documented final := by
  obtain ⟨documented, hdocumented⟩ := DocModule.applyAllIncludes_ok m hread
  have hannotates := DocModule.annotates_applyAllIncludes hdocumented
  refine ⟨documented, c.refined documented, hdocumented, hannotates, ?_, ?_⟩
  · rw [BaseTransform.value_applyAll_all, BaseTransform.value_moduleDocumentation, hdocumented]
  · exact isRefinement_refined (hannotates.packagesOnTop htop).2
      (hannotates.platformsNested hnested)

/-- A pass that reads one include file and wants nothing deprecated. -/
def sampleContext : RunContext :=
  let pass : Pass := { moduleName := "m", includes := ["notes.md"], skipDeprecated := true }
  { passes := [⟨pass.platform, pass, none⟩]
    disk := ⟨.file "notes.md" "# Package b\n@deprecated gone\n" .empty⟩ }

/-- Two packages, each with a class that is public and one that is not. -/
def sampleModule : DocModule :=
  let facts (v : Visibility) : FactsMap :=
    .singleton ⟨"m", .jvm, []⟩ { signature := "class", visibility := v }
  let member (a : DeclId) (name : Text) (v : Visibility) : Declaration :=
    { kind := .classType, name := name, id := a.withClass name, parent := some a, facts := facts v }
  let package (name : Text) : Declaration :=
    let a : DeclId := .ofPackage name
    { name := name
      id := a
      facts := facts .publicDecl
      children := [member a "Shown" .publicDecl, member a "Hidden" .internalDecl] }
  { name := "m", facts := facts .publicDecl, packages := [package "a", package "b"] }

theorem applyAll_isRefinement_sample :
    sampleModule.PackagesOnTop ∧ sampleModule.PlatformsNested ∧
      sampleContext.IncludesReadable ∧ ∃ documented final,
        (BaseTransform.moduleDocumentation.apply sampleModule sampleContext).value =
          .ok documented ∧ sampleModule.Annotates documented ∧
        (BaseTransform.applyAll BaseTransform.all sampleModule sampleContext).value = .ok final ∧
        sampleContext.IsRefinement documented final :=
  ⟨by decide, by decide, by decide,
    applyAll_isRefinement sampleContext sampleModule (by decide) (by decide) (by decide)⟩

end RunContext

end CrossDoc
