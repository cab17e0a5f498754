import CrossDoc.Proofs.Filtering
import CrossDoc.Proofs.PlatformUnion

/-!
# What survives a filter

A filter carries the platforms it has dropped down the tree and tests every
declaration as it was given, not as the filter has left it.  What is left is told
without that list: a declaration keeps a platform if the test holds on it wherever
it stands on the way down, and goes with all below it once it has no platform left.
A member may stand on platforms that its owner lacks; these are decided below the
owner alone, but they go too if the owner goes.
-/

namespace CrossDoc

namespace Declaration

/-! ## Declarations in their places -/

mutual

/-- A declaration and all below it in depth-first order, each with the
declarations that enclose it, the innermost first. -/
def walk (above : List Declaration) : Declaration → List (Declaration × List Declaration)
  | ⟨kind, name, id, parent, facts, children⟩ =>
      (⟨kind, name, id, parent, facts, children⟩, above) ::
        walkAll (⟨kind, name, id, parent, facts, children⟩ :: above) children

def walkAll (above : List Declaration) :
    List Declaration → List (Declaration × List Declaration)
  | [] => []
  | d :: rest => d.walk above ++ walkAll above rest

end

section

variable (keep : KeepTest)

/-- The test holds on the platform wherever this stands on a way up. -/
def PassesOn (p : Platform) (way : List Declaration) : Prop :=
  ∀ a ∈ way, ∀ f ∈ a.facts.find? p, keep a p f = true

/-- On a way up every declaration retains a platform: one of its own on which the
test holds from there upwards. -/
def Stays : List Declaration → Prop
  | [] => True
  | d :: above => (∃ p ∈ d.platforms, PassesOn keep p (d :: above)) ∧ Stays above

instance (p : Platform) (way : List Declaration) : Decidable (PassesOn keep p way) :=
  inferInstanceAs (Decidable (∀ a ∈ way, ∀ f ∈ a.facts.find? p, keep a p f = true))

instance decidableStays : ∀ way : List Declaration, Decidable (Stays keep way)
  | [] => isTrue trivial
  | d :: above =>
      have := decidableStays above
      inferInstanceAs (Decidable ((∃ p ∈ d.platforms, PassesOn keep p (d :: above)) ∧ _))

/-- What a filter makes of a declaration in its place.  Kind, name, identity and
parent reference are those it had, here and above; of its facts those are left, as
they were and in their order, that stand on a platform on which the test holds from
there upwards. -/
structure KeptAs (x y : Declaration × List Declaration) : Prop where
  above : y.2.map label = x.2.map label
  label : y.1.label = x.1.label
  facts : y.1.facts = x.1.facts.filter fun p _ => decide (PassesOn keep p (x.1 :: x.2))

end

variable {keep : KeepTest} {p : Platform} {d e : Declaration} {above above' : List Declaration}
  {removed : List Platform}

theorem walk_eq (d : Declaration) (above : List Declaration) :
    d.walk above = (d, above) :: walkAll (d :: above) d.children := by
  cases d
  rw [walk]

theorem passesOn_cons :
    PassesOn keep p (d :: above) ↔
      (∀ f ∈ d.facts.find? p, keep d p f = true) ∧ PassesOn keep p above :=
  List.forall_mem_cons

/-- Where a declaration stays, all above it stay. -/
theorem Stays.of_suffix {way way' : List Declaration} (h : Stays keep way) (hway : way' <:+ way) :
    Stays keep way' := by
  induction way with
  | nil => rwa [List.suffix_nil.mp hway]
  | cons d above ih =>
      rcases List.suffix_cons_iff.mp hway with rfl | hway
      · exact h
      · exact ih h.2 hway

mutual

/-- The way up from what stands below a declaration leads through it. -/
theorem suffix_of_mem_walk : ∀ (d : Declaration) {above : List Declaration},
    ∀ x ∈ d.walk above, d :: above <:+ x.1 :: x.2
  | ⟨_, _, _, _, _, children⟩, above, x, hx => by
      rw [walk] at hx
      rcases List.mem_cons.mp hx with rfl | hx
      · exact List.suffix_rfl
      · exact (suffix_of_mem_walkAll children x hx).trans (List.suffix_cons x.1 x.2)

theorem suffix_of_mem_walkAll : ∀ (ds : List Declaration) {above : List Declaration},
    ∀ x ∈ walkAll above ds, above <:+ x.2
  | [], _, _, hx => nomatch hx
  | d :: rest, above, x, hx => by
      rw [walkAll] at hx
      rcases List.mem_append.mp hx with hx | hx
      · rcases List.suffix_cons_iff.mp (suffix_of_mem_walk d x hx) with heq | hbelow
        · exact (List.cons.inj heq).2 ▸ List.suffix_rfl
        · exact (List.suffix_cons d above).trans hbelow
      · exact suffix_of_mem_walkAll rest x hx

end

/-! ## On the way down -/

/-- How a filter stands before what a declaration encloses: the platforms it has
removed are those that fail further up, and all above has stayed. -/
structure Reaches (keep : KeepTest) (removed : List Platform)
    (above above' : List Declaration) : Prop where
  labels : above'.map label = above.map label
  stays : Stays keep above
  removed : ∀ p, p ∈ removed ↔ ¬ PassesOn keep p above

/-- With one entry for each platform, the entries that a filter keeps are told by
the platform. -/
theorem Reaches.keptFacts_eq (h : Reaches keep removed above above') (hd : d.facts.Distinct) :
    d.keptFacts keep removed =
      d.facts.filter fun p _ => decide (PassesOn keep p (d :: above)) := by
  apply PlatformMap.eq_of_entries
  apply List.filter_congr
  rintro ⟨p, f⟩ hf
  have hfind : d.facts.find? p = some f := (PlatformMap.mem_entries_iff hd).mp hf
  have hremoved : removed.contains p = !decide (PassesOn keep p above) := by
    rw [Bool.eq_iff_iff, List.contains_iff_mem, h.removed]
    simp
  have hpasses : decide (PassesOn keep p (d :: above)) =
      (keep d p f && decide (PassesOn keep p above)) := by
    rw [Bool.eq_iff_iff]
    simp [passesOn_cons, hfind]
  dsimp only
  rw [dropsFrom, hremoved, hpasses]
  cases keep d p f <;> simp

theorem Reaches.keptFacts_empty_iff (h : Reaches keep removed above above')
    (hd : d.facts.Distinct) :
    (d.keptFacts keep removed).entries = [] ↔
      ¬ ∃ p ∈ d.platforms, PassesOn keep p (d :: above) := by
  rw [h.keptFacts_eq hd, PlatformMap.filter, List.filter_eq_nil_iff]
  constructor
  · rintro hnone ⟨p, hp, hpasses⟩
    obtain ⟨f, hf⟩ := mem_platforms_iff.mp hp
    exact hnone (p, f) hf (decide_eq_true hpasses)
  · rintro hnone ⟨p, f⟩ hf hpasses
    exact hnone ⟨p, mem_platforms_iff.mpr ⟨f, hf⟩, of_decide_eq_true hpasses⟩

/-- A filter goes on with what it removes at a declaration that stays. -/
theorem Reaches.below (h : Reaches keep removed above above') (hd : d.facts.Distinct)
    (hstays : ∃ p ∈ d.platforms, PassesOn keep p (d :: above)) (hlabel : e.label = d.label) :
    Reaches keep (removed ++ d.droppedPlatforms keep removed) (d :: above) (e :: above') := by
  refine ⟨?_, ⟨hstays, h.stays⟩, fun p => ?_⟩
  · rw [List.map_cons, List.map_cons, hlabel, h.labels]
  · rw [List.mem_append, mem_droppedPlatforms, passesOn_cons, h.removed]
    simp only [PlatformMap.mem_entries_iff hd]
    constructor
    · rintro (hp | ⟨f, hf, hp | hkeep⟩) ⟨hhere, habove⟩
      · exact hp habove
      · exact hp habove
      · exact absurd (hhere f hf) (by simp [hkeep])
    · intro hfails
      by_cases habove : PassesOn keep p above
      · have hhere : ∃ f, d.facts.find? p = some f ∧ keep d p f = false := by
          by_contra hnone
          refine hfails ⟨fun f hf => ?_, habove⟩
          by_contra hkeep
          exact hnone ⟨f, hf, by simpa using hkeep⟩
        obtain ⟨f, hf, hkeep⟩ := hhere
        exact Or.inr ⟨f, hf, Or.inr hkeep⟩
      · exact Or.inl habove

/-- A declaration of a walk stays in its place. -/
def staysAt (keep : KeepTest) (x : Declaration × List Declaration) : Bool :=
  decide (Stays keep (x.1 :: x.2))

theorem filter_staysAt_walk (hstays : Stays keep (d :: above)) :
    (d.walk above).filter (staysAt keep) =
      (d, above) :: (walkAll (d :: above) d.children).filter (staysAt keep) := by
  rw [walk_eq, List.filter_cons_of_pos]
  exact decide_eq_true hstays

/-- Nothing stays below a declaration that does not stay. -/
theorem filter_staysAt_walk_of_not (hstays : ¬ Stays keep (d :: above)) :
    (d.walk above).filter (staysAt keep) = [] := by
  rw [List.filter_eq_nil_iff]
  intro x hx hsx
  exact hstays ((of_decide_eq_true hsx : Stays keep _).of_suffix (suffix_of_mem_walk d x hx))

mutual

/-- What a filter leaves of a tree is, place by place, what stays of it. -/
theorem forall₂_walk_filter : ∀ (d : Declaration) {removed : List Platform}
    {above above' : List Declaration}, (∀ n ∈ d.flatten, n.facts.Distinct) →
      Reaches keep removed above above' →
        List.Forall₂ (KeptAs keep) ((d.walk above).filter (staysAt keep))
          ((d.filter keep removed).toList.flatMap (walk above'))
  | ⟨kind, name, id, parent, facts, children⟩, removed, above, above', hdistinct, h => by
      let d : Declaration := ⟨kind, name, id, parent, facts, children⟩
      rw [flatten_eq, List.forall_mem_cons] at hdistinct
      obtain ⟨hd, hbelow⟩ := hdistinct
      by_cases hstays : ∃ p ∈ d.platforms, PassesOn keep p (d :: above)
      · have hkept := mt (h.keptFacts_empty_iff hd).mp (not_not_intro hstays)
        rw [filter_staysAt_walk ⟨hstays, h.stays⟩, filter_eq,
          if_neg (by rwa [List.isEmpty_iff]), Option.toList_some, List.flatMap_singleton, walk_eq]
        exact .cons ⟨h.labels, rfl, h.keptFacts_eq hd⟩
          (forall₂_walkAll_filterAll children hbelow (h.below hd hstays rfl))
      · have hkept := (h.keptFacts_empty_iff hd).mpr hstays
        rw [filter_staysAt_walk_of_not fun hs => hstays hs.1, filter_eq,
          if_pos (by rw [List.isEmpty_iff]; exact hkept)]
        exact .nil

theorem forall₂_walkAll_filterAll : ∀ (ds : List Declaration) {removed : List Platform}
    {above above' : List Declaration}, (∀ n ∈ flattenAll ds, n.facts.Distinct) →
      Reaches keep removed above above' →
        List.Forall₂ (KeptAs keep) ((walkAll above ds).filter (staysAt keep))
          (walkAll above' (filterAll keep removed ds))
  | [], _, _, _, _, _ => .nil
  | d :: rest, removed, above, above', hdistinct, h => by
      rw [flattenAll, List.forall_mem_append] at hdistinct
      have hd := forall₂_walk_filter d hdistinct.1 h
      have hrest := forall₂_walkAll_filterAll rest hdistinct.2 h
      rw [walkAll, List.filter_append, filterAll]
      cases he : d.filter keep removed with
      | none =>
          rw [he] at hd
          exact List.rel_append hd hrest
      | some e =>
          rw [he] at hd
          exact List.rel_append (by simpa using hd) hrest

end

/-! ## Forests told by their walks -/

/-- The depth of a declaration on a walk, and what it says of itself. -/
def entry (x : Declaration × List Declaration) : Nat × Label × FactsMap :=
  (x.2.length, x.1.label, x.1.facts)

theorem map_entry_walkAll_cons (d : Declaration) (above rest : List Declaration) :
    (walkAll above (d :: rest)).map entry =
      (above.length, d.label, d.facts) ::
        ((walkAll (d :: above) d.children).map entry ++ (walkAll above rest).map entry) := by
  rw [walkAll, walk_eq, List.cons_append, List.map_cons, List.map_append]
  rfl

theorem depth_of_mem_walkAll {ds : List Declaration} {k : Nat × Label × FactsMap}
    (hk : k ∈ (walkAll above ds).map entry) : above.length ≤ k.1 := by
  obtain ⟨x, hx, rfl⟩ := List.mem_map.mp hk
  exact (suffix_of_mem_walkAll ds x hx).length_le

/-- On a walk, all that is deeper than a declaration stands below it, up to its next
sibling. -/
theorem takeWhile_deeper (d : Declaration) (above rest : List Declaration) :
    ((walkAll (d :: above) d.children).map entry ++ (walkAll above rest).map entry).takeWhile
        (fun k => decide (above.length < k.1)) = (walkAll (d :: above) d.children).map entry := by
  have hdeeper : ∀ k ∈ (walkAll (d :: above) d.children).map entry,
      decide (above.length < k.1) = true :=
    fun k hk => decide_eq_true (depth_of_mem_walkAll hk)
  rw [List.takeWhile_append_of_pos hdeeper]
  cases rest with
  | nil => simp [walkAll]
  | cons e rest =>
      rw [map_entry_walkAll_cons, List.takeWhile_cons_of_neg (by simp), List.append_nil]

/-- Forests with the same entries in the same order are equal. -/
theorem eq_of_map_entry : ∀ (ds : List Declaration) {above above' es : List Declaration},
    above.length = above'.length → (walkAll above ds).map entry = (walkAll above' es).map entry →
      ds = es
  | [], _, _, [], _, _ => rfl
  | [], _, _, e :: rest, _, h => by
      rw [map_entry_walkAll_cons] at h
      cases h
  | d :: rest, _, _, [], _, h => by
      rw [map_entry_walkAll_cons] at h
      cases h
  | ⟨kind, name, id, parent, facts, children⟩ :: rest, above, above', e :: rest', hlength, h => by
      rw [map_entry_walkAll_cons, map_entry_walkAll_cons] at h
      obtain ⟨hentry, hbehind⟩ := List.cons.inj h
      have hbelow := congrArg (List.takeWhile fun k => decide (above.length < k.1)) hbehind
      rw [takeWhile_deeper, hlength, takeWhile_deeper] at hbelow
      rw [hbelow] at hbehind
      have hchildren := eq_of_map_entry children (by simp [hlength]) hbelow
      have hrest := eq_of_map_entry rest hlength (List.append_cancel_left hbehind)
      simp only [Prod.mk.injEq] at hentry
      rw [eq_of_label hentry.2.1 hentry.2.2 hchildren, hrest]

theorem KeptAs.entry_eq {x y z : Declaration × List Declaration} (hy : KeptAs keep x y)
    (hz : KeptAs keep x z) : entry y = entry z := by
  have hdepth := congrArg List.length (hy.above.trans hz.above.symm)
  rw [List.length_map, List.length_map] at hdepth
  rw [entry, entry, hdepth, hy.label, hz.label, hy.facts, hz.facts]

theorem map_entry_of_keptAs {xs ys zs : List (Declaration × List Declaration)}
    (hys : List.Forall₂ (KeptAs keep) xs ys) (hzs : List.Forall₂ (KeptAs keep) xs zs) :
    ys.map entry = zs.map entry := by
  induction hys generalizing zs with
  | nil =>
      cases hzs
      rfl
  | cons hy _ ih =>
      cases hzs with
      | cons hz hrest => rw [List.map_cons, List.map_cons, hy.entry_eq hz, ih hrest]

end Declaration

namespace DocModule

open Declaration

/-- All declarations in depth-first order, each with the declarations that enclose
it, the innermost first. -/
def walk (m : DocModule) : List (Declaration × List Declaration) := walkAll [] m.packages

/-- `r` is what a test leaves of `m`: the name and the facts of the module, and of
its declarations, one for one and in their order, those that stay in their
places. -/
structure IsFiltered (keep : KeepTest) (m r : DocModule) : Prop where
  name : r.name = m.name
  facts : r.facts = m.facts
  declarations : List.Forall₂ (KeptAs keep) (m.walk.filter (staysAt keep)) r.walk

variable {keep : KeepTest} {m r : DocModule}

theorem isFiltered_filter (h : m.PlatformsDistinct) : IsFiltered keep m (m.filter keep) where
  name := rfl
  facts := rfl
  declarations := by
    refine forall₂_walkAll_filterAll m.packages h.2 ⟨rfl, trivial, fun p => ?_⟩
    simp [PassesOn]

theorem IsFiltered.unique {r' : DocModule} (h : IsFiltered keep m r) (h' : IsFiltered keep m r') :
    r = r' := by
  have hentries := map_entry_of_keptAs h.declarations h'.declarations
  have hpackages := eq_of_map_entry r.packages rfl hentries
  cases r
  cases r'
  cases h.name.trans h'.name.symm
  cases h.facts.trans h'.facts.symm
  cases hpackages
  rfl

/-- **What survives a filter.**  In a module whose maps repeat no platform, a
declaration keeps a platform under a filter exactly if it stands on it, the test
holds on it for the declaration and for all above it that stand on it too, and
neither the declaration nor anything above it is left without a platform.  What is
left is as it was and in its order, and this describes the result in full. -/
theorem filter_eq_iff_isFiltered (keep : KeepTest) (m r : DocModule) (h : m.PlatformsDistinct) :
    m.filter keep = r ↔ IsFiltered keep m r :=
  ⟨fun hr => hr ▸ isFiltered_filter h, fun hr => (isFiltered_filter h).unique hr⟩

/-- Members on platforms that their owners lack: `f` and `g` in a class on one
platform, `h` in a class that goes. -/
def unevenModule : DocModule :=
  let jvm : Platform := ⟨"m", .jvm, []⟩
  let js : Platform := ⟨"m", .js, []⟩
  let a : DeclId := .ofPackage "a"
  let member (owner : DeclId) (name : Text) (ps : List Platform) : Declaration :=
    { kind := .function, name := name, id := owner.withCallable name [], parent := some owner
      facts := ⟨ps.map fun p => (p, {})⟩ }
  let type (name : Text) (p : Platform) (members : List Declaration) : Declaration :=
    { kind := .classType, name := name, id := a.withClass name, parent := some a
      facts := .singleton p {}, children := members }
  { name := "m", facts := .singleton jvm {}
    packages := [
      { name := "a", id := a, facts := ⟨[(jvm, {}), (js, {})]⟩
        children := [
          type "C" jvm [member (a.withClass "C") "f" [jvm, js], member (a.withClass "C") "g" [js]],
          type "D" js [member (a.withClass "D") "h" [jvm]]] }] }

/-- The class `D` goes, and the function `f` on one platform. -/
def unevenTest : KeepTest := fun d p _ =>
  d.name != ("D" : Text) && (d.name != ("f" : Text) || p.family != .jvm)

theorem filter_eq_iff_isFiltered_unevenModule :
    unevenModule.PlatformsDistinct ∧
      IsFiltered unevenTest unevenModule (unevenModule.filter unevenTest) := by
  have hdistinct : unevenModule.PlatformsDistinct := by decide
  exact ⟨hdistinct, (filter_eq_iff_isFiltered unevenTest unevenModule _ hdistinct).mp rfl⟩

example :
    (unevenModule.filter unevenTest).declarations.map (·.name) =
        (["a", "C", "f", "g"] : List Text) ∧
      (unevenModule.filter unevenTest).declarations.map (fun d => d.platforms.map (·.family)) =
        [[.jvm, .js], [.jvm], [.js], [.js]] := by
  decide

end DocModule

end CrossDoc
