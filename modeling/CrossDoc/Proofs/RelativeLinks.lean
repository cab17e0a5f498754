import CrossDoc.Proofs.PathNames
import CrossDoc.Proofs.Trimming

/-!
# Relative links lead to their targets

A relative link goes up from the directory of its page to where the two paths part, and
from there down to the target.  Each `..` takes back one name of the directory, so what
is left of the directory is what both paths start with, and the names that follow are the
rest of the target.
-/

namespace CrossDoc

namespace Path

open Text (splitAt join)

variable {p n : Text} {ns back : List Text}

/-! ## Plain paths -/

/-- What stands between the slashes of a path. -/
def components (p : Text) : List Text := splitAt slash p

/-- The name of a file or of a directory below another one. -/
structure IsName (n : Text) : Prop where
  filled : n ≠ []
  noDot : n ≠ dot
  noDotDot : n ≠ dotDot

instance : DecidablePred IsName := fun n =>
  decidable_of_iff (n ≠ [] ∧ n ≠ dot ∧ n ≠ dotDot)
    ⟨fun ⟨h, h', h''⟩ => ⟨h, h', h''⟩, fun h => ⟨h.filled, h.noDot, h.noDotDot⟩⟩

/-- The path goes down from name to name and nowhere else. -/
def IsPlain (p : Text) : Prop := ∀ n ∈ components p, IsName n

instance (p : Text) : Decidable (IsPlain p) := inferInstanceAs (Decidable (∀ _ ∈ _, _))

theorem components_ne_nil (p : Text) : components p ≠ [] := Text.splitAt_ne_nil p

theorem components_join (hns : ns ≠ []) (hslash : ∀ n ∈ ns, slash ∉ n) :
    components (join [slash] ns) = ns := Text.splitAt_join hns hslash

theorem join_components (p : Text) : join [slash] (components p) = p := Text.join_splitAt p

/-- Names that can be told apart when slashes are put between them. -/
def AreNames (ns : List Text) : Prop := ∀ n ∈ ns, IsName n ∧ slash ∉ n

theorem IsPlain.areNames (h : IsPlain p) : AreNames (components p) :=
  fun n hn => ⟨h n hn, Text.not_mem_of_mem_splitAt hn⟩

theorem AreNames.of_append_left {ms : List Text} (h : AreNames (ms ++ ns)) : AreNames ms :=
  fun n hn => h n (List.mem_append_left _ hn)

theorem AreNames.of_append_right {ms : List Text} (h : AreNames (ms ++ ns)) : AreNames ns :=
  fun n hn => h n (List.mem_append_right _ hn)

theorem join_concat (hns : ns ≠ []) (n : Text) :
    join [slash] (ns ++ [n]) = join [slash] ns ++ slash :: n := by
  rw [Text.join_append hns (List.cons_ne_nil n []), join, List.append_assoc]
  rfl

theorem join_ne_nil (hns : ns ≠ []) (h : ∀ n ∈ ns, n ≠ [] ∧ slash ∉ n) : join [slash] ns ≠ [] := by
  intro hnil
  have hcomponents := components_join hns fun n hn => (h n hn).2
  rw [hnil] at hcomponents
  exact (h [] (hcomponents ▸ List.mem_singleton_self [])).1 rfl

theorem isAbsolute_join (h : ∀ n ∈ ns, n ≠ [] ∧ slash ∉ n) :
    isAbsolute (join [slash] ns) = false := by
  cases ns with
  | nil => rfl
  | cons n rest =>
      obtain ⟨hfilled, hslash⟩ := h n List.mem_cons_self
      obtain ⟨c, cs, rfl⟩ := List.exists_cons_of_ne_nil hfilled
      have hc : c ≠ slash := fun hc => hslash (hc ▸ List.mem_cons_self)
      cases rest <;> simpa [isAbsolute, join] using hc

namespace AreNames

variable (h : AreNames ns)
include h

theorem filled : ∀ n ∈ ns, n ≠ [] ∧ slash ∉ n := fun n hn => ⟨(h n hn).1.filled, (h n hn).2⟩

theorem getLast?_join : (join [slash] ns).getLast? ≠ some slash := by
  rcases List.eq_nil_or_concat' ns with rfl | ⟨ms, n, rfl⟩
  · exact nofun
  · obtain ⟨hname, hslash⟩ := h n (by simp)
    have hlast : n.getLast? ≠ some slash := fun hlast => hslash (List.mem_of_getLast? hlast)
    by_cases hms : ms = []
    · rw [hms]
      exact hlast
    · rw [join_concat hms, List.getLast?_append, List.getLast?_cons_of_ne_nil hname.filled,
        Option.or_of_isSome (List.getLast?_isSome.mpr hname.filled)]
      exact hlast

theorem endsWithSlash_join : endsWithSlash (join [slash] ns) = false := by
  simpa [endsWithSlash] using h.getLast?_join

theorem names_join : names (join [slash] ns) = ns := by
  by_cases hns : ns = []
  · rw [hns]
    rfl
  · rw [names, Text.splitAt_join hns fun n hn => (h n hn).2, List.filter_eq_self]
    intro n hn
    simpa using (h n hn).1.filled

/-- The elements of a plain path are its names. -/
theorem elements_join : elements (join [slash] ns) = ns := by
  unfold elements
  rw [h.names_join, isAbsolute_join h.filled, h.endsWithSlash_join]
  simp

end AreNames

theorem depth_concat (es : List Text) (e : Text) :
    depth (es ++ [e]) = if e = dotDot then depth es - 1
      else if e = [] ∨ e = dot then depth es else depth es + 1 := by
  rw [depth, List.foldl_append]
  rfl

/-- Every name leads down. -/
theorem AreNames.depth_eq_length (h : AreNames ns) : depth ns = ns.length := by
  induction ns using List.reverseRecOn with
  | nil => rfl
  | append_singleton ms n ih =>
      obtain ⟨hname, -⟩ := h n (by simp)
      have hn : ¬ (n = [] ∨ n = dot) := fun hn => hn.elim hname.filled hname.noDot
      rw [depth_concat, if_neg hname.noDotDot, if_neg hn, ih h.of_append_left, List.length_append]
      rfl

/-- The parent of a plain path is without the last name. -/
theorem parent_join (h : AreNames (ns ++ [n])) :
    parent (join [slash] (ns ++ [n])) = join [slash] ns := by
  have hslash : ∀ c ∈ n, (c != slash) = true := by
    intro c hc
    rw [bne_iff_ne]
    rintro rfl
    exact (h n (by simp)).2 hc
  have hrest : Text.trimRight (· != slash) n = [] := List.rdropWhile_eq_nil_iff.mpr hslash
  rw [parent, h.names_join, if_neg (by simp)]
  by_cases hns : ns = []
  · rw [hns]
    show dropEndSlashes (Text.trimRight (· != slash) n) = []
    rw [hrest]
    rfl
  · have hdirectory := h.of_append_left
    have hfilled : join [slash] ns ≠ [] := join_ne_nil hns hdirectory.filled
    have hkept : Text.trimRight (· == slash) (join [slash] ns ++ [slash]) = join [slash] ns := by
      rw [Text.trimRight, ← List.rdropWhile, List.rdropWhile_concat_pos _ _ _ (by simp),
        List.rdropWhile_eq_self_iff]
      intro hne hlast
      refine hdirectory.getLast?_join ?_
      rw [List.getLast?_eq_some_getLast hne, beq_iff_eq.mp hlast]
    rw [join_concat hns, Text.trimRight_append_cons (by simp), hrest, dropEndSlashes, hkept,
      if_neg (by simp [hfilled])]

/-! ## Normalizing -/

/-- Where a component leads from a way down. -/
def followed (way : List Text) (n : Text) : List Text :=
  if n = [] ∨ n = dot then way
  else if n = dotDot ∧ way ≠ [] ∧ way.getLast? ≠ some dotDot then way.dropLast
  else way ++ [n]

/-- A relative path without the components that can be left out: `.` says nothing, and `..` takes
back the name before it. -/
def normalized (p : Text) : Text := join [slash] ((components p).foldl followed [])

theorem foldl_followed_names (h : AreNames ns) (way : List Text) :
    ns.foldl followed way = way ++ ns := by
  induction ns generalizing way with
  | nil => exact (List.append_nil way).symm
  | cons n rest ih =>
      obtain ⟨hname, -⟩ := h n List.mem_cons_self
      have hn : ¬ (n = [] ∨ n = dot) := fun hn => hn.elim hname.filled hname.noDot
      have hup : ¬ (n = dotDot ∧ way ≠ [] ∧ way.getLast? ≠ some dotDot) :=
        fun hup => hname.noDotDot hup.1
      rw [List.foldl_cons, followed, if_neg hn, if_neg hup,
        ih fun m hm => h m (List.mem_cons_of_mem n hm), List.append_assoc, List.singleton_append]

/-- As many steps up as there are names lead back to where the names start. -/
theorem foldl_followed_up (h : AreNames back) (way : List Text) :
    (List.replicate back.length dotDot).foldl followed (way ++ back) = way := by
  induction back using List.reverseRecOn with
  | nil => exact List.append_nil way
  | append_singleton ms n ih =>
      -- The first of the steps takes back the last name, the others the names before it.
      obtain ⟨hname, -⟩ := h n (by simp)
      have hlast : (way ++ (ms ++ [n])).getLast? ≠ some dotDot := by
        rw [← List.append_assoc, List.getLast?_concat]
        exact fun he => hname.noDotDot (Option.some.inj he)
      have hstep : followed (way ++ (ms ++ [n])) dotDot = way ++ ms := by
        rw [followed, if_neg (by decide), if_pos ⟨rfl, by simp, hlast⟩, ← List.append_assoc,
          List.dropLast_concat]
      rw [List.length_append, List.length_singleton, List.replicate_succ, List.foldl_cons, hstep,
        ih h.of_append_left]

/-! ## The way between two paths -/

/-- Up out of as many directories as there are names to take back, and from there down. -/
def way (back ahead : List Text) : List Text := List.replicate back.length dotDot ++ ahead

section

variable {common ahead : List Text}

theorem way_ne_nil (h : ahead ≠ []) : way back ahead ≠ [] := List.append_ne_nil_of_right_ne_nil _ h

theorem mem_way (hahead : AreNames ahead) :
    ∀ e ∈ way back ahead, e = dotDot ∨ (IsName e ∧ slash ∉ e) := by
  intro e he
  rcases List.mem_append.mp he with hup | hdown
  · exact .inl (List.mem_replicate.mp hup).2
  · exact .inr (hahead e hdown)

theorem way_filled (back : List Text) (hahead : AreNames ahead) :
    ∀ e ∈ way back ahead, e ≠ [] ∧ slash ∉ e := by
  intro e he
  rcases mem_way hahead e he with rfl | ⟨hname, hslash⟩
  · decide
  · exact ⟨hname.filled, hslash⟩

/-- No step up comes behind a name. -/
theorem pairwise_way (hahead : AreNames ahead) :
    (way back ahead).Pairwise fun m n => n = dotDot → m = dotDot := by
  refine List.pairwise_append.mpr ⟨?_, ?_, fun m hm n _ _ => (List.mem_replicate.mp hm).2⟩
  · exact List.pairwise_replicate.mpr (.inr fun h => h)
  · refine List.pairwise_of_forall_mem_list fun m _ n hn hup => ?_
    exact absurd hup (hahead n hn).1.noDotDot

/-- Up out of a directory and down again is the same as never to have been in it. -/
theorem foldl_followed_way (hcommon : AreNames common) (hback : AreNames back)
    (hahead : AreNames ahead) :
    (common ++ back ++ way back ahead).foldl followed [] = common ++ ahead := by
  have hdown : (common ++ back).foldl followed [] = common ++ back := by
    rw [List.foldl_append, foldl_followed_names hcommon, List.nil_append,
      foldl_followed_names hback]
  rw [List.foldl_append, hdown, way, List.foldl_append, foldl_followed_up hback,
    foldl_followed_names hahead]

end

/-- What two paths have in common is in front of what is left of them. -/
theorem exists_common : ∀ as bs : List Text, ∃ common,
    as = common ++ (dropCommon as bs).1 ∧ bs = common ++ (dropCommon as bs).2
  | [], [] | [], _ :: _ | _ :: _, [] => ⟨[], rfl, rfl⟩
  | a :: as, b :: bs => by
      obtain ⟨common, has, hbs⟩ := exists_common as bs
      rw [dropCommon]
      split
      · next hab =>
        exact ⟨a :: common, congrArg (a :: ·) has, by rw [← hab]; exact congrArg (a :: ·) hbs⟩
      · exact ⟨[], rfl, rfl⟩

/-- The way to a path leads up out of what the directory has for itself, and from there down what
the path has for itself, unless that is nothing. -/
theorem relativeElements?_eq {target base : List Text} (htarget : AreNames target)
    (hbase : AreNames base) (habove : ¬ target <+: base) :
    ∃ common ahead back, target = common ++ ahead ∧ base = common ++ back ∧ ahead ≠ [] ∧
      relativeElements? (join [slash] target) (join [slash] base) = some (way back ahead) := by
  obtain ⟨common, hahead, hback⟩ := exists_common target base
  unfold relativeElements?
  rw [isAbsolute_join htarget.filled, isAbsolute_join hbase.filled, htarget.elements_join,
    hbase.elements_join]
  generalize dropCommon target base = rest at hahead hback ⊢
  obtain ⟨ahead, back⟩ := rest
  dsimp only at hahead hback ⊢
  -- If nothing were ahead, all of the target would be a start of the directory.
  have hne : ahead ≠ [] := by
    rintro rfl
    rw [List.append_nil] at hahead
    exact habove ⟨back, by rw [hahead, hback]⟩
  have hhead : ahead.head?.getD [] ≠ [] := by
    obtain ⟨n, rest, rfl⟩ := List.exists_cons_of_ne_nil hne
    exact (htarget n (hahead ▸ by simp)).1.filled
  have hdepth : depth back = back.length := (hback ▸ hbase).of_append_right.depth_eq_length
  refine ⟨common, ahead, back, hahead, hback, hne, ?_⟩
  rw [hdepth, if_neg (by simp), if_neg fun h => hhead h.2, if_neg (by omega), Int.toNat_natCast,
    way]

/-- Components behind a directory. -/
theorem append_join {es : List Text} (h : AreNames ns) (hne : es ≠ [])
    (hes : ∀ e ∈ es, e ≠ [] ∧ slash ∉ e) :
    append (join [slash] ns) (join [slash] es) = join [slash] (ns ++ es) := by
  rw [append, if_neg (by simp [isAbsolute_join hes]), h.endsWithSlash_join, Bool.or_false]
  by_cases hns : ns = []
  · rw [hns]
    rfl
  · have hfilled : (join [slash] ns).isEmpty = false :=
      List.isEmpty_eq_false_iff.mpr (join_ne_nil hns h.filled)
    rw [hfilled, if_neg (by simp), Text.join_append hns hne, List.append_assoc]
    rfl

/-- A path whose names a directory starts with is above what is in the directory. -/
theorem isAbove_join {ms : List Text} (hne : ns ≠ []) (hstarts : ns <+: ms) (n : Text) :
    IsAbove (join [slash] ns) (join [slash] (ms ++ [n])) := by
  obtain ⟨rest, rfl⟩ := hstarts
  rw [IsAbove, List.append_assoc, Text.join_append hne (by simp)]
  exact List.prefix_append _ _

end Path

open CrossDoc.Path CrossDoc.Text

/-- The link from a file to a path is the way there from the directory of the file. -/
theorem relativeLink_eq {directory target : List Text} {file : Text}
    (hsource : AreNames (directory ++ [file])) (htarget : AreNames target)
    (habove : ¬ target <+: directory) :
    ∃ common ahead back, target = common ++ ahead ∧ directory = common ++ back ∧ ahead ≠ [] ∧
      relativeLink (join [slash] (directory ++ [file])) (join [slash] target) =
        join [slash] (way back ahead) := by
  obtain ⟨common, ahead, back, hahead, hback, hne, hrelative⟩ :=
    relativeElements?_eq htarget hsource.of_append_left habove
  refine ⟨common, ahead, back, hahead, hback, hne, ?_⟩
  have hlink : join [slash] (way back ahead) ≠ [] :=
    join_ne_nil (way_ne_nil hne) (way_filled back (hahead ▸ htarget).of_append_right)
  rw [relativeLink, relative?, parent_join hsource, hrelative]
  exact if_neg (by simpa using hlink)

/-- **Relative links lead to their targets.**  Behind the directory of the page the link from one
plain path to another one is the way to that path, unless this is a directory that the page is in.
The link has no `.`, and `..` at its start only. -/
theorem relativeLink_leadsToTarget {source target : Text} (hsource : IsPlain source)
    (htarget : IsPlain target) (habove : ¬ IsAbove target source) :
    normalized (append (parent source) (relativeLink source target)) = target ∧
      (∀ n ∈ components (relativeLink source target), n = dotDot ∨ IsName n) ∧
      (components (relativeLink source target)).Pairwise fun m n => n = dotDot → m = dotDot := by
  obtain ⟨directory, file, hfile⟩ :=
    (List.eq_nil_or_concat' (components source)).resolve_left (components_ne_nil source)
  have hnames : AreNames (directory ++ [file]) := hfile ▸ hsource.areNames
  have hstarts : ¬ components target <+: directory := by
    intro hstarts
    have hjoin := isAbove_join (components_ne_nil target) hstarts file
    rw [← hfile, join_components, join_components] at hjoin
    exact habove hjoin
  obtain ⟨common, ahead, back, hahead, hback, hne, hlink⟩ :=
    relativeLink_eq hnames htarget.areNames hstarts
  rw [← hfile, join_components, join_components] at hlink
  have hcommonNames : AreNames common := (hahead ▸ htarget.areNames).of_append_left
  have haheadNames : AreNames ahead := (hahead ▸ htarget.areNames).of_append_right
  have hbackNames : AreNames back := (hback ▸ hnames.of_append_left).of_append_right
  have hfilled := way_filled back haheadNames
  have hway : way back ahead ≠ [] := way_ne_nil hne
  have hcomponents := components_join hway fun e he => (hfilled e he).2
  rw [hlink, hcomponents]
  refine ⟨?_, fun e he => (mem_way haheadNames e he).imp_right And.left, pairwise_way haheadNames⟩
  have hslash : ∀ e ∈ directory ++ way back ahead, slash ∉ e := by
    intro e he
    exact (List.mem_append.mp he).elim (fun h => (hnames.of_append_left e h).2)
      fun h => (hfilled e h).2
  have hbehind : append (parent source) (join [slash] (way back ahead)) =
      join [slash] (directory ++ way back ahead) := by
    rw [← join_components source, hfile, parent_join hnames,
      append_join hnames.of_append_left hway hfilled]
  rw [hbehind, normalized, components_join (by simp [hway]) hslash, hback,
    foldl_followed_way hcommonNames hbackNames haheadNames, ← hahead, join_components]

theorem relativeLink_leadsToTarget_acrossPackages :
    IsPlain "core/a/b/index.md" ∧ IsPlain "core/c/D.md" ∧
      ¬ IsAbove "core/c/D.md" "core/a/b/index.md" ∧
      normalized (append (parent "core/a/b/index.md")
        (relativeLink "core/a/b/index.md" "core/c/D.md")) = "core/c/D.md" := by
  have hsource : IsPlain "core/a/b/index.md" := by decide
  have htarget : IsPlain "core/c/D.md" := by decide
  have habove : ¬ IsAbove "core/c/D.md" "core/a/b/index.md" := by decide
  exact ⟨hsource, htarget, habove, (relativeLink_leadsToTarget hsource htarget habove).1⟩

example : relativeLink "core/a/b/index.md" "core/c/D.md" = "../../c/D.md" := by decide

end CrossDoc
