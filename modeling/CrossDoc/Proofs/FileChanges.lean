import CrossDoc.Files.Disk
import CrossDoc.Proofs.TextPieces

/-!
# Changes to files

When a file is written, paths lead where they led before, and those that do
not lead to that file find there what they found before.  Two disks are
compared by what their directories hold at each place, so that changes to
several files add up.
-/

namespace CrossDoc

/-- Both entries are directories, or neither is one; then they are the same, unless a change is
allowed. -/
inductive Entry.Agrees (changed : Prop) : Option Entry → Option Entry → Prop where
  | directories (es es' : Entries) : Agrees changed (some (.directory es)) (some (.directory es'))
  | same (e : Option Entry) : Agrees changed e e
  | differs {e e' : Option Entry} (h : changed) (he : ∀ es, e ≠ some (.directory es))
      (he' : ∀ es, e' ≠ some (.directory es)) : Agrees changed e e'

namespace Entry.Agrees

variable {changed : Prop} {e e' e'' : Option Entry}

theorem mono {changed' : Prop} (h : Agrees changed e e') (hc : changed → changed') :
    Agrees changed' e e' := by
  cases h with
  | directories es es' => exact .directories es es'
  | same => exact .same e
  | differs h he he' => exact .differs (hc h) he he'

theorem trans (h : Agrees changed e e') (h' : Agrees changed e' e'') : Agrees changed e e'' := by
  cases h with
  | directories es es' =>
      cases h' with
      | directories _ es'' => exact .directories es es''
      | same => exact .directories es es'
      | differs _ he _ => exact absurd rfl (he es')
  | same => exact h'
  | differs hc he he' =>
      cases h' with
      | directories es => exact absurd rfl (he' es)
      | same => exact .differs hc he he'
      | differs _ _ he'' => exact .differs hc he he''

theorem directory_iff (h : Agrees changed e e') :
    (∃ es, e' = some (.directory es)) ↔ ∃ es, e = some (.directory es) := by
  cases h with
  | directories => simp
  | same => rfl
  | differs _ he he' => simp [he, he']

end Entry.Agrees

namespace Entries

open Disk

variable {es es' : Entries} {name n : Text} {entry : Entry} {place : Place}
  {changed : Place → Prop}

/-! ## Directories below a directory -/

theorem find?_cons (name : Text) (entry : Entry) (es : Entries) (n : Text) :
    (cons name entry es).find? n = if name = n then some entry else es.find? n := by
  cases entry <;> rfl

theorem set_cons (m : Text) (e : Entry) (es : Entries) (name : Text) (entry : Entry) :
    (cons m e es).set name entry =
      if m = name then cons name entry es else cons m e (es.set name entry) := by
  cases e <;> rfl

theorem find?_set_cons (m : Text) (e : Entry)
    (ih : (es.set name entry).find? n = if name = n then some entry else es.find? n) :
    ((cons m e es).set name entry).find? n =
      if name = n then some entry else (cons m e es).find? n := by
  rw [set_cons]
  split
  · next hm =>
    rw [find?_cons, find?_cons, hm]
    split <;> rfl
  · next hm =>
    rw [find?_cons, find?_cons, ih]
    grind

theorem find?_set (es : Entries) (name : Text) (entry : Entry) (n : Text) :
    (es.set name entry).find? n = if name = n then some entry else es.find? n := by
  induction es with
  | empty => exact find?_cons name entry .empty n
  | file m content rest ih => exact find?_set_cons m (.file content) ih
  | directory m within rest _ ih => exact find?_set_cons m (.directory within) ih

theorem within_set_of_ne (h : name ≠ n) : (es.set name entry).within n = es.within n := by
  rw [within, find?_set, if_neg h, within]

theorem within_set_directory (es w : Entries) (name : Text) :
    (es.set name (.directory w)).within name = w := by
  rw [within, find?_set, if_pos rfl]

theorem within_set_file (es : Entries) (name content : Text) :
    (es.set name (.file content)).within name = .empty := by
  rw [within, find?_set, if_pos rfl]

theorem within_eq_empty (h : ∀ w, es.find? name ≠ some (.directory w)) :
    es.within name = .empty := by
  unfold within
  split
  · next w hw => exact absurd hw (h w)
  · rfl

theorem within_of_find? {w : Entries} (h : es.find? name = some (.directory w)) :
    es.within name = w := by
  rw [within, h]

/-- What the directory at a place holds; nothing if there is none. -/
def enter : Place → Entries → Entries
  | [], es => es
  | name :: place, es => (es.within name).enter place

theorem enter_concat (name : Text) : ∀ (place : Place) (es : Entries),
    es.enter (place ++ [name]) = (es.enter place).within name
  | [], _ => rfl
  | n :: place, es => enter_concat name place (es.within n)

/-- Every name of the place is that of a directory, or leads out. -/
def Reaches : Place → Entries → Prop
  | [], _ => True
  | name :: place, es =>
      (leadsOut name = true ∨ ∃ w, es.find? name = some (.directory w)) ∧
        (es.within name).Reaches place

theorem Reaches.concat : ∀ {place : Place} {es : Entries}, es.Reaches place →
    (leadsOut name = true ∨ ∃ w, (es.enter place).find? name = some (.directory w)) →
      es.Reaches (place ++ [name])
  | [], _, _, hname => ⟨hname, trivial⟩
  | _ :: _, _, h, hname => ⟨h.1, Reaches.concat h.2 hname⟩

/-! ## Changes at some places -/

/-- The directories hold the same, but for files at some places. -/
def SameBut (changed : Place → Prop) (es es' : Entries) : Prop :=
  ∀ place name, leadsOut name = false →
    Entry.Agrees (changed (place ++ [name])) ((es.enter place).find? name)
      ((es'.enter place).find? name)

theorem SameBut.refl (changed : Place → Prop) (es : Entries) : SameBut changed es es :=
  fun _ _ _ => .same _

theorem SameBut.trans {es'' : Entries} (h : SameBut changed es es')
    (h' : SameBut changed es' es'') : SameBut changed es es'' :=
  fun place name hname => (h place name hname).trans (h' place name hname)

theorem SameBut.mono {changed' : Place → Prop} (h : SameBut changed es es')
    (hc : ∀ place, changed place → changed' place) : SameBut changed' es es' :=
  fun place name hname => (h place name hname).mono (hc _)

theorem put_cons (entry : Entry) (name : Text) (h : place ≠ []) (es : Entries) :
    es.put entry (name :: place) = es.set name (.directory ((es.within name).put entry place)) := by
  cases place with
  | nil => exact absurd rfl h
  | cons => rfl

theorem sameBut_set_file (content : Text) (h : ∀ w, es.find? name ≠ some (.directory w)) :
    SameBut (· = [name]) es (es.set name (.file content)) := by
  intro place n _
  cases place with
  | nil =>
      show Entry.Agrees _ (es.find? n) ((es.set name (.file content)).find? n)
      rw [find?_set]
      split
      · next hn =>
        subst hn
        exact .differs rfl h fun w hw => by cases hw
      · exact .same _
  | cons m place =>
      have hwithin : (es.set name (.file content)).within m = es.within m := by
        by_cases hm : name = m
        · rw [← hm, within_set_file, within_eq_empty h]
        · exact within_set_of_ne hm
      rw [enter, enter, hwithin]
      exact .same _

/-- A file that is put below directories changes nothing else. -/
theorem sameBut_put (content : Text) :
    ∀ {place : Place} {es : Entries}, es.Reaches place →
      (∀ w, (es.enter place).find? name ≠ some (.directory w)) →
        SameBut (· = place ++ [name]) es (es.put (.file content) (place ++ [name]))
  | [], _, _, h => sameBut_set_file content h
  | a :: dirs, es, hreach, h => by
      have hinner := sameBut_put content hreach.2 h
      rw [List.cons_append, put_cons _ _ (by simp)]
      intro place n hn
      cases place with
      | nil =>
          show Entry.Agrees _ (es.find? n) ((es.set a (.directory _)).find? n)
          rw [find?_set]
          split
          · next ha =>
            subst ha
            obtain ⟨w, hw⟩ := hreach.1.resolve_left (by simp [hn])
            rw [hw]
            exact .directories _ _
          · exact .same _
      | cons m place =>
          rw [enter, enter]
          by_cases hm : a = m
          · rw [← hm, within_set_directory]
            exact (hinner place n hn).mono fun heq => congrArg (a :: ·) heq
          · rw [within_set_of_ne hm]
            exact .same _

end Entries

namespace Disk

open Entries

variable {d d' : Disk} {changed : Place → Prop}

/-! ## Following names -/

/-- Each step of the trail leads to what stands there. -/
def Trail.Holds (d : Disk) : Trail → Prop
  | [] => True
  | step :: trail => Holds d trail ∧ ∃ es, Trail.entry? d trail = some (.directory es) ∧
      step.2 = if leadsOut step.1 then some (.directory (es.within step.1)) else es.find? step.1

namespace Trail

variable {t t' : Trail} {es es' : Entries}

theorem place_cons (step : Text × Option Entry) (t : Trail) :
    place (step :: t) = t.place ++ [step.1] := by
  rw [place, List.map_cons, List.reverse_cons, place]

theorem place_eq_of_map (h : t.map Prod.fst = t'.map Prod.fst) : t.place = t'.place :=
  congrArg List.reverse h

/-- A trail that ends with a directory leads to its place through directories. -/
theorem Holds.enter : ∀ {t : Trail} {es : Entries}, t.Holds d →
    t.entry? d = some (.directory es) →
      es = d.entries.enter t.place ∧ d.entries.Reaches t.place
  | [], es, _, h => by
      cases h
      exact ⟨rfl, trivial⟩
  | (name, e) :: t, es, ⟨hholds, above, habove, hstep⟩, h => by
      obtain ⟨hplace, hreaches⟩ := Holds.enter hholds habove
      rw [place_cons, enter_concat, ← hplace]
      have he : e = some (.directory es) := h
      dsimp only at hstep
      rw [he] at hstep
      split at hstep
      · next hout =>
        refine ⟨?_, hreaches.concat (Or.inl hout)⟩
        cases hstep
        rfl
      · exact ⟨(within_of_find? hstep.symm).symm,
          hreaches.concat (Or.inr ⟨es, hplace ▸ hstep.symm⟩)⟩

/-- Trails of the same names end with what agrees. -/
theorem Holds.agrees (h : SameBut changed d.entries d'.entries) (ht : t.Holds d)
    (ht' : t'.Holds d') (hnames : t.map Prod.fst = t'.map Prod.fst) :
    Entry.Agrees (changed t.place) (t.entry? d) (t'.entry? d') := by
  match t, t', hnames with
  | [], [], _ => exact .directories _ _
  | (name, e) :: t, (name', e') :: t', hnames =>
      obtain ⟨rfl, htail⟩ : name = name' ∧ t.map Prod.fst = t'.map Prod.fst :=
        List.cons.inj hnames
      obtain ⟨hholds, es, hes, hstep⟩ := ht
      obtain ⟨hholds', es', hes', hstep'⟩ := ht'
      show Entry.Agrees _ e e'
      dsimp only at hstep hstep'
      rw [place_cons, hstep, hstep']
      dsimp only
      split
      · exact .directories _ _
      · next hout =>
        rw [(hholds.enter hes).1, (hholds'.enter hes').1, ← place_eq_of_map htail]
        exact h (Trail.place t) name (by simpa using hout)

theorem Holds.up (h : t.Holds d) (hes : t.entry? d = some (.directory es)) :
    (t.up es).Holds d := by
  have hdotDot : leadsOut Path.dotDot = true := rfl
  cases t with
  | nil => exact ⟨trivial, es, hes, by simp [hdotDot]⟩
  | cons step t =>
      rw [Trail.up]
      split
      · exact h
      · split
        · exact ⟨h, es, hes, by simp [hdotDot]⟩
        · exact h.1

theorem map_up (hnames : t.map Prod.fst = t'.map Prod.fst) (es es' : Entries) :
    (t.up es).map Prod.fst = (t'.up es').map Prod.fst := by
  match t, t', hnames with
  | [], [], _ => rfl
  | (name, e) :: t, (name', e') :: t', hnames =>
      obtain ⟨rfl, htail⟩ : name = name' ∧ t.map Prod.fst = t'.map Prod.fst :=
        List.cons.inj hnames
      rw [Trail.up, Trail.up]
      dsimp only
      split
      · exact hnames
      · split
        · exact congrArg (Path.dotDot :: ·) hnames
        · exact htail

end Trail

/-- The way on one disk and the way on another: both fail, or they have the same names and tell what
stands there. -/
inductive SameWay (d d' : Disk) : Except FileError Trail → Except FileError Trail → Prop where
  | fails (e e' : FileError) : SameWay d d' (.error e) (.error e')
  | leads {t t' : Trail} (holds : t.Holds d) (holds' : t'.Holds d')
      (names : t.map Prod.fst = t'.map Prod.fst) : SameWay d d' (.ok t) (.ok t')

/-- Nothing lies below what is no directory. -/
theorem exists_walk_eq_error {t : Trail} (h : ¬ ∃ es, t.entry? d = some (.directory es))
    (name : Text) (rest : List Text) : ∃ e, d.walk t (name :: rest) = .error e := by
  unfold walk
  split
  · exact ⟨_, rfl⟩
  · exact ⟨_, rfl⟩
  · next es hes => exact absurd ⟨es, hes⟩ h

theorem sameWay_walk (h : SameBut changed d.entries d'.entries) :
    ∀ {names : List Text} {t t' : Trail}, (∀ n ∈ names, n ≠ root) → t.Holds d → t'.Holds d' →
      t.map Prod.fst = t'.map Prod.fst → SameWay d d' (d.walk t names) (d'.walk t' names)
  | [], _, _, _, ht, ht', heq => .leads ht ht' heq
  | name :: rest, t, t', hroot, ht, ht', heq => by
      obtain ⟨hname, hrest⟩ := List.forall_mem_cons.mp hroot
      have hdirectory := (ht.agrees h ht' heq).directory_iff
      by_cases hentry : ∃ es, t.entry? d = some (.directory es)
      · obtain ⟨es', hes'⟩ := hdirectory.mpr hentry
        obtain ⟨es, hes⟩ := hentry
        rw [walk, walk, hes, hes']
        dsimp only
        split
        · exact sameWay_walk h hrest ht ht' heq
        · split
          · exact sameWay_walk h hrest (ht.up hes) (ht'.up hes') (Trail.map_up heq es es')
          · next hdotDot =>
            split
            · exact .fails _ _
            · have hout : leadsOut name = false := by simp [leadsOut, hname, hdotDot]
              refine sameWay_walk h hrest ⟨ht, es, hes, by simp [hout]⟩
                ⟨ht', es', hes', by simp [hout]⟩ ?_
              rw [List.map_cons, List.map_cons, heq]
      · obtain ⟨e, he⟩ := exists_walk_eq_error hentry name rest
        obtain ⟨e', he'⟩ := exists_walk_eq_error (mt hdirectory.mp hentry) name rest
        rw [he, he']
        exact .fails e e'

theorem ne_root_of_mem_names {p n : Text} (h : n ∈ Path.names p) : n ≠ root := by
  rintro rfl
  exact Text.not_mem_of_mem_splitAt (List.mem_filter.mp h |>.1) List.mem_cons_self

theorem sameWay_resolve (h : SameBut changed d.entries d'.entries) (path : Text) :
    SameWay d d' (d.resolve path) (d'.resolve path) := by
  unfold resolve
  cases lookedUp path with
  | error e => exact .fails e e
  | ok p =>
      have hnames : ∀ n ∈ Path.names p ++ (if Path.endsWithSlash p then [Path.dot] else []),
          n ≠ root := by
        intro n hn
        rcases List.mem_append.mp hn with hn | hn
        · exact ne_root_of_mem_names hn
        · split at hn
          · obtain rfl := List.mem_singleton.mp hn
            decide
          · cases hn
      have hroot : leadsOut root = true := rfl
      show SameWay d d' (d.walkFrom _ _) (d'.walkFrom _ _)
      unfold walkFrom
      split
      · exact sameWay_walk h hnames ⟨trivial, _, rfl, by simp [hroot]⟩
          ⟨trivial, _, rfl, by simp [hroot]⟩ rfl
      · exact sameWay_walk h hnames trivial trivial rfl

theorem holds_of_resolve {path : Text} {t : Trail} (h : d.resolve path = .ok t) : t.Holds d := by
  have hway := sameWay_resolve (SameBut.refl (fun _ => False) d.entries) path
  rw [h] at hway
  cases hway with
  | leads holds => exact holds

/-! ## What paths lead to -/

/-- The path leads to a place, whether or not something stands there. -/
def LeadsTo (d : Disk) (path : Text) (place : Place) : Prop :=
  (d.resolve path).map Trail.place = .ok place

theorem leadsTo_iff (h : SameBut changed d.entries d'.entries) (path : Text) (place : Place) :
    d'.LeadsTo path place ↔ d.LeadsTo path place := by
  unfold LeadsTo
  have hway := sameWay_resolve h path
  generalize d.resolve path = way, d'.resolve path = way' at hway
  cases hway with
  | fails => simp [Except.map]
  | leads _ _ names => simp [Except.map, Trail.place_eq_of_map names]

theorem status_of_resolve {path : Text} {t : Trail} (h : d.resolve path = .ok t) :
    d.status path =
      match t.entry? d with
      | none => .error .notFound
      | some entry => .ok (t.place, entry) := by
  rw [status, h]
  rfl

theorem status_of_resolve_error {path : Text} {e : FileError} (h : d.resolve path = .error e) :
    d.status path = .error e := by
  rw [status, h]
  rfl

/-- A path that does not lead to a changed file reads as before. -/
theorem read?_eq (h : SameBut changed d.entries d'.entries) {path : Text}
    (hpath : ∀ place, d.LeadsTo path place → ¬ changed place) : d'.read? path = d.read? path := by
  unfold LeadsTo at hpath
  unfold read?
  have hway := sameWay_resolve h path
  generalize hx : d.resolve path = way, hx' : d'.resolve path = way' at hway
  cases hway with
  | fails => rw [status_of_resolve_error hx, status_of_resolve_error hx']
  | @leads t t' holds holds' names =>
      have hagrees := holds.agrees h holds' names
      have hunchanged : ¬ changed t.place := hpath _ (by rw [hx]; rfl)
      rw [status_of_resolve hx, status_of_resolve hx']
      generalize t.entry? d = e, t'.entry? d' = e' at hagrees
      cases hagrees with
      | directories => rfl
      | same =>
          cases e with
          | none => rfl
          | some e => cases e <;> rfl
      | differs hchanged => exact absurd hchanged hunchanged

theorem isDirectory_iff_of_resolve {path : Text} {t : Trail} (h : d.resolve path = .ok t) :
    d.isDirectory path = true ↔ ∃ es, t.entry? d = some (.directory es) := by
  rw [isDirectory, status_of_resolve h]
  cases t.entry? d with
  | none => simp
  | some entry => cases entry <;> simp

/-- A path is that of a directory if it was before. -/
theorem isDirectory_eq (h : SameBut changed d.entries d'.entries) (path : Text) :
    d'.isDirectory path = d.isDirectory path := by
  have hway := sameWay_resolve h path
  generalize hx : d.resolve path = way, hx' : d'.resolve path = way' at hway
  cases hway with
  | fails =>
      rw [isDirectory, isDirectory, status_of_resolve_error hx, status_of_resolve_error hx']
  | leads holds holds' names =>
      have hagrees := holds.agrees h holds' names
      rw [Bool.eq_iff_iff, isDirectory_iff_of_resolve hx, isDirectory_iff_of_resolve hx']
      exact hagrees.directory_iff

/-- The trail to a file leads through directories, and its last name leads to no directory. -/
theorem Trail.Holds.sameBut_put {t : Trail} (h : t.Holds d)
    (ht : ∀ es, t.entry? d ≠ some (.directory es)) (content : Text) :
    SameBut (· = t.place) d.entries (d.put t.place (.file content)).entries := by
  match t, h with
  | [], _ => exact absurd rfl (ht d.entries)
  | (name, e) :: t, ⟨hholds, es, hes, hstep⟩ =>
      obtain ⟨rfl, hreaches⟩ := hholds.enter hes
      have he : ∀ w, e ≠ some (.directory w) := ht
      dsimp only at hstep
      split at hstep
      · exact absurd hstep (he _)
      · rw [place_cons]
        exact Entries.sameBut_put content hreaches (hstep ▸ he)

theorem exists_of_fileTarget {path : Text} {target : Place × Text}
    (h : d.fileTarget path = .ok target) :
    ∃ t, d.resolve path = .ok t ∧ t.place = target.1 ∧
      ∀ es, t.entry? d ≠ some (.directory es) := by
  unfold fileTarget at h
  cases hresolve : d.resolve path with
  | error e =>
      rw [hresolve] at h
      cases h
  | ok t =>
      rw [hresolve] at h
      dsimp only [bind, Except.bind] at h
      refine ⟨t, rfl, ?_⟩
      split at h
      · cases h
      · next hentry =>
        cases h
        exact ⟨rfl, by simp [hentry]⟩
      · next hentry =>
        cases h
        exact ⟨rfl, by simp [hentry]⟩

/-- Adding to a file changes this file only. -/
theorem sameBut_append {path content : Text} (h : d.append path content = .ok d') :
    SameBut (d.LeadsTo path) d.entries d'.entries := by
  unfold append at h
  cases htarget : d.fileTarget path with
  | error e =>
      rw [htarget] at h
      cases h
  | ok target =>
      rw [htarget] at h
      obtain ⟨t, hresolve, hplace, hfile⟩ := exists_of_fileTarget htarget
      cases h
      dsimp only
      rw [← hplace]
      refine ((holds_of_resolve hresolve).sameBut_put hfile _).mono ?_
      rintro place rfl
      rw [LeadsTo, hresolve]
      rfl

/-! ## Paths that are written to -/

/-- Only files that some paths lead to are changed. -/
def KeepsBut (paths : List Text) (d d' : Disk) : Prop :=
  SameBut (fun place => ∃ path ∈ paths, d.LeadsTo path place) d.entries d'.entries

variable {paths more : List Text} {d'' : Disk}

theorem KeepsBut.refl (paths : List Text) (d : Disk) : d.KeepsBut paths d :=
  SameBut.refl _ _

theorem KeepsBut.mono (h : d.KeepsBut paths d') (hpaths : paths ⊆ more) : d.KeepsBut more d' :=
  SameBut.mono h fun _ ⟨path, hpath, hleads⟩ => ⟨path, hpaths hpath, hleads⟩

/-- Where paths lead is not changed by earlier changes. -/
theorem KeepsBut.trans (h : d.KeepsBut paths d') (h' : d'.KeepsBut paths d'') :
    d.KeepsBut paths d'' :=
  SameBut.trans h (SameBut.mono h' fun place ⟨path, hpath, hleads⟩ =>
    ⟨path, hpath, (leadsTo_iff h path place).mp hleads⟩)

theorem KeepsBut.append (h : d.KeepsBut paths d') (h' : d'.KeepsBut more d'') :
    d.KeepsBut (paths ++ more) d'' :=
  (h.mono (List.subset_append_left paths more)).trans
    (h'.mono (List.subset_append_right paths more))

theorem keepsBut_append {path content : Text} (h : d.append path content = .ok d') :
    d.KeepsBut [path] d' :=
  SameBut.mono (sameBut_append h) fun _ hleads => ⟨path, List.mem_singleton_self path, hleads⟩

/-- A path that leads to none of the files that are written reads as before. -/
theorem KeepsBut.read?_eq (h : d.KeepsBut paths d') {path : Text}
    (hpath : ∀ p ∈ paths, ∀ place, d.LeadsTo p place → ¬ d.LeadsTo path place) :
    d'.read? path = d.read? path :=
  Disk.read?_eq h fun place hleads ⟨p, hp, hp'⟩ => hpath p hp place hp' hleads

end Disk

end CrossDoc
