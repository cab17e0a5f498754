import CrossDoc.Proofs.ValueReading
import CrossDoc.Proofs.WrittenConfig

/-!
# The headers and entries of a configuration text

A configuration text is a list of headers and entries.  What they are is told by
the text alone, whatever has been read before.  Each of them ends with its line, so
the headers and entries of two texts, one below the other, are those of the first and
then those of the second.
-/

namespace CrossDoc

/-- A header, or an entry together with the text of its value. -/
inductive ConfigItem where
  | header (table : ConfigTable)
  | entry (key written : Text) (v : ConfigValue)
deriving DecidableEq, Repr

/-- The table of the name, in single or in double brackets. -/
def ConfigTable.ofHeader? (isArray : Bool) (name : Text) : Option ConfigTable :=
  [ConfigTable.docgen, .pass, .package, .sourceLink, .externalLink].find? fun table =>
    (table != .docgen) == isArray && table.name == name

theorem ConfigTable.ofHeader?_eq_some {isArray : Bool} {name : Text} {table : ConfigTable} :
    ConfigTable.ofHeader? isArray name = some table ↔
      table ≠ .outside ∧ table.name = name ∧ (table != .docgen) = isArray := by
  constructor
  · intro h
    have hmem := List.mem_of_find?_eq_some h
    have hname := List.find?_some h
    rw [Bool.and_eq_true, beq_iff_eq, beq_iff_eq] at hname
    refine ⟨?_, hname.2, hname.1⟩
    rintro rfl
    exact absurd hmem (by decide)
  · rintro ⟨htable, rfl, rfl⟩
    cases table with
    | outside => exact absurd rfl htable
    | _ => rfl

/-! ## Items in the text -/

namespace Cursor

/-- The text between two cursors. -/
def textTo (c c' : Cursor) : Text := c.rest.take (c.rest.length - c'.rest.length)

/-- Reads the brackets of a header and the name between them. -/
def readName (c : Cursor) : Except ConfigError ((Bool × Text) × Cursor) :=
  let c := c.advance
  let isArray := c.peek == '['
  let c := if isArray then c.advance else c
  let isNameChar (x : Char) := x != ']' && x != '\n'
  let name := c.rest.takeWhile isNameChar
  let c := c.skip isNameChar
  if c.peek ≠ ']' then c.fail .unterminatedHeader
  else
    let c := c.advance
    if isArray && c.peek != ']' then c.fail .unclosedArrayHeader
    else .ok ((isArray, Text.trimBy Text.isBlank name), if isArray then c.advance else c)

/-- Reads the key of an entry and the equals sign. -/
def readKey (c : Cursor) : Except ConfigError (Text × Cursor) :=
  let key := c.rest.takeWhile ConfigDraft.isKeyChar
  let c := c.skip ConfigDraft.isKeyChar
  if key.isEmpty then c.fail .missingKey
  else
    let c := c.skipBlanks
    if c.peek ≠ '=' then c.fail (.missingEquals key) else .ok (key, c.advance.skipBlanks)

/-- Reads a header or an entry, up to the end of its line. -/
def readItem (c : Cursor) : Except ConfigError (ConfigItem × Cursor) :=
  if c.peek = '[' then
    c.readName >>= fun ((isArray, name), c) =>
      match ConfigTable.ofHeader? isArray name with
      | none => c.fail (.unknownTable name)
      | some table => c.lineEnd.map fun c => (.header table, c)
  else
    c.readKey >>= fun (key, start) =>
      ConfigValue.read start >>= fun (v, c) =>
        c.lineEnd.map fun c' => (.entry key (start.textTo c) v, c')

variable {c c' : Cursor} {z : Text} {item : ConfigItem}

/-! ### Names and keys -/

/-- A header is read, or at fault, on one line. -/
theorem readName_stops (c : Cursor) :
    ∃ c', StopsAt c.readName c' ∧ c.advance.ReachesOnLine c' := by
  unfold readName
  dsimp only
  have hstart : c.advance.ReachesOnLine
      (if (c.advance.peek == '[') = true then c.advance.advance else c.advance) := by
    split
    · next harray => exact reachesOnLine_advance (by rw [beq_iff_eq.mp harray]; decide)
    · exact .refl _
  generalize (if (c.advance.peek == '[') = true then c.advance.advance else c.advance) = start
    at hstart ⊢
  generalize (c.advance.peek == '[') = isArray
  have hname := hstart.trans (reachesOnLine_skip (p := fun x => x != ']' && x != '\n') rfl start)
  split
  · exact ⟨_, .fail _ _, hname⟩
  · next hclose =>
    have hclosed := hname.trans (reachesOnLine_advance (by rw [not_not.mp hclose]; decide))
    split
    · exact ⟨_, .fail _ _, hclosed⟩
    · next hclose' =>
      refine ⟨_, .ok _ _, ?_⟩
      cases isArray with
      | false => exact hclosed
      | true =>
          rw [Bool.true_and, bne_iff_ne, not_not] at hclose'
          exact hclosed.trans (reachesOnLine_advance (by rw [hclose']; decide))

theorem readName_within (hz : EndsLine z) (h : c.peek = '[') {a : Bool × Text}
    (hname : c.readName = .ok (a, c')) (n : Nat) :
    (c.within z n).readName = .ok (a, c'.within z n) := by
  have hopen : (c.within z n).advance = c.advance.within z n :=
    advance_within (atEnd_of_peek h (by decide)) z n
  have harray : ((c.advance.within z n).peek == '[') = (c.advance.peek == '[') := by
    rw [Bool.eq_iff_iff, beq_iff_eq, beq_iff_eq, peek_within_eq hz (by decide) (by decide)]
  unfold readName at hname ⊢
  dsimp only at hname ⊢
  rw [hopen, harray]
  have hstart : (if (c.advance.peek == '[') = true then (c.advance.within z n).advance
      else c.advance.within z n) =
      (if (c.advance.peek == '[') = true then c.advance.advance else c.advance).within z n := by
    split
    · next h' => exact advance_within (atEnd_of_peek (beq_iff_eq.mp h') (by decide)) z n
    · rfl
  rw [hstart]
  generalize (if (c.advance.peek == '[') = true then c.advance.advance else c.advance) = start
    at hname ⊢
  generalize (c.advance.peek == '[') = isArray at hname ⊢
  rw [skip_within hz (by decide)]
  have htext : (start.within z n).rest.takeWhile (fun x => x != ']' && x != '\n') =
      start.rest.takeWhile (fun x => x != ']' && x != '\n') :=
    takeWhile_append_endsLine hz (by decide) start.rest
  rw [htext]
  split at hname
  · cases hname
  · next hclose =>
    have hend := atEnd_of_peek (not_not.mp hclose) (by decide)
    rw [peek_within hend, if_neg hclose, advance_within hend]
    split at hname
    · cases hname
    · next hclose' =>
      cases hname
      cases isArray with
      | false => rfl
      | true =>
          rw [Bool.true_and, bne_iff_ne, not_not] at hclose'
          have hend' := atEnd_of_peek hclose' (by decide)
          rw [peek_within hend', if_neg (by simp [hclose']), if_pos rfl, if_pos rfl,
            advance_within hend']

/-- A key is read, or at fault, on one line. -/
theorem readKey_stops (c : Cursor) :
    ∃ c', StopsAt c.readKey c' ∧ c.ReachesOnLine c' := by
  unfold readKey
  dsimp only
  have hkey : c.ReachesOnLine (c.skip ConfigDraft.isKeyChar) := reachesOnLine_skip (by decide) c
  split
  · exact ⟨_, .fail _ _, hkey⟩
  · have hblanks := hkey.trans (reachesOnLine_skipBlanks _)
    split
    · exact ⟨_, .fail _ _, hblanks⟩
    · next hequals =>
      have hsign := reachesOnLine_advance (c := (c.skip ConfigDraft.isKeyChar).skipBlanks)
        (by rw [not_not.mp hequals]; decide)
      exact ⟨_, .ok _ _, (hblanks.trans hsign).trans (reachesOnLine_skipBlanks _)⟩

theorem readKey_within (hz : EndsLine z) {key : Text} (h : c.readKey = .ok (key, c')) (n : Nat) :
    (c.within z n).readKey = .ok (key, c'.within z n) := by
  have htext : (c.within z n).rest.takeWhile ConfigDraft.isKeyChar =
      c.rest.takeWhile ConfigDraft.isKeyChar :=
    takeWhile_append_endsLine hz (by decide) c.rest
  unfold readKey at h ⊢
  dsimp only at h ⊢
  rw [htext, skip_within hz (by decide), skipBlanks_within hz]
  split at h
  · cases h
  · next hkey =>
    rw [if_neg hkey]
    split at h
    · cases h
    · next hequals =>
      have hend := atEnd_of_peek (not_not.mp hequals) (by decide)
      cases h
      rw [peek_within hend, if_neg hequals, advance_within hend, skipBlanks_within hz]

theorem length_lt_of_readKey {key : Text} (h : c.readKey = .ok (key, c')) :
    c'.rest.length < c.rest.length := by
  unfold readKey at h
  dsimp only at h
  split at h
  · cases h
  · next hkey =>
    split at h
    · cases h
    · cases h
      have hsigns := ((reaches_skipBlanks (c.skip ConfigDraft.isKeyChar)).trans
        (reaches_advance _)).trans (reaches_skipBlanks _)
      refine Nat.lt_of_le_of_lt hsigns.length_le ?_
      have hsplit := congrArg List.length
        (List.takeWhile_append_dropWhile (p := ConfigDraft.isKeyChar) (l := c.rest))
      rw [List.length_append] at hsplit
      have hpos : 0 < (c.rest.takeWhile ConfigDraft.isKeyChar).length :=
        List.length_pos_iff.mpr (by simpa using hkey)
      show (c.rest.dropWhile _).length < _
      omega

/-! ### Items -/

theorem textTo_within (h : c.Reaches c') (z : Text) (n : Nat) :
    (c.within z n).textTo (c'.within z n) = c.textTo c' := by
  have hle := h.length_le
  unfold textTo within
  dsimp only
  rw [List.length_append, List.length_append, Nat.add_sub_add_right,
    List.take_append_of_le_length (Nat.sub_le _ _)]

theorem readItem_of_ne (h : c.peek ≠ '[') {answer : ConfigItem × Cursor} :
    c.readItem = .ok answer ↔ ∃ key start v c₁ c₂, c.readKey = .ok (key, start) ∧
      ConfigValue.read start = .ok (v, c₁) ∧ c₁.lineEnd = .ok c₂ ∧
      answer = (.entry key (start.textTo c₁) v, c₂) := by
  unfold readItem
  rw [if_neg h]
  constructor
  · intro h
    obtain ⟨⟨key, start⟩, hkey, h⟩ := bind_eq_ok.mp h
    obtain ⟨⟨v, c₁⟩, hread, h⟩ := bind_eq_ok.mp h
    obtain ⟨c₂, hend, rfl⟩ := map_eq_ok.mp h
    exact ⟨key, start, v, c₁, c₂, hkey, hread, hend, rfl⟩
  · rintro ⟨key, start, v, c₁, c₂, hkey, hread, hend, rfl⟩
    refine bind_eq_ok.mpr ⟨_, hkey, ?_⟩
    exact bind_eq_ok.mpr ⟨_, hread, map_eq_ok.mpr ⟨_, hend, rfl⟩⟩

theorem readItem_of_bracket (h : c.peek = '[') {answer : ConfigItem × Cursor} :
    c.readItem = .ok answer ↔ ∃ isArray name table c₁ c₂, c.readName = .ok ((isArray, name), c₁) ∧
      ConfigTable.ofHeader? isArray name = some table ∧ c₁.lineEnd = .ok c₂ ∧
      answer = (.header table, c₂) := by
  unfold readItem
  rw [if_pos h]
  constructor
  · intro h
    obtain ⟨⟨⟨isArray, name⟩, c₁⟩, hname, h⟩ := bind_eq_ok.mp h
    dsimp only at h
    cases htable : ConfigTable.ofHeader? isArray name with
    | none =>
        rw [htable] at h
        cases h
    | some table =>
        rw [htable] at h
        obtain ⟨c₂, hend, rfl⟩ := map_eq_ok.mp h
        exact ⟨isArray, name, table, c₁, c₂, hname, htable, hend, rfl⟩
  · rintro ⟨isArray, name, table, c₁, c₂, hname, htable, hend, rfl⟩
    refine bind_eq_ok.mpr ⟨_, hname, ?_⟩
    simp only [htable]
    exact map_eq_ok.mpr ⟨_, hend, rfl⟩

/-- Reading an item moves the cursor on. -/
theorem reaches_readItem (h : c.readItem = .ok (item, c')) :
    c.Reaches c' ∧ c'.rest.length < c.rest.length := by
  by_cases hbracket : c.peek = '['
  · obtain ⟨isArray, name, table, c₁, c₂, hname, -, hend, heq⟩ :=
      (readItem_of_bracket hbracket).mp h
    cases heq
    obtain ⟨c₀, hstops, hreaches⟩ := readName_stops c
    obtain rfl := hstops.eq_of_ok hname
    have hmoves := hreaches.1.trans (reaches_lineEnd hend)
    exact ⟨(reaches_advance c).trans hmoves, Nat.lt_of_le_of_lt hmoves.length_le
      (length_advance_lt (atEnd_of_peek hbracket (by decide)))⟩
  · obtain ⟨key, start, v, c₁, c₂, hkey, hread, hend, heq⟩ := (readItem_of_ne hbracket).mp h
    cases heq
    obtain ⟨c₀, hstops, hreaches⟩ := readKey_stops c
    obtain rfl := hstops.eq_of_ok hkey
    have hmoves := (ConfigValue.reaches_read hread).trans (reaches_lineEnd hend)
    exact ⟨hreaches.1.trans hmoves, Nat.lt_of_le_of_lt hmoves.length_le
      (length_lt_of_readKey hkey)⟩

/-- An item is read up to the end of its line, whatever follows in the next one. -/
theorem readItem_within (hz : EndsLine z) (h : c.readItem = .ok (item, c')) (n : Nat) :
    (c.within z n).readItem = .ok (item, c'.within z n) := by
  have hpeek := peek_within_eq (c := c) hz (x := '[') (by decide) (by decide) n
  by_cases hbracket : c.peek = '['
  · obtain ⟨isArray, name, table, c₁, c₂, hname, htable, hend, heq⟩ :=
      (readItem_of_bracket hbracket).mp h
    cases heq
    exact (readItem_of_bracket (hpeek.mpr hbracket)).mpr ⟨isArray, name, table, _, _,
      readName_within hz hbracket hname n, htable, lineEnd_within hz hend n, rfl⟩
  · obtain ⟨key, start, v, c₁, c₂, hkey, hread, hend, heq⟩ := (readItem_of_ne hbracket).mp h
    cases heq
    refine (readItem_of_ne (mt hpeek.mp hbracket)).mpr ⟨key, _, v, _, _, readKey_within hz hkey n,
      ConfigValue.read_within hz hread n, lineEnd_within hz hend n, ?_⟩
    rw [textTo_within (ConfigValue.reaches_read hread)]

end Cursor

/-! ## Whole texts -/

namespace Cursor

variable {c c' : Cursor} {item : ConfigItem} {is js : List ConfigItem}

/-- The rest of the text holds these headers and entries and nothing else. -/
inductive Yields : Cursor → List ConfigItem → Prop
  | nil {c : Cursor} (hend : c.skipSpace.atEnd = true) : Yields c []
  | cons {c c' : Cursor} {item : ConfigItem} {is : List ConfigItem}
      (hitem : c.skipSpace.readItem = .ok (item, c')) (hrest : Yields c' is) :
      Yields c (item :: is)

/-- The headers and entries in front of the first one that cannot be read, at most `fuel`. -/
def items : Nat → Cursor → List ConfigItem
  | 0, _ => []
  | fuel + 1, c =>
      match c.skipSpace.readItem with
      | .error _ => []
      | .ok (item, c) => item :: items fuel c

theorem atEnd_of_readItem (h : c.readItem = .ok (item, c')) : c.atEnd = false :=
  atEnd_of_length_lt (reaches_readItem h).2

theorem length_lt_of_readItem (h : c.skipSpace.readItem = .ok (item, c')) :
    c'.rest.length < c.rest.length :=
  Nat.lt_of_lt_of_le (reaches_readItem h).2 (reaches_skipSpace c).length_le

theorem Yields.items_eq (h : c.Yields is) {fuel : Nat} (hfuel : c.rest.length < fuel) :
    Cursor.items fuel c = is := by
  induction h generalizing fuel with
  | nil hend =>
      obtain ⟨fuel, rfl⟩ := Nat.exists_eq_succ_of_ne_zero (Nat.ne_zero_of_lt hfuel)
      rw [Cursor.items]
      split
      · rfl
      · next hitem => exact absurd (hend.symm.trans (atEnd_of_readItem hitem)) (by decide)
  | cons hitem hrest ih =>
      obtain ⟨fuel, rfl⟩ := Nat.exists_eq_succ_of_ne_zero (Nat.ne_zero_of_lt hfuel)
      have hlt := length_lt_of_readItem hitem
      rw [Cursor.items, hitem]
      dsimp only
      rw [ih (Nat.lt_of_lt_of_le hlt (Nat.le_of_lt_succ hfuel))]

theorem Yields.congr (h : c.Yields is) (hspace : c.skipSpace = c'.skipSpace) :
    c'.Yields is := by
  cases h with
  | nil hend => exact .nil (hspace ▸ hend)
  | cons hitem hrest => exact .cons (hspace ▸ hitem) hrest

/-- The items are the same further down. -/
theorem Yields.shift (h : c.Yields is) (n : Nat) : (c.within [] n).Yields is := by
  have hnil : EndsLine [] := fun x hx => nomatch hx
  induction h with
  | nil hend =>
      refine .nil ?_
      unfold within
      rw [List.append_nil]
      exact atEnd_skipSpaceFrom hend _
  | cons hitem hrest ih =>
      refine .cons ?_ ih
      rw [skipSpace_within (atEnd_of_readItem hitem)]
      exact readItem_within hnil hitem n

/-- The items of two texts, one below the other, are those of the first and those of the
second. -/
theorem Yields.append (h : c.Yields is) {t : Text} (hmore : Yields ⟨t, 1⟩ js) (n : Nat) :
    (c.within ('\n' :: t) n).Yields (is ++ js) := by
  have hnewline : EndsLine ('\n' :: t) := fun x hx => (Option.some.inj hx).symm
  induction h with
  | nil hend =>
      obtain ⟨m, hm⟩ := skipSpaceFrom_newline hend t n
      have hshift := hmore.shift m
      unfold within at hshift
      rw [List.append_nil] at hshift
      exact hshift.congr hm.symm
  | cons hitem hrest ih =>
      refine .cons ?_ ih
      rw [skipSpace_within (atEnd_of_readItem hitem)]
      exact readItem_within hnewline hitem n

end Cursor

/-- The headers and entries of a text, in front of the first one that cannot be read. -/
def Config.items (t : Text) : List ConfigItem := Cursor.items (t.length + 1) ⟨t, 1⟩

end CrossDoc
