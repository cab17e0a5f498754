import CrossDoc.Proofs.ConfigComposition
import CrossDoc.Proofs.ErrorLines
import Mathlib.Data.List.Forall2
import Mathlib.Data.List.Induction
import Mathlib.Data.Nat.Digits.Defs

/-!
# Integer literals

An integer is written in decimal digits with an optional sign.  A literal beyond 64 bits
is no value.  The version of the development kit has 32 bits: a pass keeps the low bits of
the last literal that its table gives, so it has the number that is written exactly when
the number fits.
-/

namespace CrossDoc

open ConfigDraft (Arrives)

/-! ## Numerals -/

/-- The number that decimal digits write. -/
def decimal (ds : Text) : Nat := Nat.ofDigits 10 (ds.reverse.map fun c => c.toNat - '0'.toNat)

def IsDigits (ds : Text) : Prop := ds ≠ [] ∧ ∀ c ∈ ds, c.isDigit = true

/-- The text is a numeral of the integer. -/
inductive IsNumeral : Text → Int → Prop
  | unsigned {ds : Text} (h : IsDigits ds) : IsNumeral ds (decimal ds)
  | plus {ds : Text} (h : IsDigits ds) : IsNumeral ('+' :: ds) (decimal ds)
  | minus {ds : Text} (h : IsDigits ds) : IsNumeral ('-' :: ds) (-decimal ds)

theorem decimal_concat (ds : Text) (c : Char) :
    decimal (ds ++ [c]) = decimal ds * 10 + (c.toNat - '0'.toNat) := by
  rw [decimal, List.reverse_append, List.reverse_singleton, List.singleton_append, List.map_cons,
    Nat.ofDigits_cons, Nat.mul_comm, Nat.add_comm]
  rfl

theorem digitsValue_eq_decimal (ds : Text) : Text.digitsValue ds = decimal ds := by
  induction ds using List.reverseRecOn with
  | nil => rfl
  | append_singleton ds c ih =>
      rw [decimal_concat, ← ih]
      exact List.foldl_concat _ _ _ _

theorem isDigits_iff {ds : Text} :
    IsDigits ds ↔ (!ds.isEmpty && ds.all Char.isDigit) = true := by
  simp [IsDigits]

theorem IsDigits.head_ne {x : Char} {ds : Text} (h : IsDigits (x :: ds)) {y : Char}
    (hy : y.isDigit = false) : x ≠ y := by
  rintro rfl
  exact Bool.false_ne_true (hy.symm.trans (h.2 _ List.mem_cons_self))

/-- Integers are read as they are written. -/
theorem toInt?_eq_some {w : Text} {n : Int} : Text.toInt? w = some n ↔ IsNumeral w n := by
  have hunsigned : ∀ {ds : Text} {f : Int → Int},
      (((if !ds.isEmpty && ds.all Char.isDigit then some (Text.digitsValue ds) else none) >>=
        fun n => some (n : Int)).map f = some n) ↔ IsDigits ds ∧ f (decimal ds) = n := by
    intro ds f
    rw [isDigits_iff, ← digitsValue_eq_decimal]
    split <;> simp_all
  unfold Text.toInt?
  split
  · next ds =>
    refine hunsigned.trans ⟨?_, fun h => ?_⟩
    · rintro ⟨hds, rfl⟩
      exact .minus hds
    · cases h with
      | unsigned h => exact absurd rfl (h.head_ne (by decide))
      | minus h => exact ⟨h, rfl⟩
  · next ds =>
    refine hunsigned.trans ⟨?_, fun h => ?_⟩
    · rintro ⟨hds, rfl⟩
      exact .plus hds
    · cases h with
      | unsigned h => exact absurd rfl (h.head_ne (by decide))
      | plus h => exact ⟨h, rfl⟩
  · next hminus hplus =>
    refine hunsigned.trans ⟨?_, fun h => ?_⟩
    · rintro ⟨hds, rfl⟩
      exact .unsigned hds
    · cases h with
      | unsigned h => exact ⟨h, rfl⟩
      | plus h => exact absurd rfl (hplus _)
      | minus h => exact absurd rfl (hminus _)

/-! ## Literals in the text -/

namespace ConfigValue

variable {c c' : Cursor} {w : Text} {n : Int}

theorem ofWord?_of_numeral (h : IsNumeral w n) :
    ofWord? w = if isIntegerRange n then some (.integer n) else none := by
  have hread := toInt?_eq_some.mpr h
  unfold ofWord?
  split
  · next hword =>
    subst hword
    cases hread
  split
  · next hword =>
    subst hword
    cases hread
  · rw [hread]

theorem isNumeral_of_ofWord? (h : ofWord? w = some (.integer n)) :
    IsNumeral w n ∧ isIntegerRange n = true := by
  rw [← toInt?_eq_some]
  unfold ofWord? at h
  split at h
  · cases h
  split at h
  · cases h
  split at h
  · next hread =>
    split at h
    · next hrange =>
      cases h
      exact ⟨hread, hrange⟩
    · cases h
  · cases h

/-- The text between the cursors is the word. -/
theorem textTo_skip (p : Char → Bool) (c : Cursor) :
    c.textTo (c.skip p) = c.rest.takeWhile p := by
  have hsplit := List.takeWhile_append_dropWhile (p := p) (l := c.rest)
  have hlength := congrArg List.length hsplit
  rw [List.length_append] at hlength
  have htake : c.rest.length - (c.rest.dropWhile p).length = (c.rest.takeWhile p).length := by
    omega
  show c.rest.take (c.rest.length - (c.rest.dropWhile p).length) = _
  rw [htake]
  exact (List.prefix_iff_eq_take.mp <| List.takeWhile_prefix p).symm

/-- An integer is read from a numeral. -/
theorem isNumeral_of_read (h : read c = .ok (.integer n, c')) :
    IsNumeral (c.textTo c') n ∧ isIntegerRange n = true := by
  by_cases hquote : c.peek = '"'
  · rw [read_of_quote hquote] at h
    obtain ⟨_, -, heq⟩ := map_eq_ok.mp h
    cases heq
  by_cases hbracket : c.peek = '['
  · rw [read_of_bracket hbracket] at h
    obtain ⟨_, -, heq⟩ := map_eq_ok.mp h
    cases heq
  rw [read_of_ne hquote hbracket] at h
  split at h
  · next hword =>
    cases h
    rw [textTo_skip]
    exact isNumeral_of_ofWord? hword
  · cases h

/-- A numeral is no value if the number is beyond 64 bits. -/
theorem read_eq_fail (hw : IsNumeral (c.rest.takeWhile isWordChar) n)
    (hn : isIntegerRange n = false) :
    read c = c.fail (.invalidValue (c.rest.takeWhile isWordChar)) := by
  have hpeek : isWordChar c.peek = true := by
    obtain ⟨rest, line⟩ := c
    cases rest with
    | nil =>
        have hread := toInt?_eq_some.mpr hw
        cases hread
    | cons x rest =>
        by_contra hx
        have hnil : (x :: rest).takeWhile isWordChar = [] := List.takeWhile_cons_of_neg hx
        have hread := toInt?_eq_some.mpr (hnil ▸ hw)
        cases hread
  have hquote : c.peek ≠ '"' := fun h => absurd (h ▸ hpeek) (by decide)
  have hbracket : c.peek ≠ '[' := fun h => absurd (h ▸ hpeek) (by decide)
  rw [read_of_ne hquote hbracket, ofWord?_of_numeral hw, if_neg (by simp [hn])]
  rfl

end ConfigValue

/-- If the value of an entry is an integer, a numeral of it is written. -/
def ConfigItem.WritesInteger : ConfigItem → Prop
  | .entry _ written (.integer n) => IsNumeral written n ∧ ConfigValue.isIntegerRange n = true
  | _ => True

theorem Cursor.writesInteger_of_readItem {c c' : Cursor} {item : ConfigItem}
    (h : c.readItem = .ok (item, c')) : item.WritesInteger := by
  by_cases hbracket : c.peek = '['
  · obtain ⟨_, _, table, _, _, -, -, -, heq⟩ := (readItem_of_bracket hbracket).mp h
    cases heq
    trivial
  · obtain ⟨key, start, v, c₁, c₂, -, hread, -, heq⟩ := (readItem_of_ne hbracket).mp h
    cases heq
    cases v with
    | integer n => exact ConfigValue.isNumeral_of_read hread
    | text | list | boolean => trivial

theorem Cursor.Yields.writesInteger {c : Cursor} {items : List ConfigItem} (h : c.Yields items) :
    ∀ item ∈ items, item.WritesInteger := by
  induction h with
  | nil => exact fun item hitem => nomatch hitem
  | cons hitem hrest ih => exact List.forall_mem_cons.mpr ⟨writesInteger_of_readItem hitem, ih⟩

/-! ## The literals of a pass -/

def ConfigItem.isEntry : ConfigItem → Bool
  | .header _ => false
  | .entry _ _ _ => true

/-- The entries of the `[[pass]]` tables, table by table. -/
def passTables : List ConfigItem → List (List ConfigItem)
  | [] => []
  | .header .pass :: items => items.takeWhile ConfigItem.isEntry :: passTables items
  | _ :: items => passTables items

/-- The literals that the entries give to the version of the development kit. -/
def jdkLiterals (entries : List ConfigItem) : List Text :=
  entries.filterMap fun
    | .entry key written _ => if key = "jdk_version" then some written else none
    | .header _ => none

theorem jdkLiterals_append (entries more : List ConfigItem) :
    jdkLiterals (entries ++ more) = jdkLiterals entries ++ jdkLiterals more :=
  List.filterMap_append

/-- The literals, stored one after the other in place of a number, leave the last of them, cut off
to 32 bits. -/
def Stores (n₀ : Int) (ws : List Text) (n : Int) : Prop :=
  match ws.getLast? with
  | none => n = n₀
  | some w => ∃ m, IsNumeral w m ∧ ConfigValue.isIntegerRange m = true ∧ n = narrow m

theorem Stores.append {n₀ n₁ n₂ : Int} {ws ws' : List Text} (h : Stores n₀ ws n₁)
    (h' : Stores n₁ ws' n₂) : Stores n₀ (ws ++ ws') n₂ := by
  unfold Stores at h h' ⊢
  rw [List.getLast?_append]
  cases hlast : ws'.getLast? with
  | none =>
      rw [hlast] at h'
      rw [Option.none_or, h']
      exact h
  | some w =>
      rw [hlast] at h'
      exact h'

/-- An entry that is stored leaves the version of the pass alone. -/
def KeepsJdkVersion (p : Pass) (x : Except ConfigProblem (Option Pass)) : Prop :=
  ∀ answer, x = .ok answer → (answer.getD p).jdkVersion = p.jdkVersion

namespace KeepsJdkVersion

variable {p : Pass}

theorem store {α : Type} (x : Except ConfigProblem α) {f : α → Pass}
    (h : ∀ a, (f a).jdkVersion = p.jdkVersion) :
    KeepsJdkVersion p (x >>= fun a => pure (some (f a))) := by
  intro answer hx
  obtain ⟨a, -, heq⟩ := bind_eq_ok.mp hx
  cases heq
  exact h a

theorem ite {P : Prop} [Decidable P] {x y : Except ConfigProblem (Option Pass)}
    (hx : P → KeepsJdkVersion p x) (hy : KeepsJdkVersion p y) :
    KeepsJdkVersion p (if P then x else y) := by
  split
  · next h => exact hx h
  · exact hy

theorem unknown : KeepsJdkVersion p (pure none) := by
  intro answer hx
  cases hx
  rfl

/-- The entry is stored in a part of the pass. -/
theorem inPart {α : Type} (x : Except ConfigProblem (Option α)) {f : α → Pass}
    (h : ∀ a, (f a).jdkVersion = p.jdkVersion) :
    KeepsJdkVersion p (x >>= fun a => pure (a.map f)) := by
  intro answer hx
  obtain ⟨a, -, heq⟩ := bind_eq_ok.mp hx
  cases heq
  cases a with
  | none => rfl
  | some a => exact h a

end KeepsJdkVersion

theorem Pass.set?_keepsJdkVersion {key : Text} (hkey : key ≠ "jdk_version") (p : Pass)
    (v : ConfigValue) : KeepsJdkVersion p (p.set? key v) := by
  unfold Pass.set?
  -- the entry of the version stands between the others
  repeat refine .ite (fun _ => .store _ fun _ => rfl) ?_
  refine .ite (fun h => absurd h hkey) ?_
  repeat refine .ite (fun _ => .store _ fun _ => rfl) ?_
  exact .unknown

theorem ConfigTable.setInPass?_keepsJdkVersion {table : ConfigTable} (htable : table ≠ .pass)
    (p : Pass) (key : Text) (v : ConfigValue) :
    KeepsJdkVersion p (table.setInPass? p key v) := by
  cases table with
  | outside | docgen => exact .unknown
  | pass => exact absurd rfl htable
  | package | sourceLink | externalLink => exact .inPart _ fun _ => rfl

/-- The entry of the version stores a literal, and the other entries none. -/
theorem Pass.stores_of_set? {p : Pass} {key written : Text} {v : ConfigValue} {answer : Option Pass}
    (h : p.set? key v = .ok answer) (hwrites : (ConfigItem.entry key written v).WritesInteger) :
    Stores p.jdkVersion (jdkLiterals [.entry key written v]) (answer.getD p).jdkVersion := by
  by_cases hkey : key = "jdk_version"
  · subst hkey
    cases v with
    | text | list | boolean => cases h
    | integer n =>
        cases h
        exact ⟨n, hwrites.1, hwrites.2, rfl⟩
  · have hnone : jdkLiterals [.entry key written v] = [] :=
      List.filterMap_cons_none (if_neg hkey)
    rw [hnone]
    exact p.set?_keepsJdkVersion hkey v answer h

/-- The literals are stored in the last of the numbers if a `[[pass]]` table is open. -/
def StoresInLast (table : ConfigTable) (ns₀ : List Int) (ws : List Text) (ns : List Int) : Prop :=
  if table = .pass then ∃ front n₀ n, ns₀ = front ++ [n₀] ∧ ns = front ++ [n] ∧ Stores n₀ ws n
  else ns = ns₀

theorem storesInLast_of_ne {table : ConfigTable} (h : table ≠ .pass) {ns₀ ns : List Int}
    {ws : List Text} : StoresInLast table ns₀ ws ns ↔ ns = ns₀ := by
  rw [StoresInLast, if_neg h]

theorem storesInLast_pass {front : List Int} {n₀ : Int} {ws : List Text} {ns : List Int} :
    StoresInLast .pass (front ++ [n₀]) ws ns ↔ ∃ n, ns = front ++ [n] ∧ Stores n₀ ws n := by
  rw [StoresInLast, if_pos rfl]
  constructor
  · rintro ⟨front', n₀', n, hfirst, rfl, hstores⟩
    obtain ⟨rfl, hlast⟩ := List.append_inj' hfirst rfl
    cases hlast
    exact ⟨n, rfl, hstores⟩
  · rintro ⟨n, rfl, hstores⟩
    exact ⟨front, n₀, n, rfl, rfl, hstores⟩

theorem StoresInLast.refl {table : ConfigTable} {c : Config} (h : HasPass table c) :
    StoresInLast table (c.passes.map Pass.jdkVersion) [] (c.passes.map Pass.jdkVersion) := by
  unfold StoresInLast
  split
  · next htable =>
    obtain ⟨ps, p, hpasses⟩ := (List.eq_nil_or_concat' _).resolve_left (h (htable ▸ rfl))
    rw [hpasses, List.map_append]
    exact ⟨_, _, _, rfl, rfl, rfl⟩
  · rfl

/-- The literals of the items tell versions: first those that an open pass takes up to the next
header, and then, for each further pass, those of its own table, which starts from 6. -/
def TellVersions (table : ConfigTable) (ns₀ : List Int) (items : List ConfigItem)
    (vs : List Int) : Prop :=
  ∃ ns ms, vs = ns ++ ms ∧
    StoresInLast table ns₀ (jdkLiterals (items.takeWhile ConfigItem.isEntry)) ns ∧
    List.Forall₂ (fun n entries => Stores 6 (jdkLiterals entries) n) ms (passTables items)

section Effect

variable {table part : ConfigTable} {c c' : Config} {items : List ConfigItem} {vs : List Int}

/-- A header ends the literals of the open pass. -/
theorem ConfigItem.Effect.tellVersions_header (h : Effect (.header part) table c part c')
    (hpass : HasPass table c) (hvs : TellVersions part (c'.passes.map Pass.jdkVersion) items vs) :
    TellVersions table (c.passes.map Pass.jdkVersion) (.header part :: items) vs := by
  obtain ⟨ns, ms, hmap, hlast, htables⟩ := hvs
  cases h with
  | docgen =>
      obtain rfl := (storesInLast_of_ne (by decide)).mp hlast
      exact ⟨_, ms, hmap, .refl hpass, htables⟩
  | pass =>
      rw [List.map_append] at hlast
      obtain ⟨n, rfl, hstores⟩ := storesInLast_pass.mp hlast
      rw [List.append_assoc] at hmap
      exact ⟨_, _, hmap, .refl hpass, .cons hstores htables⟩
  | @part _ _ _ ps p hpart hpasses =>
      have hne : part ≠ .pass := by
        rintro rfl
        cases hpart
      have hsame : (ps ++ [part.addPart p]).map Pass.jdkVersion =
          c.passes.map Pass.jdkVersion := by
        rw [hpasses, List.map_append, List.map_append]
        cases part <;> rfl
      obtain rfl := (storesInLast_of_ne hne).mp hlast
      have htables' : passTables (.header part :: items) = passTables items := by
        cases part <;> first | rfl | exact absurd rfl hne
      rw [hsame] at hmap
      exact ⟨_, ms, hmap, .refl hpass, htables' ▸ htables⟩

/-- An entry comes before those that the rest of its table stores. -/
theorem ConfigItem.Effect.tellVersions_entry {key written : Text} {v : ConfigValue}
    (h : Effect (.entry key written v) table c part c')
    (hwrites : (ConfigItem.entry key written v).WritesInteger)
    (hvs : TellVersions part (c'.passes.map Pass.jdkVersion) items vs) :
    TellVersions table (c.passes.map Pass.jdkVersion) (.entry key written v :: items) vs := by
  obtain ⟨ns, ms, hmap, hlast, htables⟩ := hvs
  cases h with
  | setting hset =>
      obtain rfl := (storesInLast_of_ne (by decide)).mp hlast
      rw [Config.passes_of_set? hset] at hmap
      exact ⟨_, ms, hmap, (storesInLast_of_ne (by decide)).mpr rfl, htables⟩
  | @inPass _ _ ps p _ _ _ answer htable hpasses hset =>
      refine ⟨ns, ms, hmap, ?_, htables⟩
      rw [hpasses, List.map_append]
      rw [List.map_append] at hlast
      by_cases hpassTable : table = .pass
      · subst hpassTable
        obtain ⟨n, rfl, hstores⟩ := storesInLast_pass.mp hlast
        refine storesInLast_pass.mpr ⟨n, rfl, ?_⟩
        have hfirst := (Pass.stores_of_set? hset hwrites).append hstores
        rwa [← jdkLiterals_append] at hfirst
      · -- an entry of a part: `jdk_version` is no key of any of them
        have hkept := ConfigTable.setInPass?_keepsJdkVersion hpassTable p key v answer hset
        obtain rfl := (storesInLast_of_ne hpassTable).mp hlast
        refine (storesInLast_of_ne hpassTable).mpr ?_
        simp [hkept]

end Effect

/-- The version of each pass is told by the literals of its table. -/
theorem Builds.jdkVersions {table table' : ConfigTable} {c c' : Config} {items : List ConfigItem}
    (h : Builds table c items table' c') (hpass : HasPass table c)
    (hwrites : ∀ item ∈ items, item.WritesInteger) :
    TellVersions table (c.passes.map Pass.jdkVersion) items (c'.passes.map Pass.jdkVersion) := by
  induction h with
  | nil => exact ⟨_, [], (List.append_nil _).symm, .refl hpass, .nil⟩
  | @cons _ _ _ _ _ _ item _ heffect _ ih =>
      obtain ⟨hitem, hitems⟩ := List.forall_mem_cons.mp hwrites
      have hvs := ih heffect.hasPass hitems
      obtain rfl := heffect.eq_tableAfter
      cases item with
      | header part => exact heffect.tellVersions_header hpass hvs
      | entry key written v => exact heffect.tellVersions_entry hitem hvs

/-! ## Whole texts -/

theorem narrow_eq_self_iff {n : Int} :
    narrow n = n ↔ Int32.minValue.toInt ≤ n ∧ n ≤ Int32.maxValue.toInt := by
  constructor
  · intro h
    have hle : -((UInt32.size : Int) / 2) ≤ narrow n := Int.le_bmod (by decide)
    have hlt : narrow n < ((UInt32.size : Int) + 1) / 2 := Int.bmod_lt (by decide)
    rw [h] at hle hlt
    exact ⟨hle, Int.le_of_lt_add_one hlt⟩
  · rintro ⟨h, h'⟩
    exact narrow_of_inRange h h'

/-- A value that cannot be read is an error of its entry. -/
theorem ConfigDraft.step_of_read_error {d : ConfigDraft} {c start : Cursor} {e : ConfigError}
    (hstart : start ∈ c.valueStart?) (hread : ConfigValue.read start = .error e) :
    c.atEnd = false ∧ d.step c = .error e := by
  unfold Cursor.valueStart? at hstart
  split at hstart
  · cases hstart
  · next hbracket =>
    split at hstart
    · cases hstart
    · next key _ hkey =>
      cases hstart
      constructor
      · exact Cursor.atEnd_of_length_lt (Cursor.length_lt_of_readKey hkey)
      · rw [step, if_neg hbracket, readEntry_eq]
        exact bind_eq_error.mpr (.inr ⟨_, hkey, bind_eq_error.mpr (.inl hread)⟩)

/-- The version of a pass is 6 or the last literal of its table, cut off to 32 bits: what is written
if it fits.  A literal beyond 64 bits is an error of its entry. -/
theorem Config.parse_jdkVersion (t : Text) :
    (∀ {c : Config}, parse t = .ok c →
      List.Forall₂ (fun (p : Pass) (entries : List ConfigItem) =>
        match (jdkLiterals entries).getLast? with
        | none => p.jdkVersion = 6
        | some w => ∃ n, IsNumeral w n ∧ ConfigValue.isIntegerRange n = true ∧
            p.jdkVersion = narrow n ∧
            (p.jdkVersion = n ↔ Int32.minValue.toInt ≤ n ∧ n ≤ Int32.maxValue.toInt))
        c.passes (passTables (items t))) ∧
    ∀ {d : ConfigDraft} {c start : Cursor} {n : Int}, Arrives t d c →
      start ∈ c.skipSpace.valueStart? →
      IsNumeral (start.rest.takeWhile ConfigValue.isWordChar) n →
      ConfigValue.isIntegerRange n = false →
      parse t = .error
        ⟨.invalidValue (start.rest.takeWhile ConfigValue.isWordChar), c.skipSpace.line⟩ := by
  constructor
  · intro c h
    obtain ⟨hyields, table, hbuilds⟩ := items_of_parse h
    obtain ⟨ns, ms, hmap, hlast, htables⟩ :=
      hbuilds.jdkVersions (fun h => nomatch h) hyields.writesInteger
    obtain rfl : ns = [] := (storesInLast_of_ne (by decide)).mp hlast
    rw [List.nil_append] at hmap
    rw [← hmap, List.forall₂_map_left_iff] at htables
    refine htables.imp fun p entries hstores => ?_
    unfold Stores at hstores
    split at hstores
    · exact hstores
    · obtain ⟨n, hnumeral, hrange, hn⟩ := hstores
      exact ⟨n, hnumeral, hrange, hn, hn ▸ narrow_eq_self_iff⟩
  · intro d c start n harrives hstart hnumeral hrange
    have hread := ConfigValue.read_eq_fail hnumeral hrange
    rw [Cursor.fail, (Cursor.reachesOnLine_of_valueStart? hstart).2] at hread
    obtain ⟨hend, hstep⟩ := d.step_of_read_error hstart hread
    exact parse_eq_error_iff.mpr ⟨d, c, harrives, hend, hstep⟩

/-- A pass with two literals and one with none. -/
def versionsText : Text :=
  "[[pass]]\nmodule = \"core\"\njdk_version = 8\njdk_version = +11\n[[pass]]\nmodule = \"app\"\n"

/-- A literal beyond 64 bits. -/
def hugeLiteralText : Text := "[[pass]]\njdk_version = 9223372036854775808\n"

/-- The second literal is stored, and one beyond 64 bits is an error. -/
theorem Config.parse_jdkVersion_versionsText :
    parse versionsText = .ok { passes :=
        [{ moduleName := "core", jdkVersion := 11 }, { moduleName := "app", jdkVersion := 6 }] } ∧
      (∃ n, IsNumeral "+11" n ∧ ConfigValue.isIntegerRange n = true ∧ 11 = narrow n ∧
        (11 = n ↔ Int32.minValue.toInt ≤ n ∧ n ≤ Int32.maxValue.toInt)) ∧
      parse hugeLiteralText = .error ⟨.invalidValue "9223372036854775808", 2⟩ := by
  have hparse : parse versionsText = .ok { passes :=
      [{ moduleName := "core", jdkVersion := 11 }, { moduleName := "app", jdkVersion := 6 }] } := by
    decide +kernel
  have hliterals : (passTables (items versionsText)).map jdkLiterals =
      [[("8" : Text), ("+11" : Text)], []] := by decide +kernel
  refine ⟨hparse, ?_, ?_⟩
  · obtain ⟨entries, rest, hfirst, -, hentries⟩ :=
      List.forall₂_cons_left_iff.mp ((parse_jdkVersion versionsText).1 hparse)
    rw [hentries, List.map_cons] at hliterals
    rw [(List.cons.inj hliterals).1] at hfirst
    exact hfirst
  · let c : Cursor := ⟨hugeLiteralText.drop 8, 1⟩
    have hheader : ConfigDraft.step {} (Cursor.skipSpace ⟨hugeLiteralText, 1⟩) =
        .ok ({ config := { passes := [{}] }, table := .pass }, c) := by decide +kernel
    have hstart : c.skipSpace.valueStart? = some ⟨hugeLiteralText.drop 23, 2⟩ := by decide +kernel
    have hnumeral : IsNumeral ((hugeLiteralText.drop 23).takeWhile ConfigValue.isWordChar)
        9223372036854775808 := toInt?_eq_some.mp (by decide +kernel)
    have hline : c.skipSpace.line = 2 := by decide +kernel
    have herror := (parse_jdkVersion hugeLiteralText).2 (.step .start hheader) hstart hnumeral
      (by decide)
    rw [hline] at herror
    exact herror

/-- The literal has more than 32 bits and fewer than 64. -/
theorem Config.parse_jdkVersion_wrappedLiteral :
    let t : Text := "[[pass]]\njdk_version = 4294967307\n"
    parse t = .ok { passes := [{ jdkVersion := 11 }] } ∧
      (passTables (items t)).map jdkLiterals = [[("4294967307" : Text)]] ∧
      IsNumeral "4294967307" 4294967307 ∧ Int32.maxValue.toInt < 4294967307 := by
  intro t
  exact ⟨by decide +kernel, by decide +kernel, toInt?_eq_some.mp (by decide +kernel), by decide⟩

end CrossDoc
