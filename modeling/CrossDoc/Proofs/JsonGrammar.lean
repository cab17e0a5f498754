import CrossDoc.JsonString
import Mathlib.Data.List.TakeWhile

/-!
# The grammar of JSON

`JsonValue.IsJson` says which value a text stands for, production by production:
whitespace may stand around values, names and the signs between them, and
strings have the inside that `JsonString.unescape` reads.  `JsonValue.decode?`
is a reader for the grammar.  It finds whatever value a text stands for, so no
text stands for two.
-/

namespace CrossDoc

/-- A JSON value.  A number is kept as it is written, and the members of an
object keep their order. -/
inductive JsonValue where
  | null
  | bool (b : Bool)
  | number (literal : Text)
  | string (t : Text)
  | array (elements : List JsonValue)
  | object (members : List (Text × JsonValue))

namespace JsonValue

/-! ## Numbers -/

/-- How far the reading of a number has come. -/
inductive NumberState where
  | start
  | minus
  | zero
  | whole
  | point
  | fraction
  | mark
  | markSign
  | exponent
deriving DecidableEq, Repr

namespace NumberState

/-- What one more character makes of a number. -/
def next? (s : NumberState) (c : Char) : Option NumberState :=
  match s with
  | start | minus =>
      if c = '-' ∧ s = start then some minus
      else if c = '0' then some zero
      else if c.isDigit then some whole
      else none
  | zero | whole =>
      if c.isDigit ∧ s = whole then some whole
      else if c = '.' then some point
      else if c = 'e' ∨ c = 'E' then some mark
      else none
  | point => if c.isDigit then some fraction else none
  | fraction =>
      if c.isDigit then some fraction
      else if c = 'e' ∨ c = 'E' then some mark
      else none
  | mark =>
      if c = '+' ∨ c = '-' then some markSign
      else if c.isDigit then some exponent
      else none
  | markSign | exponent => if c.isDigit then some exponent else none

/-- The number may end here. -/
def accepts (s : NumberState) : Bool :=
  s == zero || s == whole || s == fraction || s == exponent

end NumberState

/-- An optional minus sign, a whole number without leading zeros, and optionally
a fraction and an exponent. -/
def isNumber (t : Text) : Bool := (t.foldlM NumberState.next? .start).any NumberState.accepts

/-! ## Values -/

def isWhite (c : Char) : Bool := c == ' ' || c == '\t' || c == '\n' || c == '\r'

/-- Whitespace, or nothing. -/
def IsBlank (t : Text) : Prop := ∀ c ∈ t, isWhite c = true

instance (t : Text) : Decidable (IsBlank t) :=
  decidable_of_iff (t.all isWhite = true) List.all_eq_true

/-- Some items with commas between them and whitespace around them. -/
inductive IsList {α : Type} (item : Text → α → Prop) : Text → List α → Prop where
  | one {w s w' : Text} {a : α} (before : IsBlank w) (first : item s a) (after : IsBlank w') :
      IsList item (w ++ (s ++ w')) [a]
  | more {w s w' rest : Text} {a : α} {as : List α} (before : IsBlank w) (first : item s a)
      (after : IsBlank w') (further : IsList item rest as) :
      IsList item (w ++ (s ++ (w' ++ ',' :: rest))) (a :: as)

/-- A list of items between two signs, or whitespace for none. -/
inductive IsEnclosed {α : Type} (first last : Char) (item : Text → α → Prop) :
    Text → List α → Prop where
  | none {w : Text} (blank : IsBlank w) : IsEnclosed first last item (first :: (w ++ [last])) []
  | some {s : Text} {as : List α} (list : IsList item s as) :
      IsEnclosed first last item (first :: (s ++ [last])) as

/-- A name and a value with a colon between them. -/
inductive IsMember (value : Text → JsonValue → Prop) : Text → Text × JsonValue → Prop where
  | intro {name key w w' s : Text} {v : JsonValue} (inside : JsonString.unescape name = some key)
      (beforeColon : IsBlank w) (afterColon : IsBlank w') (isValue : value s v) :
      IsMember value ('"' :: (name ++ '"' :: (w ++ ':' :: (w' ++ s)))) (key, v)

/-- The text is a value, without whitespace around it. -/
inductive IsValue : Text → JsonValue → Prop where
  | null : IsValue "null" .null
  | true : IsValue "true" (.bool true)
  | false : IsValue "false" (.bool false)
  | number {s : Text} (number : isNumber s = true) : IsValue s (.number s)
  | string {s t : Text} (inside : JsonString.unescape s = some t) :
      IsValue ('"' :: (s ++ ['"'])) (.string t)
  | array {s : Text} {vs : List JsonValue} (elements : IsEnclosed '[' ']' IsValue s vs) :
      IsValue s (.array vs)
  | object {s : Text} {ms : List (Text × JsonValue)}
      (members : IsEnclosed '\x7b' '\x7d' (IsMember IsValue) s ms) : IsValue s (.object ms)

/-- The whole text is one value with whitespace around it. -/
def IsJson (t : Text) (v : JsonValue) : Prop :=
  ∃ w s w', IsBlank w ∧ IsValue s v ∧ IsBlank w' ∧ t = w ++ (s ++ w')

/-! ## Reading -/

def skip (t : Text) : Text := t.dropWhile isWhite

/-- The inside of a string up to the closing quote, and what follows it. -/
def inside? : Text → Option (Text × Text)
  | [] => none
  | '"' :: rest => some ([], rest)
  | '\\' :: c :: rest => (inside? rest).map (Prod.map ('\\' :: c :: ·) id)
  | c :: rest => (inside? rest).map (Prod.map (c :: ·) id)

/-- A string after its opening quote. -/
def string? (t : Text) : Option (Text × Text) := do
  let (s, rest) ← inside? t
  return (← JsonString.unescape s, rest)

/-- The characters of numbers and of the three names. -/
def isWordChar (c : Char) : Bool := c.isAlphanum || c == '+' || c == '-' || c == '.'

/-- A value that is written with these characters. -/
def word? (t : Text) : Option JsonValue :=
  if t = "null" then some .null
  else if t = "true" then some (.bool true)
  else if t = "false" then some (.bool false)
  else if isNumber t then some (.number t)
  else none

/-- Items up to the closing sign, and what follows it. -/
def list? {α : Type} (close : Char) (item? : Text → Option (α × Text)) :
    Nat → Text → Option (List α × Text)
  | 0, _ => none
  | n + 1, t => do
      let (a, t) ← item? (skip t)
      match skip t with
      | c :: t =>
          if c = close then return ([a], t)
          else if c = ',' then (list? close item? n t).map (Prod.map (a :: ·) id)
          else none
      | [] => none

/-- A list of items, or whitespace for none, up to the closing sign. -/
def items? {α : Type} (close : Char) (item? : Text → Option (α × Text)) (t : Text) :
    Option (List α × Text) :=
  match skip t with
  | c :: rest => if c = close then some ([], rest) else list? close item? t.length t
  | [] => none

/-- A name and a value, and what follows them. -/
def member? (value? : Text → Option (JsonValue × Text)) :
    Text → Option ((Text × JsonValue) × Text)
  | '"' :: t => do
      let (key, t) ← string? t
      match skip t with
      | ':' :: t => (value? (skip t)).map (Prod.map (key, ·) id)
      | _ => none
  | _ => none

/-- The value at the start of a text, and what follows it.  Each level of
nesting takes one step. -/
def value? : Nat → Text → Option (JsonValue × Text)
  | 0, _ => none
  | _ + 1, '"' :: t => (string? t).map (Prod.map .string id)
  | n + 1, '[' :: t => (items? ']' (value? n) t).map (Prod.map .array id)
  | n + 1, '\x7b' :: t => (items? '\x7d' (member? (value? n)) t).map (Prod.map .object id)
  | _ + 1, t => (word? (t.takeWhile isWordChar)).map fun v => (v, t.dropWhile isWordChar)

/-- The value that a text stands for. -/
def decode? (t : Text) : Option JsonValue := do
  let (v, rest) ← value? t.length (skip t)
  if skip rest = [] then return v else none

/-! ## Whitespace -/

theorem skip_append {w t : Text} (h : IsBlank w) : skip (w ++ t) = skip t :=
  List.dropWhile_append_of_pos h

theorem skip_blank {w : Text} (h : IsBlank w) : skip w = [] := List.dropWhile_eq_nil_iff.mpr h

/-- The text starts as an item of a list does, neither with whitespace nor with
a closing sign. -/
def Starts (t : Text) : Prop :=
  ∃ c rest, t = c :: rest ∧ isWhite c = false ∧ c ≠ ']' ∧ c ≠ '\x7d'

theorem Starts.append {t : Text} (h : Starts t) (rest : Text) : Starts (t ++ rest) := by
  obtain ⟨c, more, rfl, hc⟩ := h
  exact ⟨c, more ++ rest, rfl, hc⟩

theorem skip_cons {c : Char} (hc : isWhite c = false) (t : Text) : skip (c :: t) = c :: t :=
  List.dropWhile_cons_of_neg (by simp [hc])

theorem skip_append_starts {w t : Text} (hw : IsBlank w) (ht : Starts t) : skip (w ++ t) = t := by
  obtain ⟨c, rest, rfl, hc, -⟩ := ht
  rw [skip_append hw, skip_cons hc]

/-- Nothing that follows could still belong to a number or a name. -/
def Stops (t : Text) : Prop := ∀ c ∈ t.head?, isWordChar c = false

theorem stops_cons {c : Char} (h : isWordChar c = false) (t : Text) : Stops (c :: t) := by
  intro d hd
  obtain rfl := Option.mem_some.mp hd
  exact h

theorem not_isWordChar_of_isWhite {c : Char} (h : isWhite c = true) : isWordChar c = false := by
  simp only [isWhite, Bool.or_eq_true, beq_iff_eq, or_assoc] at h
  rcases h with rfl | rfl | rfl | rfl <;> decide

theorem stops_append {w t : Text} (hw : IsBlank w) (ht : Stops t) : Stops (w ++ t) := by
  cases w with
  | nil => exact ht
  | cons c rest => exact stops_cons (not_isWordChar_of_isWhite (hw c List.mem_cons_self)) _

/-! ## Words -/

theorem word_append {w rest : Text} (hw : ∀ c ∈ w, isWordChar c = true) (hrest : Stops rest) :
    (w ++ rest).takeWhile isWordChar = w ∧ (w ++ rest).dropWhile isWordChar = rest := by
  have hnone : rest.takeWhile isWordChar = [] ∧ rest.dropWhile isWordChar = rest := by
    cases rest with
    | nil => exact ⟨rfl, rfl⟩
    | cons c rest =>
        have hc : ¬ isWordChar c = true := by simp [hrest c rfl]
        exact ⟨List.takeWhile_cons_of_neg hc, List.dropWhile_cons_of_neg hc⟩
  rw [List.takeWhile_append_of_pos hw, List.dropWhile_append_of_pos hw, hnone.1, hnone.2]
  exact ⟨List.append_nil w, rfl⟩

theorem isWordChar_of_next? {s s' : NumberState} {c : Char} (h : s.next? c = some s') :
    isWordChar c = true := by
  have hcases : c.isDigit = true ∨ c = '0' ∨ c = '-' ∨ c = '+' ∨ c = '.' ∨ c = 'e' ∨ c = 'E' := by
    cases s <;> simp only [NumberState.next?] at h <;> split_ifs at h <;> grind
  rcases hcases with hdigit | rfl | rfl | rfl | rfl | rfl | rfl
  · simp [isWordChar, Char.isAlphanum, hdigit]
  all_goals decide

theorem isWordChar_of_foldlM : ∀ {t : Text} {s s' : NumberState},
    t.foldlM NumberState.next? s = some s' → ∀ c ∈ t, isWordChar c = true
  | [], _, _, _ => nofun
  | _ :: _, _, _, h => by
      rw [List.foldlM_cons] at h
      obtain ⟨_, hnext, hrest⟩ := Option.bind_eq_some_iff.mp h
      exact List.forall_mem_cons.mpr ⟨isWordChar_of_next? hnext, isWordChar_of_foldlM hrest⟩

theorem isWordChar_of_isNumber {t : Text} (h : isNumber t = true) :
    t ≠ [] ∧ ∀ c ∈ t, isWordChar c = true := by
  unfold isNumber at h
  cases hs : t.foldlM NumberState.next? .start with
  | none =>
      rw [hs] at h
      cases h
  | some s =>
      refine ⟨?_, isWordChar_of_foldlM hs⟩
      rintro rfl
      cases h

theorem starts_of_isWordChar {t : Text} (hne : t ≠ []) (ht : ∀ c ∈ t, isWordChar c = true) :
    Starts t := by
  obtain ⟨c, rest, rfl⟩ := List.exists_cons_of_ne_nil hne
  have hc := ht c List.mem_cons_self
  refine ⟨c, rest, rfl, ?_, ?_, ?_⟩
  · by_contra hwhite
    rw [not_isWordChar_of_isWhite (Bool.not_eq_false _ ▸ hwhite)] at hc
    cases hc
  · rintro rfl
    exact absurd hc (by decide)
  · rintro rfl
    exact absurd hc (by decide)

/-! ## Strings -/

theorem inside?_cons {c : Char} (hquote : c ≠ '"') (hescape : c ≠ '\\') (t : Text) :
    inside? (c :: t) = (inside? t).map (Prod.map (c :: ·) id) := by
  rw [inside?]
  · exact fun h => hquote h
  · exact fun _ _ h => absurd h hescape

theorem ne_of_hexValue? {c : Char} {n : Nat} (h : JsonString.hexValue? c = some n) :
    c ≠ '"' ∧ c ≠ '\\' := by
  constructor
  · rintro rfl
    cases (show none = some n from h)
  · rintro rfl
    cases (show none = some n from h)

theorem inside?_unit {a b c d : Char} {n : Nat} (h : JsonString.codeUnit? a b c d = some n)
    (t : Text) : inside? ('\\' :: 'u' :: a :: b :: c :: d :: t) =
      (inside? t).map (Prod.map (['\\', 'u', a, b, c, d] ++ ·) id) := by
  simp only [JsonString.codeUnit?, Option.bind_eq_bind, Option.bind_eq_some_iff] at h
  obtain ⟨_, ha, _, hb, _, hc, _, hd, -⟩ := h
  have ha := ne_of_hexValue? ha
  have hb := ne_of_hexValue? hb
  have hc := ne_of_hexValue? hc
  have hd := ne_of_hexValue? hd
  rw [inside?, inside?_cons ha.1 ha.2, inside?_cons hb.1 hb.2, inside?_cons hc.1 hc.2,
    inside?_cons hd.1 hd.2]
  simp only [Option.map_map]
  rfl

/-- The closing quote is the first one that ends what can be unescaped. -/
theorem inside?_append {s t : Text} (h : JsonString.unescape s = some t) (rest : Text) :
    inside? (s ++ '"' :: rest) = some (s, rest) := by
  fun_induction JsonString.unescape s generalizing t with
  | case1 => rfl
  | case2 a b c d more ihpair ih =>
      obtain ⟨n, hn, h⟩ := Option.bind_eq_some_iff.mp h
      simp only [List.cons_append, inside?_unit hn]
      split_ifs at h with hhigh hlow
      · -- only another unit may follow the first half of a pair
        split at h
        · obtain ⟨m, hm, h⟩ := Option.bind_eq_some_iff.mp h
          split_ifs at h
          obtain ⟨u, hu, -⟩ := Option.bind_eq_some_iff.mp h
          simp only [List.cons_append, inside?_unit hm, ihpair hu]
          rfl
        · cases h
      · obtain ⟨u, hu, -⟩ := Option.bind_eq_some_iff.mp h
        rw [ih hu]
        rfl
  | case3 c more hunit ih =>
      obtain ⟨_, -, h⟩ := Option.bind_eq_some_iff.mp h
      obtain ⟨u, hu, -⟩ := Option.bind_eq_some_iff.mp h
      simp only [List.cons_append, inside?, ih hu]
      rfl
  | case4 => cases h
  | case5 c more _ _ hplain ih =>
      obtain ⟨u, hu, -⟩ := Option.map_eq_some_iff.mp h
      have hquote : c ≠ '"' := fun hc => hplain (.inl hc)
      have hescape : c ≠ '\\' := fun hc => hplain (.inr (.inl hc))
      rw [List.cons_append, inside?_cons hquote hescape, ih hu]
      rfl

theorem string?_append {s t : Text} (h : JsonString.unescape s = some t) (rest : Text) :
    string? (s ++ '"' :: rest) = some (t, rest) := by
  simp only [string?, inside?_append h, Option.bind_eq_bind, Option.bind_some, h]
  rfl

/-! ## The reader finds what the grammar allows -/

theorem IsValue.starts {s : Text} {v : JsonValue} (h : IsValue s v) : Starts s := by
  cases h with
  | number hnumber =>
      have hword := isWordChar_of_isNumber hnumber
      exact starts_of_isWordChar hword.1 hword.2
  | array elements => cases elements <;> exact ⟨_, _, rfl, by decide, by decide, by decide⟩
  | object members => cases members <;> exact ⟨_, _, rfl, by decide, by decide, by decide⟩
  | _ => exact ⟨_, _, rfl, by decide, by decide, by decide⟩

theorem IsMember.starts {value : Text → JsonValue → Prop} {s : Text} {m : Text × JsonValue}
    (h : IsMember value s m) : Starts s := by
  cases h
  exact ⟨_, _, rfl, by decide, by decide, by decide⟩

/-- The reader finds the items of limited length and stops behind them. -/
def Reads {α : Type} (item : Text → α → Prop) (item? : Text → Option (α × Text)) (n : Nat) :
    Prop :=
  ∀ s a, item s a → s.length ≤ n → ∀ rest, Stops rest → item? (s ++ rest) = some (a, rest)

section Items

variable {α : Type} {item : Text → α → Prop} {item? : Text → Option (α × Text)} {close : Char}
  {s : Text} {as : List α}

theorem IsList.starts_skip (h : IsList item s as) (hstarts : ∀ s a, item s a → Starts s)
    (rest : Text) : Starts (skip (s ++ rest)) := by
  cases h with
  | one before first after | more before first after further =>
      rw [List.append_assoc, List.append_assoc,
        skip_append_starts before ((hstarts _ _ first).append _)]
      exact (hstarts _ _ first).append _

theorem closing (hclose : close = ']' ∨ close = '\x7d') :
    isWhite close = false ∧ isWordChar close = false ∧ ',' ≠ close := by
  rcases hclose with rfl | rfl <;> decide

theorem list?_append (hstarts : ∀ s a, item s a → Starts s) (hreads : Reads item item? s.length)
    (hclose : close = ']' ∨ close = '\x7d') (h : IsList item s as) (rest : Text) :
    ∀ n, s.length ≤ n → list? close item? n (s ++ close :: rest) = some (as, rest) := by
  obtain ⟨hwhite, hword, hcomma⟩ := closing hclose
  induction h with
  | @one w s w' a before first after =>
      rintro (_ | n) hn
      · obtain ⟨c, more, rfl, -⟩ := hstarts _ _ first
        simp at hn
      · -- Neither whitespace nor the closing sign could belong to the item.
        have hread : item? (s ++ (w' ++ close :: rest)) = some (a, w' ++ close :: rest) :=
          hreads s a first (by simp; omega) _ (stops_append after (stops_cons hword rest))
        rw [list?, List.append_assoc, List.append_assoc,
          skip_append_starts before ((hstarts _ _ first).append _), hread]
        simp [skip_append after, skip_cons hwhite]
  | @more w s w' further a as before first after _ ih =>
      rintro (_ | n) hn
      · simp at hn
      · have hread : item? (s ++ (w' ++ ',' :: (further ++ close :: rest))) =
            some (a, w' ++ ',' :: (further ++ close :: rest)) :=
          hreads s a first (by simp; omega) _ (stops_append after (stops_cons (by decide) _))
        -- The comma takes the step that the further items do not need.
        have hfurther : list? close item? n (further ++ close :: rest) = some (as, rest) :=
          ih (fun s a h hs => hreads s a h (by simp; omega)) n (by simp at hn; omega)
        simp only [list?, List.append_assoc, List.cons_append,
          skip_append_starts before ((hstarts _ _ first).append _), hread]
        simp [skip_append after, skip_cons (show isWhite ',' = false by decide), hcomma, hfurther]

/-- What stands between the signs is a list of items or blank. -/
theorem items?_append {first : Char} (hstarts : ∀ s a, item s a → Starts s)
    (hclose : close = ']' ∨ close = '\x7d') (h : IsEnclosed first close item s as) :
    ∃ t, s = first :: (t ++ [close]) ∧ ∀ item?, Reads item item? t.length →
      ∀ rest, items? close item? (t ++ close :: rest) = some (as, rest) := by
  cases h with
  | @none w blank =>
      refine ⟨w, rfl, fun item? _ rest => ?_⟩
      simp [items?, skip_append blank, skip_cons (closing hclose).1]
  | @some t _ list =>
      refine ⟨t, rfl, fun item? hreads rest => ?_⟩
      obtain ⟨c, more, hskip, -, hbracket, hbrace⟩ := list.starts_skip hstarts (close :: rest)
      have hc : c ≠ close := by
        rcases hclose with rfl | rfl
        · exact hbracket
        · exact hbrace
      simp only [items?, hskip, if_neg hc]
      exact list?_append hstarts hreads hclose list rest _ (by simp)

end Items

theorem Reads.member {n : Nat} (h : Reads IsValue (value? n) n) :
    Reads (IsMember IsValue) (member? (value? n)) n := by
  rintro _ _ ⟨inside, before, after, value⟩ hs rest hrest
  have hread := h _ _ value (by simp at hs; omega) rest hrest
  simp only [List.cons_append, List.append_assoc, member?, string?_append inside,
    Option.bind_eq_bind, Option.bind_some, skip_append before,
    skip_cons (show isWhite ':' = false by decide),
    skip_append_starts after (value.starts.append rest), hread]
  rfl

theorem word?_of_isNumber {s : Text} (h : isNumber s = true) : word? s = some (.number s) := by
  have hnull : s ≠ "null" := by rintro rfl; cases h
  have htrue : s ≠ "true" := by rintro rfl; cases h
  have hfalse : s ≠ "false" := by rintro rfl; cases h
  rw [word?, if_neg hnull, if_neg htrue, if_neg hfalse, if_pos h]

/-- What is read of a text that starts with a word. -/
theorem value?_word {s : Text} {v : JsonValue} (hne : s ≠ []) (hs : ∀ c ∈ s, isWordChar c = true)
    (hv : word? s = some v) (n : Nat) {rest : Text} (hrest : Stops rest) :
    value? (n + 1) (s ++ rest) = some (v, rest) := by
  have happend := word_append hs hrest
  obtain ⟨c, more, rfl⟩ := List.exists_cons_of_ne_nil hne
  have hc := hs c List.mem_cons_self
  rw [List.cons_append] at happend ⊢
  rw [value?, happend.1, happend.2, hv]
  · rfl
  all_goals
    intro _ hcons
    obtain rfl := List.head_eq_of_cons_eq hcons
    exact absurd hc (by decide)

/-- By induction on the depth of nesting, which the length of a text bounds. -/
theorem reads_value : ∀ n, Reads IsValue (value? n) n
  | 0 => by
      intro s v h hs
      obtain ⟨c, more, rfl, -⟩ := h.starts
      simp at hs
  | n + 1 => by
      intro s v h hs rest hrest
      cases h with
      | null | true | false =>
          exact value?_word (by decide) (List.all_eq_true.mp (by decide)) rfl n hrest
      | number hnumber =>
          have hword := isWordChar_of_isNumber hnumber
          exact value?_word hword.1 hword.2 (word?_of_isNumber hnumber) n hrest
      | string inside => simp [value?, string?_append inside]
      | array elements =>
          obtain ⟨t, rfl, hitems⟩ :=
            items?_append (fun _ _ => IsValue.starts) (.inl rfl) elements
          -- The brackets make up for the level of nesting that is used up.
          have helements : Reads IsValue (value? n) t.length :=
            fun u a hu hlen => reads_value n u a hu (by simp at hs; omega)
          simp [value?, hitems _ helements rest]
      | object members =>
          obtain ⟨t, rfl, hitems⟩ :=
            items?_append (fun _ _ => IsMember.starts) (.inr rfl) members
          have hmembers : Reads (IsMember IsValue) (member? (value? n)) t.length :=
            fun u a hu hlen => (reads_value n).member u a hu (by simp at hs; omega)
          simp [value?, hitems _ hmembers rest]

/-- **The reader finds the value of a text.** -/
theorem decode?_of_isJson {t : Text} {v : JsonValue} (h : IsJson t v) : decode? t = some v := by
  obtain ⟨w, s, w', before, value, after, rfl⟩ := h
  have hstops : Stops w' := List.append_nil w' ▸ stops_append after nofun
  have hread : value? (w ++ (s ++ w')).length (s ++ w') = some (v, w') :=
    reads_value _ s v value (by simp; omega) w' hstops
  simp only [decode?, skip_append_starts before (value.starts.append w'), hread]
  simp [skip_blank after]

example : decode? " [1.5e3, \x7b\"a\": null\x7d]\n" =
    some (.array [.number "1.5e3", .object [("a", .null)]]) := by rfl

/-- **No text stands for two values.** -/
theorem IsJson.unique {t : Text} {v v' : JsonValue} (h : IsJson t v) (h' : IsJson t v') : v = v' :=
  Option.some.inj ((decode?_of_isJson h).symm.trans (decode?_of_isJson h'))

theorem IsJson.iff_eq {t : Text} {v v' : JsonValue} (h : IsJson t v) : IsJson t v' ↔ v' = v :=
  ⟨fun h' => h'.unique h, fun heq => heq ▸ h⟩

end JsonValue

end CrossDoc
