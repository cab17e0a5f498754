import CrossDoc.Proofs.JsonGrammar
import Mathlib.Data.List.Forall2
import Mathlib.Data.List.Induction

/-!
# Written JSON

What the tool writes as JSON is put together from escaped strings, with
separators and whitespace between the parts.  Reading an escaped text gives the
text back, and values that are joined by commas stand for the list of them.
-/

namespace CrossDoc

/-! ## Strings -/

namespace JsonString

theorem hexValue?_hexDigit : ∀ n < 16, hexValue? (hexDigit n) = some n := by decide

theorem codeUnit?_hexDigit {n : Nat} (h : n < 256) :
    codeUnit? '0' '0' (hexDigit (n / 16)) (hexDigit (n % 16)) = some n := by
  have hhigh := hexValue?_hexDigit (n / 16) (by omega)
  have hlow := hexValue?_hexDigit (n % 16) (by omega)
  have hzero : hexValue? '0' = some 0 := rfl
  simp only [codeUnit?, hzero, hhigh, hlow, Option.bind_eq_bind, Option.bind_some]
  exact congrArg some (by omega)

theorem unescape_control {c : Char} (h : c.toNat < 32) (t : Text) :
    unescape ('\\' :: 'u' :: '0' :: '0' :: hexDigit (c.toNat / 16) :: hexDigit (c.toNat % 16) :: t) =
      (unescape t).map (c :: ·) := by
  have hhigh : isHighSurrogate c.toNat = false := by simp [isHighSurrogate]; omega
  have hlow : isLowSurrogate c.toNat = false := by simp [isLowSurrogate]; omega
  have hbyte : utf8 c.toNat = [c] := by
    rw [utf8, if_pos (by omega), Char.ofNat_toNat]
  rw [unescape, codeUnit?_hexDigit (by omega)]
  simp only [Option.bind_eq_bind, Option.bind_some, hhigh, hlow, hbyte]
  cases unescape t <;> rfl

theorem unescape_short {c d : Char} (h : shortEscape? c = some d) (t : Text) :
    unescape ('\\' :: c :: t) = (unescape t).map (d :: ·) := by
  rw [unescape, h]
  · cases unescape t <;> rfl
  · rintro _ _ _ _ _ rfl
    cases h

theorem unescape_plain {c : Char} (hquote : c ≠ '"') (hescape : c ≠ '\\') (h : 32 ≤ c.toNat)
    (t : Text) : unescape (c :: t) = (unescape t).map (c :: ·) := by
  rw [unescape, if_neg (by simp [hquote, hescape]; omega)]
  · exact fun _ _ _ _ _ h => absurd h hescape
  · exact fun _ _ h => absurd h hescape

/-- What is written for a character is read as that character. -/
theorem unescape_escapeChar (c : Char) (t : Text) :
    unescape (escapeChar c ++ t) = (unescape t).map (c :: ·) := by
  unfold escapeChar
  split_ifs with hquote hescape hnewline hreturn htab hcontrol
  · subst hquote
    exact unescape_short rfl t
  · subst hescape
    exact unescape_short rfl t
  · subst hnewline
    exact unescape_short rfl t
  · subst hreturn
    exact unescape_short rfl t
  · subst htab
    exact unescape_short rfl t
  · exact unescape_control hcontrol t
  · exact unescape_plain hquote hescape (Nat.le_of_not_lt hcontrol) t

/-- **Reading undoes writing**, whatever bytes a text has. -/
theorem unescape_escape : ∀ t : Text, unescape (escape t) = some t
  | [] => rfl
  | c :: t => by
      show unescape (escapeChar c ++ escape t) = _
      rw [unescape_escapeChar, unescape_escape t]
      rfl

theorem le_of_mem_escapeChar (c : Char) : ∀ d ∈ escapeChar c, 32 ≤ d.toNat := by
  unfold escapeChar
  split_ifs with hquote hescape hnewline hreturn htab hcontrol
  · simp
  · simp
  · simp
  · simp
  · simp
  · have hdigit : ∀ n < 16, 32 ≤ (hexDigit n).toNat := by decide
    have hhigh := hdigit (c.toNat / 16) (by omega)
    have hlow := hdigit (c.toNat % 16) (by omega)
    simp only [List.forall_mem_cons]
    exact ⟨by decide, by decide, by decide, by decide, hhigh, hlow, nofun⟩
  · exact List.forall_mem_singleton.mpr (Nat.le_of_not_lt hcontrol)

/-- Escaped text has no control characters. -/
theorem le_of_mem_escape {t : Text} {d : Char} (h : d ∈ escape t) : 32 ≤ d.toNat := by
  obtain ⟨c, -, hd⟩ := List.mem_flatMap.mp h
  exact le_of_mem_escapeChar c d hd

theorem le_of_mem_quoted (t : Text) : ∀ d ∈ quoted t, 32 ≤ d.toNat := by
  simp only [quoted, List.cons_append, List.forall_mem_cons, List.forall_mem_append]
  exact ⟨by decide, fun d hd => le_of_mem_escape hd, by decide, nofun⟩

/-! ### Quotes in escaped text -/

/-- How many backslashes stand at the end of a text. -/
def backslashes (t : Text) : Nat := (t.reverse.takeWhile (· = '\\')).length

/-- A reader of the text takes none of its double quotes for the end of the
string. -/
def IsWithoutBareQuote (t : Text) : Prop :=
  ∀ before after, t = before ++ '"' :: after → backslashes before % 2 = 1

theorem backslashes_concat (t : Text) : backslashes (t ++ ['\\']) = backslashes t + 1 := by
  simp [backslashes]

theorem backslashes_concat_ne {c : Char} (h : c ≠ '\\') (t : Text) :
    backslashes (t ++ [c]) = 0 := by
  simp [backslashes, h]

theorem escape_concat (t : Text) (c : Char) : escape (t ++ [c]) = escape t ++ escapeChar c := by
  simp [escape]

/-- Only a backslash is written with a backslash at the end. -/
theorem exists_escapeChar {c : Char} (h : c ≠ '\\') :
    ∃ s d, escapeChar c = s ++ [d] ∧ d ≠ '\\' := by
  unfold escapeChar
  split_ifs with hquote hnewline hreturn htab hcontrol
  · exact ⟨['\\'], '"', rfl, by decide⟩
  · exact ⟨['\\'], 'n', rfl, by decide⟩
  · exact ⟨['\\'], 'r', rfl, by decide⟩
  · exact ⟨['\\'], 't', rfl, by decide⟩
  · have hdigit : ∀ n < 16, hexDigit n ≠ '\\' := by decide
    exact ⟨['\\', 'u', '0', '0', hexDigit (c.toNat / 16)], hexDigit (c.toNat % 16), rfl,
      hdigit _ (by omega)⟩
  · exact ⟨[], c, rfl, h⟩

theorem escapeChar_of_quote_mem {c : Char} (h : '"' ∈ escapeChar c) :
    escapeChar c = ['\\', '"'] := by
  by_cases hquote : c = '"'
  · rw [hquote]
    rfl
  · -- no other character has a quote in what is written for it
    have hdigit : ∀ n < 16, '"' ≠ hexDigit n := by decide
    have hhigh := hdigit (c.toNat / 16)
    have hlow := hdigit (c.toNat % 16)
    unfold escapeChar at h
    grind

theorem eq_of_escapeChar {c : Char} {s rest : Text} (h : escapeChar c = s ++ '"' :: rest) :
    s = ['\\'] := by
  have hmem : '"' ∈ escapeChar c := by simp [h]
  rw [escapeChar_of_quote_mem hmem] at h
  rcases s with _ | ⟨d, _ | ⟨e, s⟩⟩
  · simp at h
  · obtain ⟨rfl, -⟩ := List.cons.inj h
    rfl
  · simp at h

/-- The backslashes at the end of escaped text come in pairs. -/
theorem backslashes_escape (t : Text) : backslashes (escape t) % 2 = 0 := by
  induction t using List.reverseRecOn with
  | nil => rfl
  | append_singleton t c ih =>
      rw [escape_concat]
      by_cases hc : c = '\\'
      · have hpair : escape t ++ escapeChar c = escape t ++ ['\\'] ++ ['\\'] := by
          simp [hc, escapeChar]
        rw [hpair, backslashes_concat, backslashes_concat]
        omega
      · obtain ⟨s, d, hs, hd⟩ := exists_escapeChar hc
        rw [hs, ← List.append_assoc, backslashes_concat_ne hd]

/-- **Every double quote in escaped text is escaped.** -/
theorem isWithoutBareQuote_escape (t : Text) : IsWithoutBareQuote (escape t) := by
  induction t using List.reverseRecOn with
  | nil => simp [IsWithoutBareQuote, escape]
  | append_singleton t c ih =>
      intro s rest h
      rw [escape_concat] at h
      rcases List.append_eq_append_iff.mp h with ⟨s', rfl, hs'⟩ | ⟨t', ht, ht'⟩
      · -- the quote is in what is written for the last character
        rw [eq_of_escapeChar hs', backslashes_concat, Nat.add_mod, backslashes_escape]
      · cases t' with
        | nil => cases eq_of_escapeChar (s := []) ht'.symm
        | cons d t' =>
            obtain ⟨rfl, -⟩ := List.cons.inj ht'
            exact ih s t' ht

end JsonString

namespace JsonValue

/-! ## Numbers -/

/-- Only the digits of zero start with a zero. -/
theorem foldlM_ofNat {s : NumberState} (hs : s = .start ∨ s = .minus) (n : Nat) :
    (Text.ofNat n).foldlM NumberState.next? s = some (if n = 0 then .zero else .whole) := by
  induction n using Nat.strongRecOn with
  | ind n ih =>
      by_cases hn : n < 10
      · have hfirst : ∀ n < 10, s.next? (Nat.digitChar n) =
            some (if n = 0 then .zero else .whole) := by
          rcases hs with rfl | rfl <;> decide
        rw [Text.ofNat, Nat.toDigits_of_lt_base hn, List.foldlM_cons, hfirst n hn]
        rfl
      · have hfurther : ∀ n < 10, NumberState.next? .whole (Nat.digitChar n) = some .whole := by
          decide
        have hquotient : ¬ n / 10 = 0 := by omega
        have hrest := ih (n / 10) (by omega)
        rw [if_neg hquotient, Text.ofNat] at hrest
        rw [if_neg (by omega), Text.ofNat, Nat.toDigits_of_base_le (by decide) (by omega),
          List.foldlM_append, hrest]
        simp [hfurther (n % 10) (by omega)]

theorem isNumber_ofInt (n : Int) : isNumber (Text.ofInt n) = true := by
  cases n with
  | ofNat n =>
      rw [isNumber, Text.ofInt, foldlM_ofNat (.inl rfl)]
      split <;> rfl
  | negSucc n =>
      have hminus : NumberState.next? .start '-' = some .minus := rfl
      rw [isNumber, Text.ofInt, List.foldlM_cons, hminus, Option.bind_eq_bind, Option.bind_some,
        foldlM_ofNat (.inr rfl)]
      rfl

/-! ## Joined values -/

theorem isValue_quoted (t : Text) : IsValue (JsonString.quoted t) (.string t) :=
  .string (JsonString.unescape_escape t)

theorem IsMember.quoted (key : Text) {w s : Text} {v : JsonValue} (hw : IsBlank w)
    (h : IsValue s v) : IsMember IsValue (JsonString.quoted key ++ (':' :: w) ++ s) (key, v) := by
  have hmember := IsMember.intro (JsonString.unescape_escape key) (w := []) nofun hw h
  simpa [JsonString.quoted] using hmember

section Lists

variable {α : Type} {item : Text → α → Prop} {s w : Text} {as : List α}

/-- An item with whitespace before it. -/
def Indented (item : Text → α → Prop) (t : Text) (a : α) : Prop :=
  ∃ w s, IsBlank w ∧ item s a ∧ t = w ++ s

theorem Indented.of {a : α} (h : item s a) : Indented item s a := ⟨[], s, nofun, h, rfl⟩

theorem IsBlank.append {v : Text} (hv : IsBlank v) (hw : IsBlank w) : IsBlank (v ++ w) :=
  List.forall_mem_append.mpr ⟨hv, hw⟩

theorem IsList.after_blank (hw : IsBlank w) (h : IsList item s as) : IsList item (w ++ s) as := by
  cases h with
  | one before first after =>
      rw [← List.append_assoc]
      exact .one (hw.append before) first after
  | more before first after further =>
      rw [← List.append_assoc]
      exact .more (hw.append before) first after further

/-- Items with commas between them, whitespace `b` after each comma and `w` at
the end. -/
theorem IsList.join {b : Text} (hb : IsBlank b) (hw : IsBlank w) :
    ∀ {ts : List Text} {as : List α}, List.Forall₂ (Indented item) ts as → ts ≠ [] →
      IsList item (Text.join (',' :: b) ts ++ w) as
  | [_], [_], .cons ⟨v, s, hv, hs, rfl⟩ .nil, _ => by
      simpa [Text.join] using IsList.one hv hs hw
  | _ :: _ :: _, _ :: _, .cons ⟨v, s, hv, hs, rfl⟩ further, _ => by
      have hrest := (IsList.join hb hw further (List.cons_ne_nil _ _)).after_blank hb
      have hnone : IsBlank [] := nofun
      simpa [Text.join] using IsList.more hv hs hnone hrest

theorem IsEnclosed.join {first last : Char} {b : Text} (hb : IsBlank b) (hw : IsBlank w)
    {ts : List Text} (h : List.Forall₂ (Indented item) ts as) :
    IsEnclosed first last item (first :: (Text.join (',' :: b) ts ++ w ++ [last])) as := by
  cases h with
  | nil => exact .none hw
  | cons head further =>
      exact .some (IsList.join hb hw (.cons head further) (List.cons_ne_nil _ _))

end Lists

/-! ## Reading members -/

/-- The value an object has under a name. -/
def field? (key : Text) : JsonValue → Option JsonValue
  | .object ms => (ms.find? fun m => m.1 = key).map Prod.snd
  | _ => none

def text? : JsonValue → Option Text
  | .string t => some t
  | _ => none

/-- A number without a fraction and an exponent. -/
def integer? : JsonValue → Option Int
  | .number literal => Text.toInt? literal
  | _ => none

end JsonValue

end CrossDoc
