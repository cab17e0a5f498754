import CrossDoc.Text

/-!
# JSON strings

`escape` writes the inside of a JSON string and `unescape` reads it back.
Bytes from `0x80` up stand for themselves in both directions.
-/

namespace CrossDoc.JsonString

/-- The lower case hexadecimal digit of a number below sixteen. -/
def hexDigit (n : Nat) : Char := Nat.digitChar n

/-- A control character with a short form has that form, every other one is
written with four hexadecimal digits. -/
def escapeChar (c : Char) : Text :=
  if c = '"' then ['\\', '"']
  else if c = '\\' then ['\\', '\\']
  else if c = '\n' then ['\\', 'n']
  else if c = '\r' then ['\\', 'r']
  else if c = '\t' then ['\\', 't']
  else if c.toNat < 32 then
    ['\\', 'u', '0', '0', hexDigit (c.toNat / 16), hexDigit (c.toNat % 16)]
  else [c]

def escape (t : Text) : Text := t.flatMap escapeChar

/-- A string literal: the escaped text between double quotes. -/
def quoted (t : Text) : Text := '"' :: escape t ++ ['"']

/-! ## Reading back -/

def hexValue? (c : Char) : Option Nat :=
  if '0' ≤ c ∧ c ≤ '9' then some (c.toNat - '0'.toNat)
  else if 'a' ≤ c ∧ c ≤ 'f' then some (c.toNat - 'a'.toNat + 10)
  else if 'A' ≤ c ∧ c ≤ 'F' then some (c.toNat - 'A'.toNat + 10)
  else none

/-- The character a one letter escape stands for. -/
def shortEscape? (c : Char) : Option Char :=
  if c = '"' then some '"'
  else if c = '\\' then some '\\'
  else if c = '/' then some '/'
  else if c = 'b' then some '\x08'
  else if c = 'f' then some '\x0c'
  else if c = 'n' then some '\n'
  else if c = 'r' then some '\r'
  else if c = 't' then some '\t'
  else none

/-- The code unit of four hexadecimal digits. -/
def codeUnit? (a b c d : Char) : Option Nat := do
  return (((← hexValue? a) * 16 + (← hexValue? b)) * 16 + (← hexValue? c)) * 16 + (← hexValue? d)

/-- The first half of a pair that stands for one code point. -/
def isHighSurrogate (n : Nat) : Bool := 0xD800 ≤ n && n < 0xDC00

/-- The second half of such a pair. -/
def isLowSurrogate (n : Nat) : Bool := 0xDC00 ≤ n && n < 0xE000

/-- The code point of a pair of surrogates. -/
def ofSurrogates (high low : Nat) : Nat := 0x10000 + (high - 0xD800) * 0x400 + (low - 0xDC00)

/-- The UTF-8 bytes of a code point. -/
def utf8 (n : Nat) : Text :=
  let trailing (unit : Nat) : Char := Char.ofNat (0x80 + n / unit % 0x40)
  if n < 0x80 then [Char.ofNat n]
  else if n < 0x800 then [Char.ofNat (0xC0 + n / 0x40), trailing 1]
  else if n < 0x10000 then [Char.ofNat (0xE0 + n / 0x1000), trailing 0x40, trailing 1]
  else [Char.ofNat (0xF0 + n / 0x40000), trailing 0x1000, trailing 0x40, trailing 1]

/-- The text that the inside of a JSON string stands for.  A bare quote, a
bare control character, an unknown or cut escape and a surrogate without its
other half are refused. -/
def unescape : Text → Option Text
  | [] => some []
  | '\\' :: 'u' :: a :: b :: c :: d :: rest => do
      let n ← codeUnit? a b c d
      if isHighSurrogate n then
        match rest with
        | '\\' :: 'u' :: a :: b :: c :: d :: rest => do
            let m ← codeUnit? a b c d
            if isLowSurrogate m then return utf8 (ofSurrogates n m) ++ (← unescape rest)
            else none
        | _ => none
      else if isLowSurrogate n then none
      else return utf8 n ++ (← unescape rest)
  | '\\' :: c :: rest => do return (← shortEscape? c) :: (← unescape rest)
  | c :: rest =>
      if c = '"' ∨ c = '\\' ∨ c.toNat < 32 then none
      else (unescape rest).map (c :: ·)

end CrossDoc.JsonString
