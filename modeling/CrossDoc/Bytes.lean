import CrossDoc.Text

/-!
# Texts and bytes

How texts come from byte arrays and Unicode strings and go back to them.
-/

namespace CrossDoc.Text

def ofBytes (bytes : ByteArray) : Text := bytes.toList.map fun b => Char.ofNat b.toNat

def toBytes (t : Text) : ByteArray := ⟨(t.map fun c => UInt8.ofNat c.toNat).toArray⟩

/-- The text of the UTF-8 form of a string. -/
def ofString (s : String) : Text := ofBytes s.toUTF8

/-- The string of which a text is the UTF-8 form. -/
def toString? (t : Text) : Option String := String.fromUTF8? (toBytes t)

end CrossDoc.Text
