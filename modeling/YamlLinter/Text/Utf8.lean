/-!
# UTF-8 measures of a text

Offsets into a source count bytes of its UTF-8 form, while the scanner walks over characters.

## Contents

* `byteCount`: the bytes that a list of characters takes;
* `bytes`: those bytes, for the checks that look at raw text.
-/

namespace YamlLinter.Text

/-- The number of bytes that the characters take in UTF-8. -/
def byteCount : List Char → Nat
  | [] => 0
  | c :: cs => c.utf8Size + byteCount cs

/-- The UTF-8 form of the characters. -/
def bytes (cs : List Char) : List UInt8 :=
  cs.flatMap String.utf8EncodeChar

theorem byteCount_append (as bs : List Char) :
    byteCount (as ++ bs) = byteCount as + byteCount bs := by
  induction as with
  | nil => simp [byteCount]
  | cons a as ih => simp [byteCount, ih, Nat.add_assoc]

theorem bytes_append (as bs : List Char) : bytes (as ++ bs) = bytes as ++ bytes bs :=
  List.flatMap_append

theorem length_bytes (cs : List Char) : (bytes cs).length = byteCount cs := by
  induction cs with
  | nil => rfl
  | cons c cs ih =>
    have h : bytes (c :: cs) = String.utf8EncodeChar c ++ bytes cs := by simp [bytes]
    rw [h, List.length_append, ih, String.length_utf8EncodeChar, byteCount]

end YamlLinter.Text
