import Cyclewise.Text.Extending
import Cyclewise.Text.Graphic

/-!
# Quoted text

`quoted s` is `s` between double quotes.  A quote, a backslash and the common control characters are
written after a backslash.  Other characters that do not show on their own, because they are not
graphic, extend the character before them, or only fill space, are written by their number in
hexadecimal.
-/

namespace Cyclewise

namespace Text

/-- Whether a character is a letter without ink, which stands for a missing part of a syllable. -/
def isFiller (c : Char) : Bool :=
  CodeRange.anyContains (CodeRange.ofPairs [(0x115f, 0x1160), (0x3164, 0x3164), (0xffa0, 0xffa0)]) c

/-- Whether a character extends the one before it and yet has a width of its own: the halfwidth
sound marks. -/
def isHalfwidthMark (c : Char) : Bool := CodeRange.contains ⟨0xff9e, 0xff9f⟩ c

/-- Whether a character is written by its number. -/
def isHidden (c : Char) : Bool :=
  !isGraphic c || isFiller c || (isExtending c && !isHalfwidthMark c)

/-- A number in hexadecimal. -/
def hexadecimal (n : Nat) : String := String.ofList (Nat.toDigits 16 n)

/-- A character between quotes. -/
def quotedChar (c : Char) : String :=
  match c with
  | '"' => "\\\""
  | '\\' => "\\\\"
  | '\n' => "\\n"
  | '\r' => "\\r"
  | '\t' => "\\t"
  | '\x00' => "\\0"
  | c => if isHidden c then "\\u\x7b" ++ hexadecimal c.toNat ++ "\x7d" else c.toString

/-- A text between quotes. -/
def quoted (s : String) : String := "\"" ++ String.join (s.toList.map quotedChar) ++ "\""

end Text

end Cyclewise
