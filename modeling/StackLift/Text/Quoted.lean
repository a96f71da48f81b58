import StackLift.Text.Hidden

/-!
# Quoted text

Text between double quotes, with every character that cannot be shown spelled out: a backslash and
a letter for the common ones, else its number in hexadecimal.
-/
namespace StackLift

namespace Text

def hexDigits (n : Nat) : String := String.ofList (Nat.toDigits 16 n)

def spell (c : Char) : String :=
  if c = '\x00' then "\\0"
  else if c = '\t' then "\\t"
  else if c = '\r' then "\\r"
  else if c = '\n' then "\\n"
  else if c = '\\' then "\\\\"
  else if c = '"' then "\\\""
  else if isHidden c then "\\u\x7b" ++ hexDigits c.toNat ++ "\x7d"
  else c.toString

def quoted (s : String) : String := "\"" ++ String.join (s.toList.map spell) ++ "\""

/-- Quoted texts in brackets. -/
def quotedList (ss : List String) : String := "[" ++ ", ".intercalate (ss.map quoted) ++ "]"

end Text

end StackLift
