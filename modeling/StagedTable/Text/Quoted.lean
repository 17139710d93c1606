/-!
# Quoted text

Text between double quotes, with the characters that would end it or disturb a line written as
escapes: the quote and the backslash, the named control characters, and every other ASCII
control character by its number.  All other characters stand for themselves.
-/

namespace StagedTable.Text

/-- hexadecimal digits of a number, without leading zeros -/
def hexDigits (n : Nat) : List Char := Nat.toDigits 16 n

def isControl (c : Char) : Bool := c.toNat < 32 || c.toNat == 127

/-- what stands for `c` between the quotes -/
def escape (c : Char) : List Char :=
  if c = '"' then ['\\', '"']
  else if c = '\\' then ['\\', '\\']
  else if c = '\n' then ['\\', 'n']
  else if c = '\r' then ['\\', 'r']
  else if c = '\t' then ['\\', 't']
  else if c = '\x00' then ['\\', '0']
  else if isControl c then ['\\', 'u', '\x7b'] ++ hexDigits c.toNat ++ ['\x7d']
  else [c]

def quoted (s : String) : String :=
  String.ofList ('"' :: s.toList.flatMap escape ++ ['"'])

end StagedTable.Text
