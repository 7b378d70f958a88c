/-
  PcmConvert.Text.Quoted — a text between double quotes, written so that it shows in a
  single line: quotes and backslashes are escaped, line ends, tabs and the null character
  have their letters, and any other character that does not show is given by its number.
-/

import PcmConvert.Text.Graphic

namespace PcmConvert.Text

def hexDigits (n : Nat) : List Char := Nat.toDigits 16 n

def escape (c : Char) : List Char :=
  if c = '"' then ['\\', '"']
  else if c = '\\' then ['\\', '\\']
  else if c = '\n' then ['\\', 'n']
  else if c = '\r' then ['\\', 'r']
  else if c = '\t' then ['\\', 't']
  else if c.toNat = 0 then ['\\', '0']
  else if isGraphic c then [c]
  else ['\\', 'u', '\x7b'] ++ hexDigits c.toNat ++ ['\x7d']

def quote (s : String) : String := "\"" ++ String.ofList (s.toList.flatMap escape) ++ "\""

end PcmConvert.Text
