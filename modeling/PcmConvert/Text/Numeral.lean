/-
  PcmConvert.Text.Numeral — decimal numerals. A byte is read leniently: one plus sign
  may stand in front, zeros may lead, and nothing but ASCII digits follows.
-/

namespace PcmConvert.Text

def digitValue? (c : Char) : Option Nat := if '0' ≤ c ∧ c ≤ '9' then some (c.toNat - '0'.toNat) else none

/-- The number that the digits `s` continue, `acc` being read so far. -/
def readDigits (acc : Nat) : List Char → Option Nat
  | [] => some acc
  | c :: r => (digitValue? c).bind fun d => readDigits (10 * acc + d) r

/-- A numeral of at least one digit, at most 255. -/
def readUnsignedByte (s : List Char) : Option Nat :=
  if s = [] then none else (readDigits 0 s).filter (· ≤ 255)

/-- A numeral that may carry a plus sign, at most 255. -/
def readByte : List Char → Option Nat
  | '+' :: r => readUnsignedByte r
  | s => readUnsignedByte s

/-- `n` in decimal, with a zero in front if it has a single digit. -/
def twoDigits (n : Nat) : String := if n < 10 then "0" ++ toString n else toString n

example : readByte "+007".toList = some 7 ∧ readByte "256".toList = none ∧ readByte "+".toList = none ∧
    readByte "-0".toList = none := by decide

end PcmConvert.Text
