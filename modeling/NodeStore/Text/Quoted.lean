import NodeStore.Bytes
import NodeStore.Text.Printable

/-!
# Quoted strings in messages

Messages show a string between double quotes, with the quote, the backslash and all that is not printable escaped.

* `quoted s`: one string.
* `quotedList ss`: a list of them between brackets.
* `hexByte b`: a byte as two hexadecimal digits behind `0x`.
-/

namespace NodeStore

/-- The hexadecimal digits of a number, least significant last, without leading zeros. -/
def hexDigits (n : Nat) : List Char := Nat.toDigits 16 n

/-- One character inside quotes. -/
def escaped (c : Char) : List Char :=
  if c = '"' then ['\\', '"']
  else if c = '\\' then ['\\', '\\']
  else if c = '\n' then ['\\', 'n']
  else if c = '\t' then ['\\', 't']
  else if c = '\r' then ['\\', 'r']
  else if c = '\x00' then ['\\', '0']
  else if isPrintable c then [c]
  else ['\\', 'u', '\x7b'] ++ hexDigits c.toNat ++ ['\x7d']

/-- A string between double quotes. -/
def quoted (s : String) : String := String.ofList ('"' :: s.toList.flatMap escaped ++ ['"'])

/-- Quoted strings between brackets. -/
def quotedList (ss : List String) : String := "[" ++ ", ".intercalate (ss.map quoted) ++ "]"

/-- A byte in hexadecimal, always with two digits. -/
def hexByte (b : UInt8) : String :=
  let ds := hexDigits b.toNat
  String.ofList ('0' :: 'x' :: List.replicate (2 - ds.length) '0' ++ ds)

end NodeStore
