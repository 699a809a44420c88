/-!
# Hexadecimal addresses

An address is written in lower-case hexadecimal after `0x`, either with as few
digits as it needs or padded to the sixteen digits of a 64-bit word.
-/

namespace ListenerRegistry.Text

/-- The lower-case hexadecimal digits of a word, without leading zeros; zero is
the single digit `0`. -/
def hexDigits (n : UInt64) : List Char :=
  Nat.toDigits 16 n.toNat

/-- An address in its shortest form. -/
def address (n : UInt64) : String :=
  "0x" ++ String.ofList (hexDigits n)

/-- An address with all sixteen digits. -/
def wideAddress (n : UInt64) : String :=
  let digits := hexDigits n
  "0x" ++ String.ofList (List.replicate (16 - digits.length) '0' ++ digits)

example : address 0x1000 = "0x1000" := by decide +kernel
example : address 0 = "0x0" := by decide +kernel
example : wideAddress 0x1000 = "0x0000000000001000" := by decide +kernel

end ListenerRegistry.Text
