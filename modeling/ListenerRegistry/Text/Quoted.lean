import ListenerRegistry.Text.Hidden

/-!
# Quoted text

Text between double quotes, with an escape for the quote itself, the backslash
and every character that would not show.
-/

namespace ListenerRegistry.Text

/-- A code point in hexadecimal between braces. -/
def codePoint (c : Char) : List Char :=
  ['\\', 'u', '\x7b'] ++ Nat.toDigits 16 c.toNat ++ ['\x7d']

/-- One character inside quotes. Tab, newline, carriage return and NUL have
escapes of their own, the other hidden characters are written by number. -/
def escape (c : Char) : List Char :=
  match c with
  | '\t' => ['\\', 't']
  | '\n' => ['\\', 'n']
  | '\r' => ['\\', 'r']
  | '\x00' => ['\\', '0']
  | '"' => ['\\', '"']
  | '\\' => ['\\', '\\']
  | c => if isHidden c then codePoint c else [c]

/-- The text between quotes. -/
def quoted (s : String) : String :=
  String.ofList ('"' :: s.toList.flatMap escape ++ ['"'])

example : quoted "a\nb" = "\"a\\nb\"" := by decide +kernel
example : quoted "it's" = "\"it's\"" := by decide +kernel
example : quoted "\x1b[0m" = "\"\\u\x7b1b\x7d[0m\"" := by decide +kernel

end ListenerRegistry.Text
