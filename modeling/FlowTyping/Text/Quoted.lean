import FlowTyping.Text.Visible

/-!
# Quoted text

A text between double quotes. Quotes and backslashes take a backslash, the common controls have a
letter, and every other character without a visible form is written by its code point.
-/
namespace FlowTyping.Text

/-- The hexadecimal digits of a number, in lower case and without leading zeros. -/
def hexadecimal (n : Nat) : List Char := Nat.toDigits 16 n

/-- The written form of one character between quotes. -/
def escape (c : Char) : List Char :=
  match c with
  | '"' => ['\\', '"']
  | '\\' => ['\\', '\\']
  | '\n' => ['\\', 'n']
  | '\r' => ['\\', 'r']
  | '\t' => ['\\', 't']
  | '\x00' => ['\\', '0']
  | c => if isVisible c then [c] else ['\\', 'u', '\x7b'] ++ hexadecimal c.toNat ++ ['\x7d']

def quoted (text : String) : String :=
  String.ofList ('"' :: text.toList.flatMap escape ++ ['"'])

end FlowTyping.Text
