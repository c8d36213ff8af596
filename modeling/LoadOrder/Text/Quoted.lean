import LoadOrder.Text.Shapeless

/-!
# Quoted text

Messages quote a text between double quotes on one line. The quote and the backslash take a
backslash, the controls with a short name are written by it, any other character without a shape
of its own is written by its number in hexadecimal, and all else stands as it is.
-/

namespace LoadOrder.Text

/-- The written form of a character by its number: a backslash, `u`, and the lower-case
hexadecimal digits in braces. -/
def byNumber (c : Char) : List Char :=
  '\\' :: 'u' :: '\x7b' :: Nat.toDigits 16 c.toNat ++ ['\x7d']

/-- The written form of one character inside quotes. -/
def escape (c : Char) : List Char :=
  match c with
  | '"' => ['\\', '"']
  | '\\' => ['\\', '\\']
  | '\x00' => ['\\', '0']
  | '\t' => ['\\', 't']
  | '\n' => ['\\', 'n']
  | '\r' => ['\\', 'r']
  | c => if isShapeless c then byNumber c else [c]

/-- `s` between double quotes, each character in its written form. -/
def quoted (s : String) : String :=
  String.ofList ('"' :: s.toList.flatMap escape ++ ['"'])

end LoadOrder.Text
