import ConsensusCore.Text.Visible

/-!
# Quoted text

A text in quotes, in which every character is visible (`isVisible`): the quote, the
backslash and a few control characters are written with a letter after a backslash,
other hidden characters with their number. All others stand for themselves.
-/

namespace ConsensusCore.Text

/-- What stands for a character after a backslash. -/
def letter? : Char → Option Char
  | '\x00' => some '0'
  | '\t' => some 't'
  | '\n' => some 'n'
  | '\r' => some 'r'
  | '"' => some '"'
  | '\\' => some '\\'
  | _ => none

/-- What a character is written as in quotes. -/
def escape (c : Char) : List Char :=
  match letter? c with
  | some l => ['\\', l]
  | none =>
    if isVisible c then [c]
    else ['\\', 'u', '\x7b'] ++ Nat.toDigits 16 c.toNat ++ ['\x7d']

/-- The text in quotes. -/
def quoted (s : String) : String := String.ofList ('"' :: s.toList.flatMap escape ++ ['"'])

end ConsensusCore.Text
