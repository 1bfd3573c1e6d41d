import GossipStore.Text.Invisible

set_option autoImplicit false

/-! # Quoted text

Error messages show a foreign text between double quotes, with quotes, backslashes and whatever
cannot be seen written as escapes: short ones for the common controls, and the code point between
braces for the others. -/

namespace GossipStore

namespace Quoted

/-- The escaped form of one character. -/
def escape (c : Char) : List Char :=
  match c with
  | '"' => ['\\', '"']
  | '\\' => ['\\', '\\']
  | '\n' => ['\\', 'n']
  | '\r' => ['\\', 'r']
  | '\t' => ['\\', 't']
  | c =>
    if c.toNat = 0 then ['\\', '0']
    else if isInvisible c then
      ['\\', 'u', '\x7b'] ++ Nat.toDigits 16 c.toNat ++ ['\x7d']
    else [c]

/-- A text between double quotes, with its escapes. -/
def encode (s : String) : String :=
  String.ofList ('"' :: s.toList.flatMap escape ++ ['"'])

end Quoted

end GossipStore
