import Offside.Text.Basic
import Offside.Character.Printable

/-!
Texts between double quotes, as diagnostics show them: what cannot be seen is written by its code point, so
every text stays on one line and no two texts look alike.
-/
namespace Offside.Text.Quoted

open Character

/-- Short escapes come first; a mark that would join the character before it is spelled out too. -/
def escape (c : Char) : Text :=
  match c with
  | '\x00' => ['\\', '0']
  | '\t' => ['\\', 't']
  | '\n' => ['\\', 'n']
  | '\r' => ['\\', 'r']
  | '\\' => ['\\', '\\']
  | '"' => ['\\', '"']
  | _ =>
    if isPrintable c && !isExtender c then [c]
    else ['\\', 'u', '\x7b'] ++ Nat.toDigits 16 c.toNat ++ ['\x7d']

def encode (t : Text) : Text := '"' :: t.flatMap escape ++ ['"']

end Offside.Text.Quoted
