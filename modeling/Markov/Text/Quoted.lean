import Markov.Text.Extending
import Markov.Text.Unprinted

/-!
# Quoted text

Text in double quotes, in which quotes, backslashes and characters that do not
show are written as escapes.
-/

namespace Markov.Text

/-- Whether a character would not show, or not on its own. -/
def isHidden (c : Char) : Bool := isExtending c || isUnprinted c

/-- The text of one character inside quotes. -/
def escaped (c : Char) : String :=
  match c with
  | '"' => "\\\""
  | '\\' => "\\\\"
  | '\n' => "\\n"
  | '\r' => "\\r"
  | '\t' => "\\t"
  | _ =>
    if c.toNat = 0 then "\\0"
    else if isHidden c then "\\u\x7b" ++ String.ofList (Nat.toDigits 16 c.toNat) ++ "\x7d"
    else c.toString

def quoted (text : String) : String := "\"" ++ String.join (text.toList.map escaped) ++ "\""

end Markov.Text
