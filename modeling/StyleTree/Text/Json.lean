/-!
# Strings in JSON

Quotes, backslashes and control characters are escaped; every other character stands for itself.
-/

namespace StyleTree.Text

/-- The form of a character in a JSON string. -/
def jsonChar (c : Char) : List Char :=
  match c with
  | '"' => ['\\', '"']
  | '\\' => ['\\', '\\']
  | '\x08' => ['\\', 'b']
  | '\x0c' => ['\\', 'f']
  | '\n' => ['\\', 'n']
  | '\r' => ['\\', 'r']
  | '\t' => ['\\', 't']
  | c =>
    if c.toNat < 0x20 then
      ['\\', 'u', '0', '0', Nat.digitChar (c.toNat / 16), Nat.digitChar (c.toNat % 16)]
    else [c]

/-- The text as a JSON string. -/
def jsonString (text : String) : String :=
  String.ofList (['"'] ++ text.toList.flatMap jsonChar ++ ['"'])

/-- The texts as a JSON array of strings. -/
def jsonStrings (texts : List String) : String :=
  "[" ++ ",".intercalate (texts.map jsonString) ++ "]"

end StyleTree.Text
