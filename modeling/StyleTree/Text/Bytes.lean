import StyleTree.Text.CharClass

/-!
# Measuring and cutting text by bytes

All offsets count the bytes of the UTF-8 encoding, while text is read character by character.
This module measures characters in bytes, cuts text at byte offsets, and compares ASCII letters
without regard to case.
-/

namespace StyleTree.Text

/-- The number of bytes that encode the characters. -/
def byteLength : List Char → Nat
  | [] => 0
  | c :: cs => c.utf8Size + byteLength cs

@[simp] theorem byteLength_nil : byteLength [] = 0 := rfl

@[simp] theorem byteLength_cons (c : Char) (cs : List Char) :
    byteLength (c :: cs) = c.utf8Size + byteLength cs := rfl

@[simp] theorem byteLength_append (cs ds : List Char) :
    byteLength (cs ++ ds) = byteLength cs + byteLength ds := by
  induction cs with
  | nil => simp
  | cons c cs ih => simp [ih, Nat.add_assoc]

/-- The characters that start within the first `n` bytes. -/
def takeBytes : Nat → List Char → List Char
  | 0, _ => []
  | _, [] => []
  | n + 1, c :: cs => c :: takeBytes (n + 1 - c.utf8Size) cs

/-- The characters that do not start within the first `n` bytes. -/
def dropBytes : Nat → List Char → List Char
  | 0, cs => cs
  | _, [] => []
  | n + 1, c :: cs => dropBytes (n + 1 - c.utf8Size) cs

/-- Cutting at an offset loses nothing. -/
theorem takeBytes_append_dropBytes (n : Nat) (cs : List Char) :
    takeBytes n cs ++ dropBytes n cs = cs := by
  fun_induction takeBytes n cs <;> simp_all [dropBytes]

/-- The text between two byte offsets. -/
def slice (text : String) (start stop : Nat) : String :=
  String.ofList (dropBytes start (takeBytes stop text.toList))

/-- The characters without the blanks at their end. -/
def trimEnd (cs : List Char) : List Char :=
  (cs.reverse.dropWhile isBlank).reverse

/-- The lower case form of an ASCII letter; other characters stay. -/
def lowerChar (c : Char) : Char :=
  if 'A' ≤ c && c ≤ 'Z' then Char.ofNat (c.toNat + 32) else c

/-- The upper case form of an ASCII letter; other characters stay. -/
def upperChar (c : Char) : Char :=
  if 'a' ≤ c && c ≤ 'z' then Char.ofNat (c.toNat - 32) else c

/-- The text with its ASCII letters in lower case. -/
def lower (text : String) : String :=
  String.ofList (text.toList.map lowerChar)

/-- The text with its ASCII letters in upper case. -/
def upper (text : String) : String :=
  String.ofList (text.toList.map upperChar)

/-- Equality of two texts up to the case of ASCII letters. -/
def sameLetters (a b : String) : Bool :=
  a.toList.map lowerChar = b.toList.map lowerChar

/-- The concatenation of texts. -/
def concat (texts : List String) : String :=
  String.ofList (texts.flatMap String.toList)

end StyleTree.Text
