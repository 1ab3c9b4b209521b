import StyleTree.Text.Location
import StyleTree.Token.Lexeme

/-!
# The token table of a text

The scanner cuts a text into tokens that follow each other without gaps, from the byte order mark
(if there is one) to the end. Each token carries its text and its byte offset, and the table lists
the extensions that were accepted on the way. Offsets are numbers. None is larger than the length of
the text in bytes, so they fit in 32 bits where it does.

Main definitions: `Token`, `scanFrom`, `TokenTable.ofText`, `estimateTokenCount`.
-/

namespace StyleTree

/-- One token: its kind, its text and the byte offset of its first character. -/
structure Token where
  kind : TokenKind
  text : String
  start : Nat
  deriving DecidableEq, Repr, Inhabited

namespace Token

/-- The offset right after the token. -/
def stop (token : Token) : Nat :=
  token.start + Text.byteLength token.text.toList

/-- Whether the token's text is `word`, up to the case of ASCII letters. -/
def spells (token : Token) (word : String) : Bool :=
  Text.sameLetters token.text word

/-- The part of the token before an offset and the token that is left, for an offset in it. -/
def splitAt (token : Token) (offset : Nat) : Option (String × Token) :=
  if token.start ≤ offset && offset < token.stop then
    let head := Text.takeBytes (offset - token.start) token.text.toList
    let tail := Text.dropBytes (offset - token.start) token.text.toList
    some (String.ofList head, { token with text := String.ofList tail, start := offset })
  else none

end Token

/-- An extension that was accepted, at the start of its token. -/
structure Extension where
  kind : ExtensionKind
  offset : Nat
  deriving DecidableEq, Repr

/-- Scans characters whose first byte is at `offset`. Each round reads one lexeme, so as many
rounds as there are characters are enough. -/
def scanFrom : Nat → ScanState → Nat → List Char → List (Nat × Lexeme)
  | 0, _, _, _ => []
  | _, _, _, [] => []
  | rounds + 1, state, offset, c :: cs =>
    let (lexeme, rest) := readLexeme state c cs
    (offset, lexeme) ::
      scanFrom rounds (state.after lexeme.kind lexeme.chars)
        (offset + Text.byteLength lexeme.chars) rest

/-- The byte order mark. -/
def byteOrderMark : Char := '\ufeff'

/-- The characters of a text after its byte order mark. -/
def withoutMark : List Char → List Char
  | [] => []
  | c :: cs => if c = byteOrderMark then cs else c :: cs

/-- The offset of the first character after the byte order mark. -/
def originOf : List Char → Nat
  | [] => 0
  | c :: _ => if c = byteOrderMark then c.utf8Size else 0

/-- The lexemes of a text with their offsets. -/
def lexemesOf (text : String) (inBlock : Bool) : List (Nat × Lexeme) :=
  let cs := withoutMark text.toList
  scanFrom cs.length (ScanState.start inBlock) (originOf text.toList) cs

/-- The token of a lexeme. -/
def Lexeme.token (lexeme : Lexeme) (offset : Nat) : Token :=
  ⟨lexeme.kind, String.ofList lexeme.chars, offset⟩

/-- The number of class changes in characters that follow one of class `previous`, with every
quote and punctuator counted as a change. -/
def classChanges : Option CharClass → List Char → Nat
  | _, [] => 0
  | previous, c :: cs =>
    let cls := CharClass.ofChar c
    let change := if previous ≠ some cls || cls.standsAlone then 1 else 0
    change + classChanges (some cls) cs

/-- An upper estimate of the number of tokens in the characters. -/
def estimateTokenCount (cs : List Char) : Nat :=
  1 + classChanges none cs

/-- The tokens of a text and the extensions that it makes use of. -/
structure TokenTable where
  text : String
  /-- The offset of the first character after the byte order mark. -/
  origin : Nat
  tokens : Array Token
  extensions : List Extension
  deriving Repr

namespace TokenTable

/-- The table of a text. With `inBlock`, the text is read as if a block were open. -/
def ofText (text : String) (inBlock : Bool) : TokenTable where
  text
  origin := originOf text.toList
  tokens :=
    (lexemesOf text inBlock).foldl
      (fun tokens (offset, lexeme) => tokens.push (lexeme.token offset))
      (Array.emptyWithCapacity (estimateTokenCount (withoutMark text.toList)))
  extensions :=
    (lexemesOf text inBlock).filterMap fun (offset, lexeme) =>
      lexeme.extension.map fun kind => ⟨kind, offset⟩

/-- The tokens are those of the lexemes, in order. -/
theorem toList_tokens_ofText (text : String) (inBlock : Bool) :
    (ofText text inBlock).tokens.toList =
      (lexemesOf text inBlock).map fun (offset, lexeme) => lexeme.token offset := by
  simp [ofText]

/-- The line table of the text, for a first character at the given line and column. -/
def lines (table : TokenTable) (line column : UInt32) : LineTable :=
  .ofText table.text table.origin line column

/-- The length of the text before `offset` without the blanks at its end. -/
def lastNonSpace (table : TokenTable) (offset : Nat) : Nat :=
  Text.byteLength (Text.trimEnd (Text.takeBytes offset table.text.toList))

/-- The length of the text in bytes. -/
def size (table : TokenTable) : Nat :=
  Text.byteLength table.text.toList

end TokenTable
end StyleTree
