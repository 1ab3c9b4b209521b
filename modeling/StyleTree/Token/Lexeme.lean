import StyleTree.Text.Bytes
import StyleTree.Token.Kind

/-!
# Lexemes

A lexeme is the text of one token. Each kind of lexeme is read by a small automaton that looks at
one character at a time: `takeRun` feeds it characters until it refuses one. Nothing is ever
unread, so a lexeme and what follows it make up the text again (`takeRun_append`).

How two slashes are read depends on what came before: inside `url(…)` each is a token, inside a
block they open an identifier, and elsewhere they open a line that belongs to no rule. The tokens
read so far are summed up in a `ScanState`.

Main definitions: `readLexeme`, `ScanState.after`.
-/

namespace StyleTree

/-- Feeds characters to an automaton until it refuses one. Gives the characters it took, the state
it ended in and the characters left. -/
def takeRun {σ : Type} (step : σ → Char → Option σ) (state : σ) :
    List Char → List Char × σ × List Char
  | [] => ([], state, [])
  | c :: cs =>
    match step state c with
    | none => ([], state, c :: cs)
    | some state' =>
      let (taken, last, rest) := takeRun step state' cs
      (c :: taken, last, rest)

/-- What an automaton takes and what it leaves make up the input. -/
theorem takeRun_append {σ : Type} (step : σ → Char → Option σ) (state : σ) (cs : List Char) :
    (takeRun step state cs).1 ++ (takeRun step state cs).2.2 = cs := by
  induction cs generalizing state with
  | nil => rfl
  | cons c cs ih =>
    simp only [takeRun]
    split
    · rfl
    · simpa using ih _

/-- Non-standard input that the scanner accepts instead of refusing it. -/
inductive ExtensionKind where
  | unterminatedString
  | unterminatedComment
  /-- Two slashes outside of any block; the line is kept as a token of its own. -/
  | lineComment
  deriving DecidableEq, Repr

namespace ExtensionKind

/-- The name of the extension. -/
def name : ExtensionKind → String
  | .unterminatedString => "UnterminatedString"
  | .unterminatedComment => "UnterminatedComment"
  | .lineComment => "LineComment"

/-- The wording of the extension in a message. -/
def describe : ExtensionKind → String
  | .unterminatedString => "unterminated string"
  | .unterminatedComment => "unterminated comment"
  | .lineComment => "`//` line outside of a block"

end ExtensionKind

/-! ## Identifiers -/

/-- Where the reader of an identifier stands. An escape is a backslash with one character after
it, or with up to six hexadecimal digits and at most one blank after them; a carriage return with
a line feed is one blank. -/
inductive IdentifierState where
  /-- Slashes that open an identifier. -/
  | slashes
  | plain
  /-- Right after a backslash. -/
  | escape
  /-- After `digits` hexadecimal digits of an escape. -/
  | hex (digits : Nat)
  /-- After a carriage return that ends an escape. -/
  | carriageReturn
  deriving DecidableEq, Repr

namespace IdentifierState

/-- One character outside of an escape. -/
def stepPlain (c : Char) : Option IdentifierState :=
  if c = '\\' then some .escape
  else if endsIdentifier c then none
  else some .plain

/-- One character of an identifier. -/
def step : IdentifierState → Char → Option IdentifierState
  | .slashes, c => if c = '/' then some .slashes else stepPlain c
  | .plain, c => stepPlain c
  | .escape, c => if isHex c then some (.hex 1) else some .plain
  | .hex digits, c =>
    if digits < 6 && isHex c then some (.hex (digits + 1))
    else if c = '\r' then some .carriageReturn
    else if isBlank c then some .plain
    else stepPlain c
  | .carriageReturn, c => if c = '\n' then some .plain else stepPlain c

end IdentifierState

/-! ## Strings and comments -/

/-- Where the reader of a quoted string stands, after the opening quote. -/
inductive StringState where
  | inside
  /-- Right after a backslash. -/
  | escaped
  | closed
  deriving DecidableEq, Repr

/-- One character of a string that `quote` closes. -/
def StringState.step (quote : Char) : StringState → Char → Option StringState
  | .inside, c =>
    if c = '\\' then some .escaped else if c = quote then some .closed else some .inside
  | .escaped, _ => some .inside
  | .closed, _ => none

/-- Where the reader of a comment stands, after the opening slash and asterisk. -/
inductive CommentState where
  | body
  /-- Right after an asterisk. -/
  | asterisk
  | closed
  deriving DecidableEq, Repr

/-- One character of a comment. -/
def CommentState.step : CommentState → Char → Option CommentState
  | .body, c => if c = '*' then some .asterisk else some .body
  | .asterisk, c =>
    if c = '/' then some .closed else if c = '*' then some .asterisk else some .body
  | .closed, _ => none

/-- Takes the characters that satisfy `p`. -/
def stepWhile (p : Char → Bool) (_ : Unit) (c : Char) : Option Unit :=
  if p c then some () else none

/-! ## Reading one lexeme -/

/-- The text of one token, with the extension that it makes use of. -/
structure Lexeme where
  kind : TokenKind
  chars : List Char
  extension : Option ExtensionKind := none
  deriving DecidableEq, Repr

/-- What the tokens read so far say about the next one. -/
structure ScanState where
  /-- The number of open blocks. -/
  depth : Nat
  /-- Whether the last parenthesis is the opening one of `url(`. -/
  inUrl : Bool := false
  /-- Whether the last token is the identifier `url`, in any case. -/
  afterUrl : Bool := false
  deriving DecidableEq, Repr

namespace ScanState

/-- The state before the first token. -/
def start (inBlock : Bool) : ScanState where
  depth := if inBlock then 1 else 0

/-- Whether a token is the identifier `url`, in any case. -/
def isUrlName (kind : TokenKind) (chars : List Char) : Bool :=
  kind = .ident && chars.map Text.lowerChar = ['u', 'r', 'l']

/-- The state after one more token. -/
def after (state : ScanState) (kind : TokenKind) (chars : List Char) : ScanState where
  depth :=
    match kind with
    | .leftBrace => state.depth + 1
    | .rightBrace => state.depth - 1
    | _ => state.depth
  inUrl :=
    match kind with
    | .leftParen => state.afterUrl
    | .rightParen => false
    | _ => state.inUrl
  afterUrl := isUrlName kind chars

end ScanState

/-- Reads a lexeme whose first character is a punctuator. -/
def readPunctuator (state : ScanState) (c : Char) (cs : List Char) : Lexeme × List Char :=
  match c, cs with
  | '/', '*' :: cs =>
    let (body, last, rest) := takeRun CommentState.step .body cs
    let extension := if last = .closed then none else some .unterminatedComment
    (⟨.comment, '/' :: '*' :: body, extension⟩, rest)
  | '/', '/' :: cs =>
    if state.inUrl then (⟨.solidus, ['/'], none⟩, '/' :: cs)
    else if state.depth = 0 then
      let (line, _, rest) := takeRun (stepWhile fun c => !isNewline c) () cs
      (⟨.unknown, '/' :: '/' :: line, some .lineComment⟩, rest)
    else
      let (name, _, rest) := takeRun IdentifierState.step .slashes cs
      (⟨.ident, '/' :: '/' :: name, none⟩, rest)
  | c, cs => (⟨(TokenKind.ofChar? c).getD .unknown, [c], none⟩, cs)

/-- Reads the lexeme that starts with `c`. Gives it and the characters left. -/
def readLexeme (state : ScanState) (c : Char) (cs : List Char) : Lexeme × List Char :=
  match CharClass.ofChar c with
  | .whitespace =>
    let (run, _, rest) := takeRun (stepWhile isBlank) () cs
    (⟨.whitespace, c :: run, none⟩, rest)
  | .number =>
    let (run, _, rest) := takeRun (stepWhile isDecimal) () cs
    (⟨.number, c :: run, none⟩, rest)
  | .string =>
    let (body, last, rest) := takeRun (StringState.step c) .inside cs
    let extension := if last = .closed then none else some .unterminatedString
    (⟨.string, c :: body, extension⟩, rest)
  | .identifier =>
    let first := if c = '\\' then IdentifierState.escape else .plain
    let (name, _, rest) := takeRun IdentifierState.step first cs
    (⟨.ident, c :: name, none⟩, rest)
  | .punctuator => readPunctuator state c cs

/-- A lexeme and the characters after it make up the text. -/
theorem readLexeme_append (state : ScanState) (c : Char) (cs : List Char) :
    (readLexeme state c cs).1.chars ++ (readLexeme state c cs).2 = c :: cs := by
  unfold readLexeme
  split
  · simp [takeRun_append]
  · simp [takeRun_append]
  · simp [takeRun_append]
  · simp [takeRun_append]
  · unfold readPunctuator
    split
    · simp [takeRun_append]
    · split
      · simp
      · split <;> simp [takeRun_append]
    · simp

/-- No lexeme is empty: some characters are always read. -/
theorem readLexeme_length_lt (state : ScanState) (c : Char) (cs : List Char) :
    (readLexeme state c cs).2.length < (c :: cs).length := by
  have cover := congrArg List.length (readLexeme_append state c cs)
  have nonempty : (readLexeme state c cs).1.chars ≠ [] := by
    unfold readLexeme readPunctuator
    repeat' split
    all_goals simp
  have := List.length_pos_iff.mpr nonempty
  simp only [List.length_append] at cover
  omega

end StyleTree
