import StyleTree.Log
import StyleTree.Proofs.Checked.Machine
import StyleTree.Proofs.Text.Lines

/-!
# The scanner as a machine

The scanner, and the search for line ends before it, step over the bytes of the text by an index.
The scanner looks at bytes where it stands and behind, keeps the number of open blocks in a word,
and cuts a name out of the text to see whether it is `url`. Its loops run as long as they run.

Main definitions: `Turn.loop`, `Scanner.tokenize`, `Scanner.lineTable`, `Scanner.report`.
-/

namespace StyleTree

variable {α σ : Type}

/-- What a loop does with a value: it goes on with another one, or it is left. -/
abbrev Turn (σ α : Type) := α → Run σ (Option α)

/-- Takes turns until one leaves the loop. -/
def Turn.loop (turn : Turn σ α) (a : α) : Run σ α := do
  match ← turn a with
  | none => return a
  | some b => turn |>.loop b
partial_fixpoint

/-- What the scanner has done so far. -/
structure Scanner where
  /-- The index of the next byte. -/
  position : Nat
  /-- The number of open blocks. -/
  depth : UInt32
  /-- Whether the last parenthesis is the opening one of `url(`. -/
  inUrl : Bool := false
  tokens : List Span := []
  extensions : List Extension := []
  deriving DecidableEq, Repr

/-- The bytes of a text, each read as a character of its own. -/
def Text.byteChars (text : String) : List Char :=
  (bytes text).map byteChar

namespace Scanner

variable (p : Source)

/-! ## The cursor -/

/-- The byte `k` places after the next one. -/
def ahead? (k : Nat) : Run Scanner (Option Char) := do
  let s ← get
  return (Text.byteChars p.text)[s.position + k]?

/-- Steps over the next byte, if there is one, and gives it. -/
def bump? : Run Scanner (Option Char) := do
  match ← ahead? p 0 with
  | none => return none
  | some c =>
    modify fun s => { s with position := s.position + 1 }
    return some c

/-- Steps over `k` bytes, but not beyond the end. -/
def skip (k : Nat) : Run Scanner Unit :=
  modify fun s => { s with position := min (s.position + k) (Text.byteChars p.text).length }

/-- Steps over the next byte if it satisfies a condition. -/
def skipTurn (condition : Char → Bool) : Turn Scanner Unit := fun _ => do
  match ← ahead? p 0 with
  | none => return none
  | some c =>
    if condition c then
      modify fun s => { s with position := s.position + 1 }
      return some ()
    else return none

/-- Steps over the bytes that satisfy a condition. -/
def skipWhile (condition : Char → Bool) : Run Scanner Unit :=
  (skipTurn p condition).loop ()

/-- Steps behind the first place where two bytes follow each other. Where they do not, it steps to
the end and gives `false`. -/
def skipPast (first second : Char) : Run Scanner Bool := do
  let s ← get
  if s.position ≤ (Text.byteChars p.text).length then
    let rest := (Text.byteChars p.text).drop s.position
    match (rest.zip rest.tail).findIdx? (· = (first, second)) with
    | some k =>
      set { s with position := s.position + k + 2 }
      return true
    | none =>
      set { s with position := (Text.byteChars p.text).length }
      return false
  else throw .badSlice

/-- The offset of the next byte. -/
def offset : Run Scanner Nat := do
  Machine.size (← get).position

/-! ## Lexemes -/

/-- Notes an extension. -/
def extend (kind : ExtensionKind) (offset : Nat) : Run Scanner Unit :=
  modify fun s => { s with extensions := s.extensions ++ [⟨kind, offset⟩] }

/-- Reads one byte of a string that started at an offset, or a backslash and one byte. -/
def stringTurn (quote : Char) (start : Nat) : Turn Scanner Unit := fun _ => do
  match ← bump? p with
  | none =>
    extend .unterminatedString start
    return none
  | some c =>
    if c = '\\' then
      discard (bump? p)
      return some ()
    else if c = quote then return none
    else return some ()

/-- Reads a string. -/
def string (quote : Char) : Run Scanner TokenKind := do
  let start ← offset
  discard (bump? p)
  (stringTurn p quote start).loop ()
  return .string

/-- Looks for one more hexadecimal digit of an escape. -/
def hexTurn : Turn Scanner Nat := fun n => do
  if n < 6 then
    match ← ahead? p n with
    | none => return none
    | some c => if isHex c then return some (n + 1) else return none
  else return none

/-- Steps over the blank that ends an escape with digits, if there is one. -/
def escapeEnd : Run Scanner Unit := do
  match ← ahead? p 0 with
  | none => return ()
  | some c =>
    if c = '\r' ∧ (← ahead? p 1) = some '\n' then skip p 2
    else if isBlank c then skip p 1

/-- Reads an escape after its backslash. -/
def escape : Run Scanner Unit := do
  let digits ← (hexTurn p).loop 0
  if digits = 0 then discard (bump? p)
  else
    skip p digits
    escapeEnd p

/-- Reads one byte of a name, or an escape. -/
def nameTurn : Turn Scanner Unit := fun _ => do
  match ← ahead? p 0 with
  | none => return none
  | some c =>
    if c = '\\' then
      discard (bump? p)
      escape p
      return some ()
    else if endsIdentifier c then return none
    else
      discard (bump? p)
      return some ()

/-- Reads the characters of a name. -/
def name : Run Scanner Unit :=
  (nameTurn p).loop ()

/-- Reads a name that slashes open. -/
def slashedName : Run Scanner Unit := do
  skipWhile p (· = '/')
  name p

/-- Whether a token is the name `url`, in any case. -/
def isUrl (token : Span) : Run Scanner Bool := do
  if token.kind = .ident then
    return Text.sameLetters (← Machine.slice p token.start token.stop) "url"
  else return false

/-- Whether the last token is the name `url`, in any case. -/
def afterUrl : Run Scanner Bool := do
  match (← get).tokens.getLast? with
  | none => return false
  | some token => isUrl p token

/-- Keeps count of blocks and of `url(…)` at a punctuator. -/
def track (c : Char) : Run Scanner Unit := do
  let s ← get
  if c = '\x7b' then set { s with depth := ← Machine.plus p s.depth 1 }
  else if c = '\x7d' then set { s with depth := if s.depth = 0 then 0 else s.depth - 1 }
  else if c = '(' then set { s with inUrl := ← afterUrl p }
  else if c = ')' then set { s with inUrl := false }

/-- Reads a comment after its slash. -/
def comment (start : Nat) : Run Scanner TokenKind := do
  discard (bump? p)
  if ← skipPast p '*' '/' then return .comment
  extend .unterminatedComment start
  return .comment

/-- Reads a line of its own or a name after the first of its slashes. -/
def slashes (start : Nat) : Run Scanner TokenKind := do
  if (← get).depth = 0 then
    skipWhile p fun c => !isNewline c
    extend .lineComment start
    return .unknown
  else
    slashedName p
    return .ident

/-- Reads what a punctuator opens, or the punctuator alone. -/
def punctuator (c : Char) : Run Scanner TokenKind := do
  let start ← offset
  discard (bump? p)
  let next ← ahead? p 0
  let s ← get
  if c = '/' ∧ next = some '*' then comment p start
  else if c = '/' ∧ next = some '/' ∧ s.inUrl = false then slashes p start
  else
    track p c
    return (TokenKind.ofChar? c).getD .unknown

/-- Reads the lexeme that starts with `c`. -/
def lexeme (c : Char) : Run Scanner TokenKind := do
  match CharClass.ofChar c with
  | .whitespace =>
    skipWhile p isBlank
    return .whitespace
  | .number =>
    skipWhile p isDecimal
    return .number
  | .string => string p c
  | .punctuator => punctuator p c
  | .identifier =>
    name p
    return .ident

/-- Adds a token, which must not end before it starts. -/
def push (kind : TokenKind) (start stop : Nat) : Run Scanner Unit :=
  if start ≤ stop then modify fun s => { s with tokens := s.tokens ++ [⟨kind, start, stop⟩] }
  else throw .badSlice

/-- Reads one token, if there are bytes left. -/
def token : Turn Scanner Unit := fun _ => do
  match ← ahead? p 0 with
  | none => return none
  | some c =>
    let start ← offset
    let kind ← lexeme p c
    push kind start (← offset)
    return some ()

/-- The scanner before the first byte. -/
def start (text : String) (inBlock : Bool) : Scanner where
  position := originOf text.toList
  depth := if inBlock then 1 else 0

/-- Reads the tokens of the text. -/
def tokenize (inBlock : Bool) : ExceptT Fault Option Scanner := do
  let ((), s) ← (Turn.loop (token p) ()).run (start p.text inBlock)
  return s

/-! ## Lines and extensions -/

/-- The offset right after the byte at `i`, or after the next one where the two are one line end. -/
def lineEnd (bytes : List Char) (i : Nat) : Nat :=
  if bytes[i]? = some '\r' ∧ bytes[i + 1]? = some '\n' then i + 2 else i + 1

/-- Looks for the next line end. -/
def lineTurn (bytes : List Char) : Turn σ (Nat × List Nat) := fun (i, starts) => do
  if i < bytes.length then
    let c ← Machine.index bytes i
    if isNewline c then
      let next := lineEnd bytes i
      return some (next, starts ++ [← Machine.size next])
    else return some (i + 1, starts)
  else return none

/-- The line table of a text. -/
def lineTable (text : String) (options : ParseOptions) : Run σ LineTable := do
  let origin := originOf text.toList
  let (_, laterStarts) ← (lineTurn (Text.byteChars text)).loop (origin, [])
  return ⟨origin, laterStarts, options.line, options.column⟩

/-- Where the extensions are reported. -/
def report (extensions : List Extension) : Run σ (List Event) :=
  extensions.mapM fun extension =>
    return .accepted extension.kind (← Machine.location p extension.offset)

end Scanner
end StyleTree
