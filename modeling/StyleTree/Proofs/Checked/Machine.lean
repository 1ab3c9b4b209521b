import Mathlib.Algebra.Group.Nat.Defs
import Mathlib.Data.List.TakeWhile
import StyleTree.Parse

/-!
# A machine that can fail

The parser as a machine that works on the text by byte ranges. Tokens are ranges, texts are cut out
of the source when they are needed, and everything that could go wrong on the way does: a slice has
to lie between two characters of the text and must not end before it starts, a difference must not
be negative, an offset has to fit in 32 bits, an index must be in bounds. Where the lines and
columns of a position do not fit in words, their sums wrap around or are faults, as is asked for.
Loops and nested productions run as long as they run: a run that does not end has no value. A round
of a loop that goes on without stepping over a token is a fault too.

Main definitions: `Fault`, `Run`, `Machine.slice`, `Machine.location`, `Machine.repeatWhile`.
-/

namespace StyleTree

/-- What stops a run. -/
inductive Fault where
  /-- A slice that does not lie between two characters of the text, or ends before it starts. -/
  | badSlice
  /-- A difference below zero. -/
  | underflow
  /-- An offset or a sum that does not fit in 32 bits. -/
  | overflow
  /-- An index out of bounds. -/
  | badIndex
  /-- A round of a loop that goes on without stepping over a token. -/
  | idle
  /-- The text is refused. -/
  | refused (error : SyntaxError)
  deriving DecidableEq, Repr

/-- A token as a range of the text. -/
structure Span where
  kind : TokenKind
  start : Nat
  stop : Nat
  deriving DecidableEq, Repr

/-- What becomes of a sum of words that does not fit in a word. -/
inductive Overflow where
  | wraps
  | stops
  deriving DecidableEq, Repr

/-- What does not change while a text is parsed. -/
structure Source where
  text : String
  overflow : Overflow
  lines : LineTable
  options : ParseOptions

/-- The tokens, and the index of the one to be read next. -/
structure Machine where
  tokens : List Span
  position : Nat := 0

/-- A run over a state: it goes on forever, it is stopped by a fault, or it yields a value. -/
abbrev Run (σ : Type) := StateT σ (ExceptT Fault Option)

/-- A run of the machine. -/
abbrev Action := Run Machine

namespace Machine

variable {α β σ : Type} (p : Source)

/-! ## Operations that can fail -/

/-- An offset, which has to fit in 32 bits. -/
def size (n : Nat) : Run σ Nat :=
  if n < 2 ^ 32 then return n else throw .overflow

/-- A difference, which must not be negative. -/
def minus (m n : Nat) : Run σ Nat :=
  if n ≤ m then return m - n else throw .underflow

/-- A sum of words. -/
def plus (m n : UInt32) : Run σ UInt32 :=
  if p.overflow = .wraps ∨ m.toNat + n.toNat < 2 ^ 32 then return m + n else throw .overflow

/-- The element of a list at an index, which has to be in bounds. -/
def index (l : List α) (i : Nat) : Run σ α :=
  match l[i]? with
  | some a => return a
  | none => throw .badIndex

/-- The text between two offsets, which have to be places between two characters, in this order. -/
def slice (start stop : Nat) : Run σ String :=
  if start ≤ stop ∧ String.Pos.Raw.IsValid p.text ⟨start⟩ ∧
      String.Pos.Raw.IsValid p.text ⟨stop⟩ then
    return Text.slice p.text start stop
  else throw .badSlice

/-- The location of an offset. The last line start at or before it is looked up in the sorted
starts. -/
def location (offset : Nat) : Run σ Location := do
  let starts := p.lines.origin :: p.lines.laterStarts
  let line := (starts.takeWhile (· ≤ offset)).length - 1
  let start ← index starts line
  let column ←
    if line = 0 then plus p (.ofNat (offset - start)) p.lines.firstColumn
    else plus p (.ofNat (← minus offset start)) 1
  return ⟨offset, ← plus p p.lines.firstLine (.ofNat line), column⟩

/-! ## The token table -/

/-- The token to be read next. -/
def current? : Action (Option Span) := do
  let m ← get
  return m.tokens[m.position]?

/-- The token `k` places after the current one. -/
def lookup? (k : Nat) : Action (Option Span) := do
  let m ← get
  return m.tokens[m.position + k]?

/-- The kind of the current token. -/
def kind? : Action (Option TokenKind) :=
  return (← current?).map Span.kind

/-- Whether the current token is of the given kind. -/
def isAt (kind : TokenKind) : Action Bool :=
  return (← kind?) = some kind

/-- Whether the token `k` places after the current one is of the given kind. -/
def lookupKind (k : Nat) (kind : TokenKind) : Action Bool :=
  return (← lookup? k).map Span.kind = some kind

/-- The index of the current token. -/
def position? : Action Nat :=
  return (← get).position

/-- Steps over the current token. -/
def advance : Action Unit :=
  modify fun m => if m.position < m.tokens.length then { m with position := m.position + 1 } else m

/-- The text of a token. -/
def text (token : Span) : Action String :=
  slice p token.start token.stop

/-- The text of the current token, empty at the end of input. -/
def currentText : Action String := do
  match ← current? with
  | some token => text p token
  | none => return ""

/-- Whether a token's text is `word`, up to the case of ASCII letters. -/
def spells (token : Span) (word : String) : Action Bool :=
  return Text.sameLetters (← text p token) word

/-- Whether a token is an identifier of the given spelling. -/
def isWord (token : Span) (word : String) : Action Bool :=
  if token.kind = .ident then spells p token word else return false

/-- The offset of the current token, or of the end of the text. -/
def offset : Action Nat := do
  match ← current? with
  | some token => return token.start
  | none => size (Text.byteLength p.text.toList)

/-- The location right after the last character before the cursor that is no blank. -/
def lastNonSpace : Action Location := do
  let before ← slice p 0 (← offset p)
  location p (← size (Text.byteLength (Text.trimEnd before.toList)))

/-- Moves the start of the current token forward to `at`, and gives the text that was cut off. -/
def detach (cut : Nat) : Action String := do
  match ← current? with
  | none => return ""
  | some token =>
    if token.start ≤ cut ∧ cut < token.stop then
      modify fun m => { m with tokens := m.tokens.set m.position { token with start := cut } }
      slice p token.start cut
    else return ""

/-! ## Positions and errors -/

/-- The position of the current token, if positions are asked for. -/
def info : Action (Option SourceInfo) := do
  if p.options.positions then
    match ← current? with
    | none => return none
    | some token =>
      let location ← location p token.start
      return some ⟨p.options.filename, location.offset, location.line, location.column⟩
  else return none

/-- Refuses the text at the current token, or where the text ends without its blanks. -/
def fail (message : String) : Action α := do
  match ← current? with
  | some token => throw (.refused ⟨message, ← location p token.start⟩)
  | none => throw (.refused ⟨message, ← lastNonSpace p⟩)

/-- Reads a token that has to be of the given kind. -/
def expect (kind : TokenKind) : Action Unit := do
  if ← isAt kind then advance else fail p (kind.describe ++ " is expected")

/-- Reads an identifier that has to be spelled `word`, or only checks for it. -/
def expectWord (word : String) (eat : Bool) : Action Unit := do
  match ← current? with
  | some token =>
    if ← isWord p token word then
      if eat then advance
    else fail p ("Identifier `" ++ word ++ "` is expected")
  | none => fail p ("Identifier `" ++ word ++ "` is expected")

/-- The current token, which has to be of one of the kinds. -/
def expectAny (what : String) (kinds : List TokenKind) : Action Span := do
  match ← current? with
  | some token => if token.kind ∈ kinds then return token else fail p (what ++ " is expected")
  | none => fail p (what ++ " is expected")

/-! ## Loops -/

/-- Goes on with a loop, if the round has stepped over a token. -/
def goOn (start : Nat) : Action Unit := do
  if start < (← get).position then return () else throw .idle

/-- What a loop does at a token: it goes on with another state, or it is left. -/
abbrev Round (σ : Type) := σ → Span → Action (Option σ)

-- The recursive calls of the partial functions are written with `|>.`: unlike other calls they
-- leave no source position in the function's value.

/-- Repeats a round while there are tokens and the round does not leave the loop. -/
def Round.repeatWhile (round : Round σ) (st : σ) : Action σ := do
  match ← current? with
  | none => return st
  | some token =>
    let start ← position?
    match ← round st token with
    | none => return st
    | some st =>
      goOn start
      round |>.repeatWhile st
partial_fixpoint

export Round (repeatWhile)

/-- A round that steps over the token under a condition, and leaves the loop otherwise. -/
def stepIf (condition : Prop) [Decidable condition] (st : σ) : Action (Option σ) := do
  if condition then
    advance
    return some st
  else return none

/-- Skips whitespace and comments. -/
def skipGaps : Action Unit :=
  repeatWhile (fun _ token => stepIf (token.kind = .whitespace ∨ token.kind = .comment) ()) ()

/-- Steps over tokens of the given kinds, and gives the offset where the last of them ends. -/
def endWhile (kinds : TokenKind → Bool) (stop : Nat) : Action Nat :=
  repeatWhile (fun _ token => stepIf (kinds token.kind) token.stop) stop

end Machine
end StyleTree
