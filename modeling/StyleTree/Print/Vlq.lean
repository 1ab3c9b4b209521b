/-!
# Variable-length numbers

A number is written as base-64 digits of five value bits each, the lowest first; a digit with 32
added says that more follow. The sign of the number is its lowest bit. Each written number therefore
ends at its first digit below 32, and numbers can follow each other without separators.

Main definitions: `Vlq.encode`, the same on machine words as `Vlq.encodeWord`, and, for reading
back, `Vlq.decodeAll`.
-/

namespace StyleTree.Vlq

/-- The digits of a natural number, each below 64. -/
def digits (n : Nat) : List Nat :=
  if n < 32 then [n] else (n % 32 + 32) :: digits (n / 32)
termination_by n
decreasing_by omega

/-- The number with its sign as the lowest bit. -/
def fold (value : Int) : Nat :=
  if value < 0 then 2 * value.natAbs + 1 else 2 * value.natAbs

/-- The number whose sign is the lowest bit. -/
def unfold (n : Nat) : Int :=
  if n % 2 = 1 then -((n / 2 : Nat) : Int) else ((n / 2 : Nat) : Int)

/-- The 64 digits. -/
def alphabet : List Char :=
  "ABCDEFGHIJKLMNOPQRSTUVWXYZabcdefghijklmnopqrstuvwxyz0123456789+/".toList

/-- The character of a digit. -/
def digitChar (digit : Nat) : Char :=
  alphabet[digit]?.getD 'A'

/-- The written form of a number. -/
def encode (value : Int) : List Char :=
  (digits (fold value)).map digitChar

/-- The number with its sign as the lowest bit, as a word. The magnitude of the least number does
not fit. -/
def foldWord (value : Int64) : UInt64 :=
  if value < 0 then value.abs.toUInt64 <<< 1 ||| 1 else value.toUInt64 <<< 1

/-- The digits of a word, each below 64. -/
def wordDigits (word : UInt64) : List UInt64 :=
  let digit := word &&& 0b11111
  let rest := word >>> 5
  if rest = 0 then [digit] else (digit ||| 0b100000) :: wordDigits rest
termination_by word.toNat
decreasing_by
  have hrest : (word >>> 5).toNat ≠ 0 := fun h => ‹¬rest = 0› (UInt64.toNat_inj.1 h)
  simp only [UInt64.toNat_shiftRight, UInt64.reduceToNat, Nat.reduceMod,
    Nat.shiftRight_eq_div_pow] at hrest ⊢
  omega

/-- The written form of a machine number. -/
def encodeWord (value : Int64) : List Char :=
  (wordDigits (foldWord value)).map fun digit => digitChar digit.toNat

/-- Reads the digits of one number and gives it and what follows; `none` if they break off. -/
def readDigits : List Nat → Option (Nat × List Nat)
  | [] => none
  | d :: ds =>
    if d < 32 then some (d, ds)
    else (readDigits ds).map fun (n, rest) => (d - 32 + 32 * n, rest)

/-- Reads numbers until the digits are used up. The first argument bounds how many are read. -/
def readAll : Nat → List Nat → Option (List Int)
  | _, [] => some []
  | 0, _ :: _ => none
  | count + 1, ds =>
    match readDigits ds with
    | none => none
    | some (n, rest) => (readAll count rest).map (unfold n :: ·)

/-- The numbers written in a row; `none` if the characters are no such row. -/
def decodeAll (cs : List Char) : Option (List Int) :=
  match cs.mapM fun c => alphabet.idxOf? c with
  | none => none
  | some ds => readAll ds.length ds

end StyleTree.Vlq
