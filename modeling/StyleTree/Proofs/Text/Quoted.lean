import Mathlib.Data.List.Basic
import StyleTree.Text.Quoted

/-! Reading quoted text. An escape is read back as its character whatever follows
(`Text.readEscaped_escapeChar`), so a quoted text ends at its own quote and determines the text
(`Text.quoteWith_append_inj`). It stands on one line (`Text.newline_notMem_quoteWith`). -/

namespace StyleTree.Text

/-! ## Numerals -/

/-- The number that hexadecimal digits stand for. -/
def hexValue (digits : List Char) : Nat :=
  digits.foldl (fun value digit => 16 * value + "0123456789abcdef".toList.idxOf digit) 0

theorem idxOf_digitChar {d : Nat} (h : d < 16) :
    "0123456789abcdef".toList.idxOf d.digitChar = d := by
  have hall : ∀ d : Fin 16, "0123456789abcdef".toList.idxOf d.1.digitChar = d.1 := by decide
  exact hall ⟨d, h⟩

theorem hexValue_hexNumeral (n : Nat) : hexValue (hexNumeral n) = n := by
  induction n using Nat.strongRecOn with
  | ind n ih =>
    rw [hexNumeral, Nat.toDigits_eq_if (by decide)]
    split
    · next h =>
      rw [hexValue, List.foldl_cons, List.foldl_nil, idxOf_digitChar h]
      omega
    · have hdigit := idxOf_digitChar (Nat.mod_lt n (by decide : 16 > 0))
      have hfront := ih (n / 16) (by omega)
      rw [hexNumeral, hexValue] at hfront
      rw [hexValue, List.foldl_append, hfront, List.foldl_cons, List.foldl_nil, hdigit]
      omega

theorem mem_hexNumeral {n : Nat} {c : Char} (h : c ∈ hexNumeral n) : ∃ d < 16, c = d.digitChar := by
  induction n using Nat.strongRecOn with
  | ind n ih =>
    rw [hexNumeral, Nat.toDigits_eq_if (by decide)] at h
    split at h
    · next hlt => exact ⟨n, hlt, List.mem_singleton.1 h⟩
    · rcases List.mem_append.1 h with h | h
      · exact ih (n / 16) (by omega) h
      · exact ⟨n % 16, Nat.mod_lt n (by decide), List.mem_singleton.1 h⟩

theorem notMem_hexNumeral {c : Char} (hc : ∀ d < 16, c ≠ d.digitChar) (n : Nat) :
    c ∉ hexNumeral n := by
  intro h
  obtain ⟨d, hd, heq⟩ := mem_hexNumeral h
  exact hc d hd heq

/-! ## Escapes -/

/-- Reads one character of a quoted text and gives it and what follows. -/
def readEscaped : List Char → Option (Char × List Char)
  | '\\' :: 'n' :: rest => some ('\n', rest)
  | '\\' :: 'r' :: rest => some ('\r', rest)
  | '\\' :: 't' :: rest => some ('\t', rest)
  | '\\' :: '0' :: rest => some ('\x00', rest)
  | '\\' :: 'u' :: '\x7b' :: rest =>
    some (.ofNat (hexValue (rest.takeWhile (· ≠ '\x7d'))), (rest.dropWhile (· ≠ '\x7d')).drop 1)
  | '\\' :: c :: rest => some (c, rest)
  | c :: rest => some (c, rest)
  | [] => none

variable {quoteMark : Char}

/-- The characters that texts are quoted with. -/
def IsQuote (c : Char) : Prop :=
  c = '"' ∨ c = '\''

theorem readEscaped_numeral (c : Char) (rest : List Char) :
    readEscaped ('\\' :: 'u' :: '\x7b' :: (hexNumeral c.toNat ++ '\x7d' :: rest)) =
      some (c, rest) := by
  have hdigits : ∀ d ∈ hexNumeral c.toNat, decide (d ≠ '\x7d') = true := fun d hd =>
    decide_eq_true fun h => notMem_hexNumeral (by decide) c.toNat (h ▸ hd)
  have htake : (hexNumeral c.toNat ++ '\x7d' :: rest).takeWhile (· ≠ '\x7d') =
      hexNumeral c.toNat := by
    rw [List.takeWhile_append_of_pos hdigits]
    simp
  have hdrop : (hexNumeral c.toNat ++ '\x7d' :: rest).dropWhile (· ≠ '\x7d') = '\x7d' :: rest := by
    rw [List.dropWhile_append_of_pos hdigits]
    simp
  rw [readEscaped, htake, hdrop, hexValue_hexNumeral, Char.ofNat_toNat, List.drop_one,
    List.tail_cons]

theorem readEscaped_escapeChar (h : IsQuote quoteMark) (c : Char) (rest : List Char) :
    readEscaped (escapeChar quoteMark c ++ rest) = some (c, rest) := by
  unfold escapeChar
  split
  · next hmark =>
    rcases h with rfl | rfl <;> simp at hmark <;> rcases hmark with rfl | rfl <;> rfl
  · next hmark =>
    split
    · next hc => exact hc ▸ rfl
    split
    · next hc => exact hc ▸ rfl
    split
    · next hc => exact hc ▸ rfl
    split
    · next hc => exact hc ▸ rfl
    split
    · simpa using readEscaped_numeral c rest
    · have hc : c ≠ '\\' := fun hc => hmark (by simp [hc])
      simp [readEscaped, hc]

theorem head?_escapeChar_ne (h : IsQuote quoteMark) (c : Char) (rest : List Char) :
    (escapeChar quoteMark c ++ rest).head? ≠ some quoteMark := by
  have hbackslash : '\\' ≠ quoteMark := by rcases h with rfl | rfl <;> decide
  unfold escapeChar
  repeat' split
  all_goals simp_all

theorem newline_notMem_escapeChar (h : IsQuote quoteMark) (c : Char) :
    '\n' ∉ escapeChar quoteMark c := by
  unfold escapeChar
  split
  · next hmark =>
    rcases h with rfl | rfl <;> simp at hmark <;> rcases hmark with rfl | rfl <;> decide
  · next hmark =>
    split
    · decide
    split
    · decide
    split
    · decide
    split
    · decide
    split
    · simpa using notMem_hexNumeral (by decide) c.toNat
    · next hc _ _ _ _ => exact fun hmem => hc (List.mem_singleton.1 hmem).symm

/-! ## Quoted text -/

theorem toList_quoteWith (quoteMark : Char) (cs : List Char) : (quoteWith quoteMark cs).toList =
    quoteMark :: (cs.flatMap (escapeChar quoteMark) ++ [quoteMark]) := by
  simp [quoteWith]

theorem escaped_append_inj (h : IsQuote quoteMark) {cs ds rest rest' : List Char}
    (heq : cs.flatMap (escapeChar quoteMark) ++ quoteMark :: rest =
      ds.flatMap (escapeChar quoteMark) ++ quoteMark :: rest') : cs = ds ∧ rest = rest' := by
  induction cs generalizing ds with
  | nil =>
    cases ds with
    | nil => exact ⟨rfl, (List.cons.inj heq).2⟩
    | cons d ds =>
      rw [List.flatMap_cons, List.append_assoc] at heq
      exact absurd (congrArg List.head? heq).symm (head?_escapeChar_ne h d _)
  | cons c cs ih =>
    rw [List.flatMap_cons, List.append_assoc] at heq
    cases ds with
    | nil => exact absurd (congrArg List.head? heq) (head?_escapeChar_ne h c _)
    | cons d ds =>
      rw [List.flatMap_cons, List.append_assoc] at heq
      have hread := congrArg readEscaped heq
      rw [readEscaped_escapeChar h, readEscaped_escapeChar h] at hread
      obtain ⟨rfl, hrest⟩ := Prod.mk.inj (Option.some.inj hread)
      obtain ⟨rfl, hrest'⟩ := ih hrest
      exact ⟨rfl, hrest'⟩

/-- A quoted text determines what is quoted, whatever stands after it. -/
theorem quoteWith_append_inj (h : IsQuote quoteMark) {cs ds rest rest' : List Char}
    (heq : (quoteWith quoteMark cs).toList ++ rest = (quoteWith quoteMark ds).toList ++ rest') :
    cs = ds ∧ rest = rest' := by
  rw [toList_quoteWith, toList_quoteWith, List.cons_append, List.cons_append, List.append_assoc,
    List.append_assoc] at heq
  exact escaped_append_inj h (List.cons.inj heq).2

theorem newline_notMem_quoteWith (h : IsQuote quoteMark) (cs : List Char) :
    '\n' ∉ (quoteWith quoteMark cs).toList := by
  have hquote : '\n' ≠ quoteMark := by rcases h with rfl | rfl <;> decide
  rw [toList_quoteWith]
  simp [hquote, newline_notMem_escapeChar h]

end StyleTree.Text
