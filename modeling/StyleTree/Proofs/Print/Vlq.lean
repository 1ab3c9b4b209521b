import StyleTree.Print.Vlq

/-!
# Reading variable-length numbers

Numbers that are written in a row are read back (`decodeAll_flatMap_encode`): the last digit of each
number is the only one below 32 (`Delimited`), so the digits tell where a number ends and no written
number begins another one (`Delimited.eq_of_begins`). The writer on machine words does the same as
the writer on integers for every number whose magnitude fits a word (`encodeWord_eq_encode`).
-/

namespace StyleTree.Vlq

theorem digits_ne_nil (n : Nat) : digits n ≠ [] := by
  rw [digits]
  split <;> simp

theorem digits_lt (n : Nat) : ∀ d ∈ digits n, d < 64 := by
  induction n using Nat.strongRecOn with
  | ind n ih =>
    rw [digits]
    split
    · intro d hd
      obtain rfl := List.mem_singleton.1 hd
      omega
    · refine List.forall_mem_cons.2 ⟨by omega, ih (n / 32) (by omega)⟩

theorem readDigits_digits (n : Nat) (rest : List Nat) :
    readDigits (digits n ++ rest) = some (n, rest) := by
  induction n using Nat.strongRecOn with
  | ind n ih =>
    rw [digits]
    split
    · next h => simp [readDigits, h]
    · next h =>
      have hbig : ¬n % 32 + 32 < 32 := by omega
      rw [List.cons_append, readDigits, if_neg hbig, ih (n / 32) (by omega)]
      simp only [Option.map_some, Option.some.injEq, Prod.mk.injEq, and_true]
      omega

theorem unfold_fold (value : Int) : unfold (fold value) = value := by
  unfold fold unfold
  split <;> split <;> omega

theorem readAll_digits {count : Nat} {values : List Int} (h : values.length ≤ count) :
    readAll count (values.flatMap fun value => digits (fold value)) = some values := by
  induction values generalizing count with
  | nil => cases count <;> rfl
  | cons value values ih =>
    cases count with
    | zero => simp at h
    | succ count =>
      have hread := readDigits_digits (fold value)
        (values.flatMap fun value => digits (fold value))
      obtain ⟨d, ds, hds⟩ := List.exists_cons_of_ne_nil (digits_ne_nil (fold value))
      rw [List.flatMap_cons, hds, List.cons_append, readAll, ← List.cons_append, ← hds, hread]
      · simp [unfold_fold, ih (Nat.le_of_succ_le_succ h)]
      · simp

theorem length_le_digits (values : List Int) :
    values.length ≤ (values.flatMap fun value => digits (fold value)).length := by
  induction values with
  | nil => exact Nat.le_refl 0
  | cons value values ih =>
    have hpos := List.length_pos_iff.2 (digits_ne_nil (fold value))
    rw [List.flatMap_cons, List.length_append, List.length_cons]
    omega

theorem idxOf?_digitChar {d : Nat} (h : d < 64) : alphabet.idxOf? (digitChar d) = some d := by
  have hall : ∀ d : Fin 64, alphabet.idxOf? (digitChar d) = some d.1 := by decide +kernel
  exact hall ⟨d, h⟩

theorem mapM_idxOf?_digitChar {ds : List Nat} (h : ∀ d ∈ ds, d < 64) :
    (ds.map digitChar).mapM (fun c => alphabet.idxOf? c) = some ds := by
  induction ds with
  | nil => rfl
  | cons d ds ih =>
    obtain ⟨hd, hds⟩ := List.forall_mem_cons.1 h
    simp [List.mapM_cons, idxOf?_digitChar hd, ih hds]

theorem encode_ne_nil (value : Int) : encode value ≠ [] := by
  simpa [encode] using digits_ne_nil (fold value)

theorem mem_alphabet_of_mem_encode {value : Int} {c : Char} (h : c ∈ encode value) :
    c ∈ alphabet := by
  obtain ⟨d, hd, rfl⟩ := List.mem_map.1 h
  have hindex := idxOf?_digitChar (digits_lt _ d hd)
  obtain ⟨hlt, hc, -⟩ := List.idxOf?_eq_some_iff.1 hindex
  exact hc ▸ List.getElem_mem hlt

/-- Numbers written in a row are read back. -/
theorem decodeAll_flatMap_encode (values : List Int) :
    decodeAll (values.flatMap encode) = some values := by
  have hdigits : values.flatMap encode =
      (values.flatMap fun value => digits (fold value)).map digitChar := by
    rw [List.map_flatMap]
    rfl
  have hlt : ∀ d ∈ values.flatMap fun value => digits (fold value), d < 64 := by
    intro d hd
    obtain ⟨value, -, hd⟩ := List.mem_flatMap.1 hd
    exact digits_lt _ d hd
  rw [decodeAll, hdigits, mapM_idxOf?_digitChar hlt]
  exact readAll_digits (length_le_digits values)

/-! ## Where a number ends -/

/-- Characters that stand for digits of which the last is the only one below 32. -/
def Delimited (cs : List Char) : Prop :=
  ∃ (more : List Nat) (last : Nat), cs = more.map digitChar ++ [digitChar last] ∧
    (∀ d ∈ more, 32 ≤ d ∧ d < 64) ∧ last < 32

theorem digitChar_inj {d e : Nat} (hd : d < 64) (he : e < 64) (h : digitChar d = digitChar e) :
    d = e := by
  have hindex := idxOf?_digitChar hd
  rw [h, idxOf?_digitChar he] at hindex
  exact (Option.some.inj hindex).symm

/-- A delimited row that another one begins with is all of it: at its last digit the other one ends
as well. -/
theorem Delimited.eq_of_begins {cs ds : List Char} (hcs : Delimited cs) (hds : Delimited ds)
    (h : cs <+: ds) : cs = ds := by
  obtain ⟨more, last, rfl, hmore, hlast⟩ := hcs
  obtain ⟨others, end', rfl, hothers, hend⟩ := hds
  induction more generalizing others with
  | nil =>
    cases others with
    | nil =>
      obtain ⟨hhead, -⟩ := List.cons_prefix_cons.1 h
      exact congrArg (fun c => [c]) hhead
    | cons other others =>
      obtain ⟨hhead, -⟩ := List.cons_prefix_cons.1 h
      obtain ⟨hbig, hsmall⟩ := hothers other List.mem_cons_self
      have := digitChar_inj (by omega) hsmall hhead
      omega
  | cons digit more ih =>
    obtain ⟨⟨hbig, hsmall⟩, hmore⟩ := List.forall_mem_cons.1 hmore
    cases others with
    | nil =>
      obtain ⟨hhead, -⟩ := List.cons_prefix_cons.1 h
      have := digitChar_inj hsmall (by omega) hhead
      omega
    | cons other others =>
      obtain ⟨hhead, htail⟩ := List.cons_prefix_cons.1 h
      have heq := ih hmore others htail fun d hd => hothers d (List.mem_cons_of_mem _ hd)
      rw [List.map_cons, List.map_cons, List.cons_append, List.cons_append, hhead, heq]

theorem digits_delimited (n : Nat) :
    ∃ more last, digits n = more ++ [last] ∧ (∀ d ∈ more, 32 ≤ d ∧ d < 64) ∧ last < 32 := by
  induction n using Nat.strongRecOn with
  | ind n ih =>
    rw [digits]
    split
    · next h => exact ⟨[], n, rfl, by simp, h⟩
    · obtain ⟨more, last, heq, hmore, hlast⟩ := ih (n / 32) (by omega)
      refine ⟨(n % 32 + 32) :: more, last, by rw [heq, List.cons_append], ?_, hlast⟩
      exact List.forall_mem_cons.2 ⟨by omega, hmore⟩

theorem encode_injective {value other : Int} (h : encode value = encode other) : value = other := by
  have hvalue := decodeAll_flatMap_encode [value]
  have hother := decodeAll_flatMap_encode [other]
  rw [List.flatMap_singleton] at hvalue hother
  rw [h, hother] at hvalue
  exact (List.cons.inj (Option.some.inj hvalue)).1.symm

/-! ## Machine words -/

theorem toNat_shiftRight_five (word : UInt64) : (word >>> 5).toNat = word.toNat / 32 := by
  simp [UInt64.toNat_shiftRight, Nat.shiftRight_eq_div_pow]

theorem toNat_and_mask (word : UInt64) : (word &&& 0b11111).toNat = word.toNat % 32 := by
  rw [UInt64.toNat_and]
  exact Nat.and_two_pow_sub_one_eq_mod word.toNat 5

theorem toNat_or_continues {digit : UInt64} (h : digit.toNat < 32) :
    (digit ||| 0b100000).toNat = digit.toNat + 32 := by
  rw [UInt64.toNat_or, Nat.or_comm, Nat.add_comm]
  exact (Nat.two_pow_add_eq_or_of_lt (i := 5) h 1).symm

theorem toNat_wordDigits (word : UInt64) :
    (wordDigits word).map UInt64.toNat = digits word.toNat := by
  induction word using wordDigits.induct with
  | case1 word rest hrest =>
    have hsmall : word.toNat / 32 = 0 := by
      rw [← toNat_shiftRight_five]
      exact congrArg UInt64.toNat hrest
    rw [wordDigits, digits, if_pos hrest, if_pos (by omega), List.map_singleton, toNat_and_mask,
      Nat.mod_eq_of_lt (by omega)]
  | case2 word rest hrest ih =>
    have hbig : word.toNat / 32 ≠ 0 := by
      rw [← toNat_shiftRight_five]
      exact fun h => hrest (UInt64.toNat_inj.1 h)
    have hdigit : (word &&& 0b11111).toNat < 32 := by
      rw [toNat_and_mask]
      omega
    rw [wordDigits, digits, if_neg hrest, if_neg (by omega), List.map_cons,
      toNat_or_continues hdigit, toNat_and_mask, ih, toNat_shiftRight_five]

/-- The magnitude of a number in a word. -/
theorem toNat_abs (value : Int64) : value.abs.toUInt64.toNat = value.toInt.natAbs := by
  rw [← Int64.toNat_toBitVec, Int64.toBitVec_abs, BitVec.toNat_abs, ← Int64.toInt_toBitVec,
    BitVec.toInt_eq_msb_cond]
  have := value.toBitVec.isLt
  split <;> omega

theorem two_mul_natAbs_lt {value : Int64} (h : value ≠ Int64.minValue) :
    2 * value.toInt.natAbs < UInt64.size := by
  have hleast : value.toInt ≠ Int64.minValue.toInt := fun hmin => h (Int64.toInt_inj.1 hmin)
  rw [Int64.toInt_minValue] at hleast
  have := value.le_toInt
  have := value.toInt_lt
  rw [UInt64.size]
  omega

theorem toNat_double {word : UInt64} (h : 2 * word.toNat < UInt64.size) :
    (word <<< 1).toNat = 2 * word.toNat := by
  have hshift : (word <<< 1).toNat = word.toNat * 2 % UInt64.size := by
    rw [UInt64.toNat_shiftLeft]
    exact congrArg (· % UInt64.size) (Nat.shiftLeft_eq word.toNat 1)
  rw [hshift, Nat.mul_comm, Nat.mod_eq_of_lt h]

theorem toNat_foldWord {value : Int64} (h : value ≠ Int64.minValue) :
    (foldWord value).toNat = fold value.toInt := by
  have hlt := two_mul_natAbs_lt h
  have habs := toNat_abs value
  unfold foldWord fold
  by_cases hneg : value < 0
  · have hint : value.toInt < 0 := Int64.lt_iff_toInt_lt.1 hneg
    have hdouble := toNat_double (habs ▸ hlt)
    rw [if_pos hneg, if_pos hint, UInt64.toNat_or, hdouble, habs]
    exact (Nat.two_pow_add_eq_or_of_lt (i := 1) Nat.one_lt_two _).symm
  · have hint : ¬value.toInt < 0 := fun h => hneg (Int64.lt_iff_toInt_lt.2 h)
    have hword : value.toUInt64.toNat = value.toInt.natAbs := by
      have hbits := BitVec.toInt_eq_msb_cond value.toBitVec
      rw [Int64.toInt_toBitVec, Int64.toNat_toBitVec] at hbits
      have := value.toUInt64.toNat_lt
      split at hbits <;> omega
    rw [if_neg hneg, if_neg hint, toNat_double (hword ▸ hlt), hword]

/-- The writer on machine words writes what the writer on integers does, of the least number
apart. -/
theorem encodeWord_eq_encode {value : Int64} (h : value ≠ Int64.minValue) :
    encodeWord value = encode value.toInt := by
  have hmap : encodeWord value = ((wordDigits (foldWord value)).map UInt64.toNat).map
      digitChar := by
    rw [encodeWord, List.map_map]
    rfl
  rw [hmap, toNat_wordDigits, toNat_foldWord h, encode]

theorem delimited_encodeWord (value : Int64) : Delimited (encodeWord value) := by
  obtain ⟨more, last, heq, hmore, hlast⟩ := digits_delimited (foldWord value).toNat
  rw [← toNat_wordDigits] at heq
  refine ⟨more, last, ?_, hmore, hlast⟩
  rw [← List.map_singleton, ← List.map_append, ← heq, List.map_map]
  rfl

theorem flatMap_encodeWord {values : List Int64} (h : ∀ value ∈ values, value ≠ Int64.minValue) :
    values.flatMap encodeWord = (values.map Int64.toInt).flatMap encode := by
  rw [List.flatMap_map, List.flatMap_def, List.flatMap_def]
  exact congrArg List.flatten (List.map_congr_left
    fun value hvalue => encodeWord_eq_encode (h value hvalue))

/-- What `write` makes of a row of machine numbers: digits that are read back as the numbers, each
number a delimited piece, and no piece the beginning of another. -/
structure SelfDelimiting (write : Int64 → List Char) (values : List Int64) : Prop where
  same : values.flatMap write = (values.map Int64.toInt).flatMap encode
  alphabet : ∀ c ∈ values.flatMap write, c ∈ Vlq.alphabet
  reads : decodeAll (values.flatMap write) = some (values.map Int64.toInt)
  delimited : ∀ value ∈ values, Delimited (write value)
  separate : ∀ value ∈ values, ∀ other ∈ values, write value <+: write other → value = other

/-- Machine numbers of which none is the least one are written without loss and without
separators. -/
theorem selfDelimiting_encodeWord (values : List Int64)
    (h : ∀ value ∈ values, value ≠ Int64.minValue) : SelfDelimiting encodeWord values := by
  have hflat := flatMap_encodeWord h
  refine ⟨hflat, fun c hc => ?_, ?_, fun value _ => delimited_encodeWord value, ?_⟩
  · rw [hflat] at hc
    obtain ⟨value, -, hc⟩ := List.mem_flatMap.1 hc
    exact mem_alphabet_of_mem_encode hc
  · rw [hflat, decodeAll_flatMap_encode]
  · intro value hvalue other hother hpre
    have heq := (delimited_encodeWord value).eq_of_begins (delimited_encodeWord other) hpre
    rw [encodeWord_eq_encode (h value hvalue), encodeWord_eq_encode (h other hother)] at heq
    exact Int64.toInt_inj.1 (encode_injective heq)

theorem selfDelimiting_encodeWord_limits :
    (∀ value ∈ [0, 123, -16, Int64.maxValue, Int64.minValue + 1], value ≠ Int64.minValue) ∧
      SelfDelimiting encodeWord [0, 123, -16, Int64.maxValue, Int64.minValue + 1] := by
  have h : ∀ value ∈ [0, 123, -16, Int64.maxValue, Int64.minValue + 1], value ≠ Int64.minValue := by
    simp only [List.forall_mem_cons, List.not_mem_nil, false_implies, implies_true, and_true]
    exact ⟨by decide, by decide, by decide, by decide, by decide⟩
  exact ⟨h, selfDelimiting_encodeWord _ h⟩

/-- The magnitude of the least number is lost: only its sign is written. -/
example : encodeWord Int64.minValue = ['B'] := by decide +kernel

end StyleTree.Vlq
