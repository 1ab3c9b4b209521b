import StyleTree.Proofs.Token.Reads

/-!
# Scanning bytes

The scanner reads characters, and a rule such as "a backslash and one character" takes the whole
character. A scanner that is fed the bytes of the encoded text takes the first byte only and leaves
the others to the rule that goes on. `coresFrom_bytewise` shows that this makes no difference: no
automaton stops inside of a character, so the same lexemes are found.
-/

namespace StyleTree

/-! ## Bytes read as characters -/

/-- A byte of encoded text, read as a character of its own. -/
def byteChar (byte : UInt8) : Char :=
  Char.ofNat byte.toNat

/-- The bytes that encode the characters, each read as a character of its own. -/
def bytewise (cs : List Char) : List Char :=
  cs.flatMap fun c => (String.utf8EncodeChar c).map byteChar

@[simp] theorem bytewise_nil : bytewise [] = [] := rfl

@[simp] theorem bytewise_append (cs ds : List Char) :
    bytewise (cs ++ ds) = bytewise cs ++ bytewise ds := by
  simp [bytewise]

theorem bytewise_cons (c : Char) (cs : List Char) :
    bytewise (c :: cs) = (String.utf8EncodeChar c).map byteChar ++ bytewise cs := rfl

/-- Whether the character is encoded by more than one byte. -/
def isWide (c : Char) : Bool :=
  128 ≤ c.toNat

theorem toNat_byteChar (byte : UInt8) : (byteChar byte).toNat = byte.toNat := by
  have hlt := byte.toNat_lt
  have hvalid : byte.toNat.isValidChar := .inl (by omega)
  rw [byteChar, Char.ofNat, dif_pos hvalid]
  rfl

theorem encode_of_not_isWide {c : Char} (h : isWide c = false) :
    (String.utf8EncodeChar c).map byteChar = [c] := by
  have hlt : c.toNat < 128 := by simpa [isWide] using h
  have hencode : String.utf8EncodeChar c = [UInt8.ofNat c.toNat] :=
    if_pos (Nat.le_of_lt_succ hlt)
  rw [hencode, List.map_singleton, byteChar, UInt8.toNat_ofNat_of_lt'
    (Nat.lt_of_lt_of_le hlt (by decide)), Char.ofNat_toNat]

theorem encode_of_isWide {c : Char} (h : isWide c) :
    ∃ d ds, (String.utf8EncodeChar c).map byteChar = d :: ds ∧ ∀ e ∈ d :: ds, isWide e := by
  have hle : 128 ≤ c.val.toNat := by simpa [isWide] using h
  have hwide : ∀ n, 128 ≤ n → n < 256 → isWide (byteChar (UInt8.ofNat n)) := by
    intro n hn hlt
    simpa [isWide, toNat_byteChar, Nat.mod_eq_of_lt hlt] using hn
  unfold String.utf8EncodeChar
  simp only [show ¬c.val.toNat ≤ 127 by omega, if_false]
  split
  · refine ⟨_, _, rfl, ?_⟩
    simp only [List.map_cons, List.map_nil, List.mem_cons, List.not_mem_nil, or_false]
    rintro e (rfl | rfl) <;> apply hwide <;> omega
  · split
    · refine ⟨_, _, rfl, ?_⟩
      simp only [List.map_cons, List.map_nil, List.mem_cons, List.not_mem_nil, or_false]
      rintro e (rfl | rfl | rfl) <;> apply hwide <;> omega
    · refine ⟨_, _, rfl, ?_⟩
      simp only [List.map_cons, List.map_nil, List.mem_cons, List.not_mem_nil, or_false]
      rintro e (rfl | rfl | rfl | rfl) <;> apply hwide <;> omega

theorem length_bytewise (cs : List Char) : (bytewise cs).length = Text.byteLength cs := by
  induction cs with
  | nil => rfl
  | cons c cs ih =>
    rw [bytewise_cons, List.length_append, List.length_map, String.length_utf8EncodeChar, ih,
      Text.byteLength_cons]

/-- The first byte of an encoded character: the character itself, or a byte of a wide one. -/
theorem head?_bytewise {cs : List Char} {d : Char} (h : d ∈ (bytewise cs).head?) :
    ∃ c ∈ cs.head?, c = d ∨ isWide c ∧ isWide d := by
  cases cs with
  | nil => simp at h
  | cons c cs =>
    refine ⟨c, rfl, ?_⟩
    rw [bytewise_cons] at h
    by_cases hc : isWide c
    · obtain ⟨e, es, hencode, hwide⟩ := encode_of_isWide hc
      obtain rfl : e = d := by simpa [hencode] using h
      exact .inr ⟨hc, hwide e (by simp)⟩
    · rw [encode_of_not_isWide (by simpa using hc)] at h
      exact .inl (by simpa using h)

/-! ## No automaton stops inside of a character -/

/-- The automaton does not tell wide characters apart, nor one of them from several. -/
def Uniform {σ : Type} (step : σ → Char → Option σ) : Prop :=
  ∀ state state' c d, isWide c → isWide d → step state c = some state' →
    step state d = some state' ∧ step state' d = some state'

section

variable {σ : Type} {step : σ → Char → Option σ}

theorem Uniform.foldlM_encode (h : Uniform step) {state state' : σ} {c : Char}
    (hstep : step state c = some state') :
    ((String.utf8EncodeChar c).map byteChar).foldlM step state = some state' := by
  by_cases hc : isWide c
  · obtain ⟨d, ds, hencode, hwide⟩ := encode_of_isWide hc
    have hstay : ∀ ds : List Char, (∀ e ∈ ds, isWide e) → ds.foldlM step state' = some state' := by
      intro ds hds
      induction ds with
      | nil => rfl
      | cons e ds ih =>
        rw [List.foldlM_cons, (h state state' c e hc (hds e (by simp)) hstep).2]
        exact ih fun e he => hds e (by simp [he])
    rw [hencode, List.foldlM_cons, (h state state' c d hc (hwide d (by simp)) hstep).1]
    exact hstay ds fun e he => hwide e (by simp [he])
  · rw [encode_of_not_isWide (by simpa using hc)]
    simp [hstep]

theorem Uniform.foldlM_bytewise (h : Uniform step) {v : List Char} {state last : σ}
    (hv : v.foldlM step state = some last) : (bytewise v).foldlM step state = some last := by
  induction v generalizing state with
  | nil => exact hv
  | cons c v ih =>
    rw [List.foldlM_cons] at hv
    obtain ⟨state', hstep, hv⟩ := Option.bind_eq_some_iff.1 hv
    rw [bytewise_cons, List.foldlM_append, h.foldlM_encode hstep]
    exact ih hv

theorem Uniform.stops_bytewise (h : Uniform step) {last : σ} {rest : List Char}
    (hrest : Stops step last rest) : Stops step last (bytewise rest) := by
  intro d hd
  obtain ⟨c, hc, rfl | ⟨hwide, hwide'⟩⟩ := head?_bytewise hd
  · exact hrest c hc
  · rw [Option.eq_none_iff_forall_ne_some]
    intro state' hstep
    have hnone := hrest c hc
    rw [(h last state' d c hwide' hwide hstep).1] at hnone
    exact nomatch hnone

end

/-- A wide character is an identifier character. -/
theorem ofChar_of_isWide {c : Char} (h : isWide c) : CharClass.ofChar c = .identifier := by
  unfold CharClass.ofChar
  split <;> first | rfl | exact absurd h (by decide)

theorem ne_of_isWide {c d : Char} (h : isWide c) (hd : isWide d = false) : c ≠ d := by
  rintro rfl
  simp [h] at hd

theorem isBlank_of_isWide {c : Char} (h : isWide c) : isBlank c = false := by
  simp [isBlank, ofChar_of_isWide h]

theorem isDecimal_of_isWide {c : Char} (h : isWide c) : isDecimal c = false := by
  simp [isDecimal, ofChar_of_isWide h]

theorem isNewline_of_isWide {c : Char} (h : isWide c) : isNewline c = false := by
  simp [isNewline, ne_of_isWide h (show isWide '\n' = false by decide),
    ne_of_isWide h (show isWide '\r' = false by decide),
    ne_of_isWide h (show isWide '\x0c' = false by decide)]

theorem isHex_of_isWide {c : Char} (h : isWide c) : isHex c = false := by
  have hle : 128 ≤ c.toNat := by simpa [isWide] using h
  have hgt : ∀ d : Char, d.toNat < 128 → ¬c ≤ d := by
    intro d hd hcd
    have hval : c.toNat ≤ d.toNat := UInt32.le_iff_toNat_le.1 hcd
    omega
  simp [isHex, hgt '9' (by decide), hgt 'f' (by decide), hgt 'F' (by decide)]

theorem uniform_stepWhile {p : Char → Bool} (h : ∀ c d, isWide c → isWide d → p c = p d) :
    Uniform (stepWhile p) := by
  intro state state' c d hc hd hstep
  simpa [stepWhile, h c d hc hd] using hstep

theorem uniform_string {quote : Char} (h : CharClass.ofChar quote = .string) :
    Uniform (StringState.step quote) := by
  have hquote : isWide quote = false := by
    cases hwide : isWide quote with
    | false => rfl
    | true => simp [ofChar_of_isWide hwide] at h
  intro state state' c d hc hd hstep
  have hne : ∀ e : Char, isWide e → e ≠ '\\' ∧ e ≠ quote := fun e he =>
    ⟨ne_of_isWide he (by decide), ne_of_isWide he hquote⟩
  cases state <;> simp_all [StringState.step]
  all_goals subst hstep; simp [hne d hd]

theorem uniform_comment : Uniform CommentState.step := by
  intro state state' c d hc hd hstep
  have hne : ∀ e : Char, isWide e → e ≠ '*' ∧ e ≠ '/' := fun e he =>
    ⟨ne_of_isWide he (by decide), ne_of_isWide he (by decide)⟩
  cases state <;> simp_all [CommentState.step]
  all_goals subst hstep; simp [hne d hd]

theorem stepPlain_of_isWide {c : Char} (h : isWide c) :
    IdentifierState.stepPlain c = some .plain := by
  simp [IdentifierState.stepPlain, endsIdentifier, ofChar_of_isWide h,
    ne_of_isWide h (show isWide '\\' = false by decide)]

theorem uniform_identifier : Uniform IdentifierState.step := by
  have hstep : ∀ state c, isWide c → IdentifierState.step state c = some .plain := by
    intro state c hc
    have hne : c ≠ '/' ∧ c ≠ '\r' ∧ c ≠ '\n' :=
      ⟨ne_of_isWide hc (by decide), ne_of_isWide hc (by decide), ne_of_isWide hc (by decide)⟩
    cases state <;> simp [IdentifierState.step, stepPlain_of_isWide hc, isHex_of_isWide hc,
      isBlank_of_isWide hc, hne]
  intro state state' c d hc hd h
  obtain rfl := Option.some.inj ((hstep state c hc).symm.trans h)
  exact ⟨hstep state d hd, hstep _ d hd⟩

/-! ## Reading byte by byte -/

theorem bytewise_cons_of_ne {c : Char} (h : CharClass.ofChar c ≠ .identifier) (cs : List Char) :
    bytewise (c :: cs) = c :: bytewise cs := by
  have hc : isWide c = false := by
    cases hwide : isWide c with
    | false => rfl
    | true => exact absurd (ofChar_of_isWide hwide) h
  rw [bytewise_cons, encode_of_not_isWide hc]
  rfl

/-- The bytes of a lexeme are read as a lexeme of the same kind. -/
theorem Reads.bytewise {state : ScanState} {kind : TokenKind} {w rest : List Char}
    (h : Reads state kind w rest) :
    Reads state kind (StyleTree.bytewise w) (StyleTree.bytewise rest) := by
  cases h with
  | blanks hc hv hrest =>
    have huniform : Uniform (stepWhile isBlank) := uniform_stepWhile fun c d hc hd => by
      rw [isBlank_of_isWide hc, isBlank_of_isWide hd]
    rw [bytewise_cons_of_ne (by simp [hc])]
    exact .blanks hc (huniform.foldlM_bytewise hv) (huniform.stops_bytewise hrest)
  | digits hc hv hrest =>
    have huniform : Uniform (stepWhile isDecimal) := uniform_stepWhile fun c d hc hd => by
      rw [isDecimal_of_isWide hc, isDecimal_of_isWide hd]
    rw [bytewise_cons_of_ne (by simp [hc])]
    exact .digits hc (huniform.foldlM_bytewise hv) (huniform.stops_bytewise hrest)
  | quoted hc hv hrest =>
    rw [bytewise_cons_of_ne (by simp [hc])]
    exact .quoted hc ((uniform_string hc).foldlM_bytewise hv)
      ((uniform_string hc).stops_bytewise hrest)
  | @name c v last _ hc hv hrest =>
    have hrest := uniform_identifier.stops_bytewise hrest
    have hv := uniform_identifier.foldlM_bytewise hv
    by_cases hwide : isWide c
    · -- The other bytes of the first character are plain characters of the name.
      obtain ⟨d, ds, hencode, hds⟩ := encode_of_isWide hwide
      have hd := hds d (by simp)
      have hplain := uniform_identifier.foldlM_encode
        (show IdentifierState.step .plain c = some .plain from stepPlain_of_isWide hwide)
      rw [hencode, List.foldlM_cons, show IdentifierState.step .plain d = some .plain from
        stepPlain_of_isWide hd] at hplain
      rw [if_neg (ne_of_isWide hwide (by decide))] at hv
      rw [bytewise_cons, hencode, List.cons_append]
      refine .name (ofChar_of_isWide hd) ?_ hrest
      rw [if_neg (ne_of_isWide hd (by decide)), List.foldlM_append,
        show ds.foldlM IdentifierState.step .plain = some .plain from hplain]
      exact hv
    · rw [bytewise_cons, encode_of_not_isWide (by simpa using hwide)]
      exact .name hc hv hrest
  | comment hv hrest =>
    rw [bytewise_cons_of_ne (by decide), bytewise_cons_of_ne (by decide)]
    exact .comment (uniform_comment.foldlM_bytewise hv) (uniform_comment.stops_bytewise hrest)
  | line hurl hdepth hv hrest =>
    have huniform : Uniform (stepWhile fun c => !isNewline c) :=
      uniform_stepWhile fun c d hc hd => by
        rw [isNewline_of_isWide hc, isNewline_of_isWide hd]
    rw [bytewise_cons_of_ne (by decide), bytewise_cons_of_ne (by decide)]
    exact .line hurl hdepth (huniform.foldlM_bytewise hv) (huniform.stops_bytewise hrest)
  | slashedName hurl hdepth hv hrest =>
    rw [bytewise_cons_of_ne (by decide), bytewise_cons_of_ne (by decide)]
    exact .slashedName hurl hdepth (uniform_identifier.foldlM_bytewise hv)
      (uniform_identifier.stops_bytewise hrest)
  | sign hc hkind hrest =>
    rw [bytewise_cons_of_ne (by simp [hc])]
    refine .sign hc hkind fun hslash d hd => ?_
    obtain ⟨e, he, rfl | ⟨-, hwide⟩⟩ := head?_bytewise hd
    · exact hrest hslash e he
    · exact ⟨ne_of_isWide hwide (by decide),
        fun h => absurd h (ne_of_isWide hwide (by decide))⟩

theorem bytewise_eq_self {w : List Char} (h : ∀ c ∈ w, isWide c = false) : bytewise w = w := by
  induction w with
  | nil => rfl
  | cons c w ih =>
    rw [bytewise_cons, encode_of_not_isWide (h c (by simp)), ih fun d hd => h d (by simp [hd])]
    rfl

theorem not_isWide_of_lowerChar {w name : List Char} (h : w.map Text.lowerChar = name)
    (hname : ∀ c ∈ name, isWide c = false) : ∀ c ∈ w, isWide c = false := by
  intro c hc
  cases hwide : isWide c with
  | false => rfl
  | true =>
    have hlower : Text.lowerChar c = c := by
      have hle : 128 ≤ c.toNat := by simpa [isWide] using hwide
      have hgt : ¬c ≤ 'Z' := fun hcz => by
        have hval : c.toNat ≤ 'Z'.toNat := UInt32.le_iff_toNat_le.1 hcz
        have hz : 'Z'.toNat = 90 := rfl
        omega
      simp [Text.lowerChar, hgt]
    rw [← hname c (h ▸ hlower ▸ List.mem_map_of_mem hc), hwide]

/-- A name is `url` exactly if its bytes spell it. -/
theorem map_lowerChar_bytewise (w : List Char) :
    (bytewise w).map Text.lowerChar = ['u', 'r', 'l'] ↔ w.map Text.lowerChar = ['u', 'r', 'l'] := by
  have hname : ∀ c ∈ ['u', 'r', 'l'], isWide c = false := by simp [isWide]
  constructor
  · intro h
    have hbytes := not_isWide_of_lowerChar h hname
    have hw : ∀ c ∈ w, isWide c = false := by
      intro c hc
      cases hwide : isWide c with
      | false => rfl
      | true =>
        obtain ⟨d, ds, hencode, hds⟩ := encode_of_isWide hwide
        have hd := hbytes d (List.mem_flatMap.2 ⟨c, hc, by simp [hencode]⟩)
        rw [← hd, hds d (by simp)]
    rwa [bytewise_eq_self hw] at h
  · intro h
    rwa [bytewise_eq_self (not_isWide_of_lowerChar h hname)]

theorem after_bytewise (state : ScanState) (kind : TokenKind) (w : List Char) :
    state.after kind (bytewise w) = state.after kind w := by
  simp only [ScanState.after, ScanState.isUrlName, map_lowerChar_bytewise]

/-- The scanner finds the same lexemes in the bytes of a text. -/
theorem coresFrom_bytewise (state : ScanState) (cs : List Char) :
    coresFrom state (bytewise cs) =
      (coresFrom state cs).map fun core => (core.1, bytewise core.2) := by
  generalize hcores : coresFrom state cs = cores
  induction cores generalizing state cs with
  | nil =>
    obtain rfl := coresFrom_eq_nil.1 hcores
    rfl
  | cons core cores ih =>
    obtain ⟨rest, rfl, hreads, hrest⟩ := coresFrom_eq_cons hcores
    rw [bytewise_append, hreads.bytewise.coresFrom_append, after_bytewise, ih _ _ hrest.symm]
    rfl

end StyleTree
