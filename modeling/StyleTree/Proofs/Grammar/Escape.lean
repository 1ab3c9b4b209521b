import StyleTree.Proofs.Grammar.Joins
import StyleTree.Proofs.Token.Seam

/-! Words that end with an escape. An escape of hexadecimal digits takes in one blank after it, so a
blank that is written after such a word becomes a part of it (`takesBlank`). A word that leaves no
escape open ends before every other sign that ends words, and before a blank too if one stood there
(`Reads.before_separator`). So words are scanned again as they stand where a separator is written
after them (`Place.Scans.words_before`). -/

namespace StyleTree

/-! ## Open escapes -/

namespace IdentifierState

variable {v : List Char} {c : Char} {first last : IdentifierState}

/-- A backslash goes on with every name. -/
theorem step_backslash_ne_none (state : IdentifierState) : state.step '\\' ≠ none := by
  cases state with
  | hex digits =>
    simp [step, stepPlain, show isHex '\\' = false from rfl, show isBlank '\\' = false from rfl]
  | escape => exact step_escape_ne_none _
  | _ => simp [step, stepPlain]

theorem step_hex_of_endsWord {digits : Nat} (hc : endsWord c = true) (hspace : c ≠ ' ') :
    (hex digits).step c = none := by
  have hends : wordEnds.all (fun d => d = ' ' || (!isHex d && !isBlank d && d ≠ '\r' &&
      (stepPlain d).isNone)) = true := rfl
  have hd := List.all_eq_true.1 hends c (endsWord_iff.1 hc)
  simp only [hspace, decide_false, Bool.false_or, Bool.and_eq_true, Bool.not_eq_true',
    decide_eq_true_eq, Option.isNone_iff_eq_none] at hd
  obtain ⟨⟨⟨hhex, hblank⟩, hreturn⟩, hplain⟩ := hd
  simp [step, hhex, hblank, hreturn, hplain]

/-- A name ends before a sign that ends words, unless an escape goes on with it. -/
theorem step_separator (h : last ≠ .escape) (hc : endsWord c = true)
    (hhex : c = ' ' → ∀ digits, last ≠ .hex digits) : last.step c = none := by
  cases last with
  | escape => exact absurd rfl h
  | plain => exact step_endsWord (.inl rfl) hc
  | slashes => exact step_endsWord (.inr rfl) hc
  | hex digits => exact step_hex_of_endsWord hc fun hspace => hhex hspace digits rfl
  | carriageReturn =>
    have hplain : plain.step c = none := step_endsWord (.inl rfl) hc
    have hfeed : c ≠ '\n' := by rintro rfl; exact absurd hc (by decide)
    rw [step, if_neg hfeed]
    exact hplain

/-- One character anywhere in a text: where no identifier goes on with it, the reader starts
anew. -/
def next (state : IdentifierState) (c : Char) : IdentifierState :=
  (state.step c).getD .plain

theorem foldl_next (h : v.foldlM step first = some last) : v.foldl next first = last := by
  induction v generalizing first with
  | nil => exact Option.some.inj h
  | cons c v ih =>
    obtain ⟨mid, hmid, h⟩ := Option.bind_eq_some_iff.1 h
    rw [List.foldl_cons, next, hmid]
    exact ih h

/-- Nothing but a backslash leads into an escape. -/
theorem next_plain (hc : c ≠ '\\') : plain.next c = .plain := by
  rw [next, step, stepPlain, if_neg hc]
  split <;> rfl

theorem foldl_next_plain (hv : '\\' ∉ v) : v.foldl next .plain = .plain := by
  induction v with
  | nil => rfl
  | cons c v ih =>
    rw [List.mem_cons, not_or] at hv
    rw [List.foldl_cons, next_plain (Ne.symm hv.1), ih hv.2]

/-- Slashes at the front of a name do not change how it ends. -/
theorem foldl_next_slashes (h : v.foldlM step .slashes = some last) :
    v.foldl next .plain = last ∨ last = .slashes ∧ v.foldl next .plain = .plain := by
  induction v with
  | nil => exact .inr ⟨(Option.some.inj h).symm, rfl⟩
  | cons c v ih =>
    obtain ⟨mid, hmid, h⟩ := Option.bind_eq_some_iff.1 h
    by_cases hslash : c = '/'
    · subst hslash
      obtain rfl := Option.some.inj hmid
      exact ih h
    · have hmid : stepPlain c = some mid := by rwa [step, if_neg hslash] at hmid
      have hnext : plain.next c = mid := by rw [next, step, hmid, Option.getD_some]
      rw [List.foldl_cons, hnext]
      exact .inl (foldl_next h)

/-- The reader starts anew where a name ends. -/
theorem next_of_step_eq_none (h : last.step c = none) : last.next c = plain.next c := by
  have hc : c ≠ '\\' := by rintro rfl; exact step_backslash_ne_none last h
  rw [next, h, next_plain hc]
  rfl

end IdentifierState

/-- A blank after the text would be a part of its last escape. -/
def takesBlank (text : List Char) : Bool :=
  match text.foldl IdentifierState.next .plain with
  | .hex _ => true
  | _ => false

theorem takesBlank_of_hex {text : List Char} {digits : Nat}
    (h : text.foldl IdentifierState.next .plain = .hex digits) : takesBlank text = true := by
  rw [takesBlank, h]

theorem takesBlank_of_plain {text : List Char} (h : '\\' ∉ text) : takesBlank text = false := by
  rw [takesBlank, IdentifierState.foldl_next_plain h]

/-! ## Words before separators -/

section
variable {state : ScanState} {kind : TokenKind} {w cs cs' : List Char}

/-- How an identifier ends is how its text ends. -/
theorem Reads.foldl_next {c : Char} {v : List Char} {last : IdentifierState}
    (hc : CharClass.ofChar c = .identifier)
    (hv : v.foldlM IdentifierState.step (if c = '\\' then .escape else .plain) = some last) :
    (c :: v).foldl IdentifierState.next .plain = last := by
  have hfirst : IdentifierState.plain.next c = if c = '\\' then .escape else .plain := by
    have hclass : endsIdentifier c = false := by simp [endsIdentifier, hc]
    simp only [IdentifierState.next, IdentifierState.step, IdentifierState.stepPlain, hclass]
    split <;> rfl
  rw [List.foldl_cons, hfirst]
  exact IdentifierState.foldl_next hv

/-- A name that ended stays ended before a separator, unless an escape is open at the end of the
text, or a blank comes in after hexadecimal digits. -/
theorem Stops.before_separator {last : IdentifierState} (h : Stops IdentifierState.step last cs')
    (hescape : cs' = [] → last ≠ .escape) (hends : ∀ d ∈ cs.head?, endsWord d = true)
    (hblank : cs.head? = some ' ' → (∃ c ∈ cs'.head?, isBlank c = true) ∨
      ∀ digits, last ≠ .hex digits) :
    Stops IdentifierState.step last cs := by
  intro d hd
  refine IdentifierState.step_separator ?_ (hends d hd) ?_
  · rintro rfl
    cases cs' with
    | nil => exact hescape rfl rfl
    | cons c cs' => exact IdentifierState.step_escape_ne_none c (h c rfl)
  · rintro rfl digits rfl
    rcases hblank hd with ⟨c, hc, hblank⟩ | hopen
    · exact IdentifierState.step_hex_ne_none hblank (h c hc)
    · exact hopen digits rfl

/-- A word goes on before a separator only where an escape is open: the text ends after a backslash,
or a blank comes in after hexadecimal digits. -/
theorem Reads.before_separator (h : Reads state kind w cs') (hkind : kind.isWord = true)
    (hescape : cs' = [] → w.getLast? ≠ some '\\') (hends : ∀ d ∈ cs.head?, endsWord d = true)
    (hblank : cs.head? = some ' ' → (∃ c ∈ cs'.head?, isBlank c = true) ∨ takesBlank w = false) :
    Reads state kind w cs := by
  have hopen : ∀ {last : IdentifierState}, (∀ digits, last = .hex digits → takesBlank w = true) →
      cs.head? = some ' ' → (∃ c ∈ cs'.head?, isBlank c = true) ∨ ∀ digits, last ≠ .hex digits :=
    fun hhex hspace => (hblank hspace).imp_right fun hends digits hlast =>
      Bool.false_ne_true (hends.symm.trans (hhex digits hlast))
  cases h with
  | blanks | quoted | comment | line => cases hkind
  | digits hc hv =>
    exact .digits hc hv fun d hd => stepWhile_eq_none.2 (isDecimal_endsWord (hends d hd))
  | name hc hv hrest =>
    exact .name hc hv (hrest.before_separator
      (fun hnil => IdentifierState.ne_escape_of_name hv (hescape hnil)) hends
      (hopen fun digits hlast => takesBlank_of_hex ((foldl_next hc hv).trans hlast)))
  | slashedName hurl hdepth hv hrest =>
    refine .slashedName hurl hdepth hv (hrest.before_separator
      (fun hnil => IdentifierState.ne_escape_of_slashes hv (hescape hnil)) hends (hopen ?_))
    rintro digits rfl
    exact takesBlank_of_hex ((IdentifierState.foldl_next_slashes hv).resolve_right (by simp))
  | sign hc hsign =>
    refine .sign hc hsign ?_
    rintro rfl
    obtain rfl : TokenKind.solidus = kind := Option.some.inj hsign
    cases hkind

/-- What comes after a word decides how the text of both ends. -/
theorem Reads.next_eq {c : Char} (h : Reads state kind w (c :: cs)) (hkind : kind.isWord = true) :
    (w.foldl IdentifierState.next .plain).next c = IdentifierState.plain.next c := by
  have hplain :
      '\\' ∉ w → (w.foldl IdentifierState.next .plain).next c = IdentifierState.plain.next c :=
    fun hw => by rw [IdentifierState.foldl_next_plain hw]
  cases h with
  | blanks | quoted | comment | line => exact nomatch hkind
  | @digits d v _ hd hv =>
    refine hplain fun hmem => ?_
    rcases List.mem_cons.1 hmem with rfl | hmem
    · exact nomatch hd
    · exact nomatch foldlM_stepWhile.1 hv _ hmem
  | name hc hv hrest =>
    rw [foldl_next hc hv]
    exact IdentifierState.next_of_step_eq_none (hrest c rfl)
  | @slashedName v last _ _ _ hv hrest =>
    show (v.foldl IdentifierState.next .plain).next c = _
    rcases IdentifierState.foldl_next_slashes hv with hlast | ⟨-, hlast⟩
    · rw [hlast]
      exact IdentifierState.next_of_step_eq_none (hrest c rfl)
    · rw [hlast]
  | @sign d _ _ hd _ _ =>
    refine hplain fun hmem => ?_
    obtain rfl := List.mem_singleton.1 hmem
    exact nomatch hd

end

/-! ## Words at a place -/

section
variable {p : Place} {tokens front rest : List Token} {token : Token} {cs cs' : List Char}

/-- The text of words ends as the last one does. -/
theorem Place.Scans.takesBlank_tokenChars (h : p.Scans (front ++ rest))
    (hwords : ∀ token ∈ front, token.kind.isWord = true) (htoken : token ∈ front.getLast?) :
    takesBlank (tokenChars front) = takesBlank token.text.toList := by
  induction front generalizing p with
  | nil => exact nomatch htoken
  | cons first front ih =>
    obtain ⟨cs, -, hread, hrest⟩ := h.cons
    cases front with
    | nil =>
      obtain rfl : first = token := by simpa using htoken
      rw [tokenChars_cons, tokenChars_nil, List.append_nil]
    | cons second front =>
      obtain ⟨cs₁, rfl, hread₁, -⟩ := hrest.cons
      obtain ⟨c, v, hc⟩ := List.exists_cons_of_ne_nil hread₁.ne_nil
      rw [hc] at hread
      have hnext := hread.next_eq (hwords first (.head _))
      rw [← ih hrest (fun token hmem => hwords token (.tail _ hmem)) (by simpa using htoken)]
      simp only [tokenChars_cons, takesBlank, hc, List.cons_append, List.foldl_append,
        List.foldl_cons, hnext]

/-- Words of a text with a closed end are scanned again before any text that ends them, or that
starts as the text after them does, unless a blank that comes in would be a part of the last one. -/
theorem Place.Scans.words_before (h : p.Scans (front ++ rest))
    (htext : p.text = tokenChars front ++ cs')
    (hclosed : p.firm ≠ .soft) (hwords : ∀ token ∈ front, token.kind.isWord = true)
    (hends : (∀ d ∈ cs.head?, endsWord d = true) ∨ cs.head? = cs'.head?)
    (hblank : cs.head? = some ' ' → (∃ c ∈ cs'.head?, isBlank c = true) ∨
      takesBlank (tokenChars front) = false) :
    coresFrom p.state (tokenChars front ++ cs) =
      front.map Token.core ++ coresFrom (p.afterAll front cs').state cs := by
  have hcores : coresFrom p.state (coreChars (front.map Token.core) ++ cs') =
      front.map Token.core ++ rest.map Token.core := by
    rw [← List.map_append, h.cores, htext]
    rfl
  refine coresFrom_replace hcores fun core hmem _ hread => ?_
  rw [List.getLast?_map, Option.mem_def, Option.map_eq_some_iff] at hmem
  obtain ⟨token, hmem, rfl⟩ := hmem
  rcases hends with hends | hhead
  · refine hread.before_separator (hwords token (List.mem_of_getLast? hmem)) (fun hnil => ?_) hends
      fun hspace => ?_
    · exact (h.isClosed_of_end htext hnil hclosed token hmem).1
    · exact (hblank hspace).imp_right fun hopen =>
        (h.takesBlank_tokenChars hwords hmem).symm.trans hopen
  · exact hread.of_head? hhead.symm

/-- No blank comes in after an open escape where there are no escapes. -/
theorem Place.Scans.takesBlank_of_firm (h : p.Scans (front ++ rest)) (hfirm : p.firm = .firm) :
    takesBlank (tokenChars front) = false := by
  refine takesBlank_of_plain fun hmem => ?_
  simp only [tokenChars, coreChars, List.flatMap_map, List.mem_flatMap] at hmem
  obtain ⟨token, htoken, hmem⟩ := hmem
  exact (h.isFirm hfirm token (List.mem_append_left _ htoken)).1 hmem

theorem Place.Scans.words_split (h : p.Scans (front ++ rest))
    (htext : p.text = tokenChars front ++ cs') (hfirm : p.firm = .firm)
    (hwords : ∀ token ∈ front, token.kind.isWord = true)
    (hends : (∀ d ∈ cs.head?, endsWord d = true) ∨ cs.head? = cs'.head?)
    (hs : (p.put (tokenChars front ++ cs)).Scans tokens) :
    ∃ front' rest', tokens = front' ++ rest' ∧ front'.map Token.core = front.map Token.core ∧
      ((p.afterAll front cs').put cs).Scans rest' :=
  Place.Scans.split_of_cores
    (h.words_before htext (hfirm ▸ nofun) hwords hends fun _ => .inr (h.takesBlank_of_firm hfirm))
      hs

end

/-- The text can stand next after a word, and a blank comes in only where one stood before, or where
it `ends` the word. -/
def Place.JoinsAfter (p : Place) (ends : Prop) (cs : List Char) : Prop :=
  p.Joins cs ∧ (cs.head? = some ' ' → (∃ c ∈ p.text.head?, isBlank c = true) ∨ ends)

end StyleTree
