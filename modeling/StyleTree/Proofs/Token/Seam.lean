import Mathlib.Data.List.TakeWhile
import StyleTree.Proofs.Token.Reads

/-! The seam between two texts. If the scanner is back in its first state at the end of a text, and
the last lexeme that is no blank is the same whatever follows it (`IsShut`), then another text after
it is scanned as it is alone. Only blanks at the end of the first text and at the start of the
second one make up one lexeme (`exists_seam`). -/

namespace StyleTree

variable {state : ScanState} {w rest cs ds : List Char} {core : TokenKind × List Char}
  {cores : List (TokenKind × List Char)}

/-! ## Lexemes that are shut -/

/-- The lexeme is the same whatever follows: a brace that closes, a semicolon, or a comment with an
end. -/
inductive IsShut : TokenKind × List Char → Prop
  | rightBrace {chars : List Char} : IsShut (.rightBrace, chars)
  | semicolon {chars : List Char} : IsShut (.semicolon, chars)
  | comment {body : List Char} : body.foldlM CommentState.step .body = some .closed →
    IsShut (.comment, '/' :: '*' :: body)

theorem IsShut.ne_ident (h : IsShut core) : core.1 ≠ .ident := by
  cases h <;> nofun

theorem IsShut.reads (h : IsShut core) {rest' : List Char}
    (hread : Reads state core.1 core.2 rest) :
    Reads state core.1 core.2 rest' := by
  cases h with
  | rightBrace | semicolon =>
    obtain rfl := hread.eq_char rfl
    exact .sign rfl rfl nofun
  | comment hclosed => exact .comment hclosed fun _ _ => rfl

/-- Only a comment that goes on to the end of the text is without an end. -/
theorem isShut_of_comment {c : Char} (hk : (readLexeme state c cs).1.kind = .comment)
    (hextension : (readLexeme state c cs).1.extension ≠ some .unterminatedComment) :
    IsShut (.comment, (readLexeme state c cs).1.chars) := by
  obtain ⟨rfl, cs, rfl⟩ : c = '/' ∧ ∃ cs', cs = '*' :: cs' := by
    have hread := reads_readLexeme state c cs
    have happend := readLexeme_append state c cs
    rw [hk] at hread
    generalize (readLexeme state c cs).1.chars = w,
      (readLexeme state c cs).2 = rest at hread happend
    cases hread with
    | comment =>
      obtain ⟨rfl, rfl⟩ := List.cons.inj happend
      exact ⟨rfl, _, rfl⟩
    | sign _ hsign => exact nomatch char?_of_ofChar? hsign
  refine .comment ?_
  have hclosed : (takeRun CommentState.step .body cs).2.1 = .closed :=
    Decidable.byContradiction fun hopen => hextension (if_neg hopen)
  rw [← hclosed]
  exact (takeRun_spec ..).1

/-! ## The state of the scanner -/

/-- After a lexeme that is no name, the scanner does not wait for a link. -/
theorem afterUrl_afterAll (hcalm : state.afterUrl = false)
    (hlast : ∀ core ∈ cores.getLast?, core.1 ≠ .ident) :
    (state.afterAll cores).afterUrl = false := by
  rcases List.eq_nil_or_concat cores with rfl | ⟨init, last, rfl⟩
  · exact hcalm
  · rw [List.concat_eq_append, ScanState.afterAll_append]
    have hname : last.1 ≠ .ident := hlast last (by simp)
    simp [ScanState.after, ScanState.isUrlName, hname]

theorem ScanState.eq_of {state' : ScanState} (hdepth : state'.depth = state.depth)
    (hurl : state'.inUrl = state.inUrl) (hafter : state'.afterUrl = state.afterUrl) :
    state' = state := by
  cases state
  cases state'
  simp_all

/-! ## Blanks at the seam -/

theorem foldlM_stepWhile {p : Char → Bool} :
    w.foldlM (stepWhile p) () = some () ↔ ∀ c ∈ w, p c = true := by
  induction w with
  | nil => simp
  | cons c w ih => by_cases hc : p c <;> simp [stepWhile, hc, ih]

theorem isBlank_of_reads_whitespace (h : Reads state .whitespace w rest) :
    ∀ c ∈ w, isBlank c = true := by
  cases h with
  | blanks hc hv => exact List.forall_mem_cons.2 ⟨by simp [isBlank, hc], foldlM_stepWhile.1 hv⟩
  | sign _ hsign => exact nomatch char?_of_ofChar? hsign

/-- Blanks are one lexeme, up to the first character that is no blank. -/
theorem coresFrom_blanks (state : ScanState) (hw : ∀ c ∈ w, isBlank c = true) (hne : w ≠ [])
    (hcs : ∀ c ∈ cs.head?, isBlank c = false) :
    coresFrom state (w ++ cs) = (.whitespace, w) :: coresFrom (state.after .whitespace w) cs := by
  obtain ⟨c, v, rfl⟩ := List.exists_cons_of_ne_nil hne
  obtain ⟨hc, hv⟩ := List.forall_mem_cons.1 hw
  exact Reads.coresFrom_append (.blanks (by simpa [isBlank] using hc) (foldlM_stepWhile.2 hv)
    fun d hd => by simp [stepWhile, hcs d hd])

/-- What the scanner makes of two texts and of the one text that they make up. -/
structure Seam (state : ScanState) (cs ds : List Char) where
  front : List (TokenKind × List Char)
  /-- The blanks at the end of the first text, at the start of the second one, and between them in
  both. -/
  gap : List (TokenKind × List Char)
  gap₁ : List (TokenKind × List Char)
  gap₂ : List (TokenKind × List Char)
  rest : List (TokenKind × List Char)
  first : coresFrom state cs = front ++ gap
  second : coresFrom state ds = gap₁ ++ rest
  both : coresFrom state (cs ++ ds) = front ++ (gap₂ ++ rest)
  blank : ∀ core ∈ gap ++ (gap₁ ++ gap₂), core.1 = .whitespace
  length_first : gap.length ≤ gap₂.length
  length_second : gap₁.length ≤ gap₂.length

/-- Where no blank is at the end, the lexemes of the texts follow each other. -/
theorem exists_seam_of_shut (hcalm : state.afterUrl = false)
    (hdepth : (state.afterAll (coresFrom state cs)).depth = state.depth)
    (hurl : (state.afterAll (coresFrom state cs)).inUrl = state.inUrl)
    (hlast : ∀ core ∈ (coresFrom state cs).getLast?, IsShut core) :
    Nonempty (Seam state cs ds) := by
  have hstate : state.afterAll (coresFrom state cs) = state :=
    ScanState.eq_of hdepth hurl
      ((afterUrl_afterAll hcalm fun core hmem => (hlast core hmem).ne_ident).trans hcalm.symm)
  have hfirst : coresFrom state (coreChars (coresFrom state cs) ++ []) =
      coresFrom state cs ++ [] := by
    rw [List.append_nil, List.append_nil, coreChars_coresFrom]
  have hboth : coresFrom state (coreChars (coresFrom state cs) ++ ds) = _ :=
    coresFrom_replace hfirst fun core hmem _ hread => (hlast core hmem).reads hread
  rw [hstate, coreChars_coresFrom] at hboth
  exact ⟨coresFrom state cs, [], [], [], coresFrom state ds, (List.append_nil _).symm, rfl, hboth,
    nofun, Nat.le_refl _, Nat.le_refl _⟩

theorem exists_blanks (cs : List Char) : ∃ w rest, cs = w ++ rest ∧ (∀ c ∈ w, isBlank c = true) ∧
    ∀ c ∈ rest.head?, isBlank c = false := by
  refine ⟨_, _, List.takeWhile_append_dropWhile.symm, fun c hc => List.mem_takeWhile_imp hc,
    fun c hc => ?_⟩
  have := List.head?_dropWhile_not isBlank cs
  rw [Option.mem_def.1 hc] at this
  simpa using this

/-- Blanks at the end of the first text go on at the start of the second one. -/
theorem exists_seam_of_blanks (hcalm : state.afterUrl = false)
    (hdepth : (state.afterAll (coresFrom state cs)).depth = state.depth)
    (hurl : (state.afterAll (coresFrom state cs)).inUrl = state.inUrl)
    (hcs : coresFrom state cs = cores ++ [(.whitespace, w)])
    (hlast : ∀ core ∈ cores.getLast?, core.1 ≠ .ident) :
    Nonempty (Seam state cs ds) := by
  have hstate : state.afterAll cores = state := by
    rw [hcs, ScanState.afterAll_append] at hdepth hurl
    exact ScanState.eq_of hdepth hurl ((afterUrl_afterAll hcalm hlast).trans hcalm.symm)
  have hcalmed : ∀ w, state.after .whitespace w = state :=
    fun w => ScanState.eq_of rfl rfl hcalm.symm
  obtain ⟨rest, rfl, hrest⟩ := coresFrom_eq_append hcs
  obtain ⟨rest', rfl, hread, hnil⟩ := coresFrom_eq_cons hrest.symm
  obtain rfl := coresFrom_eq_nil.1 hnil.symm
  have hw := isBlank_of_reads_whitespace hread
  have hne := hread.ne_nil
  rw [List.append_nil] at hcs ⊢
  obtain ⟨w₁, ds, rfl, hw₁, hds⟩ := exists_blanks ds
  have hreplace : coresFrom state (coreChars cores ++ (w ++ (w₁ ++ ds))) = _ :=
    coresFrom_replace hcs fun core _ _ hread => hread.of_head? (by
      obtain ⟨c, v, rfl⟩ := List.exists_cons_of_ne_nil hne
      rfl)
  have hblanks := coresFrom_blanks state (List.forall_mem_append.2 ⟨hw, hw₁⟩) (by simp [hne]) hds
  rw [List.append_assoc] at hblanks
  have hboth : coresFrom state (coreChars cores ++ w ++ (w₁ ++ ds)) =
      cores ++ ([(.whitespace, w ++ w₁)] ++ coresFrom state ds) := by
    rw [List.append_assoc, hreplace, hstate, hblanks, hcalmed]
    rfl
  by_cases hempty : w₁ = []
  · subst hempty
    exact ⟨cores, [_], [], [_], coresFrom state ds, hcs, rfl, hboth, by simp, Nat.le_refl _,
      Nat.zero_le _⟩
  · have hsecond := coresFrom_blanks state hw₁ hempty hds
    rw [hcalmed] at hsecond
    exact ⟨cores, [_], [_], [_], coresFrom state ds, hcs, hsecond, hboth, by simp, Nat.le_refl _,
      Nat.le_refl _⟩

/-- **The seam between two texts.** The scanner is back in its first state, and what is before the
last blanks of the first text is shut. -/
theorem exists_seam (hcalm : state.afterUrl = false)
    (hdepth : (state.afterAll (coresFrom state cs)).depth = state.depth)
    (hurl : (state.afterAll (coresFrom state cs)).inUrl = state.inUrl)
    (hlast : ∀ core ∈ (coresFrom state cs).getLast?, core.1 = .whitespace ∨ IsShut core)
    (hbefore : ∀ cores w, coresFrom state cs = cores ++ [(.whitespace, w)] →
      ∀ core ∈ cores.getLast?, core.1 ≠ .ident) :
    Nonempty (Seam state cs ds) := by
  rcases List.eq_nil_or_concat (coresFrom state cs) with hnil | ⟨cores, ⟨kind, w⟩, hcores⟩
  · exact exists_seam_of_shut hcalm hdepth hurl (by simp [hnil])
  · rw [List.concat_eq_append] at hcores
    rcases hlast (kind, w) (by simp [hcores]) with hk | hshut
    · obtain rfl : kind = .whitespace := hk
      exact exists_seam_of_blanks hcalm hdepth hurl hcores (hbefore cores w hcores)
    · refine exists_seam_of_shut hcalm hdepth hurl fun core hmem => ?_
      rw [hcores, List.getLast?_concat] at hmem
      exact Option.some.inj hmem ▸ hshut

end StyleTree
