import StyleTree.Proofs.Grammar.Run

/-! Entries that commas separate. `Separates` says along which states such a list is read
(`separates_of_separated`); in return, `separated_last` and `separated_more` build a run of the loop
from its last entry on. -/

namespace StyleTree.Parser

/-- One round of a list of entries. -/
def separatedRound (endsAt : Token → Bool) (entry : Parser Tree) (between : Parser Unit)
    (due : Bool) (token : Token) : Parser (Round Bool Tree) := do
  if !due || endsAt token then return .stop
  let node ← entry
  if ← isAt .comma then
    advance
    between
    return .next [node] true
  else
    return .next [node] false

theorem separated_eq (endsAt : Token → Bool) (entry : Parser Tree) (between : Parser Unit) :
    separated endsAt entry between = loop (separatedRound endsAt entry between) true := rfl

/-- An entry is due, and there is something to read for it. -/
def IsDue (endsAt : Token → Bool) (s : ParserState) : Prop :=
  ∃ token rest, s.rest = token :: rest ∧ endsAt token = false

/-- The entries that are read between two states, and whether one is missing at the end. -/
inductive Separates (endsAt : Token → Bool) (entry : Parser Tree) (between : Parser Unit) :
    ParserState → List Tree → Bool → ParserState → Prop where
  | missing {s} : (∀ token ∈ s.rest.head?, endsAt token = true) →
    Separates endsAt entry between s [] true s
  | last {s node s'} : IsDue endsAt s → entry s = .ok node s' →
    s'.rest.head?.map Token.kind ≠ some .comma → Separates endsAt entry between s [node] false s'
  | more {s node s₁ comma rest s₂ later missing s'} : IsDue endsAt s → entry s = .ok node s₁ →
    s₁.rest = comma :: rest → comma.kind = .comma → between { s₁ with rest } = .ok () s₂ →
    Separates endsAt entry between s₂ later missing s' →
    Separates endsAt entry between s (node :: later) missing s'

variable {endsAt : Token → Bool} {entry : Parser Tree} {between : Parser Unit}
  {s s₁ s₂ s' : ParserState} {node : Tree} {entries later : List Tree} {missing : Bool}

theorem separatedRound_stop {due : Bool} {token : Token} (h : due = false ∨ endsAt token = true) :
    separatedRound endsAt entry between due token s = .ok .stop s := by
  rcases h with rfl | h
  · rfl
  · simp [separatedRound, h]

theorem separatedRound_last {token : Token} (hends : endsAt token = false)
    (hentry : entry s = .ok node s') (hcomma : s'.rest.head?.map Token.kind ≠ some .comma) :
    separatedRound endsAt entry between true token s = .ok (.next [node] false) s' := by
  simp only [separatedRound, hends, Bool.not_true, Bool.or_false, Bool.false_eq_true, if_false,
    bind_of_ok hentry, isAt_bind_run, hcomma, decide_false, run_pure]

theorem separatedRound_more {token comma : Token} {rest : List Token} (hends : endsAt token = false)
    (hentry : entry s = .ok node s₁) (hs₁ : s₁.rest = comma :: rest) (hcomma : comma.kind = .comma)
    (hbetween : between { s₁ with rest } = .ok () s₂) :
    separatedRound endsAt entry between true token s = .ok (.next [node] true) s₂ := by
  simp only [separatedRound, hends, Bool.not_true, Bool.or_false, Bool.false_eq_true, if_false,
    bind_of_ok hentry, isAt_bind_run, hs₁, List.head?_cons, Option.map_some, hcomma, decide_true,
    if_true, advance_bind_run, List.tail_cons, bind_of_ok hbetween, run_pure]

/-- The states that a round goes through. -/
theorem separatedRound_eq_next {due due' : Bool} {token : Token} {items : List Tree}
    (h : separatedRound endsAt entry between due token s = .ok (.next items due') s') :
    due = true ∧ endsAt token = false ∧ ∃ node s₁, items = [node] ∧ entry s = .ok node s₁ ∧
      (due' = false ∧ s' = s₁ ∧ s₁.rest.head?.map Token.kind ≠ some .comma ∨
        due' = true ∧ ∃ comma rest, s₁.rest = comma :: rest ∧ comma.kind = .comma ∧
          between { s₁ with rest } = .ok () s') := by
  by_cases hstop : due = false ∨ endsAt token = true
  · rw [separatedRound_stop hstop] at h
    exact nomatch h
  · simp only [not_or, Bool.not_eq_false, Bool.not_eq_true] at hstop
    obtain ⟨rfl, hends⟩ := hstop
    refine ⟨rfl, hends, ?_⟩
    simp only [separatedRound, hends, Bool.not_true, Bool.or_false, Bool.false_eq_true,
      if_false] at h
    obtain ⟨node, s₁, hentry, h⟩ := bind_eq_ok.1 h
    rw [isAt_bind_run] at h
    by_cases hcomma : s₁.rest.head?.map Token.kind = some .comma
    · obtain ⟨comma, hmem, hk⟩ := Option.map_eq_some_iff.1 hcomma
      obtain ⟨rest, hrest⟩ := List.head?_eq_some_iff.1 hmem
      simp only [hrest, List.head?_cons, Option.map_some, hk, decide_true, if_true,
        advance_bind_run, List.tail_cons] at h
      obtain ⟨_, _, hbetween, h⟩ := bind_eq_ok.1 h
      obtain ⟨hnext, rfl⟩ := EStateM.Result.ok.inj h
      obtain ⟨rfl, rfl⟩ := Round.next.inj hnext
      exact ⟨node, s₁, rfl, hentry, .inr ⟨rfl, comma, rest, hrest, hk, hbetween⟩⟩
    · simp only [hcomma, decide_false, Bool.false_eq_true, if_false] at h
      obtain ⟨hnext, rfl⟩ := EStateM.Result.ok.inj h
      obtain ⟨rfl, rfl⟩ := Round.next.inj hnext
      exact ⟨node, s₁, rfl, hentry, .inl ⟨rfl, rfl, hcomma⟩⟩

theorem separates_of_rounds {due : Bool}
    (h : Rounds (separatedRound endsAt entry between) due s entries missing s') :
    (due = true → Separates endsAt entry between s entries missing s') ∧
      (due = false → entries = [] ∧ missing = false ∧ s' = s) := by
  induction h with
  | done hrest =>
    exact ⟨fun hdue => hdue ▸ .missing (by simp [hrest]), fun hdue => ⟨rfl, hdue, rfl⟩⟩
  | @stop due s s' token rest hrest hround =>
    by_cases hstop : due = false ∨ endsAt token = true
    · rw [separatedRound_stop hstop] at hround
      obtain ⟨-, rfl⟩ := EStateM.Result.ok.inj hround
      refine ⟨fun hdue => ?_, fun hdue => ⟨rfl, hdue, rfl⟩⟩
      subst hdue
      have hends : endsAt token = true := by simpa using hstop
      exact .missing (by simp [hrest, hends])
    · simp only [not_or, Bool.not_eq_false, Bool.not_eq_true] at hstop
      simp only [separatedRound, hstop, Bool.not_true, Bool.or_false, Bool.false_eq_true,
        if_false] at hround
      obtain ⟨node, s₁, -, hround⟩ := bind_eq_ok.1 hround
      rw [isAt_bind_run] at hround
      split at hround
      · rw [advance_bind_run] at hround
        obtain ⟨_, _, -, hround⟩ := bind_eq_ok.1 hround
        exact nomatch hround
      · exact nomatch hround
  | next hrest hround _ ih =>
    obtain ⟨rfl, hends, node, s₁, rfl, hentry, hlast | hmore⟩ := separatedRound_eq_next hround
    · obtain ⟨rfl, rfl, hcomma⟩ := hlast
      obtain ⟨rfl, rfl, rfl⟩ := ih.2 rfl
      exact ⟨fun _ => .last ⟨_, _, hrest, hends⟩ hentry hcomma, nofun⟩
    · obtain ⟨rfl, comma, rest, hs₁, hk, hbetween⟩ := hmore
      exact ⟨fun _ => .more ⟨_, _, hrest, hends⟩ hentry hs₁ hk hbetween (ih.1 rfl), nofun⟩

/-- A list of entries that is read is read along such states. -/
theorem separates_of_separated
    (h : separated endsAt entry between s = .ok (entries, missing) s') :
    Separates endsAt entry between s entries missing s' :=
  (separates_of_rounds (rounds_of_loop h)).1 rfl

/-- Every entry is read by the reader of entries. -/
theorem Separates.exists_entry (h : Separates endsAt entry between s entries missing s') :
    ∀ node ∈ entries, ∃ s₁ s₂, entry s₁ = .ok node s₂ := by
  induction h with
  | missing => exact nofun
  | last _ hentry => exact fun other hmem => ⟨_, _, List.mem_singleton.1 hmem ▸ hentry⟩
  | more _ hentry _ _ _ _ ih =>
    intro other hmem
    rcases List.mem_cons.1 hmem with rfl | hmem
    · exact ⟨_, _, hentry⟩
    · exact ih other hmem

/-- Where no token ends the list, an entry is missing at the end of the input only. -/
theorem Separates.missing_eq_false
    (h : Separates (fun _ => false) entry between s entries missing s') (hne : s'.rest ≠ []) :
    missing = false := by
  induction h with
  | @missing s hends =>
    obtain ⟨token, rest, hs⟩ := List.exists_cons_of_ne_nil hne
    exact nomatch hends token (by rw [hs]; rfl)
  | last => rfl
  | more _ _ _ _ _ _ ih => exact ih hne

/-- The last entry ends the list. -/
theorem separated_last (hdue : IsDue endsAt s) (hentry : entry s = .ok node s')
    (hcomma : s'.rest.head?.map Token.kind ≠ some .comma) (hlt : s'.rest.length < s.rest.length) :
    LoopsTo (separatedRound endsAt entry between) true s [node] false s' := by
  obtain ⟨token, rest, hrest, hends⟩ := hdue
  refine .cons hrest (separatedRound_last hends hentry hcomma) hlt ?_
  cases hs' : s'.rest with
  | nil => exact .done hs'
  | cons token' rest' => exact .stop hs' (separatedRound_stop (.inl rfl))

/-- An entry with a comma after it stands before others. -/
theorem separated_more {comma : Token} {rest : List Token} (hdue : IsDue endsAt s)
    (hentry : entry s = .ok node s₁) (hs₁ : s₁.rest = comma :: rest) (hcomma : comma.kind = .comma)
    (hbetween : between { s₁ with rest } = .ok () s₂) (hlt : s₂.rest.length < s.rest.length)
    (hlater : LoopsTo (separatedRound endsAt entry between) true s₂ later missing s') :
    LoopsTo (separatedRound endsAt entry between) true s (node :: later) missing s' := by
  obtain ⟨token, rest', hrest, hends⟩ := hdue
  exact .cons hrest (separatedRound_more hends hentry hs₁ hcomma hbetween) hlt hlater

end StyleTree.Parser
