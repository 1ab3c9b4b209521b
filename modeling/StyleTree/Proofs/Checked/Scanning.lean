import StyleTree.Proofs.Checked.Agreement
import StyleTree.Proofs.Checked.Scanner
import StyleTree.Proofs.Token.History

/-! The scanner as a machine finds the tokens of the text and the extensions among them
(`Scanner.run_tokenize`). What is left of the bytes is read as characters (`Scanner.Before`), each
loop takes what the automaton of its lexeme takes, and the scanner keeps the state that the tokens
so far lead to (`Scanner.Tracks`). The line ends are found among the bytes
(`Scanner.run_lineTable`), and every extension is reported where it is (`Scanner.run_report`). -/

namespace StyleTree

open Machine (run_bind run_pure run_size run_plus run_slice)

variable {α σ : Type}

namespace Turn

variable {turn : Turn σ α} {a b : α} {s s' : σ}

theorem loop_of_none (h : turn a s = some (.ok (none, s'))) :
    turn.loop a s = some (.ok (a, s')) := by
  rw [loop, run_bind, h]
  rfl

theorem loop_of_some (h : turn a s = some (.ok (some b, s'))) :
    turn.loop a s = turn.loop b s' := by
  rw [loop, run_bind, h]

end Turn

namespace Scanner

variable {p : Source} {s : Scanner} {c : Char} {cs w rest : List Char}

/-! ## The cursor -/

/-- The scanner stands before the bytes that are left. -/
structure Before (p : Source) (s : Scanner) (cs : List Char) : Prop where
  rest : (Text.byteChars p.text).drop s.position = cs
  le : s.position ≤ (Text.byteChars p.text).length

/-- The scanner a number of bytes later. -/
def moved (s : Scanner) (n : Nat) : Scanner :=
  { s with position := s.position + n }

@[simp] theorem moved_moved (s : Scanner) (m n : Nat) : (s.moved m).moved n = s.moved (m + n) := by
  rw [moved, moved, moved, Nat.add_assoc]

/-- The scanner after it notes an extension, if there is one. -/
def noted (s : Scanner) (kind : Option ExtensionKind) (start : Nat) : Scanner :=
  { s with extensions := s.extensions ++ (kind.map fun kind => ⟨kind, start⟩).toList }

@[simp] theorem noted_none (s : Scanner) (start : Nat) : s.noted none start = s := by
  rw [noted, Option.map_none, Option.toList_none, List.append_nil]

namespace Before

theorem position_add (h : s.Before p cs) :
    s.position + cs.length = (Text.byteChars p.text).length := by
  rw [← h.rest, List.length_drop]
  have := h.le
  omega

theorem moved (h : s.Before p (w ++ rest)) : (s.moved w.length).Before p rest where
  rest := by
    show (Text.byteChars p.text).drop (s.position + w.length) = rest
    rw [← List.drop_drop, h.rest, List.drop_left]
  le := by
    have hlength := h.position_add
    rw [List.length_append] at hlength
    show s.position + w.length ≤ _
    omega

theorem tail (h : s.Before p (c :: cs)) : (s.moved 1).Before p cs :=
  Before.moved (w := [c]) h

theorem run_ahead? (h : s.Before p cs) (k : Nat) :
    ahead? p k s = some (.ok (cs[k]?, s)) := by
  show some (Except.ok ((Text.byteChars p.text)[s.position + k]?, s)) = _
  rw [← h.rest, List.getElem?_drop]

theorem run_bump? (h : s.Before p (c :: cs)) :
    bump? p s = some (.ok (some c, s.moved 1)) := by
  rw [bump?, run_bind, h.run_ahead?]
  rfl

theorem run_bump?_nil (h : s.Before p []) : bump? p s = some (.ok (none, s)) := by
  rw [bump?, run_bind, h.run_ahead?]
  rfl

/-- The next byte is dropped. -/
theorem run_discard_bump? (h : s.Before p (c :: cs)) :
    (discard (bump? p) : Run Scanner Unit) s = some (.ok ((), s.moved 1)) := by
  show Option.bind (bump? p s) _ = _
  rw [h.run_bump?]
  rfl

theorem run_discard_bump?_nil (h : s.Before p []) :
    (discard (bump? p) : Run Scanner Unit) s = some (.ok ((), s)) := by
  show Option.bind (bump? p s) _ = _
  rw [h.run_bump?_nil]
  rfl

theorem run_skip (h : s.Before p (w ++ rest)) :
    skip p w.length s = some (.ok ((), s.moved w.length)) := by
  have hlength := h.position_add
  rw [List.length_append] at hlength
  show some (Except.ok ((), { s with position := min _ _ })) = _
  rw [Nat.min_eq_left (by omega)]
  rfl

end Before

theorem run_get (s : σ) : (get : Run σ σ) s = some (.ok (s, s)) := rfl

theorem run_offset (h : s.position < 2 ^ 32) : offset s = some (.ok (s.position, s)) :=
  run_size h

/-! ## Runs of automata -/

section
variable {τ : Type} {step : τ → Char → Option τ} {state state' : τ}

theorem takeRun_of_some (h : step state c = some state') : takeRun step state (c :: cs) =
    (c :: (takeRun step state' cs).1, (takeRun step state' cs).2) := by
  rw [takeRun, h]

theorem takeRun_of_none (h : step state c = none) :
    takeRun step state (c :: cs) = ([], state, c :: cs) := by
  rw [takeRun, h]

/-- States that do the same at the next character take the same. -/
theorem takeRun_congr (h : ∀ c ∈ cs.head?, step state c = step state' c) :
    (takeRun step state cs).1 = (takeRun step state' cs).1 := by
  cases cs with
  | nil => rfl
  | cons c cs =>
    have hstep := h c rfl
    cases hstate : step state' c with
    | none => rw [takeRun_of_none hstate, takeRun_of_none (hstep.trans hstate)]
    | some => rw [takeRun_of_some hstate, takeRun_of_some (hstep.trans hstate)]

end

namespace Before

/-- The bytes that satisfy a condition are skipped. -/
theorem run_skipWhile (condition : Char → Bool) (h : s.Before p cs) : skipWhile p condition s =
    some (.ok ((), s.moved (takeRun (stepWhile condition) () cs).1.length)) := by
  unfold skipWhile
  induction cs generalizing s with
  | nil => exact Turn.loop_of_none (by rw [skipTurn, run_bind, h.run_ahead?]; rfl)
  | cons c cs ih =>
    cases hc : condition c with
    | false =>
      rw [takeRun_of_none (by rw [stepWhile, hc]; rfl)]
      apply Turn.loop_of_none
      rw [skipTurn, run_bind, h.run_ahead?]
      simp only [List.getElem?_cons_zero, hc, Bool.false_eq_true, if_false]
      rfl
    | true =>
      have hturn : skipTurn p condition () s = some (.ok (some (), s.moved 1)) := by
        rw [skipTurn, run_bind, h.run_ahead?]
        simp only [List.getElem?_cons_zero, hc, if_true]
        rfl
      rw [Turn.loop_of_some hturn, ih h.tail,
        takeRun_of_some (show stepWhile condition () c = some () by rw [stepWhile, hc]; rfl),
        moved_moved, List.length_cons, Nat.add_comm 1]

/-- A backslash in a string is stepped over together with the byte behind it. -/
theorem run_stringTurn_escape (quote : Char) (start : Nat) (h : s.Before p ('\\' :: cs)) :
    stringTurn p quote start () s =
      some (.ok (some (), s.moved ('\\' :: cs.take 1).length)) := by
  rw [stringTurn, run_bind, h.run_bump?]
  cases cs with
  | nil =>
    simp only [if_true, run_bind, h.tail.run_discard_bump?_nil]
    rfl
  | cons d cs =>
    simp only [if_true, run_bind, h.tail.run_discard_bump?, moved_moved]
    rfl

/-- Another byte of a string is stepped over, and the closing quote is the last one. -/
theorem run_stringTurn (quote : Char) (start : Nat) (h : s.Before p (c :: cs)) (hc : c ≠ '\\') :
    stringTurn p quote start () s =
      some (.ok (if c = quote then none else some (), s.moved 1)) := by
  rw [stringTurn, run_bind, h.run_bump?]
  simp only [hc, if_false]
  split <;> rfl

/-- A string is read up to its closing quote. One without is noted. -/
theorem run_stringLoop {quote : Char} (start : Nat) : ∀ {cs : List Char} {s : Scanner},
    s.Before p cs → (stringTurn p quote start).loop () s =
      some (.ok ((), (s.moved (takeRun (StringState.step quote) .inside cs).1.length).noted
        (if (takeRun (StringState.step quote) .inside cs).2.1 = .closed then none
          else some .unterminatedString) start))
  | [], s, h => by
    apply Turn.loop_of_none
    rw [stringTurn, run_bind, h.run_bump?_nil]
    rfl
  | c :: cs, s, h => by
    by_cases hescape : c = '\\'
    · subst hescape
      have hstep : StringState.step quote .inside '\\' = some .escaped := by
        rw [StringState.step, if_pos rfl]
      cases cs with
      | nil =>
        have hturn : stringTurn p quote start () s = some (.ok (some (), s.moved 1)) :=
          h.run_stringTurn_escape quote start
        rw [Turn.loop_of_some hturn, run_stringLoop start h.tail, takeRun_of_some hstep]
        rfl
      | cons d cs =>
        have hturn : stringTurn p quote start () s = some (.ok (some (), s.moved 2)) :=
          h.run_stringTurn_escape quote start
        have hinside : StringState.step quote .escaped d = some .inside := rfl
        have htail : (s.moved 2).Before p cs := Before.moved (w := ['\\', d]) h
        rw [Turn.loop_of_some hturn, run_stringLoop start htail, takeRun_of_some hstep,
          takeRun_of_some hinside, moved_moved, List.length_cons, List.length_cons, Nat.add_comm 2]
    · have hturn := h.run_stringTurn quote start hescape
      by_cases hquote : c = quote
      · have hstep : StringState.step quote .inside c = some .closed := by
          rw [StringState.step, if_neg hescape, if_pos hquote]
        have hclosed : takeRun (StringState.step quote) .closed cs = ([], .closed, cs) := by
          cases cs <;> rfl
        rw [if_pos hquote] at hturn
        rw [takeRun_of_some hstep, hclosed, if_pos rfl, noted_none, Turn.loop_of_none hturn]
        rfl
      · have hstep : StringState.step quote .inside c = some .inside := by
          rw [StringState.step, if_neg hescape, if_neg hquote]
        rw [if_neg hquote] at hturn
        rw [Turn.loop_of_some hturn, run_stringLoop start h.tail, takeRun_of_some hstep,
          moved_moved, List.length_cons, Nat.add_comm 1]

end Before

/-! ## Comments -/

/-- Where a comment closes: the number of bytes before the first asterisk with a slash after it. -/
def closing? (cs : List Char) : Option Nat :=
  (cs.zip cs.tail).findIdx? (· = ('*', '/'))

theorem closing?_cons (c : Char) (cs : List Char) : closing? (c :: cs) =
    if c = '*' ∧ cs.head? = some '/' then some 0 else (closing? cs).map (· + 1) := by
  cases cs with
  | nil => simp [closing?]
  | cons d cs =>
    rw [closing?, List.tail_cons, List.zip_cons_cons, List.findIdx?_cons]
    simp [closing?]

/-- A run on a number of bytes closes a comment after `place` of them, or takes all of them. -/
def Closes (place : Option Nat) (all : Nat) (run : List Char × CommentState × List Char) : Prop :=
  match place with
  | some k => run.1.length = k ∧ run.2.1 = .closed
  | none => run.1.length = all ∧ run.2.1 ≠ .closed

theorem Closes.cons {place : Option Nat} {all : Nat} {state state' : CommentState}
    (h : Closes place all (takeRun CommentState.step state' cs))
    (hstep : state.step c = some state') :
    Closes (place.map (· + 1)) (all + 1) (takeRun CommentState.step state (c :: cs)) := by
  rw [takeRun_of_some hstep]
  cases place with
  | some k => exact ⟨congrArg (· + 1) h.1, h.2⟩
  | none => exact ⟨congrArg (· + 1) h.1, h.2⟩

/-- The automaton stops where the comment closes, also right after an asterisk. -/
theorem closes_takeRun (cs : List Char) :
    Closes ((closing? cs).map (· + 2)) cs.length (takeRun CommentState.step .body cs) ∧
      Closes ((closing? ('*' :: cs)).map (· + 1)) cs.length
        (takeRun CommentState.step .asterisk cs) := by
  induction cs with
  | nil => exact ⟨⟨rfl, nofun⟩, ⟨rfl, nofun⟩⟩
  | cons c cs ih =>
    obtain ⟨hbody, hasterisk⟩ := ih
    by_cases hopens : c = '*'
    · subst hopens
      have hcons := hasterisk.cons (show CommentState.body.step '*' = some .asterisk from rfl)
      rw [Option.map_map] at hcons
      refine ⟨hcons, ?_⟩
      rw [closing?_cons, if_neg (by simp)]
      exact hasterisk.cons rfl
    · have hplace : closing? (c :: cs) = (closing? cs).map (· + 1) := by
        rw [closing?_cons, if_neg fun h => hopens h.1]
      constructor
      · have hstep : CommentState.body.step c = some .body := if_neg hopens
        have hcons := hbody.cons hstep
        rw [hplace, Option.map_map]
        rwa [Option.map_map] at hcons
      · by_cases hcloses : c = '/'
        · subst hcloses
          have hclosed : takeRun CommentState.step .closed cs = ([], .closed, cs) := by
            cases cs <;> rfl
          rw [closing?_cons, if_pos ⟨rfl, rfl⟩,
            takeRun_of_some (show CommentState.asterisk.step '/' = some .closed from rfl), hclosed]
          exact ⟨rfl, rfl⟩
        · have hstep : CommentState.asterisk.step c = some .body := by
            rw [CommentState.step, if_neg hcloses, if_neg hopens]
          have hcons := hbody.cons hstep
          rw [closing?_cons, if_neg (by simpa using hcloses), hplace, Option.map_map,
            Option.map_map]
          rwa [Option.map_map] at hcons

namespace Before

theorem run_skipPast (h : s.Before p cs) : skipPast p '*' '/' s =
    some (.ok (decide ((takeRun CommentState.step .body cs).2.1 = .closed),
      s.moved (takeRun CommentState.step .body cs).1.length)) := by
  have hrun := (closes_takeRun cs).1
  have hclosing : (((Text.byteChars p.text).drop s.position).zip
      ((Text.byteChars p.text).drop s.position).tail).findIdx? (· = ('*', '/')) = closing? cs := by
    rw [h.rest, closing?]
  show (if s.position ≤ (Text.byteChars p.text).length then _ else _ : Run Scanner Bool) s = _
  rw [if_pos h.le]
  simp only [hclosing]
  cases hk : closing? cs with
  | some k =>
    rw [hk] at hrun
    rw [hrun.1, hrun.2]
    rfl
  | none =>
    rw [hk] at hrun
    rw [hrun.1, decide_eq_false hrun.2, Scanner.moved, h.position_add]
    rfl

end Before

/-! ## Names -/

/-- The hexadecimal digits that characters start with, up to a number of them. -/
theorem exists_hexDigits (n : Nat) (cs : List Char) : ∃ digits rest, cs = digits ++ rest ∧
    (∀ c ∈ digits, isHex c = true) ∧ digits.length ≤ n ∧
      (digits.length = n ∨ ∀ c ∈ rest.head?, isHex c = false) := by
  induction n generalizing cs with
  | zero => exact ⟨[], cs, rfl, nofun, Nat.le_refl 0, .inl rfl⟩
  | succ n ih =>
    cases cs with
    | nil => exact ⟨[], [], rfl, nofun, Nat.zero_le _, .inr nofun⟩
    | cons c cs =>
      cases hc : isHex c with
      | false =>
        refine ⟨[], c :: cs, rfl, nofun, Nat.zero_le _, .inr fun d hd => ?_⟩
        rwa [← Option.some.inj hd]
      | true =>
        obtain ⟨digits, rest, rfl, hdigits, hle, hend⟩ := ih cs
        refine ⟨c :: digits, rest, rfl, List.forall_mem_cons.2 ⟨hc, hdigits⟩,
          Nat.succ_le_succ hle, hend.imp_left (congrArg (· + 1))⟩

theorem takeRun_hex {digits rest : List Char} (h : ∀ c ∈ digits, isHex c = true) {n : Nat}
    (hle : n + digits.length ≤ 6) :
    (takeRun IdentifierState.step (.hex n) (digits ++ rest)).1 =
      digits ++ (takeRun IdentifierState.step (.hex (n + digits.length)) rest).1 := by
  induction digits generalizing n with
  | nil => rfl
  | cons c digits ih =>
    rw [List.length_cons] at hle ⊢
    have hstep : IdentifierState.step (.hex n) c = some (.hex (n + 1)) := by
      rw [IdentifierState.step, if_pos]
      simp only [h c (.head _), Bool.and_true, decide_eq_true_iff]
      omega
    rw [List.cons_append, takeRun_of_some hstep,
      ih (fun d hd => h d (.tail _ hd)) (by omega), Nat.add_right_comm n, Nat.add_assoc]
    rfl

/-- After the digits, a character that is not one of them is read as in a name, but for blanks. -/
theorem step_hex {n : Nat} (h : n = 6 ∨ isHex c = false) : IdentifierState.step (.hex n) c =
    if c = '\r' then some .carriageReturn else if isBlank c then some .plain
    else IdentifierState.step .plain c := by
  have hmore : ¬(decide (n < 6) && isHex c) = true := by
    rcases h with rfl | h
    · simp
    · simp [h]
  show (if decide (n < 6) && isHex c then _ else _) = _
  rw [if_neg hmore]
  rfl

/-- Slashes that open a name are taken first. -/
theorem takeRun_slashes (cs : List Char) : (takeRun IdentifierState.step .slashes cs).1 =
    (takeRun (stepWhile (· = '/')) () cs).1 ++
      (takeRun IdentifierState.step .plain (takeRun (stepWhile (· = '/')) () cs).2.2).1 := by
  induction cs with
  | nil => rfl
  | cons c cs ih =>
    by_cases hslash : c = '/'
    · subst hslash
      rw [takeRun_of_some (show IdentifierState.step .slashes '/' = some .slashes from rfl),
        takeRun_of_some (show stepWhile (· = '/') () '/' = some () from rfl), ih]
      rfl
    · have hstop : stepWhile (· = '/') () c = none := if_neg (by simpa using hslash)
      rw [takeRun_of_none hstop, List.nil_append]
      refine takeRun_congr fun d hd => ?_
      rw [← Option.some.inj hd]
      exact if_neg hslash

namespace Before

theorem run_hexLoop {digits rest front : List Char} (h : s.Before p (front ++ (digits ++ rest)))
    (hdigits : ∀ c ∈ digits, isHex c = true) (hle : front.length + digits.length ≤ 6)
    (hend : front.length + digits.length = 6 ∨ ∀ c ∈ rest.head?, isHex c = false) :
    (hexTurn p).loop front.length s = some (.ok (front.length + digits.length, s)) := by
  induction digits generalizing front with
  | nil =>
    rw [List.nil_append] at h
    apply Turn.loop_of_none
    rw [hexTurn]
    split
    next hlt =>
      rw [run_bind, h.run_ahead?, List.getElem?_append_right (Nat.le_refl _), Nat.sub_self]
      cases rest with
      | nil => rfl
      | cons c rest =>
        have hc : isHex c = false := hend.resolve_left (by simp only [List.length_nil]; omega) c rfl
        simp only [List.getElem?_cons_zero, hc, Bool.false_eq_true, if_false]
        rfl
    next => rfl
  | cons c digits ih =>
    have hturn : hexTurn p front.length s = some (.ok (some (front.length + 1), s)) := by
      rw [List.length_cons] at hle
      rw [hexTurn, if_pos (by omega), run_bind, h.run_ahead?,
        List.getElem?_append_right (Nat.le_refl _), Nat.sub_self]
      simp only [List.cons_append, List.getElem?_cons_zero, hdigits c (.head _), if_true]
      rfl
    have hlength : (front ++ [c]).length = front.length + 1 := by simp
    have hsum : front.length + (digits.length + 1) = (front ++ [c]).length + digits.length := by
      rw [hlength]
      omega
    rw [Turn.loop_of_some hturn, ← hlength, List.length_cons, hsum]
    rw [List.length_cons, hsum] at hle hend
    exact ih (by simpa using h) (fun d hd => hdigits d (.tail _ hd)) hle hend

/-- After the digits of an escape, the blank that ends it is taken. -/
theorem run_escapeEnd {n : Nat} (h : s.Before p cs)
    (hhex : n = 6 ∨ ∀ c ∈ cs.head?, isHex c = false) : ∃ blank rest, cs = blank ++ rest ∧
      escapeEnd p s = some (.ok ((), s.moved blank.length)) ∧
      (takeRun IdentifierState.step (.hex n) cs).1 =
        blank ++ (takeRun IdentifierState.step .plain rest).1 := by
  cases cs with
  | nil =>
    refine ⟨[], [], rfl, ?_, rfl⟩
    rw [escapeEnd, run_bind, h.run_ahead?]
    rfl
  | cons c cs =>
    have hstep := step_hex (c := c) (hhex.imp_right fun hhex => hhex c rfl)
    have hone : skip p 1 s = some (.ok ((), s.moved 1)) := Before.run_skip (w := [c]) h
    have hrun : escapeEnd p s = (if c = '\r' ∧ cs.head? = some '\n' then skip p 2
        else if isBlank c then skip p 1 else pure () : Run Scanner Unit) s := by
      rw [escapeEnd, run_bind, h.run_ahead?]
      simp only [List.getElem?_cons_zero, run_bind, h.run_ahead?, List.getElem?_cons_succ,
        List.head?_eq_getElem?]
    by_cases hreturn : c = '\r'
    · subst hreturn
      rw [if_pos rfl] at hstep
      cases hfeed : decide (cs.head? = some '\n') with
      | true =>
        obtain ⟨cs, rfl⟩ := List.head?_eq_some_iff.1 (of_decide_eq_true hfeed)
        have htwo : skip p 2 s = some (.ok ((), s.moved 2)) := Before.run_skip (w := ['\r', '\n']) h
        rw [if_pos ⟨rfl, rfl⟩] at hrun
        refine ⟨['\r', '\n'], cs, rfl, hrun.trans htwo, ?_⟩
        rw [takeRun_of_some hstep,
          takeRun_of_some (show IdentifierState.step .carriageReturn '\n' = some .plain from rfl)]
        rfl
      | false =>
        have hfeed := of_decide_eq_false hfeed
        rw [if_neg fun h => hfeed h.2] at hrun
        refine ⟨['\r'], cs, rfl, hrun.trans hone, ?_⟩
        have hplain : (takeRun IdentifierState.step .carriageReturn cs).1 =
            (takeRun IdentifierState.step .plain cs).1 :=
          takeRun_congr fun c hc => if_neg fun hnewline : c = '\n' => hfeed (hnewline ▸ hc)
        rw [takeRun_of_some hstep, hplain]
        rfl
    · rw [if_neg hreturn] at hstep
      rw [if_neg fun h => hreturn h.1] at hrun
      cases hblank : isBlank c with
      | true =>
        rw [hblank, if_pos rfl] at hstep hrun
        exact ⟨[c], cs, rfl, hrun.trans hone, by rw [takeRun_of_some hstep]; rfl⟩
      | false =>
        rw [hblank, if_neg (by decide)] at hstep hrun
        refine ⟨[], c :: cs, rfl, hrun, takeRun_congr fun d hd => ?_⟩
        rw [← Option.some.inj hd, hstep]

/-- An escape takes what the automaton takes before it goes on with the name. -/
theorem run_escape (h : s.Before p cs) : ∃ taken rest, cs = taken ++ rest ∧
    escape p s = some (.ok ((), s.moved taken.length)) ∧
    (takeRun IdentifierState.step .escape cs).1 =
      taken ++ (takeRun IdentifierState.step .plain rest).1 := by
  obtain ⟨digits, rest, rfl, hdigits, hle, hend⟩ := exists_hexDigits 6 cs
  have hloop : (hexTurn p).loop ([] : List Char).length s =
      some (.ok (([] : List Char).length + digits.length, s)) :=
    run_hexLoop h hdigits (by simpa using hle) (by simpa using hend)
  rw [List.length_nil, Nat.zero_add] at hloop
  cases digits with
  | nil =>
    have hrun : escape p s = (discard (bump? p) : Run Scanner Unit) s := by
      rw [escape, run_bind, hloop]
      rfl
    cases rest with
    | nil => exact ⟨[], [], rfl, hrun.trans h.run_discard_bump?_nil, rfl⟩
    | cons c rest =>
      have hc : isHex c = false := hend.resolve_left (by decide) c rfl
      have hstep : IdentifierState.step .escape c = some .plain := by
        rw [IdentifierState.step, hc]
        rfl
      refine ⟨[c], rest, rfl, hrun.trans h.run_discard_bump?, ?_⟩
      rw [List.nil_append, takeRun_of_some hstep]
      rfl
  | cons c digits =>
    obtain ⟨blank, rest', rfl, hblank, htaken⟩ := run_escapeEnd h.moved hend
    have hstep : IdentifierState.step .escape c = some (.hex 1) := by
      rw [IdentifierState.step, hdigits c (.head _)]
      rfl
    have hle : 1 + digits.length ≤ 6 := by simpa [Nat.add_comm] using hle
    refine ⟨(c :: digits) ++ blank, rest', by simp, ?_, ?_⟩
    · rw [escape, run_bind, hloop]
      simp only [List.length_cons, Nat.succ_ne_zero, if_false, run_bind]
      rw [show skip p (digits.length + 1) s = _ from h.run_skip]
      exact hblank.trans (by rw [moved_moved, List.length_append])
    · rw [List.cons_append, takeRun_of_some hstep,
        takeRun_hex (fun d hd => hdigits d (.tail _ hd)) hle, Nat.add_comm 1]
      rw [List.length_cons] at htaken
      rw [htaken]
      simp

/-- A byte of a name is stepped over. One that ends the name is not. -/
theorem run_nameTurn (h : s.Before p (c :: cs)) (hc : c ≠ '\\') : nameTurn p () s =
    some (.ok (if endsIdentifier c then (none, s) else (some (), s.moved 1))) := by
  rw [nameTurn, run_bind, h.run_ahead?]
  cases hend : endsIdentifier c with
  | true =>
    simp only [List.getElem?_cons_zero, hc, hend, if_true, if_false]
    rfl
  | false =>
    simp only [List.getElem?_cons_zero, hc, hend, if_false, Bool.false_eq_true, run_bind,
      h.run_discard_bump?]
    rfl

/-- The characters of a name are taken, with the escapes among them. -/
theorem run_name (h : s.Before p cs) : name p s =
    some (.ok ((), s.moved (takeRun IdentifierState.step .plain cs).1.length)) := by
  unfold name
  generalize hn : cs.length = n
  induction n using Nat.strong_induction_on generalizing s cs with
  | _ n ih =>
    subst hn
    cases cs with
    | nil => exact Turn.loop_of_none (by rw [nameTurn, run_bind, h.run_ahead?]; rfl)
    | cons c cs =>
      by_cases hescape : c = '\\'
      · subst hescape
        obtain ⟨taken, rest, rfl, hrun, htaken⟩ := h.tail.run_escape
        have hturn : nameTurn p () s = some (.ok (some (), s.moved (1 + taken.length))) := by
          rw [nameTurn, run_bind, h.run_ahead?]
          simp only [List.getElem?_cons_zero, if_true, run_bind, h.run_discard_bump?, hrun,
            moved_moved]
          rfl
        have hrest : (s.moved (1 + taken.length)).Before p rest := by
          rw [← moved_moved]
          exact h.tail.moved
        have hlt : rest.length < ('\\' :: (taken ++ rest)).length := by
          rw [List.length_cons, List.length_append]
          omega
        have hstep : IdentifierState.step .plain '\\' = some .escape := rfl
        rw [Turn.loop_of_some hturn, ih _ hlt hrest rfl, takeRun_of_some hstep, htaken, moved_moved,
          List.length_cons, List.length_append, Nat.add_comm 1, Nat.add_right_comm]
      · have hturn := h.run_nameTurn hescape
        cases hend : endsIdentifier c with
        | true =>
          have hstep : IdentifierState.step .plain c = none := by
            rw [IdentifierState.step, IdentifierState.stepPlain, if_neg hescape, hend]
            rfl
          rw [hend] at hturn
          rw [takeRun_of_none hstep]
          exact Turn.loop_of_none hturn
        | false =>
          have hstep : IdentifierState.step .plain c = some .plain := by
            rw [IdentifierState.step, IdentifierState.stepPlain, if_neg hescape, hend]
            rfl
          rw [hend] at hturn
          rw [Turn.loop_of_some hturn, ih _ (Nat.lt_succ_self _) h.tail rfl, takeRun_of_some hstep,
            moved_moved, List.length_cons, Nat.add_comm 1]

/-- Slashes that open a name, and the name. -/
theorem run_slashedName (h : s.Before p ('/' :: cs)) :
    slashedName p s =
      some (.ok ((), s.moved (1 + (takeRun IdentifierState.step .slashes cs).1.length))) := by
  have hstep : stepWhile (· = '/') () '/' = some () := rfl
  have hskip := h.run_skipWhile (· = '/')
  rw [takeRun_of_some hstep] at hskip
  have hrest := h
  rw [← takeRun_append (stepWhile (· = '/')) () ('/' :: cs), takeRun_of_some hstep] at hrest
  rw [slashedName, run_bind, hskip]
  dsimp only
  rw [hrest.moved.run_name, moved_moved, takeRun_slashes, List.length_append, List.length_cons,
    Nat.add_comm 1, Nat.add_right_comm]

end Before

/-! ## Lexemes -/

/-- The offsets of the text and the number of open blocks fit in words. -/
structure Scannable (p : Source) : Prop where
  small : (Text.byteChars p.text).length < 2 ^ 32
  sums : p.overflow = .stops → (Text.byteChars p.text).length + 1 < 2 ^ 32

/-- The scanner keeps the state that the tokens so far lead to. -/
structure Tracks (p : Source) (s : Scanner) (state : ScanState) : Prop where
  depth : s.depth = .ofNat state.depth
  inUrl : s.inUrl = state.inUrl
  depth_le : state.depth ≤ s.position + 1
  /-- The last token stands between characters of the text, so its spelling can be looked up. -/
  last : s.tokens = [] ∧ state.afterUrl = false ∨
    ∃ tokens kind front w after, s.tokens =
        tokens ++ [⟨kind, Text.byteLength front, Text.byteLength (front ++ w)⟩] ∧
      p.text.toList = front ++ w ++ after ∧ state.afterUrl = ScanState.isUrlName kind w

/-- The scanner behind a lexeme. -/
def behind (s : Scanner) (state : ScanState) (lexeme : Lexeme) : Scanner :=
  { (s.moved lexeme.chars.length).noted lexeme.extension s.position with
    depth := .ofNat (state.after lexeme.kind lexeme.chars).depth
    inUrl := (state.after lexeme.kind lexeme.chars).inUrl }

section
variable {state : ScanState}

theorem Tracks.run_afterUrl (h : s.Tracks p state) (n : Nat) :
    afterUrl p (s.moved n) = some (.ok (state.afterUrl, s.moved n)) := by
  rw [afterUrl, run_bind, run_get]
  dsimp only
  rw [show (s.moved n).tokens = s.tokens from rfl]
  obtain ⟨hnone, hurl⟩ | ⟨tokens, kind, front, w, after, htokens, htext, hurl⟩ := h.last
  · rw [hnone, hurl]
    rfl
  · rw [htokens, List.getLast?_concat, hurl]
    dsimp only
    rw [isUrl, ScanState.isUrlName]
    by_cases hkind : kind = .ident
    · rw [if_pos hkind, run_bind, run_slice htext, hkind]
      simp only [Text.sameLetters, String.toList_ofList]
      rfl
    · rw [if_neg hkind, decide_eq_false hkind]
      rfl

/-- Tokens other than braces and parentheses leave the state as it is. -/
theorem Tracks.behind_eq (h : s.Tracks p state) {lexeme : Lexeme}
    (hdepth : (state.after lexeme.kind lexeme.chars).depth = state.depth)
    (hurl : (state.after lexeme.kind lexeme.chars).inUrl = state.inUrl) :
    s.behind state lexeme = (s.moved lexeme.chars.length).noted lexeme.extension s.position := by
  rw [behind, hdepth, hurl, ← h.depth, ← h.inUrl]
  rfl

/-- Punctuators that are no braces and no parentheses leave the state as it is. -/
theorem after_sign (state : ScanState) (hopen : c ≠ '\x7b') (hclose : c ≠ '\x7d')
    (hleft : c ≠ '(') (hright : c ≠ ')') :
    (state.after ((TokenKind.ofChar? c).getD .unknown) [c]).depth = state.depth ∧
      (state.after ((TokenKind.ofChar? c).getD .unknown) [c]).inUrl = state.inUrl := by
  cases hkind : TokenKind.ofChar? c with
  | none => exact ⟨rfl, rfl⟩
  | some kind =>
    have hchar := char?_of_ofChar? hkind
    cases kind <;> first | exact ⟨rfl, rfl⟩ | skip
    case leftBrace => exact absurd (Option.some.inj hchar).symm hopen
    case rightBrace => exact absurd (Option.some.inj hchar).symm hclose
    case leftParen => exact absurd (Option.some.inj hchar).symm hleft
    case rightParen => exact absurd (Option.some.inj hchar).symm hright

/-- Where bytes are left, the number of open blocks fits in a word. -/
theorem Tracks.toNat_depth (h : s.Tracks p state) (hp : Scannable p)
    (hlt : s.position < (Text.byteChars p.text).length) : s.depth.toNat = state.depth := by
  have hsmall := hp.small
  have hdepth := h.depth_le
  rw [h.depth, UInt32.toNat_ofNat_of_lt']
  show state.depth < 2 ^ 32
  omega

/-- An opening brace opens one more block. -/
theorem Tracks.run_plus_depth (h : s.Tracks p state) (hp : Scannable p)
    (hlt : s.position < (Text.byteChars p.text).length) {s' : σ} :
    Machine.plus p s.depth 1 s' = some (.ok (.ofNat (state.depth + 1), s')) := by
  have hdepth := h.depth_le
  have hopened : s.depth + 1 = .ofNat (state.depth + 1) := by
    rw [h.depth, UInt32.ofNat_add]
    rfl
  rw [← hopened]
  apply run_plus
  intro hstops
  have hsums := hp.sums hstops
  rw [h.toNat_depth hp hlt]
  show state.depth + 1 < 2 ^ 32
  omega

/-- A closing brace closes a block, if one is open. -/
theorem Tracks.depth_closed (h : s.Tracks p state) (hp : Scannable p)
    (hlt : s.position < (Text.byteChars p.text).length) :
    (if s.depth = 0 then 0 else s.depth - 1) = UInt32.ofNat (state.depth - 1) := by
  have hnat := h.toNat_depth hp hlt
  cases hstate : state.depth with
  | zero =>
    rw [h.depth, hstate]
    rfl
  | succ depth =>
    have hne : s.depth ≠ 0 := by
      intro hzero
      rw [hzero, hstate] at hnat
      exact absurd hnat (Nat.zero_ne_add_one _)
    rw [if_neg hne, h.depth, hstate, UInt32.ofNat_add, Nat.add_sub_cancel]
    exact UInt32.add_sub_cancel _ _

/-- A punctuator alone. -/
theorem Tracks.run_track (h : s.Tracks p state) (hp : Scannable p)
    (hlt : s.position < (Text.byteChars p.text).length) (c : Char) :
    track p c (s.moved 1) = some (.ok ((),
      s.behind state ⟨(TokenKind.ofChar? c).getD .unknown, [c], none⟩)) := by
  have hbehind : s.behind state ⟨(TokenKind.ofChar? c).getD .unknown, [c], none⟩ =
      { s.moved 1 with
        depth := .ofNat (state.after ((TokenKind.ofChar? c).getD .unknown) [c]).depth
        inUrl := (state.after ((TokenKind.ofChar? c).getD .unknown) [c]).inUrl } := by
    rw [behind, noted_none]
    rfl
  rw [hbehind, track, run_bind]
  show (if c = '\x7b' then _ else _ : Run Scanner Unit) (s.moved 1) = _
  have hsameUrl : s.moved 1 = { s.moved 1 with inUrl := state.inUrl } := by
    rw [← h.inUrl]
    rfl
  by_cases hopen : c = '\x7b'
  · subst hopen
    rw [if_pos rfl, run_bind, show (s.moved 1).depth = s.depth from rfl, h.run_plus_depth hp hlt]
    show some (Except.ok ((), ({ s.moved 1 with depth := _ } : Scanner))) = _
    rw [hsameUrl]
    rfl
  rw [if_neg hopen]
  by_cases hclose : c = '\x7d'
  · subst hclose
    rw [if_pos rfl, show (s.moved 1).depth = s.depth from rfl, h.depth_closed hp hlt]
    show some (Except.ok ((), ({ s.moved 1 with depth := _ } : Scanner))) = _
    rw [hsameUrl]
    rfl
  rw [if_neg hclose]
  have hsameDepth : s.moved 1 = { s.moved 1 with depth := .ofNat state.depth } := by
    rw [← h.depth]
    rfl
  by_cases hleft : c = '('
  · subst hleft
    rw [if_pos rfl, run_bind, h.run_afterUrl]
    show some (Except.ok ((), ({ s.moved 1 with inUrl := _ } : Scanner))) = _
    rw [hsameDepth]
    rfl
  rw [if_neg hleft]
  by_cases hright : c = ')'
  · subst hright
    rw [if_pos rfl]
    show some (Except.ok ((), ({ s.moved 1 with inUrl := _ } : Scanner))) = _
    rw [hsameDepth]
    rfl
  rw [if_neg hright]
  obtain ⟨hdepth, hurl⟩ := after_sign state hopen hclose hleft hright
  rw [hdepth, hurl, ← h.depth, ← h.inUrl]
  rfl

/-- A punctuator that opens no comment, no line and no name is read alone. -/
theorem readPunctuator_eq (state : ScanState) (hcomment : ¬(c = '/' ∧ cs.head? = some '*'))
    (hslashes : ¬(c = '/' ∧ cs.head? = some '/' ∧ state.inUrl = false)) :
    readPunctuator state c cs = (⟨(TokenKind.ofChar? c).getD .unknown, [c], none⟩, cs) := by
  unfold readPunctuator
  split
  next => exact absurd ⟨rfl, rfl⟩ hcomment
  next =>
    cases hurl : state.inUrl with
    | true => rfl
    | false => exact absurd ⟨rfl, rfl, hurl⟩ hslashes
  next => rfl

theorem run_extend (kind : ExtensionKind) (start : Nat) :
    extend kind start s = some (.ok ((), s.noted (some kind) start)) := rfl

/-- Comments and names that slashes open leave the state as it is. -/
theorem Tracks.run_comment (h : s.Tracks p state) (hbefore : s.Before p ('/' :: '*' :: cs)) :
    comment p s.position (s.moved 1) = some (.ok (.comment,
      s.behind state (readPunctuator state '/' ('*' :: cs)).1)) := by
  have hrest := hbefore.tail.tail
  rw [h.behind_eq rfl rfl, comment, run_bind, hbefore.tail.run_discard_bump?]
  dsimp only
  rw [run_bind, hrest.run_skipPast]
  simp only [readPunctuator, moved_moved, List.length_cons]
  rw [Nat.add_comm (1 + 1), ← Nat.add_assoc]
  by_cases hclosed : (takeRun CommentState.step .body cs).2.1 = .closed
  · simp only [hclosed, decide_true, if_true, noted_none]
    rfl
  · simp only [hclosed, decide_false, Bool.false_eq_true, if_false, run_bind, run_extend]
    rfl

theorem Tracks.run_slashes (h : s.Tracks p state) (hbefore : s.Before p ('/' :: '/' :: cs))
    (hp : Scannable p) (hurl : state.inUrl = false) :
    slashes p s.position (s.moved 1) = some (.ok (
      (readPunctuator state '/' ('/' :: cs)).1.kind,
      s.behind state (readPunctuator state '/' ('/' :: cs)).1)) := by
  have hlength := hbefore.position_add
  rw [List.length_cons] at hlength
  have hnat := h.toNat_depth hp (by omega)
  rw [slashes, run_bind, run_get]
  dsimp only
  rw [show (s.moved 1).depth = s.depth from rfl]
  have hread : readPunctuator state '/' ('/' :: cs) = if state.depth = 0 then
      (⟨.unknown, '/' :: '/' :: (takeRun (stepWhile fun c => !isNewline c) () cs).1,
        some .lineComment⟩, (takeRun (stepWhile fun c => !isNewline c) () cs).2.2)
      else (⟨.ident, '/' :: '/' :: (takeRun IdentifierState.step .slashes cs).1, none⟩,
        (takeRun IdentifierState.step .slashes cs).2.2) := by
    rw [readPunctuator, if_neg (by rw [hurl]; decide)]
  by_cases hzero : state.depth = 0
  · have hdepth : s.depth = 0 := UInt32.toNat_inj.1 (hnat.trans hzero)
    have hstep : stepWhile (fun c => !isNewline c) () '/' = some () := rfl
    rw [hread, if_pos hzero, if_pos hdepth, h.behind_eq rfl rfl, run_bind,
      hbefore.tail.run_skipWhile, takeRun_of_some hstep]
    simp only [run_bind, run_extend, moved_moved, List.length_cons]
    rw [Nat.add_comm 1]
    rfl
  · have hdepth : s.depth ≠ 0 := fun hdepth => hzero (by rw [← hnat, hdepth]; rfl)
    rw [hread, if_neg hzero, if_neg hdepth, h.behind_eq rfl rfl, noted_none, run_bind,
      hbefore.tail.run_slashedName]
    dsimp only
    rw [moved_moved, ← Nat.add_assoc, Nat.add_comm (1 + 1)]
    rfl

theorem Tracks.run_punctuator (h : s.Tracks p state) (hp : Scannable p)
    (hbefore : s.Before p (c :: cs)) : punctuator p c s =
      some (.ok ((readPunctuator state c cs).1.kind,
        s.behind state (readPunctuator state c cs).1)) := by
  have hlength := hbefore.position_add
  rw [List.length_cons] at hlength
  have hsmall := hp.small
  rw [punctuator, run_bind, run_offset (by omega)]
  simp only [run_bind, hbefore.run_discard_bump?, hbefore.tail.run_ahead?, run_get]
  rw [← List.head?_eq_getElem?, show (s.moved 1).inUrl = state.inUrl from h.inUrl]
  by_cases hcomment : c = '/' ∧ cs.head? = some '*'
  · obtain ⟨rfl, hstar⟩ := hcomment
    obtain ⟨cs, rfl⟩ := List.head?_eq_some_iff.1 hstar
    exact h.run_comment hbefore
  rw [if_neg hcomment]
  by_cases hslashes : c = '/' ∧ cs.head? = some '/' ∧ state.inUrl = false
  · rw [if_pos hslashes]
    obtain ⟨rfl, hslash, hurl⟩ := hslashes
    obtain ⟨cs, rfl⟩ := List.head?_eq_some_iff.1 hslash
    exact h.run_slashes hbefore hp hurl
  rw [if_neg hslashes, readPunctuator_eq state hcomment hslashes, run_bind,
    h.run_track hp (by omega)]
  rfl

/-- **The machine reads the lexeme that the automata read.** -/
theorem Tracks.run_lexeme (h : s.Tracks p state) (hp : Scannable p)
    (hbefore : s.Before p (c :: cs)) : lexeme p c s =
      some (.ok ((readLexeme state c cs).1.kind, s.behind state (readLexeme state c cs).1)) := by
  have hlength := hbefore.position_add
  rw [List.length_cons] at hlength
  have hsmall := hp.small
  rw [lexeme, readLexeme]
  cases hc : CharClass.ofChar c with
  | whitespace =>
    have hstep : stepWhile isBlank () c = some () := by rw [stepWhile, isBlank, hc]; rfl
    dsimp only
    rw [run_bind, hbefore.run_skipWhile, takeRun_of_some hstep, h.behind_eq rfl rfl, noted_none]
    rfl
  | number =>
    have hstep : stepWhile isDecimal () c = some () := by rw [stepWhile, isDecimal, hc]; rfl
    dsimp only
    rw [run_bind, hbefore.run_skipWhile, takeRun_of_some hstep, h.behind_eq rfl rfl, noted_none]
    rfl
  | string =>
    dsimp only
    rw [string, run_bind, run_offset (by omega), h.behind_eq rfl rfl]
    simp only [run_bind, hbefore.run_discard_bump?, hbefore.tail.run_stringLoop, moved_moved,
      List.length_cons, Nat.add_comm 1]
    rfl
  | identifier =>
    have hstep : IdentifierState.step .plain c =
        some (if c = '\\' then .escape else .plain) := by
      rw [IdentifierState.step, IdentifierState.stepPlain, endsIdentifier, hc]
      split <;> rfl
    dsimp only
    rw [run_bind, hbefore.run_name, takeRun_of_some hstep, h.behind_eq rfl rfl, noted_none]
    rfl
  | punctuator => exact h.run_punctuator hp hbefore

end

/-! ## Tokens -/

section
variable {state : ScanState} {kind : TokenKind} {front : List Char}

/-- A lexeme makes use of the same extension when it is read byte by byte. -/
theorem extensionOf_bytewise (h : Reads state kind w rest) :
    extensionOf kind (bytewise w) = extensionOf kind w := by
  cases h with
  | quoted hc hv =>
    rw [bytewise_cons_of_ne (by simp [hc]),
      extensionOf_string hc ((uniform_string hc).foldlM_bytewise hv), extensionOf_string hc hv]
  | comment hv =>
    rw [bytewise_cons_of_ne (by decide), bytewise_cons_of_ne (by decide),
      extensionOf_comment (uniform_comment.foldlM_bytewise hv), extensionOf_comment hv]
  | sign _ hsign =>
    rw [extensionOf_of_char? (char?_of_ofChar? hsign),
      extensionOf_of_char? (char?_of_ofChar? hsign)]
  | _ => rfl

theorem byteChars_eq (text : String) : Text.byteChars text = bytewise text.toList := by
  rw [Text.byteChars, Text.bytes_eq, List.map_flatMap]
  rfl

theorem length_byteChars (text : String) :
    (Text.byteChars text).length = Text.byteLength text.toList := by
  rw [byteChars_eq, length_bytewise]

/-- The scanner stands between characters of the text. -/
structure Between (p : Source) (s : Scanner) (front cs : List Char) : Prop where
  text : p.text.toList = front ++ cs
  position : s.position = Text.byteLength front

theorem Between.before (h : s.Between p front cs) : s.Before p (bytewise cs) where
  rest := by
    rw [byteChars_eq, h.text, bytewise_append, h.position,
      List.drop_left' (length_bytewise front)]
  le := by
    rw [length_byteChars, h.text, Text.byteLength_append, h.position]
    exact Nat.le_add_right ..

/-- The scanner behind a token. -/
def past (s : Scanner) (state : ScanState) (lexeme : Lexeme) : Scanner where
  position := s.position + Text.byteLength lexeme.chars
  depth := .ofNat (state.after lexeme.kind lexeme.chars).depth
  inUrl := (state.after lexeme.kind lexeme.chars).inUrl
  tokens := s.tokens ++ [(lexeme.token s.position).span]
  extensions := s.extensions ++ (lexeme.extension.map fun kind => ⟨kind, s.position⟩).toList

theorem depth_after_le (state : ScanState) (kind : TokenKind) (w : List Char) :
    (state.after kind w).depth ≤ state.depth + 1 := by
  cases kind with
  | leftBrace => exact Nat.le_refl _
  | rightBrace => exact (Nat.sub_le _ _).trans (Nat.le_succ _)
  | _ => exact Nat.le_succ _

theorem run_push (kind : TokenKind) {start stop : Nat} (h : start ≤ stop) :
    push kind start stop s =
      some (.ok ((), { s with tokens := s.tokens ++ [⟨kind, start, stop⟩] })) := by
  rw [push, if_pos h]
  rfl

/-- One token is read, and the scanner keeps track. -/
theorem Tracks.run_token (h : s.Tracks p state) (hp : Scannable p)
    (hbetween : s.Between p front (c :: cs)) :
    token p () s = some (.ok (some (), s.past state (readLexeme state c cs).1)) := by
  have hreads := reads_readLexeme state c cs
  have happend := readLexeme_append state c cs
  have hextension := extension_readLexeme state c cs
  generalize readLexeme state c cs = result at hreads happend hextension
  obtain ⟨d, v, hbytes, hkind, hchars, -⟩ := hreads.bytewise.readLexeme_eq
  have hbefore := hbetween.before
  rw [← happend, bytewise_append, hbytes, List.cons_append] at hbefore
  have hlength := hbefore.position_add
  have hsmall := hp.small
  rw [List.length_cons, List.length_append] at hlength
  have hsame : (readLexeme state d (v ++ bytewise result.2)).1 =
      ⟨result.1.kind, bytewise result.1.chars, result.1.extension⟩ := by
    have hnote := extension_readLexeme state d (v ++ bytewise result.2)
    rw [hkind, hchars, extensionOf_bytewise hreads, ← hextension] at hnote
    rw [← hkind, ← hchars, ← hnote]
  have hbehind : s.behind state ⟨result.1.kind, bytewise result.1.chars, result.1.extension⟩ =
      { s.past state result.1 with tokens := s.tokens } := by
    rw [behind, after_bytewise, noted, moved, length_bytewise]
    rfl
  have hlexeme := h.run_lexeme hp hbefore
  rw [hsame, hbehind] at hlexeme
  have hstop : s.position + Text.byteLength result.1.chars < 2 ^ 32 := by
    rw [← length_bytewise, hbytes, List.length_cons]
    omega
  have hoffset := run_offset (s := { s.past state result.1 with tokens := s.tokens }) hstop
  have hpush := run_push result.1.kind (s := { s.past state result.1 with tokens := s.tokens })
    (Nat.le_add_right s.position (Text.byteLength result.1.chars))
  rw [token, run_bind, hbefore.run_ahead?]
  dsimp only [List.getElem?_cons_zero]
  rw [run_bind, run_offset (by omega)]
  dsimp only
  rw [run_bind, hlexeme]
  dsimp only
  rw [run_bind, hoffset]
  dsimp only [past] at hpush ⊢
  rw [run_bind, hpush, Token.span, Token.stop, Lexeme.token, String.toList_ofList]
  rfl

theorem Tracks.past (h : s.Tracks p state) (hbetween : s.Between p front (c :: cs)) :
    (s.past state (readLexeme state c cs).1).Tracks p
        (state.after (readLexeme state c cs).1.kind (readLexeme state c cs).1.chars) ∧
      (s.past state (readLexeme state c cs).1).Between p
        (front ++ (readLexeme state c cs).1.chars) (readLexeme state c cs).2 := by
  have hreads := reads_readLexeme state c cs
  have happend := readLexeme_append state c cs
  generalize readLexeme state c cs = result at hreads happend
  have htext : p.text.toList = front ++ result.1.chars ++ result.2 := by
    rw [List.append_assoc, happend, hbetween.text]
  refine ⟨⟨rfl, rfl, ?_, .inr ⟨s.tokens, result.1.kind, front, result.1.chars, result.2, ?_,
    htext, rfl⟩⟩, htext, ?_⟩
  · have hdepth := depth_after_le state result.1.kind result.1.chars
    have hle := h.depth_le
    obtain ⟨d, v, hchars⟩ := List.exists_cons_of_ne_nil hreads.ne_nil
    have hpos := d.utf8Size_pos
    show _ ≤ s.position + Text.byteLength result.1.chars + 1
    have hlength : 0 < Text.byteLength result.1.chars := by
      rw [hchars, Text.byteLength_cons]
      omega
    omega
  · rw [Text.byteLength_append, ← hbetween.position]
    show s.tokens ++ [(result.1.token s.position).span] = _
    rw [Token.span, Token.stop, Lexeme.token, String.toList_ofList]
  · rw [Text.byteLength_append, ← hbetween.position]
    rfl

/-- At the end of the text the loop is left. -/
theorem Between.run_token_nil (h : s.Between p front []) :
    (token p).loop () s = some (.ok ((), s)) := by
  apply Turn.loop_of_none
  rw [token, run_bind, h.before.run_ahead?]
  rfl

/-- From any place on, the scanner finds the tokens and the extensions that are left. -/
theorem Tracks.run_tokens {rounds : Nat} (h : s.Tracks p state) (hp : Scannable p)
    (hbetween : s.Between p front cs) (hle : cs.length ≤ rounds) : ∃ s',
    (token p).loop () s = some (.ok ((), s')) ∧
      s'.tokens = s.tokens ++ (scanFrom rounds state s.position cs).map
        (fun entry => (entry.2.token entry.1).span) ∧
      s'.extensions = s.extensions ++ (scanFrom rounds state s.position cs).filterMap
        fun entry => entry.2.extension.map fun kind => ⟨kind, entry.1⟩ := by
  induction rounds generalizing s state front cs with
  | zero =>
    obtain rfl : cs = [] := List.length_eq_zero_iff.1 (Nat.le_zero.1 hle)
    exact ⟨s, hbetween.run_token_nil, by simp [scanFrom], by simp [scanFrom]⟩
  | succ rounds ih =>
    cases cs with
    | nil => exact ⟨s, hbetween.run_token_nil, by simp [scanFrom], by simp [scanFrom]⟩
    | cons c cs =>
      obtain ⟨htracks, hpast⟩ := h.past hbetween
      have hlt := readLexeme_length_lt state c cs
      rw [List.length_cons] at hle hlt
      obtain ⟨s', hrun, htokens, hextensions⟩ := ih htracks hpast (by omega)
      refine ⟨s', ?_, ?_, ?_⟩
      · rw [Turn.loop_of_some (h.run_token hp hbetween), hrun]
      · rw [htokens, scanFrom, List.map_cons, List.append_cons]
        rfl
      · rw [hextensions, scanFrom, List.filterMap_cons, Scanner.past, List.append_assoc]
        cases (readLexeme state c cs).1.extension <;> rfl

theorem tracks_start (p : Source) (inBlock : Bool) :
    (start p.text inBlock).Tracks p (.start inBlock) where
  depth := by cases inBlock <;> rfl
  inUrl := rfl
  depth_le := by
    cases inBlock with
    | false => exact Nat.zero_le _
    | true => exact Nat.succ_le_succ (Nat.zero_le _)
  last := .inl ⟨rfl, rfl⟩

/-- **The machine finds the tokens and the extensions of a text.** -/
theorem run_tokenize (hp : Scannable p) (inBlock : Bool) : ∃ s',
    tokenize p inBlock = some (.ok s') ∧
    s'.tokens = (TokenTable.ofText p.text inBlock).tokens.toList.map Token.span ∧
    s'.extensions = (TokenTable.ofText p.text inBlock).extensions := by
  obtain ⟨mark, hmark, horigin⟩ := exists_mark p.text.toList
  have hbetween : (start p.text inBlock).Between p mark (withoutMark p.text.toList) :=
    ⟨hmark, horigin.symm⟩
  obtain ⟨s', hrun, htokens, hextensions⟩ :=
    (tracks_start p inBlock).run_tokens hp hbetween (Nat.le_refl _)
  refine ⟨s', ?_, ?_, ?_⟩
  · show Option.bind ((token p).loop () (start p.text inBlock)) _ = _
    rw [hrun]
    rfl
  · rw [htokens, TokenTable.toList_tokens_ofText, List.map_map]
    rfl
  · rw [hextensions]
    rfl

end

/-! ## Lines and extensions -/

section
variable {bytes : List Char} {i : Nat} {starts : List Nat} {s : σ}

/-- Bytes that end no line are stepped over. -/
theorem loop_lineTurn (hw : ∀ c ∈ w, isNewline c = false) (h : bytes.drop i = w ++ rest) :
    (lineTurn bytes).loop (i, starts) s = (lineTurn bytes).loop (i + w.length, starts) s := by
  induction w generalizing i with
  | nil => rfl
  | cons c w ih =>
    have hget : bytes[i]? = some c := by rw [← List.head?_drop, h]; rfl
    have hlt : i < bytes.length := (List.getElem?_eq_some_iff.1 hget).1
    have hturn : lineTurn bytes (i, starts) s = some (.ok (some (i + 1, starts), s)) := by
      rw [lineTurn, if_pos hlt, run_bind, Machine.run_index hget]
      simp only [hw c (.head _), Bool.false_eq_true, if_false]
      rfl
    have hrest : bytes.drop (i + 1) = w ++ rest := by rw [← List.tail_drop, h]; rfl
    rw [Turn.loop_of_some hturn, ih (fun d hd => hw d (.tail _ hd)) hrest, List.length_cons,
      Nat.add_assoc, Nat.add_comm 1]

theorem run_lineTurn {next : Nat} (hc : isNewline c = true) (h : bytes[i]? = some c)
    (hnext : lineEnd bytes i = next) (hlt : next < 2 ^ 32) :
    lineTurn bytes (i, starts) s = some (.ok (some (next, starts ++ [next]), s)) := by
  rw [lineTurn, if_pos (List.getElem?_eq_some_iff.1 h).1, run_bind, Machine.run_index h]
  simp only [hc, if_true, run_bind, hnext, run_size hlt]
  rfl

/-- No byte of a character that ends no line ends one. -/
theorem isNewline_of_mem_encode (hc : isNewline c = false) :
    ∀ d ∈ (String.utf8EncodeChar c).map byteChar, isNewline d = false := by
  cases hwide : isWide c with
  | true =>
    obtain ⟨d, ds, hencode, hds⟩ := encode_of_isWide hwide
    rw [hencode]
    exact fun e he => isNewline_of_isWide (hds e he)
  | false =>
    rw [encode_of_not_isWide hwide]
    exact List.forall_mem_singleton.2 hc

theorem drop_add_length (hle : i ≤ bytes.length) (h : bytes.drop i = w ++ rest) :
    bytes.drop (i + w.length) = rest ∧ i + w.length ≤ bytes.length := by
  have hlength := congrArg List.length h
  rw [List.length_drop, List.length_append] at hlength
  refine ⟨?_, by omega⟩
  rw [← List.drop_drop, h, List.drop_left]

theorem getElem?_add (h : bytes.drop i = cs) (k : Nat) : bytes[i + k]? = cs[k]? := by
  rw [← h, List.getElem?_drop]

/-- A character other than a carriage return before a line feed ends a line alone. -/
theorem lineEnd_of_drop (h : bytes.drop i = c :: bytewise cs)
    (hcrlf : ∀ rest, c = '\r' → cs = '\n' :: rest → False) : lineEnd bytes i = i + 1 := by
  refine if_neg fun hends => ?_
  have hreturn : bytes[i]? = some c := getElem?_add h 0
  have hfeed : '\n' ∈ (bytewise cs).head? := by
    rw [List.head?_eq_getElem?]
    exact (getElem?_add h 1).symm.trans hends.2
  obtain ⟨d, hd, rfl | ⟨-, hwide⟩⟩ := head?_bytewise hfeed
  · obtain ⟨rest, hcs⟩ := List.head?_eq_some_iff.1 hd
    exact hcrlf rest (Option.some.inj (hreturn.symm.trans hends.1)) hcs
  · exact absurd hwide (by decide)

/-- The machine finds where the lines end. -/
theorem run_lineLoop (hsmall : bytes.length < 2 ^ 32) (hle : i ≤ bytes.length)
    (h : bytes.drop i = bytewise cs) : (lineTurn bytes).loop (i, starts) s =
      some (.ok ((bytes.length, starts ++ lineEnds i cs), s)) := by
  fun_induction lineEnds i cs generalizing starts with
  | case1 i =>
    have hend : i = bytes.length := Nat.le_antisymm hle (List.drop_eq_nil_iff.1 h)
    rw [List.append_nil, ← hend]
    apply Turn.loop_of_none
    rw [lineTurn, if_neg (by omega)]
    rfl
  | case2 i cs ih =>
    have h : bytes.drop i = ['\r', '\n'] ++ bytewise cs := by
      rw [h, bytewise_cons_of_ne (by decide), bytewise_cons_of_ne (by decide)]
      rfl
    obtain ⟨hdrop, hlast⟩ := drop_add_length hle h
    have hreturn : bytes[i]? = some '\r' := getElem?_add h 0
    have hfeed : bytes[i + 1]? = some '\n' := getElem?_add h 1
    have hnext : lineEnd bytes i = i + 2 := if_pos ⟨hreturn, hfeed⟩
    have hlt : i + 2 < 2 ^ 32 := Nat.lt_of_le_of_lt hlast hsmall
    rw [Turn.loop_of_some (run_lineTurn (by decide) hreturn hnext hlt), ih hlast hdrop,
      List.append_assoc]
    rfl
  | @case3 i c cs hcrlf next hnewline ih =>
    have hclass : CharClass.ofChar c ≠ .identifier := by
      rcases isNewline_iff.1 hnewline with rfl | rfl | rfl <;> decide
    have hone : i + 1 = next := by rw [← utf8Size_of_newline hnewline]
    rw [bytewise_cons_of_ne hclass] at h
    obtain ⟨hdrop, hlast⟩ := drop_add_length (w := [c]) hle h
    rw [List.length_singleton, hone] at hdrop hlast
    have hget : bytes[i]? = some c := getElem?_add h 0
    have hnext : lineEnd bytes i = next := (lineEnd_of_drop h hcrlf).trans hone
    rw [Turn.loop_of_some (run_lineTurn hnewline hget hnext (Nat.lt_of_le_of_lt hlast hsmall)),
      ih hlast hdrop, List.append_assoc]
    rfl
  | @case4 i c cs hcrlf next hnewline ih =>
    have hnewline : isNewline c = false := by simpa using hnewline
    rw [bytewise_cons] at h
    obtain ⟨hdrop, hlast⟩ := drop_add_length hle h
    have hnext : i + ((String.utf8EncodeChar c).map byteChar).length = next := by
      rw [List.length_map, String.length_utf8EncodeChar]
    rw [hnext] at hdrop hlast
    rw [loop_lineTurn (isNewline_of_mem_encode hnewline) h, hnext, ih hlast hdrop]

/-- **The machine makes the line table of a text.** -/
theorem run_lineTable {text : String} (hsmall : Text.byteLength text.toList < 2 ^ 32)
    (options : ParseOptions) : lineTable text options s =
      some (.ok (.ofText text (originOf text.toList) options.line options.column, s)) := by
  obtain ⟨mark, hmark, horigin⟩ := exists_mark text.toList
  have hlength := length_byteChars text
  have hbytes : Text.byteChars text = bytewise mark ++ bytewise (withoutMark text.toList) := by
    rw [byteChars_eq, ← bytewise_append, ← hmark]
  have hdrop : (Text.byteChars text).drop (originOf text.toList) =
      bytewise (withoutMark text.toList) := by
    rw [hbytes, ← horigin, List.drop_left' (length_bytewise mark)]
  have hle : originOf text.toList ≤ (Text.byteChars text).length := by
    rw [hbytes, List.length_append, length_bytewise, horigin]
    exact Nat.le_add_right ..
  have hstarts : (LineTable.ofText text (originOf text.toList) options.line
      options.column).laterStarts = lineEnds (originOf text.toList) (withoutMark text.toList) := by
    have hcut := cutBytes_append mark (withoutMark text.toList)
    rw [← hmark, horigin] at hcut
    rw [LineTable.ofText, hcut.1, hcut.2, horigin]
  rw [lineTable, run_bind, run_lineLoop (hlength ▸ hsmall) hle hdrop, List.nil_append, ← hstarts]
  rfl

/-- The extensions are reported where they are. -/
theorem run_report {p : Source} (h : p.Fits) {extensions : List Extension}
    (hle : ∀ extension ∈ extensions, extension.offset ≤ Text.byteLength p.text.toList) :
    report p extensions s = some (.ok (extensions.map fun extension =>
      .accepted extension.kind (p.lines.location extension.offset), s)) := by
  unfold report
  induction extensions with
  | nil => rfl
  | cons extension extensions ih =>
    have hrest := ih fun other hother => hle other (.tail _ hother)
    rw [List.mapM_cons, run_bind, run_bind, Machine.run_location h (hle _ (.head _))]
    simp only [run_pure, run_bind, hrest, List.map_cons]

end
end Scanner
end StyleTree
