import StyleTree.Proofs.Grammar.Joins
import StyleTree.Proofs.Grammar.Leaf

/-! Names with a namespace as runs of tokens. A name is a stem, a bar with another stem, and a colon
with a name, each with a look at what stands next: `ReadsSuffix`, `ReadsTail` and `ReadsQualified`
are the runs that `nameEnd`, `nameFrom` and `qualifiedName` read, one constructor for each way
through the reader (`qualifiedName_eq_ok`). Of what follows, only its first tokens count
(`EndsQualified`). -/

namespace StyleTree.Grammar

open StyleTree.Parser

variable {colon : Bool} {front front' rest rest' : List Token} {s s₁ s' : ParserState}
  {info : Option Nat} {name : String} {tree : Tree}

/-- The tokens stand before those that are left, and nothing is noted. -/
structure Passes (s : ParserState) (front : List Token) (s' : ParserState) : Prop where
  rest : s.rest = front ++ s'.rest
  discarded : s'.discarded = s.discarded

theorem Passes.append (h₁ : Passes s front s₁) (h₂ : Passes s₁ front' s') :
    Passes s (front ++ front') s' :=
  ⟨by rw [h₁.rest, h₂.rest, List.append_assoc], h₂.discarded.trans h₁.discarded⟩

theorem Passes.text_ne (h : Passes s front s') (hne : ∀ token ∈ s.rest, token.text ≠ "") :
    ∀ token ∈ s'.rest, token.text ≠ "" :=
  fun token hmem => hne token (h.rest ▸ List.mem_append_right _ hmem)

theorem passes_nil : Passes s [] s' ↔ s' = s := by
  constructor
  · rintro ⟨hs, hd⟩
    cases s
    cases s'
    simp_all
  · rintro rfl
    exact ⟨rfl, rfl⟩

theorem readName_passes (hne : ∀ token ∈ s.rest, token.text ≠ "") :
    readName false s = .ok name s' ↔ ∃ front, Passes s front s' ∧
      name = Text.concat (front.map Token.text) ∧ IsName false front ∧ EndsName s'.rest := by
  rw [readName_eq_ok hne]
  constructor
  · rintro ⟨front, hs, hd, h⟩
    exact ⟨front, ⟨hs, hd⟩, h⟩
  · rintro ⟨front, ⟨hs, hd⟩, h⟩
    exact ⟨front, hs, hd, h⟩

/-! ## Colons -/

/-- The tokens of a colon and a name that belong to a name, or none, before the others. -/
inductive ReadsSuffix (colon : Bool) : List Token → List Token → Prop
  | none {rest : List Token} : (colon = true → NotAt .colon rest) → ReadsSuffix colon [] rest
  | name {sign : Token} {tokens rest : List Token} : colon = true → sign.kind = .colon →
    IsName false tokens → EndsName rest → ReadsSuffix colon (sign :: tokens) rest

theorem nameEnd_eq_ok (hne : ∀ token ∈ s.rest, token.text ≠ "") :
    nameEnd info name colon s = .ok tree s' ↔ ∃ front, Passes s front s' ∧
      tree = .leaf info .identifier (name ++ Text.concat (front.map Token.text)) ∧
      ReadsSuffix colon front s'.rest := by
  have hnone : ¬(colon = true ∧ s.rest.head?.map Token.kind = some .colon) →
      nameEnd info name colon s = .ok (.leaf info .identifier name) s := by
    intro hnot
    have hcond : (colon && decide (s.rest.head?.map Token.kind = some .colon)) = false := by
      simpa [Bool.and_eq_false_iff] using hnot
    simp only [nameEnd, isAt_bind_run, hcond, Bool.false_eq_true, if_false, run_pure,
      String.append_empty]
  have hsign : ∀ {sign rest}, s.rest = sign :: rest → sign.kind = .colon → colon = true →
      nameEnd info name colon s = (readName false >>= fun tokens =>
        pure (.leaf info .identifier (name ++ (sign.text ++ tokens)))) { s with rest } := by
    rintro sign rest hs hk rfl
    simp only [nameEnd, isAt_bind_run, hs, List.head?_cons, Option.map_some, hk, decide_true,
      Bool.and_true, if_true, take_bind_run, Option.getD_some, List.tail_cons]
  constructor
  · intro h
    by_cases hcolon : colon = true ∧ s.rest.head?.map Token.kind = some .colon
    · obtain ⟨hcolon, hhead⟩ := hcolon
      obtain ⟨sign, hmem, hk⟩ := Option.map_eq_some_iff.1 hhead
      obtain ⟨rest, hs⟩ := List.head?_eq_some_iff.1 hmem
      have hpass₁ : Passes s [sign] { s with rest } := ⟨hs, rfl⟩
      rw [hsign hs hk hcolon, bind_eq_ok] at h
      obtain ⟨_, s₁, hread, h⟩ := h
      obtain ⟨rfl, rfl⟩ := EStateM.Result.ok.inj h
      obtain ⟨tokens, hpass, rfl, hisName, hends⟩ := (readName_passes (hpass₁.text_ne hne)).1 hread
      exact ⟨_, hpass₁.append hpass, by simp [concat_cons], .name hcolon hk hisName hends⟩
    · obtain ⟨rfl, rfl⟩ := EStateM.Result.ok.inj ((hnone hcolon).symm.trans h)
      exact ⟨[], passes_nil.2 rfl, by simp [Text.concat], .none fun hc hhead => hcolon ⟨hc, hhead⟩⟩
  · rintro ⟨front, hpass, rfl, hreads⟩
    cases hreads with
    | none hnot =>
      obtain rfl := passes_nil.1 hpass
      rw [hnone fun h => hnot h.1 h.2]
      simp [Text.concat]
    | @name sign tokens _ hcolon hk hisName hends =>
      have hpass₁ : Passes s [sign] { s with rest := tokens ++ s'.rest } := ⟨hpass.rest, rfl⟩
      rw [hsign hpass.rest hk hcolon, bind_eq_ok]
      exact ⟨_, s', (readName_passes (hpass₁.text_ne hne)).2 ⟨tokens, ⟨rfl, hpass.discarded⟩, rfl,
        hisName, hends⟩, by simp [concat_cons]⟩

/-! ## Bars -/

/-- The token starts what stands for a name in a namespace. -/
def startsMember (token : Token) : Bool :=
  match token.kind with
  | .hyphenMinus | .ident | .lowLine | .asterisk => true
  | _ => false

/-- The tokens that are read after a bar: a name, a star or nothing, and the suffix. -/
inductive ReadsMember (colon : Bool) : List Token → List Token → Prop
  | none {front rest : List Token} : (∀ token ∈ (front ++ rest).head?, startsMember token = false) →
    ReadsSuffix colon front rest → ReadsMember colon front rest
  | star {star : Token} {front rest : List Token} :
    star.kind = .asterisk → ReadsSuffix false front rest →
    ReadsMember colon (star :: front) rest
  | name {tokens front rest : List Token} : IsName false tokens → EndsName (front ++ rest) →
    ReadsSuffix colon front rest → ReadsMember colon (tokens ++ front) rest

theorem IsName.starts {tokens : List Token} (h : IsName false tokens) :
    ∃ first more, tokens = first :: more ∧
    (first.kind = .hyphenMinus ∨ first.kind = .ident ∨ first.kind = .lowLine) := by
  obtain ⟨hyphens, first, more, rfl, -, hhyphens, hfirst, -⟩ := h
  cases hyphens with
  | nil => exact ⟨first, more, rfl, .inr hfirst.symm⟩
  | cons hyphen hyphens => exact ⟨hyphen, _, rfl, .inl (hhyphens hyphen (.head _))⟩

theorem nameAfterBar_eq_ok {base bar : String} (hne : ∀ token ∈ s.rest, token.text ≠ "") :
    nameAfterBar info colon base bar s = .ok tree s' ↔ ∃ front, Passes s front s' ∧
      tree = .leaf info .identifier (base ++ (bar ++ Text.concat (front.map Token.text))) ∧
      ReadsMember colon front s'.rest := by
  have hnone : (∀ token ∈ s.rest.head?, startsMember token = false) →
      nameAfterBar info colon base bar s = nameEnd info (base ++ bar) colon s := by
    intro hstarts
    rw [nameAfterBar, kind?_bind_run]
    cases hs : s.rest with
    | nil => rfl
    | cons token rest =>
      have hk := hstarts token (by rw [hs]; rfl)
      rw [startsMember] at hk
      rw [List.head?_cons, Option.map_some]
      cases hkind : token.kind <;> first | rfl | simp [hkind] at hk
  have hstar : ∀ {star rest}, s.rest = star :: rest → star.kind = .asterisk →
      nameAfterBar info colon base bar s =
      nameEnd info (base ++ (bar ++ star.text)) false { s with rest } := by
    intro star rest hs hk
    simp only [nameAfterBar, kind?_bind_run, hs, List.head?_cons, Option.map_some, hk,
      take_bind_run, Option.getD_some, List.tail_cons]
  have hname : ∀ {first rest}, s.rest = first :: rest →
      (first.kind = .hyphenMinus ∨ first.kind = .ident ∨ first.kind = .lowLine) →
      nameAfterBar info colon base bar s =
        (readName false >>= fun name => nameEnd info (base ++ (bar ++ name)) colon) s := by
    intro first rest hs hk
    rw [nameAfterBar, kind?_bind_run, hs]
    rcases hk with hk | hk | hk <;> rw [List.head?_cons, Option.map_some, hk]
  constructor
  · intro h
    by_cases hstarts : ∀ token ∈ s.rest.head?, startsMember token = false
    · rw [hnone hstarts] at h
      obtain ⟨front, hpass, rfl, hreads⟩ := (nameEnd_eq_ok hne).1 h
      exact ⟨front, hpass, by rw [String.append_assoc], .none (hpass.rest ▸ hstarts) hreads⟩
    simp only [not_forall, Bool.not_eq_false] at hstarts
    obtain ⟨first, hmem, hstarts⟩ := hstarts
    obtain ⟨rest, hs⟩ := List.head?_eq_some_iff.1 hmem
    by_cases hk : first.kind = .asterisk
    · have hpass₁ : Passes s [first] { s with rest } := ⟨hs, rfl⟩
      rw [hstar hs hk] at h
      obtain ⟨front, hpass, rfl, hreads⟩ := (nameEnd_eq_ok (hpass₁.text_ne hne)).1 h
      exact ⟨_, hpass₁.append hpass, by simp [concat_cons, String.append_assoc], .star hk hreads⟩
    · have hfirst : first.kind = .hyphenMinus ∨ first.kind = .ident ∨ first.kind = .lowLine := by
        rw [startsMember] at hstarts
        cases hkind : first.kind <;> simp_all
      rw [hname hs hfirst, bind_eq_ok] at h
      obtain ⟨_, s₁, hread, h⟩ := h
      obtain ⟨tokens, hpass₁, rfl, hisName, hends⟩ := (readName_passes hne).1 hread
      obtain ⟨front, hpass, rfl, hreads⟩ := (nameEnd_eq_ok (hpass₁.text_ne hne)).1 h
      exact ⟨_, hpass₁.append hpass, by simp [concat_append, String.append_assoc],
        .name hisName (hpass.rest ▸ hends) hreads⟩
  · rintro ⟨front, hpass, rfl, hreads⟩
    cases hreads with
    | none hstarts hreads =>
      rw [hnone (hpass.rest ▸ hstarts)]
      exact (nameEnd_eq_ok hne).2 ⟨front, hpass, by rw [String.append_assoc], hreads⟩
    | @star star front _ hk hreads =>
      have hpass₁ : Passes s [star] { s with rest := front ++ s'.rest } := ⟨hpass.rest, rfl⟩
      rw [hstar hpass.rest hk]
      exact (nameEnd_eq_ok (hpass₁.text_ne hne)).2 ⟨front, ⟨rfl, hpass.discarded⟩,
        by simp [concat_cons, String.append_assoc], hreads⟩
    | @name tokens front _ hisName hends hreads =>
      have hs : s.rest = tokens ++ (front ++ s'.rest) := by rw [hpass.rest, List.append_assoc]
      have hpass₁ : Passes s tokens { s with rest := front ++ s'.rest } := ⟨hs, rfl⟩
      obtain ⟨first, more, rfl, hfirst⟩ := hisName.starts
      rw [hname hs hfirst, bind_eq_ok]
      exact ⟨_, _, (readName_passes hne).2 ⟨_, hpass₁, rfl, hisName, hends⟩,
        (nameEnd_eq_ok (hpass₁.text_ne hne)).2 ⟨front, ⟨rfl, hpass.discarded⟩,
          by simp [concat_append, concat_cons, String.append_assoc], hreads⟩⟩

/-- A bar stands next that is not the first sign of an operator. -/
def OpensTail (tokens : List Token) : Prop :=
  ∃ bar rest, tokens = bar :: rest ∧ bar.kind = .verticalLine ∧ NotAt .equals rest

/-- The tokens of a name after its stem. -/
inductive ReadsTail (colon : Bool) : List Token → List Token → Prop
  | none {front rest : List Token} : ¬OpensTail (front ++ rest) → ReadsSuffix colon front rest →
    ReadsTail colon front rest
  | bar {bar : Token} {front rest : List Token} : OpensTail (bar :: (front ++ rest)) →
    ReadsMember colon front rest → ReadsTail colon (bar :: front) rest

theorem nameFrom_eq_ok (hne : ∀ token ∈ s.rest, token.text ≠ "") :
    nameFrom info colon name s = .ok tree s' ↔ ∃ front, Passes s front s' ∧
      tree = .leaf info .identifier (name ++ Text.concat (front.map Token.text)) ∧
      ReadsTail colon front s'.rest := by
  have hnone : ¬OpensTail s.rest → nameFrom info colon name s = nameEnd info name colon s := by
    intro hopens
    have hbar : (decide (s.rest.head?.map Token.kind = some .verticalLine) &&
        !decide (s.rest[1]?.map Token.kind = some .equals)) = false := by
      cases hs : s.rest with
      | nil => rfl
      | cons bar rest =>
        refine Bool.eq_false_iff.2 fun hbar => hopens ?_
        simp only [List.head?_cons, Option.map_some, Option.some.injEq, Bool.and_eq_true,
          decide_eq_true_eq, Bool.not_eq_true', decide_eq_false_iff_not,
          List.getElem?_cons_succ] at hbar
        refine ⟨bar, rest, hs, hbar.1, ?_⟩
        rw [NotAt, List.head?_eq_getElem?]
        exact hbar.2
    simp only [nameFrom, isAt_bind_run, lookupKind_bind_run, hbar, Bool.false_eq_true, if_false,
      String.append_empty]
  have hbar : ∀ {bar rest}, s.rest = bar :: rest → bar.kind = .verticalLine → NotAt .equals rest →
      nameFrom info colon name s = nameAfterBar info colon name bar.text { s with rest } := by
    intro bar rest hs hk hnot
    have hnext : ¬rest[0]?.map Token.kind = some .equals := List.head?_eq_getElem? ▸ hnot
    simp only [nameFrom, isAt_bind_run, lookupKind_bind_run, hs, List.head?_cons, Option.map_some,
      hk, decide_true, List.getElem?_cons_succ, hnext, decide_false, Bool.not_false, Bool.and_true,
      if_true, take_bind_run, Option.getD_some, List.tail_cons]
    rfl
  constructor
  · intro h
    by_cases hopens : OpensTail s.rest
    · obtain ⟨bar, rest, hs, hk, hnot⟩ := hopens
      have hpass₁ : Passes s [bar] { s with rest } := ⟨hs, rfl⟩
      rw [hbar hs hk hnot] at h
      obtain ⟨front, hpass, rfl, hreads⟩ := (nameAfterBar_eq_ok (hpass₁.text_ne hne)).1 h
      refine ⟨_, hpass₁.append hpass, by simp [concat_cons], .bar ?_ hreads⟩
      exact ⟨bar, rest, congrArg (bar :: ·) hpass.rest.symm, hk, hnot⟩
    · rw [hnone hopens] at h
      obtain ⟨front, hpass, htree, hreads⟩ := (nameEnd_eq_ok hne).1 h
      exact ⟨front, hpass, htree, .none (hpass.rest ▸ hopens) hreads⟩
  · rintro ⟨front, hpass, rfl, hreads⟩
    cases hreads with
    | none hopens hreads =>
      rw [hnone (hpass.rest ▸ hopens)]
      exact (nameEnd_eq_ok hne).2 ⟨front, hpass, rfl, hreads⟩
    | @bar bar front _ hopens hreads =>
      have hpass₁ : Passes s [bar] { s with rest := front ++ s'.rest } := ⟨hpass.rest, rfl⟩
      obtain ⟨_, _, heq, hk, hnot⟩ := hopens
      obtain ⟨rfl, rfl⟩ := List.cons.inj heq
      rw [hbar hpass.rest hk hnot]
      exact (nameAfterBar_eq_ok (hpass₁.text_ne hne)).2 ⟨front, ⟨rfl, hpass.discarded⟩,
        by simp [concat_cons], hreads⟩

/-! ## Whole names -/

/-- The tokens of a name with an optional namespace. -/
inductive ReadsQualified (colon : Bool) : List Token → List Token → Prop
  | star {star : Token} {front rest : List Token} :
    star.kind = .asterisk → ReadsTail false front rest →
    ReadsQualified colon (star :: front) rest
  | bar {front rest : List Token} : OpensTail (front ++ rest) → ReadsTail colon front rest →
    ReadsQualified colon front rest
  | name {tokens front rest : List Token} : IsName false tokens → EndsName (front ++ rest) →
    ReadsTail colon front rest → ReadsQualified colon (tokens ++ front) rest

theorem qualifiedName_eq_ok (hne : ∀ token ∈ s.rest, token.text ≠ "") :
    qualifiedName colon s = .ok tree s' ↔ ∃ front, Passes s front s' ∧
      tree = .leaf (s.rest.head?.map Token.start) .identifier (Text.concat (front.map Token.text)) ∧
      ReadsQualified colon front s'.rest := by
  have hstar : ∀ {star rest}, s.rest = star :: rest → star.kind = .asterisk →
      qualifiedName colon s =
      nameFrom (s.rest.head?.map Token.start) false star.text { s with rest } := by
    intro star rest hs hk
    rw [qualifiedName_eq colon hs, if_pos hk, take_bind_run, hs]
    simp [hk]
  have hbar : OpensTail s.rest → qualifiedName colon s =
      nameFrom (s.rest.head?.map Token.start) colon "" s := by
    rintro ⟨bar, rest, hs, hk, hnot⟩
    have hnext : decide (rest.head?.map Token.kind = some .equals) = false := decide_eq_false hnot
    have hcond : (decide (bar.kind = .verticalLine) &&
        !decide (rest.head?.map Token.kind = some .equals)) = true := by
      rw [hnext, hk]
      rfl
    rw [qualifiedName_eq colon hs, if_neg (by simp [hk]), if_pos hcond, hs]
    simp [hk]
  have hname : ∀ {first rest}, s.rest = first :: rest → first.kind ≠ .asterisk → ¬OpensTail s.rest →
      qualifiedName colon s =
        (readName false >>= nameFrom (s.rest.head?.map Token.start) colon) s := by
    intro first rest hs hk hopens
    have hbar : (decide (first.kind = .verticalLine) &&
        !decide (rest.head?.map Token.kind = some .equals)) = false := by
      refine Bool.eq_false_iff.2 fun hbar => hopens ?_
      simp only [Bool.and_eq_true, decide_eq_true_eq, Bool.not_eq_true',
        decide_eq_false_iff_not] at hbar
      exact ⟨first, rest, hs, hbar⟩
    rw [qualifiedName_eq colon hs, if_neg hk, if_neg (Bool.eq_false_iff.1 hbar), hs]
    simp [hk]
  constructor
  · intro h
    obtain ⟨first, rest, hs⟩ : ∃ first rest, s.rest = first :: rest := by
      refine List.exists_cons_of_ne_nil fun hs => ?_
      rw [qualifiedName, current?_bind_run, hs] at h
      exact fail_ne_ok.1 h
    by_cases hk : first.kind = .asterisk
    · have hpass₁ : Passes s [first] { s with rest } := ⟨hs, rfl⟩
      rw [hstar hs hk] at h
      obtain ⟨front, hpass, rfl, hreads⟩ := (nameFrom_eq_ok (hpass₁.text_ne hne)).1 h
      exact ⟨_, hpass₁.append hpass, by simp [concat_cons], .star hk hreads⟩
    by_cases hopens : OpensTail s.rest
    · rw [hbar hopens] at h
      obtain ⟨front, hpass, rfl, hreads⟩ := (nameFrom_eq_ok hne).1 h
      exact ⟨front, hpass, by simp, .bar (hpass.rest ▸ hopens) hreads⟩
    · rw [hname hs hk hopens, bind_eq_ok] at h
      obtain ⟨_, s₁, hread, h⟩ := h
      obtain ⟨tokens, hpass₁, rfl, hisName, hends⟩ := (readName_passes hne).1 hread
      obtain ⟨front, hpass, rfl, hreads⟩ := (nameFrom_eq_ok (hpass₁.text_ne hne)).1 h
      exact ⟨_, hpass₁.append hpass, by simp [concat_append],
        .name hisName (hpass.rest ▸ hends) hreads⟩
  · rintro ⟨front, hpass, rfl, hreads⟩
    cases hreads with
    | @star star front _ hk hreads =>
      have hpass₁ : Passes s [star] { s with rest := front ++ s'.rest } := ⟨hpass.rest, rfl⟩
      rw [hstar hpass.rest hk]
      exact (nameFrom_eq_ok (hpass₁.text_ne hne)).2
        ⟨front, ⟨rfl, hpass.discarded⟩, by simp [concat_cons], hreads⟩
    | bar hopens hreads =>
      rw [hbar (hpass.rest ▸ hopens)]
      exact (nameFrom_eq_ok hne).2 ⟨front, hpass, by simp, hreads⟩
    | @name tokens front _ hisName hends hreads =>
      have hs : s.rest = tokens ++ (front ++ s'.rest) := by rw [hpass.rest, List.append_assoc]
      have hpass₁ : Passes s tokens { s with rest := front ++ s'.rest } := ⟨hs, rfl⟩
      obtain ⟨first, more, rfl, hfirst⟩ := hisName.starts
      have hk : first.kind ≠ .asterisk := by rcases hfirst with hk | hk | hk <;> simp [hk]
      have hopens : ¬OpensTail s.rest := by
        rintro ⟨bar, rest, hs', hk', -⟩
        obtain ⟨rfl, -⟩ := List.cons.inj (hs.symm.trans hs')
        rcases hfirst with hk | hk | hk <;> cases hk'.symm.trans hk
      rw [hname hs hk hopens, bind_eq_ok]
      exact ⟨_, _, (readName_passes hne).2 ⟨_, hpass₁, rfl, hisName, hends⟩,
        (nameFrom_eq_ok (hpass₁.text_ne hne)).2 ⟨front, ⟨rfl, hpass.discarded⟩,
          by simp [concat_append, concat_cons, String.append_assoc], hreads⟩⟩

/-! ## Names before other tokens -/

/-- The last token is a bar. -/
def EndsWithBar (tokens : List Token) : Prop :=
  ∃ before bar, tokens = before ++ [bar] ∧ bar.kind = .verticalLine

/-- No name goes on after a bar, and the bar is not the first sign of an operator. -/
def EndsBar (tokens : List Token) : Prop :=
  ∀ token ∈ tokens.head?, startsMember token = false ∧ token.kind ≠ .equals

/-- What is seen after the tokens of a name is also seen in the other tokens. -/
structure CanFollow (colon : Bool) (front rest rest' : List Token) : Prop where
  name : EndsName rest → EndsName rest'
  colon : colon = true → NotAt .colon rest'
  opens : OpensTail rest' → OpensTail rest
  bar : EndsWithBar front → EndsBar rest → EndsBar rest'

theorem EndsWithBar.append {tokens : List Token} (h : EndsWithBar front) :
    EndsWithBar (tokens ++ front) := by
  obtain ⟨before, bar, rfl, hk⟩ := h
  exact ⟨tokens ++ before, bar, (List.append_assoc ..).symm, hk⟩

theorem CanFollow.drop {tokens : List Token} (h : CanFollow colon (tokens ++ front) rest rest') :
    CanFollow colon front rest rest' :=
  ⟨h.name, h.colon, h.opens, fun hbar => h.bar hbar.append⟩

theorem CanFollow.tail {token : Token} (h : CanFollow colon (token :: front) rest rest') :
    CanFollow colon front rest rest' :=
  @CanFollow.drop _ _ _ _ [token] h

theorem CanFollow.noColon (h : CanFollow colon front rest rest') :
    CanFollow false front rest rest' :=
  ⟨h.name, nofun, h.opens, h.bar⟩

/-- The kind of the first token counts only where there is no token before it. -/
theorem forall_head?_append {P : TokenKind → Prop}
    (hcore : front'.map Token.core = front.map Token.core)
    (hrest : front = [] → (∀ token ∈ rest.head?, P token.kind) →
      ∀ token ∈ rest'.head?, P token.kind)
    (h : ∀ token ∈ (front ++ rest).head?, P token.kind) :
    ∀ token ∈ (front' ++ rest').head?, P token.kind := by
  cases front with
  | nil =>
    obtain rfl : front' = [] := List.map_eq_nil_iff.1 hcore
    exact hrest rfl h
  | cons first more =>
    obtain ⟨first', more', rfl, hfirst, -⟩ := List.map_eq_cons_iff.1 hcore
    intro token hmem
    obtain rfl : first' = token := Option.some.inj hmem
    rw [Token.kind_eq_of_core hfirst]
    exact h first rfl

theorem notAt_iff {kind : TokenKind} {tokens : List Token} :
    NotAt kind tokens ↔ ∀ token ∈ tokens.head?, token.kind ≠ kind := by
  cases tokens <;> simp [NotAt]

theorem EndsName.append (hcore : front'.map Token.core = front.map Token.core)
    (hrest : EndsName rest → EndsName rest') (h : EndsName (front ++ rest)) :
    EndsName (front' ++ rest') :=
  forall_head?_append (P := fun kind => isNamePart ⟨kind, "", 0⟩ = false) hcore (fun _ => hrest) h

theorem ReadsSuffix.before (h : ReadsSuffix colon front rest)
    (hcore : front'.map Token.core = front.map Token.core)
    (hfollow : CanFollow colon front rest rest') :
    ReadsSuffix colon front' rest' := by
  cases h with
  | none =>
    obtain rfl : front' = [] := List.map_eq_nil_iff.1 hcore
    exact .none hfollow.colon
  | name hcolon hk hname hends =>
    obtain ⟨sign', tokens', rfl, hsign, htokens⟩ := List.map_eq_cons_iff.1 hcore
    exact .name hcolon ((Token.kind_eq_of_core hsign).trans hk) (hname.congr htokens)
      (hfollow.name hends)

theorem ReadsMember.before (h : ReadsMember colon front rest)
    (hcore : front'.map Token.core = front.map Token.core)
    (hfollow : CanFollow colon front rest rest')
    (hbar : front = [] → (∀ token ∈ rest.head?, startsMember token = false) →
      ∀ token ∈ rest'.head?, startsMember token = false) : ReadsMember colon front' rest' := by
  cases h with
  | none hstarts hreads =>
    refine .none ?_ (hreads.before hcore hfollow)
    exact forall_head?_append (P := fun kind => startsMember ⟨kind, "", 0⟩ = false) hcore
      hbar hstarts
  | @star star front _ hk hreads =>
    obtain ⟨star', front', rfl, hstar, hfront⟩ := List.map_eq_cons_iff.1 hcore
    exact .star ((Token.kind_eq_of_core hstar).trans hk)
      (hreads.before hfront hfollow.tail.noColon)
  | name hname hends hreads =>
    rw [List.map_append] at hcore
    obtain ⟨tokens', front', rfl, htokens, hfront⟩ := List.map_eq_append_iff.1 hcore
    exact .name (hname.congr htokens) (hends.append hfront hfollow.name)
      (hreads.before hfront hfollow.drop)

theorem ReadsSuffix.opensTail (h : ReadsSuffix colon front rest)
    (hopens : OpensTail (front ++ rest)) :
    front = [] := by
  cases h with
  | none => rfl
  | name _ hk =>
    obtain ⟨bar, _, heq, hbar, -⟩ := hopens
    obtain ⟨rfl, -⟩ := List.cons.inj heq
    exact nomatch hk.symm.trans hbar

theorem ReadsMember.of_nil (h : ReadsMember colon front rest) (hfront : front = []) :
    ∀ token ∈ rest.head?, startsMember token = false := by
  cases h with
  | none hstarts =>
    subst hfront
    exact hstarts
  | star => cases hfront
  | name hname => exact absurd (List.append_eq_nil_iff.1 hfront).1 hname.ne_nil

theorem opensTail_cons {bar : Token} :
    OpensTail (bar :: rest) ↔ bar.kind = .verticalLine ∧ NotAt .equals rest := by
  constructor
  · rintro ⟨_, _, heq, h⟩
    obtain ⟨rfl, rfl⟩ := List.cons.inj heq
    exact h
  · exact fun h => ⟨bar, rest, rfl, h⟩

theorem ReadsTail.before (h : ReadsTail colon front rest)
    (hcore : front'.map Token.core = front.map Token.core)
    (hfollow : CanFollow colon front rest rest') :
    ReadsTail colon front' rest' ∧ (OpensTail (front ++ rest) → OpensTail (front' ++ rest')) := by
  cases h with
  | none hnot hreads =>
    have hreads' := hreads.before hcore hfollow
    refine ⟨.none (fun hopens => ?_) hreads', fun hopens => absurd hopens hnot⟩
    obtain rfl := hreads'.opensTail hopens
    obtain rfl : front = [] := List.map_eq_nil_iff.1 hcore.symm
    exact hnot (hfollow.opens hopens)
  | @bar bar front _ hopens hreads =>
    obtain ⟨bar', front', rfl, hbar', hfront⟩ := List.map_eq_cons_iff.1 hcore
    obtain ⟨hk, hnot⟩ := opensTail_cons.1 hopens
    -- Where nothing is read after the bar, the bar is the last token of the name.
    have hends : front = [] → (∀ token ∈ rest.head?, token.kind ≠ .equals) → EndsBar rest' := by
      rintro hnil hequals
      refine hfollow.bar ⟨[], bar, by rw [hnil]; rfl, hk⟩ fun token hmem => ?_
      exact ⟨hreads.of_nil hnil token hmem, hequals token hmem⟩
    have hopens' : OpensTail (bar' :: (front' ++ rest')) := by
      refine opensTail_cons.2 ⟨(Token.kind_eq_of_core hbar').trans hk, notAt_iff.2 ?_⟩
      exact forall_head?_append (P := fun kind => kind ≠ .equals) hfront
        (fun hnil hequals token hmem => (hends hnil hequals token hmem).2) (notAt_iff.1 hnot)
    refine ⟨.bar hopens' (hreads.before hfront hfollow.tail ?_), fun _ => hopens'⟩
    intro hnil _ token hmem
    have hequals : ∀ token ∈ rest.head?, token.kind ≠ .equals := by
      rw [hnil] at hnot
      exact notAt_iff.1 hnot
    exact (hends hnil hequals token hmem).1

/-- A name is read again before other tokens that can follow it. -/
theorem ReadsQualified.before (h : ReadsQualified colon front rest)
    (hcore : front'.map Token.core = front.map Token.core)
    (hfollow : CanFollow colon front rest rest') :
    ReadsQualified colon front' rest' := by
  cases h with
  | @star star front _ hk hreads =>
    obtain ⟨star', front', rfl, hstar, hfront⟩ := List.map_eq_cons_iff.1 hcore
    exact .star ((Token.kind_eq_of_core hstar).trans hk)
      (hreads.before hfront hfollow.tail.noColon).1
  | bar hopens hreads =>
    obtain ⟨hreads', hopens'⟩ := hreads.before hcore hfollow
    exact .bar (hopens' hopens) hreads'
  | name hname hends hreads =>
    rw [List.map_append] at hcore
    obtain ⟨tokens', front', rfl, htokens, hfront⟩ := List.map_eq_append_iff.1 hcore
    exact .name (hname.congr htokens) (hends.append hfront hfollow.name)
      (hreads.before hfront hfollow.drop).1

/-- A bar at the front of a name is no sign of an operator. -/
theorem opensTail_of_qualifiedName {bar : Token} (h : qualifiedName colon s = .ok tree s')
    (hs : s.rest = bar :: rest) (hk : bar.kind = .verticalLine) : OpensTail s.rest := by
  by_contra hopens
  have hnext : decide (rest.head?.map Token.kind = some .equals) = true := by
    refine decide_eq_true (Decidable.not_not.1 fun hnext => hopens ?_)
    exact ⟨bar, rest, hs, hk, hnext⟩
  rw [qualifiedName_eq colon hs, hnext, if_neg (by simp [hk]), if_neg (by simp)] at h
  obtain ⟨_, _, hname, -⟩ := bind_eq_ok.1 h
  simp [readName, takeIf_eq, bind_eq_ok, hs, hk] at hname

/-- What a part of a selector can start with: neither a parenthesis, nor a bar that is a sign of an
operator. -/
structure StartsPart (tokens : List Token) : Prop where
  noParen : NotAt .leftParen tokens
  noTest : NotAt .verticalLine tokens ∨ OpensTail tokens

theorem EndsName.of_nextLike (h : EndsName rest) (hnext : NextLike rest rest') :
    EndsName rest' := by
  have key :=
    hnext.forall_kind (P := fun kind => isNamePart ⟨kind, "", 0⟩ = false) (fun kind hk => ?_)
    fun token hmem => h token hmem
  · exact fun token hmem => key token hmem
  · cases kind <;> first | rfl | exact nomatch hk

/-- Between the parts of a selector, what looks alike can follow a name. -/
theorem canFollow_of_nextLike (hstarts : StartsPart rest) (hnext : NextLike rest rest') :
    CanFollow false front rest rest' where
  name hends := hends.of_nextLike hnext
  colon := nofun
  opens := by
    rintro ⟨bar, more, rfl, hk, -⟩
    refine hstarts.noTest.resolve_left fun hnot => ?_
    exact hnot.of_nextLike rfl hnext (by rw [List.head?_cons, Option.map_some, hk])
  bar _ hends := by
    refine hnext.forall_kind (P := fun kind => startsMember ⟨kind, "", 0⟩ = false ∧ kind ≠ .equals)
      (fun kind hk => ?_) hends
    cases kind <;> first | exact ⟨rfl, by decide⟩ | exact nomatch hk

/-! ## The tokens of names -/

theorem IsName.words {custom : Bool} {tokens : List Token} (h : IsName custom tokens) :
    ∀ token ∈ tokens, token.kind.isWord = true := by
  intro token hmem
  rcases h.kinds token hmem with hk | hk | hk | hk <;> rw [hk] <;> rfl

theorem ReadsSuffix.words (h : ReadsSuffix colon front rest) :
    ∀ token ∈ front, token.kind.isWord = true := by
  cases h with
  | none => exact nofun
  | name _ hk hname => exact List.forall_mem_cons.2 ⟨by rw [hk]; rfl, hname.words⟩

theorem ReadsMember.words (h : ReadsMember colon front rest) :
    ∀ token ∈ front, token.kind.isWord = true := by
  cases h with
  | none _ hreads => exact hreads.words
  | star hk hreads => exact List.forall_mem_cons.2 ⟨by rw [hk]; rfl, hreads.words⟩
  | name hname _ hreads => exact List.forall_mem_append.2 ⟨hname.words, hreads.words⟩

theorem ReadsTail.words (h : ReadsTail colon front rest) :
    ∀ token ∈ front, token.kind.isWord = true := by
  cases h with
  | none _ hreads => exact hreads.words
  | bar hopens hreads =>
    exact List.forall_mem_cons.2 ⟨by rw [(opensTail_cons.1 hopens).1]; rfl, hreads.words⟩

theorem ReadsQualified.words (h : ReadsQualified colon front rest) :
    ∀ token ∈ front, token.kind.isWord = true := by
  cases h with
  | star hk hreads => exact List.forall_mem_cons.2 ⟨by rw [hk]; rfl, hreads.words⟩
  | bar _ hreads => exact hreads.words
  | name hname _ hreads => exact List.forall_mem_append.2 ⟨hname.words, hreads.words⟩

theorem ReadsQualified.ne_nil (h : ReadsQualified colon front rest) : front ≠ [] := by
  cases h with
  | star => exact List.cons_ne_nil _ _
  | bar hopens hreads =>
    cases hreads with
    | none hnot => exact absurd hopens hnot
    | bar => exact List.cons_ne_nil _ _
  | name hname => exact List.append_ne_nil_of_left_ne_nil hname.ne_nil _

end StyleTree.Grammar
