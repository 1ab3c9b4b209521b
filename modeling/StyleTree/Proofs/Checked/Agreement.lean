import StyleTree.Proofs.Checked.Rule
import StyleTree.Proofs.Grammar.ProgressRule
import StyleTree.Proofs.Parse.Positions

/-! The machine does what the readers do. `Agrees` says, of a place in the text, that the machine
has a value there: the one that corresponds to what the reader yields, with the machine at the
corresponding place, or the refusal that words the failure of the reader. So none of its slices,
differences and indices is out of bounds, and it ends. The lemmas follow the ways to put readers
together; what only looks is rewritten on each side on its own. -/

namespace StyleTree

open StyleTree.Parser

/-! ## Corresponding values and places -/

/-- A token as a range. -/
def Token.span (token : Token) : Span :=
  ⟨token.kind, token.start, token.stop⟩

/-- A token of which the front is cut off. -/
def Token.behind (token : Token) (front back : List Char) : Token :=
  { token with text := String.ofList back, start := token.start + Text.byteLength front }

@[simp] theorem Token.span_kind (token : Token) : token.span.kind = token.kind := rfl

@[simp] theorem Token.span_start (token : Token) : token.span.start = token.start := rfl

@[simp] theorem Token.span_stop (token : Token) : token.span.stop = token.stop := rfl

namespace Source

variable (p : Source)

/-- The position of a node that starts at an offset. -/
def info (offset : Nat) : Option SourceInfo :=
  p.options.sourceInfo p.lines offset

/-- A tree at its source positions. -/
def tree : Tree → Node SourceInfo :=
  Node.mapInfo p.info

/-- The node is the tree at its source positions. -/
def Resolves (tree : Tree) (node : Node SourceInfo) (_ : List Char) (_ : List Token) : Prop :=
  node = p.tree tree

/-- The error of a failure. -/
def refusal (e : Failure) : Fault :=
  .refused ⟨e.cause.message, p.lines.location
    (e.offset.getD (Text.byteLength (Text.trimEnd p.text.toList)))⟩

end Source

/-- The sums that make up the location of an offset fit in words. -/
structure LineTable.FitsAt (table : LineTable) (offset : Nat) : Prop where
  line_lt : table.firstLine.toNat + (table.laterStarts.takeWhile (· ≤ offset)).length < 2 ^ 32
  first_lt : table.laterStarts.takeWhile (· ≤ offset) = [] →
    offset - table.origin + table.firstColumn.toNat < 2 ^ 32
  later_lt : ∀ start ∈ (table.laterStarts.takeWhile (· ≤ offset)).getLast?,
    offset - start + 1 < 2 ^ 32

/-- Offsets in the text fit in 32 bits, no line starts before the first one, and where sums must not
wrap around, lines and columns fit in words. -/
structure Source.Fits (p : Source) : Prop where
  small : Text.byteLength p.text.toList < 2 ^ 32
  origin_le : ∀ start ∈ p.lines.laterStarts, p.lines.origin ≤ start
  sums : p.overflow = .stops → ∀ offset ≤ Text.byteLength p.text.toList, p.lines.FitsAt offset

/-- The text falls into what was read and the tokens that are left. -/
structure Placed (p : Source) (before : List Char) (tokens : List Token) : Prop where
  text : p.text.toList = before ++ tokenChars tokens
  tiles : Tiles (Text.byteLength before) (tokenChars tokens) tokens
  spelled : Spelled tokens
  /-- A comment of which there is only the opening mark ends the text. -/
  openEnd : ∀ front token back, tokens = front ++ token :: back → token.kind = .comment →
    token.text.toList.length = 2 → back = []
  fits : p.Fits

/-- The machine has read all tokens but those that are left. -/
structure Machine.Stands (total : Nat) (tokens : List Token) (c : Machine) : Prop where
  rest : c.tokens.drop c.position = tokens.map Token.span
  position : c.position + tokens.length = total
  count : c.tokens.length = total

section
variable {α α' β γ δ σ τ : Type} {p : Source} {total : Nat} {before : List Char}
  {tokens rest : List Token} {token : Token} {c : Machine}

namespace Placed

theorem append {front : List Token} (h : Placed p before (front ++ rest)) :
    Placed p (before ++ tokenChars front) rest where
  text := by rw [h.text, tokenChars_append, List.append_assoc]
  tiles := by
    obtain ⟨cs, hcs, htiles⟩ := h.tiles.of_append
    rw [Text.byteLength_append, htiles.chars_eq]
    exact htiles
  spelled := h.spelled.of_suffix (List.suffix_append front rest)
  openEnd :=
    fun front' token back hrest =>
      h.openEnd (front ++ front') token back (by rw [hrest, List.append_assoc])
  fits := h.fits

theorem tail (h : Placed p before (token :: tokens)) :
    Placed p (before ++ token.text.toList) tokens := by
  have hfront : Placed p before ([token] ++ tokens) := h
  have := hfront.append
  rwa [tokenChars_cons, tokenChars_nil, List.append_nil] at this

/-- An identifier is cut before an escape. -/
theorem cut {unit escape : List Char} (h : Placed p before (token :: tokens))
    (hk : token.kind = .ident)
    (htext : token.text.toList = unit ++ escape) (hescape : escape ≠ []) :
    Placed p (before ++ unit) (token.behind unit escape :: tokens) where
  text := by simp [h.text, htext, Token.behind]
  tiles := by
    have hfront : Tiles (Text.byteLength before) (tokenChars (token :: tokens))
        ([] ++ token :: tokens) := h.tiles
    obtain ⟨-, cs, -, htiles⟩ := hfront.of_cut htext hescape
    rw [Text.byteLength_append, Token.behind, htiles.chars_eq]
    exact htiles
  spelled := by
    refine List.forall_mem_cons.2
      ⟨Token.isSpelled_of_ident hk, fun other hmem => h.spelled other (.tail _ hmem)⟩
  openEnd := by
    rintro (_ | ⟨first, front⟩) other back hrest hother hlength
    · obtain rfl := (List.cons.inj hrest).1
      exact absurd (hk.symm.trans hother) (by decide)
    · obtain rfl := (List.cons.inj hrest).2
      exact h.openEnd (token :: front) other back rfl hother hlength
  fits := h.fits

theorem start_eq (h : Placed p before (token :: tokens)) : token.start = Text.byteLength before :=
  h.tiles.start_head? token rfl

/-- A token that is left starts in the text. -/
theorem start_le (h : Placed p before (token :: tokens)) :
    token.start ≤ Text.byteLength p.text.toList := by
  rw [h.start_eq, h.text, Text.byteLength_append]
  exact Nat.le_add_right ..

theorem stop_eq (h : Placed p before (token :: tokens)) :
    token.stop = Text.byteLength (before ++ token.text.toList) := by
  rw [Token.stop, h.start_eq, Text.byteLength_append]

/-- A place in the text that is not behind the machine. -/
theorem size_lt (h : Placed p before tokens) : Text.byteLength before < 2 ^ 32 := by
  have := h.fits.small
  rw [h.text, Text.byteLength_append] at this
  omega

/-- The text of a token that is left. -/
theorem slice_token (h : Placed p before tokens) (hmem : token ∈ tokens) :
    ∃ front after, p.text.toList = front ++ token.text.toList ++ after ∧
      token.start = Text.byteLength front := by
  obtain ⟨front, after, hcs, hstart⟩ := h.tiles.exists_append token hmem
  refine ⟨before ++ front, after, ?_, ?_⟩
  · rw [h.text, hcs]
    simp
  · rw [hstart, Text.byteLength_append]

end Placed

namespace Machine.Stands

theorem current? (h : c.Stands total tokens) :
    c.tokens[c.position]? = tokens.head?.map Token.span := by
  rw [← List.head?_drop, h.rest, List.head?_map]

theorem lookup? (h : c.Stands total tokens) (k : Nat) :
    c.tokens[c.position + k]? = tokens[k]?.map Token.span := by
  rw [← List.getElem?_drop, h.rest, List.getElem?_map]

/-- The machine steps over a token. -/
theorem tail (h : c.Stands total (token :: tokens)) :
    ({ c with position := c.position + 1 } : Machine).Stands total tokens where
  rest := by
    show c.tokens.drop (c.position + 1) = _
    rw [← List.tail_drop, h.rest]
    rfl
  position := by
    have := h.position
    rw [List.length_cons] at this
    show c.position + 1 + tokens.length = total
    omega
  count := h.count

theorem position_lt (h : c.Stands total (token :: tokens)) : c.position < c.tokens.length := by
  have := h.position
  rw [List.length_cons] at this
  rw [h.count]
  omega

/-- The machine shortens the token it stands at. -/
theorem set (h : c.Stands total (token :: tokens)) (other : Token) :
    ({ c with tokens := c.tokens.set c.position other.span } : Machine).Stands total
      (other :: tokens) where
  rest := by
    show (c.tokens.set c.position other.span).drop c.position = _
    rw [List.drop_set, if_neg (by omega), h.rest, Nat.sub_self]
    rfl
  position := by
    have := h.position
    rwa [List.length_cons] at this
  count := (List.length_set ..).trans h.count

end Machine.Stands

/-- Runs of one action after another. -/
theorem Machine.run_bind (m : Run σ α) (g : α → Run σ β) (s : σ) : (m >>= g) s =
    match m s with
    | some (.ok (a, s')) => g a s'
    | some (.error e) => some (.error e)
    | none => none := by
  show Option.bind (m s) _ = _
  rcases m s with _ | e | ⟨a, s'⟩ <;> rfl

/-! ## Agreement -/

/-- The machine answers a result of a reader: with a value that `post` relates to that of the
reader, the text that was read and the tokens that are left, or with the refusal of a failure. -/
inductive Answers (p : Source) (total : Nat) (before : List Char)
    (post : α → β → List Char → List Token → Prop) :
    EStateM.Result Failure ParserState α → Option (Except Fault (β × Machine)) → Prop where
  | ok {a s' b c' w} : Placed p (before ++ w) s'.rest → c'.Stands total s'.rest →
    post a b w s'.rest → Answers p total before post (.ok a s') (some (.ok (b, c')))
  | error {e s'} : Answers p total before post (.error e s') (some (.error (p.refusal e)))

/-- Nothing is read. -/
theorem Answers.stay {post : α → β → List Char → List Token → Prop} {a : α} {b : β}
    {discarded : List (Option Nat)} (hplaced : Placed p before tokens) (hc : c.Stands total tokens)
    (h : post a b [] tokens) :
    Answers p total before post (.ok a ⟨tokens, discarded⟩) (some (.ok (b, c))) :=
  .ok (by rwa [List.append_nil]) hc h

/-- What was read is read in two parts. -/
theorem Answers.shift {w : List Char} {goal : α → β → List Char → List Token → Prop}
    {result : EStateM.Result Failure ParserState α} {answer : Option (Except Fault (β × Machine))}
    (h : Answers p total (before ++ w) (fun a b w' => goal a b (w ++ w')) result answer) :
    Answers p total before goal result answer := by
  cases h with
  | ok hplaced hc hpost => exact .ok (by rwa [← List.append_assoc]) hc hpost
  | error => exact .error

/-- From `before` and `tokens`, the machine does what the reader does. -/
def Agrees (p : Source) (total : Nat) (before : List Char) (tokens : List Token) (x : Parser α)
    (m : Action β) (post : α → β → List Char → List Token → Prop) : Prop :=
  Placed p before tokens → ∀ c discarded, c.Stands total tokens →
    Answers p total before post (x ⟨tokens, discarded⟩) (m c)

namespace Agrees

variable {x y : Parser α} {m n : Action β} {f : α → Parser γ} {g : β → Action δ}
  {post post' : α → β → List Char → List Token → Prop}
  {goal : γ → δ → List Char → List Token → Prop}

/-- What is known of a place. -/
theorem placed (h : Placed p before tokens → Agrees p total before tokens x m post) :
    Agrees p total before tokens x m post :=
  fun hplaced => h hplaced hplaced

/-- No more tokens are left than there are. -/
theorem within (h : tokens.length ≤ total → Agrees p total before tokens x m post) :
    Agrees p total before tokens x m post :=
  fun hplaced c discarded hc => h (hc.position ▸ Nat.le_add_left ..) hplaced c discarded hc

/-- Less is said of the values. -/
theorem imp (h : Agrees p total before tokens x m post)
    (hpost : ∀ a b w rest, post a b w rest → post' a b w rest) :
    Agrees p total before tokens x m post' := by
  intro hplaced c discarded hc
  have hanswer := h hplaced c discarded hc
  generalize x ⟨tokens, discarded⟩ = result, m c = answer at hanswer ⊢
  cases hanswer with
  | ok hplaced' hc' hpost' => exact .ok hplaced' hc' (hpost _ _ _ _ hpost')
  | error => exact .error

/-- The run of the reader is known too. -/
theorem run (h : Agrees p total before tokens x m post) :
    Agrees p total before tokens x m fun a b w rest =>
    post a b w rest ∧ ∃ discarded discarded', x ⟨tokens, discarded⟩ = .ok a ⟨rest, discarded'⟩ := by
  intro hplaced c discarded hc
  have hanswer := h hplaced c discarded hc
  generalize hx : x ⟨tokens, discarded⟩ = result, m c = answer at hanswer ⊢
  cases hanswer with
  | ok hplaced' hc' hpost => exact .ok hplaced' hc' ⟨hpost, discarded, _, hx⟩
  | error => exact .error

/-- How much the reader reads is known too. -/
theorem settled {k count : Nat} {P : List Token → Prop} (h : Agrees p total before tokens x m post)
    (hs : SettlesIf count P k x) (hcount : tokens.length < count) (hP : P tokens) :
    Agrees p total before tokens x m
      fun a b w rest => post a b w rest ∧ rest.length + k ≤ tokens.length := by
  refine h.run.imp fun a b w rest => ?_
  rintro ⟨hpost, discarded, discarded', hrun⟩
  exact ⟨hpost, hs.reads hcount hP hrun⟩

theorem reads {k count : Nat} (h : Agrees p total before tokens x m post) (hs : Settles count k x)
    (hcount : tokens.length < count) :
    Agrees p total before tokens x m
      fun a b w rest => post a b w rest ∧ rest.length + k ≤ tokens.length :=
  h.settled hs hcount trivial

/-- The reader does something else that has the same result. -/
theorem left (h : ∀ discarded, x ⟨tokens, discarded⟩ = y ⟨tokens, discarded⟩)
    (hy : Agrees p total before tokens y m post) : Agrees p total before tokens x m post := by
  intro hplaced c discarded hc
  rw [h]
  exact hy hplaced c discarded hc

/-- The machine does something else that has the same result. -/
theorem right (h : ∀ c, Placed p before tokens → c.Stands total tokens → m c = n c)
    (hn : Agrees p total before tokens x n post) : Agrees p total before tokens x m post := by
  intro hplaced c discarded hc
  rw [h c hplaced hc]
  exact hn hplaced c discarded hc

theorem pure {a : α} {b : β} (h : post a b [] tokens) :
    Agrees p total before tokens (Pure.pure a) (Pure.pure b) post :=
  fun hplaced _ _ hc => Answers.stay hplaced hc h

/-- One reader after the other. -/
theorem bind (hx : Agrees p total before tokens x m post) (hf : ∀ a b w rest, post a b w rest →
      Agrees p total (before ++ w) rest (f a) (g b) fun a b w' => goal a b (w ++ w')) :
    Agrees p total before tokens (x >>= f) (m >>= g) goal := by
  intro hplaced c discarded hc
  have hanswer := hx hplaced c discarded hc
  rw [Machine.run_bind]
  show Answers p total before goal (EStateM.bind x f ⟨tokens, discarded⟩) _
  rw [EStateM.bind]
  generalize x ⟨tokens, discarded⟩ = result, m c = answer at hanswer ⊢
  cases hanswer with
  | ok hplaced' hc' hpost => exact (hf _ _ _ _ hpost hplaced' _ _ hc').shift
  | error => exact .error

/-- The value of the reader is changed afterwards. -/
theorem map {A : Type} {view : α → A} {goal : A → β → List Char → List Token → Prop}
    (hx : Agrees p total before tokens x m post)
    (h : ∀ a b w rest, post a b w rest → goal (view a) b w rest) :
    Agrees p total before tokens (x >>= fun a => Pure.pure (view a)) m goal := by
  rw [← bind_pure m]
  exact hx.bind fun a b w rest hpost => pure (by rw [List.append_nil]; exact h a b w rest hpost)

/-- The machine goes on with the value alone. -/
theorem andThen (hx : Agrees p total before tokens x m post)
    {goal : α → δ → List Char → List Token → Prop} (h : ∀ a b w rest, post a b w rest →
      Agrees p total (before ++ w) rest (Pure.pure a) (g b) fun a b w' => goal a b (w ++ w')) :
    Agrees p total before tokens x (m >>= g) goal := by
  rw [← bind_pure x]
  exact hx.bind h

/-- The reader looks at all the tokens that are left. -/
theorem get {f : ParserState → Parser α}
    (h : ∀ discarded, Agrees p total before tokens (f ⟨tokens, discarded⟩) m post) :
    Agrees p total before tokens (MonadState.get >>= f) m post :=
  fun hplaced c discarded hc => h discarded hplaced c discarded hc

theorem ite {condition : Prop} [Decidable condition]
    (hx : condition → Agrees p total before tokens x m post)
    (hy : ¬ condition → Agrees p total before tokens y n post) :
    Agrees p total before tokens (if condition then x else y) (if condition then m else n)
      post := by
  split
  · exact hx ‹_›
  · exact hy ‹_›

/-- The reader does something that has the same result. -/
theorem left_iff (h : ∀ discarded, x ⟨tokens, discarded⟩ = y ⟨tokens, discarded⟩) :
    Agrees p total before tokens x m post ↔ Agrees p total before tokens y m post :=
  ⟨left fun discarded => (h discarded).symm, left h⟩

/-- The machine only looks, or computes. -/
theorem right_iff {look : Action α'} {g : α' → Action β} {a : α'}
    (h : ∀ c, Placed p before tokens → c.Stands total tokens → look c = some (.ok (a, c))) :
    Agrees p total before tokens x (look >>= g) post ↔
    Agrees p total before tokens x (g a) post := by
  have hrun : ∀ c, Placed p before tokens → c.Stands total tokens → (look >>= g) c = g a c :=
    fun c hplaced hc => by rw [Machine.run_bind, h c hplaced hc]
  exact ⟨right fun c hplaced hc => (hrun c hplaced hc).symm, right hrun⟩

end Agrees

/-! ## Looking at tokens -/

namespace Machine

variable {start stop n k : Nat} {kind : TokenKind} {s : σ}

@[simp] theorem run_pure (a : α) : (pure a : Run σ α) s = some (.ok (a, s)) := rfl

theorem run_current? (h : c.Stands total tokens) :
    current? c = some (.ok (tokens.head?.map Token.span, c)) := by
  rw [← h.current?]
  rfl

theorem run_lookup? (h : c.Stands total tokens) (k : Nat) :
    lookup? k c = some (.ok (tokens[k]?.map Token.span, c)) := by
  rw [← h.lookup?]
  rfl

theorem run_kind? (h : c.Stands total tokens) :
    kind? c = some (.ok (tokens.head?.map Token.kind, c)) := by
  rw [kind?, run_bind, run_current? h]
  cases tokens <;> rfl

theorem run_isAt (h : c.Stands total tokens) (kind : TokenKind) :
    isAt kind c = some (.ok (decide (tokens.head?.map Token.kind = some kind), c)) := by
  rw [isAt, run_bind, run_kind? h]
  rfl

theorem run_lookupKind (h : c.Stands total tokens) (k : Nat) (kind : TokenKind) :
    lookupKind k kind c = some (.ok (decide (tokens[k]?.map Token.kind = some kind), c)) := by
  rw [lookupKind, run_bind, run_lookup? h]
  cases tokens[k]? <;> rfl

/-- A word is no larger than the number it is made of. -/
theorem toNat_ofNat_le (n : Nat) : (UInt32.ofNat n).toNat ≤ n :=
  Nat.mod_le n _

theorem run_size (h : n < 2 ^ 32) : size n s = some (.ok (n, s)) := by
  rw [size, if_pos h]
  rfl

theorem run_minus (h : n ≤ k) : minus k n s = some (.ok (k - n, s)) := by
  rw [minus, if_pos h]
  rfl

theorem run_plus {x y : UInt32} (h : p.overflow = .stops → x.toNat + y.toNat < 2 ^ 32) :
    plus p x y s = some (.ok (x + y, s)) := by
  rw [plus, if_pos]
  · rfl
  · cases hoverflow : p.overflow with
    | wraps => exact .inl rfl
    | stops => exact .inr (h hoverflow)

theorem run_index {l : List α} {i : Nat} {a : α} (h : l[i]? = some a) :
    index l i s = some (.ok (a, s)) := by
  rw [index, h]
  rfl

theorem run_slice {front w after : List Char} (h : p.text.toList = front ++ w ++ after) :
    slice p (Text.byteLength front) (Text.byteLength (front ++ w)) s =
      some (.ok (String.ofList w, s)) := by
  have hstart := isValid_of_append (h.trans (List.append_assoc ..))
  have hstop := isValid_of_append h
  rw [Text.byteLength_append] at hstop ⊢
  rw [slice, if_pos ⟨Nat.le_add_right .., hstart, hstop⟩, slice_eq h]
  rfl

/-- No line starts before an offset on the first line, but for the first one. -/
theorem run_location_first {offset : Nat}
    (hfit : p.overflow = .stops → p.lines.FitsAt offset)
    (hline : ((p.lines.origin :: p.lines.laterStarts).takeWhile (· ≤ offset)).length - 1 = 0)
    (hnone : p.lines.laterStarts.takeWhile (· ≤ offset) = []) :
    location p offset s = some (.ok (p.lines.location offset, s)) := by
  have hindex := run_index (s := s) (l := p.lines.origin :: p.lines.laterStarts) (i := 0) rfl
  have hcolumn := run_plus (s := s) (x := .ofNat (offset - p.lines.origin))
    (y := p.lines.firstColumn) fun hoverflow =>
      Nat.lt_of_le_of_lt (Nat.add_le_add_right (toNat_ofNat_le _) _)
        ((hfit hoverflow).first_lt hnone)
  have hsum := run_plus (p := p) (s := s) (x := p.lines.firstLine) (y := .ofNat 0) fun _ =>
    p.lines.firstLine.toNat_lt
  simp only [location, hline, run_bind, hindex, LineTable.location, hnone, List.getLast?_nil,
    if_true, hcolumn, hsum]
  rw [show p.lines.firstLine + .ofNat 0 = p.lines.firstLine from UInt32.add_zero _]
  rfl

/-- The line of an offset is in bounds, and it starts at or before the offset. -/
theorem run_location (h : p.Fits) {offset : Nat} (hle : offset ≤ Text.byteLength p.text.toList) :
    location p offset s = some (.ok (p.lines.location offset, s)) := by
  have hfit := fun hoverflow => h.sums hoverflow offset hle
  by_cases horigin : p.lines.origin ≤ offset
  · have htaken : (p.lines.origin :: p.lines.laterStarts).takeWhile (· ≤ offset) =
        p.lines.origin :: p.lines.laterStarts.takeWhile (· ≤ offset) := by
      rw [List.takeWhile_cons, if_pos (by simpa using horigin)]
    rcases List.eq_nil_or_concat (p.lines.laterStarts.takeWhile (· ≤ offset)) with hnone | ⟨front,
      start, hfront⟩
    · exact run_location_first hfit (by rw [htaken, hnone]; rfl) hnone
    · have hle : start ≤ offset := by
        have hmem : start ∈ p.lines.laterStarts.takeWhile (· ≤ offset) := by rw [hfront]; simp
        simpa using List.mem_takeWhile_imp hmem
      have hindex : (p.lines.origin :: p.lines.laterStarts)[front.length + 1]? = some start := by
        rw [List.getElem?_cons_succ,
          ← List.takeWhile_append_dropWhile (p := (· ≤ offset)) (l := p.lines.laterStarts), hfront]
        simp
      have hline : ((p.lines.origin :: p.lines.laterStarts).takeWhile (· ≤ offset)).length - 1 =
          front.length + 1 := by
        rw [htaken, hfront]
        simp
      have hlast : (front.concat start).getLast? = some start := by simp
      have hcolumn := run_plus (s := s) (x := .ofNat (offset - start)) (y := 1) fun hoverflow =>
        Nat.lt_of_le_of_lt (Nat.add_le_add_right (toNat_ofNat_le _) _)
          ((hfit hoverflow).later_lt start (by rw [hfront, hlast]; rfl))
      have hsum := run_plus (p := p) (s := s) (x := p.lines.firstLine)
        (y := .ofNat (front.length + 1)) fun hoverflow => by
          have hlt := (hfit hoverflow).line_lt
          rw [hfront, List.length_concat] at hlt
          exact Nat.lt_of_le_of_lt (Nat.add_le_add_left (toNat_ofNat_le _) _) hlt
      simp only [location, hline, run_bind, run_index hindex, LineTable.location, hfront, hlast,
        Nat.succ_ne_zero, if_false, run_minus hle, hcolumn, hsum]
      rw [List.length_concat]
      rfl
  · refine run_location_first hfit ?_ ?_
    · rw [List.takeWhile_cons, if_neg (by simpa using horigin)]
      rfl
    · cases hlater : p.lines.laterStarts with
      | nil => rfl
      | cons start starts =>
        have := h.origin_le start (by simp [hlater])
        rw [List.takeWhile_cons, if_neg (by simp; omega)]

theorem run_info (hplaced : Placed p before tokens) (h : c.Stands total tokens) :
    info p c = some (.ok ((tokens.head?.map Token.start).bind p.info, c)) := by
  rw [info]
  cases hpositions : p.options.positions with
  | false =>
    have hnone : p.info = fun _ => none := ParseOptions.sourceInfo_eq_none hpositions _
    cases tokens <;> simp [hnone]
  | true =>
    rw [if_pos rfl, run_bind, run_current? h]
    cases tokens with
    | nil => rfl
    | cons token tokens =>
      simp only [List.head?_cons, Option.map_some, run_bind, Token.span_start,
        run_location hplaced.fits hplaced.start_le]
      simp [Source.info, ParseOptions.sourceInfo, hpositions]

theorem run_offset (hplaced : Placed p before tokens) (h : c.Stands total tokens) :
    offset p c = some (.ok (Text.byteLength before, c)) := by
  rw [offset, run_bind, run_current? h]
  cases htokens : tokens with
  | nil =>
    have htext := hplaced.text
    rw [htokens, tokenChars_nil, List.append_nil] at htext
    exact (run_size hplaced.fits.small).trans (by rw [htext])
  | cons token tokens =>
    rw [htokens] at hplaced
    rw [← hplaced.start_eq]
    rfl

theorem run_text (hplaced : Placed p before tokens) (hmem : token ∈ tokens) :
    text p token.span c = some (.ok (token.text, c)) := by
  obtain ⟨front, after, htext, hstart⟩ := hplaced.slice_token hmem
  have hstop : token.stop = Text.byteLength (front ++ token.text.toList) := by
    rw [Token.stop, hstart, Text.byteLength_append]
  have hrun := run_slice (s := c) htext
  rwa [← hstart, ← hstop, String.ofList_toList] at hrun

theorem run_currentText (hplaced : Placed p before tokens) (h : c.Stands total tokens) :
    currentText p c = some (.ok ((tokens.head?.map Token.text).getD "", c)) := by
  rw [currentText, run_bind, run_current? h]
  cases tokens with
  | nil => rfl
  | cons token tokens => exact run_text hplaced (.head _)

theorem run_spells (hplaced : Placed p before tokens) (hmem : token ∈ tokens) (word : String) :
    spells p token.span word c = some (.ok (token.spells word, c)) := by
  rw [spells, run_bind, run_text hplaced hmem]
  rfl

theorem run_isWord (hplaced : Placed p before tokens) (hmem : token ∈ tokens) (word : String) :
    isWord p token.span word c = some
      (.ok (decide (token.kind = .ident) && token.spells word, c)) := by
  rw [isWord]
  by_cases hk : token.kind = .ident
  · rw [if_pos (show token.span.kind = .ident from hk), run_spells hplaced hmem, hk]
    rfl
  · rw [if_neg (show ¬ token.span.kind = .ident from hk)]
    simp [hk]

theorem byteLength_trimEnd_le (cs : List Char) :
    Text.byteLength (Text.trimEnd cs) ≤ Text.byteLength cs := by
  have happend : Text.trimEnd cs ++ (cs.reverse.takeWhile isBlank).reverse = cs := by
    rw [Text.trimEnd, ← List.reverse_append, List.takeWhile_append_dropWhile, List.reverse_reverse]
  conv => rhs; rw [← happend, Text.byteLength_append]
  exact Nat.le_add_right ..

/-- At the end of input, a failure is reported where the text ends without its blanks. -/
theorem run_lastNonSpace (hplaced : Placed p before []) (h : c.Stands total []) :
    lastNonSpace p c =
      some (.ok (p.lines.location (Text.byteLength (Text.trimEnd p.text.toList)), c)) := by
  have htext := hplaced.text
  rw [tokenChars_nil, List.append_nil] at htext
  have hslice := run_slice (s := c) (show p.text.toList = [] ++ before ++ [] by simpa using htext)
  have hle : Text.byteLength (Text.trimEnd before) ≤ Text.byteLength before :=
    byteLength_trimEnd_le before
  have hlt := Nat.lt_of_le_of_lt hle hplaced.size_lt
  rw [lastNonSpace, run_bind, run_offset hplaced h]
  simp only [Text.byteLength_nil, List.nil_append] at hslice
  simp only [run_bind, hslice, String.toList_ofList, run_size hlt]
  rw [htext, run_location hplaced.fits (by rwa [htext])]

theorem run_fail (hplaced : Placed p before tokens) (h : c.Stands total tokens) (cause : Cause) :
    (fail p cause.message : Action β) c =
      some (.error (p.refusal ⟨cause, tokens.head?.map Token.start⟩)) := by
  rw [fail, run_bind, run_current? h]
  cases tokens with
  | nil =>
    simp only [List.head?_nil, Option.map_none, run_bind, run_lastNonSpace hplaced h]
    rfl
  | cons token tokens =>
    simp only [List.head?_cons, Option.map_some, run_bind, Token.span_start,
      run_location hplaced.fits hplaced.start_le]
    rfl

theorem run_advance (h : c.Stands total (token :: tokens)) :
    advance c = some (.ok ((), { c with position := c.position + 1 })) := by
  show some (Except.ok ((), if c.position < c.tokens.length then _ else c)) = _
  rw [if_pos h.position_lt]

theorem run_stepIf {condition : Prop} [Decidable condition] {st : σ} (hcondition : condition)
    (h : c.Stands total (token :: tokens)) :
    stepIf condition st c = some (.ok (some st, { c with position := c.position + 1 })) := by
  rw [stepIf, if_pos hcondition, run_bind, run_advance h]
  rfl

theorem run_stepIf_not {condition : Prop} [Decidable condition] {st : σ}
    (hcondition : ¬ condition) :
    stepIf condition st c = some (.ok (none, c)) := by
  rw [stepIf, if_neg hcondition]
  rfl

theorem run_goOn (h : k < c.position) : goOn k c = some (.ok ((), c)) := by
  show (if k < c.position then _ else _ : Action Unit) c = _
  rw [if_pos h]
  rfl

/-! ### Rounds of loops -/

/-- One round of a loop and, if it goes on, the loop again. -/
def once (round : Span → Action (Option σ)) (again : σ → Action σ) (st : σ) : Action σ := do
  match ← current? with
  | none => return st
  | some token =>
    let start ← position?
    match ← round token with
    | none => return st
    | some st =>
      goOn start
      again st

/-- A loop is spelled out as one round and the loop again. -/
theorem eq_once {round : Span → Action (Option σ)} {again : σ → Action σ} {st : σ}
    {look : Option Span → Action σ} {next : Nat → Option σ → Action σ} (hnil : look none = pure st)
    (hcons : ∀ token, look (some token) = position? >>= fun start => round token >>= next start)
    (hstop : ∀ start, next start none = pure st)
    (hnext : ∀ start st', next start (some st') = goOn start >>= fun _ => again st') :
    current? >>= look = once round again st := by
  refine bind_congr fun token? => ?_
  cases token? with
  | none => exact hnil
  | some token =>
    refine (hcons token).trans (bind_congr fun start => bind_congr fun next? => ?_)
    cases next? with
    | none => exact hstop start
    | some st' => exact hnext start st'

theorem repeatWhile_eq (round : σ → Span → Action (Option σ)) (st : σ) :
    repeatWhile round st = once (round st) (repeatWhile round) st := by
  rw [repeatWhile]
  exact eq_once rfl (fun _ => rfl) (fun _ => rfl) fun _ _ => rfl

section
variable {round : Span → Action (Option σ)} {again : σ → Action σ} {st st' : σ}

theorem run_once_nil (h : c.Stands total []) : once round again st c = some (.ok (st, c)) := by
  rw [once, run_bind, run_current? h]
  rfl

theorem run_once_cons (h : c.Stands total (token :: tokens)) : once round again st c =
    (round token.span >>= fun next => match next with
      | none => pure st
      | some st => goOn c.position >>= fun _ => again st) c := by
  rw [once, run_bind, run_current? h]
  rfl

theorem run_once_stop (h : c.Stands total (token :: tokens)) {c' : Machine}
    (hround : round token.span c = some (.ok (none, c'))) :
    once round again st c = some (.ok (st, c')) := by
  rw [run_once_cons h, run_bind, hround]
  rfl

theorem run_once_next (h : c.Stands total (token :: tokens)) {c' : Machine}
    (hround : round token.span c = some (.ok (some st', c'))) (hlt : c.position < c'.position) :
    once round again st c = again st' c' := by
  rw [run_once_cons h, run_bind, hround]
  show (goOn c.position >>= fun _ => again st') c' = _
  rw [run_bind, run_goOn hlt]

end

end Machine

/-! ## Agreement while looking -/

namespace Agrees

variable {x : Parser α} {m : Action β} {post : α → β → List Char → List Token → Prop} {k : Nat}
  {kind : TokenKind}

theorem current?_left {f : Option Token → Parser α} :
    Agrees p total before tokens (current? >>= f) m post ↔
    Agrees p total before tokens (f tokens.head?) m post :=
  left_iff fun _ => rfl

theorem lookup?_left {f : Option Token → Parser α} :
    Agrees p total before tokens (lookup? k >>= f) m post ↔
    Agrees p total before tokens (f tokens[k]?) m post :=
  left_iff fun _ => rfl

theorem kind?_left {f : Option TokenKind → Parser α} :
    Agrees p total before tokens (kind? >>= f) m post ↔
    Agrees p total before tokens (f (tokens.head?.map Token.kind)) m post :=
  left_iff fun _ => rfl

theorem isAt_left {f : Bool → Parser α} : Agrees p total before tokens (isAt kind >>= f) m post ↔
    Agrees p total before tokens (f (decide (tokens.head?.map Token.kind = some kind))) m post :=
  left_iff fun _ => rfl

theorem lookupKind_left {f : Bool → Parser α} :
    Agrees p total before tokens (lookupKind k kind >>= f) m post ↔
    Agrees p total before tokens (f (decide (tokens[k]?.map Token.kind = some kind))) m post :=
  left_iff fun _ => rfl

theorem here_left {f : Option Nat → Parser α} : Agrees p total before tokens (here >>= f) m post ↔
    Agrees p total before tokens (f (tokens.head?.map Token.start)) m post :=
  left_iff fun _ => rfl

theorem current?_right {g : Option Span → Action β} :
    Agrees p total before tokens x (Machine.current? >>= g) post ↔
    Agrees p total before tokens x (g (tokens.head?.map Token.span)) post :=
  right_iff fun _ _ hc => Machine.run_current? hc

theorem lookup?_right {g : Option Span → Action β} :
    Agrees p total before tokens x (Machine.lookup? k >>= g) post ↔
    Agrees p total before tokens x (g (tokens[k]?.map Token.span)) post :=
  right_iff fun _ _ hc => Machine.run_lookup? hc k

theorem kind?_right {g : Option TokenKind → Action β} :
    Agrees p total before tokens x (Machine.kind? >>= g) post ↔
      Agrees p total before tokens x (g (tokens.head?.map Token.kind)) post :=
  right_iff fun _ _ hc => Machine.run_kind? hc

theorem isAt_right {g : Bool → Action β} :
    Agrees p total before tokens x (Machine.isAt kind >>= g) post ↔
    Agrees p total before tokens x (g (decide (tokens.head?.map Token.kind = some kind))) post :=
  right_iff fun _ _ hc => Machine.run_isAt hc kind

theorem lookupKind_right {g : Bool → Action β} :
    Agrees p total before tokens x (Machine.lookupKind k kind >>= g) post ↔
      Agrees p total before tokens x (g (decide (tokens[k]?.map Token.kind = some kind))) post :=
  right_iff fun _ _ hc => Machine.run_lookupKind hc k kind

theorem info_right {g : Option SourceInfo → Action β} :
    Agrees p total before tokens x (Machine.info p >>= g) post ↔
      Agrees p total before tokens x (g ((tokens.head?.map Token.start).bind p.info)) post :=
  right_iff fun _ => Machine.run_info

theorem offset_right {g : Nat → Action β} :
    Agrees p total before tokens x (Machine.offset p >>= g) post ↔
    Agrees p total before tokens x (g (Text.byteLength before)) post :=
  right_iff fun _ => Machine.run_offset

theorem currentText_right {g : String → Action β} :
    Agrees p total before tokens x (Machine.currentText p >>= g) post ↔
      Agrees p total before tokens x (g ((tokens.head?.map Token.text).getD "")) post :=
  right_iff fun _ => Machine.run_currentText

theorem text_right {g : String → Action β} (hmem : token ∈ tokens) :
    Agrees p total before tokens x (Machine.text p token.span >>= g) post ↔
      Agrees p total before tokens x (g token.text) post :=
  right_iff fun _ hplaced _ => Machine.run_text hplaced hmem

theorem spells_right {g : Bool → Action β} {word : String} (hmem : token ∈ tokens) :
    Agrees p total before tokens x (Machine.spells p token.span word >>= g) post ↔
      Agrees p total before tokens x (g (token.spells word)) post :=
  right_iff fun _ hplaced _ => Machine.run_spells hplaced hmem word

theorem isWord_right {g : Bool → Action β} {word : String} (hmem : token ∈ tokens) :
    Agrees p total before tokens x (Machine.isWord p token.span word >>= g) post ↔
      Agrees p total before tokens x (g (decide (token.kind = .ident) && token.spells word)) post :=
  right_iff fun _ hplaced _ => Machine.run_isWord hplaced hmem word

theorem size_right {n : Nat} {g : Nat → Action β} (h : n < 2 ^ 32) :
    Agrees p total before tokens x (Machine.size n >>= g) post ↔
    Agrees p total before tokens x (g n) post :=
  right_iff fun _ _ _ => Machine.run_size h

/-- A text that was read is cut out of the source. -/
theorem slice_right {front w after : List Char} {start stop : Nat} {g : String → Action β}
    (hstart : start = Text.byteLength front) (hstop : stop = Text.byteLength (front ++ w))
    (h : before ++ tokenChars tokens = front ++ w ++ after) :
    Agrees p total before tokens x (Machine.slice p start stop >>= g) post ↔
      Agrees p total before tokens x (g (String.ofList w)) post :=
  right_iff fun _ hplaced _ => by
    rw [hstart, hstop]
    exact Machine.run_slice (hplaced.text.trans h)

/-- The text that was read last is cut out of the source. -/
theorem slice_read {front w : List Char} {start stop : Nat} {g : String → Action β}
    (hstart : start = Text.byteLength front) (hstop : stop = Text.byteLength before)
    (hbefore : before = front ++ w) :
    Agrees p total before tokens x (Machine.slice p start stop >>= g) post ↔
      Agrees p total before tokens x (g (String.ofList w)) post :=
  slice_right hstart (hbefore ▸ hstop) (congrArg (· ++ tokenChars tokens) hbefore)

theorem fail {cause : Cause} :
    Agrees p total before tokens (Parser.fail cause) (Machine.fail p cause.message) post := by
  intro hplaced c discarded hc
  rw [Machine.run_fail hplaced hc]
  exact .error

end Agrees

/-! ## Agreement while reading -/

namespace Agrees

variable {x : Parser α} {m : Action β} {f : Unit → Parser α} {g : Unit → Action β}
  {post : α → β → List Char → List Token → Prop} {kind : TokenKind}

/-- The reader and the machine step over a token. -/
theorem advance (h : Agrees p total (before ++ token.text.toList) tokens (f ()) (g ())
      fun a b w => post a b (token.text.toList ++ w)) :
    Agrees p total before (token :: tokens) (Parser.advance >>= f)
      (Machine.advance >>= g) post := by
  intro hplaced c discarded hc
  rw [advance_bind_run, Machine.run_bind, Machine.run_advance hc]
  exact (h hplaced.tail _ discarded hc.tail).shift

/-- The reader takes a token, and the machine steps over it. -/
theorem take {f : String → Parser α}
    (h : Agrees p total (before ++ token.text.toList) tokens (f token.text) (g ())
      fun a b w => post a b (token.text.toList ++ w)) :
    Agrees p total before (token :: tokens) (Parser.take >>= f) (Machine.advance >>= g) post :=
  .left (fun _ => rfl) (advance (f := fun _ => f token.text) h)

/-- A failure ends both runs. -/
theorem failed {A B : Type} {cause : Cause} {message : String} {x : A → Parser α} {g : B → Action β}
    {post : α → β → List Char → List Token → Prop} (h : cause.message = message) :
    Agrees p total before tokens (Parser.fail cause >>= x) (Machine.fail p message >>= g) post := by
  have hfail : Agrees p total before tokens (Parser.fail cause : Parser A)
      (Machine.fail p message : Action B)
      fun _ _ _ _ => False := h ▸ fail
  exact hfail.bind fun _ _ _ _ h => h.elim

theorem expect (h : ∀ token rest, tokens = token :: rest → token.kind = kind →
      Agrees p total (before ++ token.text.toList) rest (f ()) (g ())
        fun a b w => post a b (token.text.toList ++ w)) :
    Agrees p total before tokens (Parser.expect kind >>= f) (Machine.expect p kind >>= g) post := by
  have hfail : Agrees p total before tokens (Parser.fail (.expected kind) >>= f)
      (Machine.fail p (kind.describe ++ " is expected") >>= g) post := failed rfl
  rw [Parser.expect, Machine.expect, bind_assoc, bind_assoc, isAt_left, isAt_right]
  cases tokens with
  | nil => exact hfail
  | cons token rest =>
    by_cases hk : token.kind = kind
    · simpa [hk] using advance (h token rest rfl hk)
    · simpa [hk] using hfail

/-- The token that is expected is there. -/
theorem expect_right {x : Parser α} (hk : token.kind = kind) :
    Agrees p total before (token :: tokens) x (Machine.expect p kind >>= g) post ↔
      Agrees p total before (token :: tokens) x (Machine.advance >>= g) post := by
  rw [Machine.expect, bind_assoc, isAt_right]
  simp [hk]

theorem expectAny_right {g : Span → Action β} {what : String} {kinds : List TokenKind}
    {x : Parser α} {post : α → β → List Char → List Token → Prop} (hk : token.kind ∈ kinds) :
    Agrees p total before (token :: tokens) x (Machine.expectAny p what kinds >>= g) post ↔
      Agrees p total before (token :: tokens) x (g token.span) post :=
  right_iff fun c _ hc => by
    rw [Machine.expectAny, Machine.run_bind, Machine.run_current? hc]
    simp only [List.head?_cons, Option.map_some]
    rw [if_pos (show token.span.kind ∈ kinds from hk)]
    rfl

/-- The current token is of none of the kinds. -/
theorem expectAny_failed {A : Type} {g : Span → Action β} {what : String} {kinds : List TokenKind}
    {cause : Cause} {x : A → Parser α} {post : α → β → List Char → List Token → Prop}
    (h : cause.message = what ++ " is expected") (hk : ∀ token ∈ tokens.head?, token.kind ∉ kinds) :
    Agrees p total before tokens (Parser.fail cause >>= x)
      (Machine.expectAny p what kinds >>= g) post := by
  rw [Machine.expectAny, bind_assoc, current?_right]
  cases tokens with
  | nil => exact failed h
  | cons token tokens =>
    simp only [List.head?_cons, Option.map_some]
    rw [if_neg (show token.span.kind ∉ kinds from hk token rfl)]
    exact failed h

theorem takeIf_yes {f : String → Parser α} {m : Action β}
    {post : α → β → List Char → List Token → Prop} (hk : token.kind = kind) :
    Agrees p total before (token :: tokens) (Parser.takeIf kind >>= f) m post ↔
      Agrees p total before (token :: tokens) (Parser.take >>= f) m post := by
  refine left_iff fun discarded => ?_
  have htake : takeIf kind ⟨token :: tokens, discarded⟩ = Parser.take
      ⟨token :: tokens, discarded⟩ :=
    (takeIf_eq kind).trans (if_pos (congrArg some hk))
  exact (bind_of_ok (htake.trans run_take)).trans (bind_of_ok run_take).symm

theorem takeIf_no {f : String → Parser α} {m : Action β}
    {post : α → β → List Char → List Token → Prop}
    (hk : ¬ tokens.head?.map Token.kind = some kind) :
    Agrees p total before tokens (Parser.takeIf kind >>= f) m post ↔
      Agrees p total before tokens (f "") m post :=
  left_iff fun _ => bind_of_ok ((takeIf_eq kind).trans (if_neg hk))

end Agrees

/-! ### Loops that step over tokens one by one -/

/-- The text of a token and of those after it. -/
theorem run_takeMany_succ (count : Nat) (discarded : List (Option Nat)) :
    takeMany (count + 1) ⟨token :: tokens, discarded⟩ =
      (Parser.take >>= fun text => takeMany count >>= fun texts => pure (text ++ texts))
        ⟨token :: tokens, discarded⟩ := by
  rw [take_bind_run, takeMany_bind_run, run_takeMany]
  show EStateM.Result.ok (Text.concat ((token :: tokens.take count).map Token.text)) _ = _
  rw [List.map_cons, Grammar.concat_cons]
  rfl

/-- The reader takes a number of tokens, and the machine steps over them one by one. Before each
round, `P` relates the text that was read, the tokens that are left and how many of them are to be
taken to the state of the loop. -/
theorem agrees_takeMany {round : σ → Span → Action (Option σ)} {st : σ}
    {P : List Char → List Token → Nat → σ → Prop}
    (hstop : ∀ {before token tokens st c}, P before (token :: tokens) 0 st →
      c.Stands total (token :: tokens) → round st token.span c = some (.ok (none, c)))
    (hstep : ∀ {before token tokens count st}, Placed p before (token :: tokens) →
      P before (token :: tokens) (count + 1) st →
      ∃ st', P (before ++ token.text.toList) tokens count st' ∧
        ∀ c, c.Stands total (token :: tokens) →
          round st token.span c = some (.ok (some st', { c with position := c.position + 1 })))
    {count : Nat} (hP : P before tokens count st) (hle : count ≤ tokens.length) :
    Agrees p total before tokens (takeMany count) (Machine.repeatWhile round st)
      fun text st' w rest =>
      text.toList = w ∧ rest = tokens.drop count ∧ P (before ++ w) rest 0 st' := by
  induction tokens generalizing before count st with
  | nil =>
    obtain rfl := Nat.le_zero.1 hle
    rw [Machine.repeatWhile_eq]
    refine .left (y := pure "") (fun _ => rfl) (.right (fun c _ hc => Machine.run_once_nil hc)
      (.pure ⟨rfl, rfl, by rwa [List.append_nil]⟩))
  | cons token tokens ih =>
    rw [Machine.repeatWhile_eq]
    cases count with
    | zero =>
      refine .left (y := pure "") (fun _ => rfl)
        (.right (fun c _ hc => Machine.run_once_stop hc (hstop hP hc))
          (.pure ⟨rfl, rfl, by rwa [List.append_nil]⟩))
    | succ count =>
      refine .placed fun hplaced => ?_
      obtain ⟨st', hP', hround⟩ := hstep hplaced hP
      have hadvance : ∀ c, c.Stands total (token :: tokens) →
          Machine.once (round st) (Machine.repeatWhile round) st c =
            (Machine.advance >>= fun _ => Machine.repeatWhile round st') c := by
        intro c hc
        rw [Machine.run_once_next hc (hround c hc) (Nat.lt_succ_self _), Machine.run_bind,
          Machine.run_advance hc]
      refine .left (run_takeMany_succ count) (.right (fun c _ hc => hadvance c hc) (.take ?_))
      refine (ih hP' (Nat.le_of_succ_le_succ hle)).map ?_
      rintro texts st'' w rest ⟨htexts, rfl, hP''⟩
      exact ⟨by rw [String.toList_append, htexts], rfl, by rwa [← List.append_assoc]⟩

/-- The reader takes tokens as long as `q` holds, and the machine steps over them one by one. Before
each round, `P` relates the text that was read to the state of the loop. -/
theorem agrees_takeWhile {q : Token → Bool} {round : σ → Span → Action (Option σ)} {st : σ}
    {P : List Char → σ → Prop}
    (hstop : ∀ {token st c}, q token = false → round st token.span c = some (.ok (none, c)))
    (hstep : ∀ {before token tokens st}, Placed p before (token :: tokens) → P before st →
      q token = true → ∃ st', P (before ++ token.text.toList) st' ∧
      ∀ c, c.Stands total (token :: tokens) →
        round st token.span c = some (.ok (some st', { c with position := c.position + 1 })))
    (hP : P before st) :
    Agrees p total before tokens (Parser.takeWhile q) (Machine.repeatWhile round st)
      fun text st' w rest => text.toList = w ∧ rest = tokens.dropWhile q ∧ P (before ++ w) st' := by
  have htaken : ∀ {token : Token} {tokens : List Token},
      ((token :: tokens).takeWhile q).length = if q token then (tokens.takeWhile q).length + 1
        else 0 := by
    intro token tokens
    rw [List.takeWhile_cons]
    split <;> rfl
  have hagrees : Agrees p total before tokens (takeMany (tokens.takeWhile q).length)
      (Machine.repeatWhile round st)
      fun text st' w rest => text.toList = w ∧ rest = tokens.drop (tokens.takeWhile q).length ∧
        0 = (rest.takeWhile q).length ∧ P (before ++ w) st' := agrees_takeMany
    (P := fun before tokens count st => count = (tokens.takeWhile q).length ∧ P before st)
    (fun {_ token _ _ _} h _ => hstop (by
      have hcount := h.1
      rw [htaken] at hcount
      simpa using hcount))
    (fun {before token tokens count st} hplaced h => by
      have hcount := h.1
      rw [htaken] at hcount
      split at hcount
      next hq =>
        obtain ⟨st', hP', hround⟩ := hstep hplaced h.2 hq
        exact ⟨st', ⟨Nat.succ.inj hcount, hP'⟩, hround⟩
      next => cases hcount)
    ⟨rfl, hP⟩ (List.takeWhile_prefix q).length_le
  refine .left (fun _ => rfl) (hagrees.imp fun text st' w rest h => ?_)
  exact ⟨h.1, by rw [h.2.1, drop_length_takeWhile], h.2.2.2⟩

/-- The values are the same. -/
def Same (a b : α) (_ : List Char) (_ : List Token) : Prop :=
  b = a

/-- The text that was read, and the offset where it ends. -/
def Spans (before : List Char) (text : String) (stop : Nat) (w : List Char) (_ : List Token) :
    Prop :=
  text.toList = w ∧ stop = Text.byteLength (before ++ w)

namespace Agrees

variable {x : Parser α} {m : Action β} {f : Unit → Parser α} {g : Unit → Action β}
  {post : α → β → List Char → List Token → Prop} {kind : TokenKind}

theorem endWhile {q : Token → Bool} {kinds : TokenKind → Bool} {stop : Nat}
    (hq : ∀ token : Token, q token = kinds token.kind) (hstop : stop = Text.byteLength before) :
    Agrees p total before tokens (Parser.takeWhile q) (Machine.endWhile kinds stop)
      (Spans before) := by
  refine (agrees_takeWhile (P := fun before stop => stop = Text.byteLength before) (fun h => ?_)
    (fun {_ token _ _} hplaced _ h => ⟨token.stop, ?_, fun c hc => ?_⟩) hstop).imp
      fun _ _ _ _ h => ⟨h.1, h.2.2⟩
  · exact Machine.run_stepIf_not (by simpa [hq] using h)
  · exact hplaced.stop_eq
  · exact Machine.run_stepIf (by simpa [hq] using h) hc

/-- The reader takes tokens as long as `q` holds, and the machine steps over them and keeps
nothing. -/
theorem skipWhile {q : Token → Bool} {round : Span → Action (Option Unit)}
    (hstop : ∀ {token : Token} {c}, q token = false → round token.span c = some (.ok (none, c)))
    (hstep : ∀ {token : Token} {tokens c}, q token = true → c.Stands total (token :: tokens) →
      round token.span c = some (.ok (some (), { c with position := c.position + 1 }))) :
    Agrees p total before tokens (Parser.takeWhile q) (Machine.repeatWhile (fun _ => round) ())
      fun text _ w rest => text.toList = w ∧ rest = tokens.dropWhile q := by
  refine (agrees_takeWhile (P := fun _ _ => True) hstop
    (fun _ _ h => ⟨(), trivial, fun _ hc => hstep h hc⟩) trivial).imp fun _ _ _ _ h => ⟨h.1, h.2.1⟩

theorem gaps (h : ∀ w, Agrees p total (before ++ w) (tokens.dropWhile isGap) (f ()) (g ())
      fun a b w' => post a b (w ++ w')) :
    Agrees p total before tokens (Parser.skipGaps >>= f) (Machine.skipGaps >>= g) post := by
  refine .left (y := Parser.takeWhile isGap >>= fun _ => f ()) (fun _ => ?_) ((skipWhile
    (fun h => Machine.run_stepIf_not ?_) (fun h hc => Machine.run_stepIf ?_ hc)).bind ?_)
  · rw [takeWhile_bind_run]
    rfl
  · simpa [isGap] using h
  · simpa [isGap] using h
  · rintro _ _ w _ ⟨-, rfl⟩
    exact h w

theorem expectWord {word : String} {eat : Bool}
    (h : ∀ token rest, tokens = token :: rest → token.kind = .ident → token.spells word = true →
      Agrees p total before tokens (f ())
        ((if eat then Machine.advance else Pure.pure ()) >>= g) post) :
    Agrees p total before tokens (Parser.expectWord word >>= f)
      (Machine.expectWord p word eat >>= g) post := by
  have hfail : Agrees p total before tokens (Parser.fail (.expectedWord word) >>= f)
      (Machine.fail p ("Identifier `" ++ word ++ "` is expected") >>= g) post := failed rfl
  rw [Parser.expectWord, Machine.expectWord, bind_assoc, bind_assoc, current?_left, current?_right]
  cases tokens with
  | nil => exact hfail
  | cons token rest =>
    simp only [List.head?_cons, Option.map_some, bind_assoc]
    rw [isWord_right (.head _)]
    by_cases hword : (decide (token.kind = .ident) && token.spells word) = true
    · rw [if_pos hword, if_pos hword]
      rw [Bool.and_eq_true, decide_eq_true_eq] at hword
      exact h token rest rfl hword.1 hword.2
    · rw [if_neg hword, if_neg hword]
      exact hfail

end Agrees

/-- The word that the machine checks for is there. -/
theorem Agrees.expectWord_right {x : Parser α} {g : Unit → Action β}
    {post : α → β → List Char → List Token → Prop} {word : String} (hk : token.kind = .ident)
    (hword : token.spells word = true) :
    Agrees p total before (token :: tokens) x (Machine.expectWord p word false >>= g) post ↔
      Agrees p total before (token :: tokens) x (g ()) post := by
  rw [Machine.expectWord, bind_assoc, Agrees.current?_right]
  simp only [List.head?_cons, Option.map_some, bind_assoc]
  rw [Agrees.isWord_right (.head _)]
  simp [hk, hword]

/-! ### Loops over productions -/

theorem Agrees.goOn_right {x : Parser α} {g : Unit → Action β}
    {post : α → β → List Char → List Token → Prop} {start k : Nat} (hstart : start + k = total)
    (hlt : tokens.length < k) :
    Agrees p total before tokens x (Machine.goOn start >>= g) post ↔
    Agrees p total before tokens x (g ()) post :=
  right_iff fun c _ hc => Machine.run_goOn (by have := hc.position; omega)

/-- A round of a loop of the machine. -/
theorem Agrees.once {x : Parser α} {round : Span → Action (Option σ)}
    {again : σ → Action σ} {st : σ} {post : α → σ → List Char → List Token → Prop}
    (h : ∀ start, start + (token :: tokens).length = total →
      Agrees p total before (token :: tokens) x
      (round token.span >>= fun next => match next with
        | none => Pure.pure st
        | some st => Machine.goOn start >>= fun _ => again st) post) :
    Agrees p total before (token :: tokens) x (Machine.once round again st) post := by
  intro hplaced c discarded hc
  rw [Machine.run_once_cons hc]
  exact h c.position hc.position hplaced c discarded hc

/-- A round of a loop of the reader and a round of the machine, from states that `R` relates with
the items that were added so far. -/
def RoundAgrees (p : Source) (total : Nat) (before : List Char) (tokens : List Token)
    (R : List α → σ → τ → List Token → Prop) (items : List α) (x : Parser (Round σ α))
    (m : Action (Option τ)) : Prop :=
  Agrees p total before tokens x m fun result next _ rest =>
    match result with
    | .stop => next = none ∧ rest = tokens
    | .next more st => ∃ t, next = some t ∧ R (items ++ more) st t rest

namespace RoundAgrees

variable {R : List α → σ → τ → List Token → Prop} {items : List α} {st : σ} {t : τ}

theorem stop : RoundAgrees p total before tokens R items (Pure.pure .stop) (Pure.pure none) :=
  Agrees.pure ⟨rfl, rfl⟩

theorem fail {cause : Cause} :
    RoundAgrees p total before tokens R items (Parser.fail cause) (Machine.fail p cause.message) :=
  Agrees.fail

theorem ite {condition : Prop} [Decidable condition] {x y : Parser (Round σ α)}
    {m m' : Action (Option τ)} (hx : condition → RoundAgrees p total before tokens R items x m)
    (hy : ¬ condition → RoundAgrees p total before tokens R items y m') :
    RoundAgrees p total before tokens R items
      (if condition then x else y) (if condition then m else m') :=
  Agrees.ite hx hy

/-- A round that steps over the current token. -/
theorem advance (h : R items st t tokens) : RoundAgrees p total before (token :: tokens) R items
    (Parser.advance >>= fun _ => Pure.pure (.next [] st))
      (Machine.advance >>= fun _ => Pure.pure (some t)) :=
  Agrees.advance (.pure ⟨t, rfl, by rwa [List.append_nil]⟩)

/-- A round that reads something and goes on. -/
theorem next {read : Parser β} {m : Action γ} {post : β → γ → List Char → List Token → Prop}
    {more : β → List α} {last : β → σ} {last' : γ → τ}
    (hread : Agrees p total before tokens read m post)
    (h : ∀ b c w rest, post b c w rest → R (items ++ more b) (last b) (last' c) rest) :
    RoundAgrees p total before tokens R items
      (read >>= fun b => Pure.pure (.next (more b) (last b)))
      (m >>= fun c => Pure.pure (some (last' c))) :=
  hread.bind fun b c w rest hpost => .pure ⟨_, rfl, h b c w rest hpost⟩

end RoundAgrees

section
variable {round : σ → Token → Parser (Round σ α)} {turn : τ → Span → Action (Option τ)}
  {again : τ → Action τ}
  {R : List α → σ → τ → List Token → Prop} {items : List α} {st : σ} {t : τ} {n count : Nat}

/-- A loop of the reader and a loop of the machine. A round that goes on reads a token. -/
theorem agrees_loopUpTo (hagain : ∀ t, again t = Machine.once (turn t) again t)
    (hsettles : ∀ st token, RoundSettles n tokensLeft st token (round st token))
    (hround : ∀ {before token tokens items st t}, (token :: tokens).length < n →
      R items st t (token :: tokens) →
      RoundAgrees p total before (token :: tokens) R items (round st token) (turn t token.span))
    (hR : R items st t tokens) (hn : tokens.length < n) (hcount : tokens.length < count) :
    Agrees p total before tokens (loopUpTo round count st) (again t) fun result t' _ rest =>
      R (items ++ result.1) result.2 t' rest := by
  induction count generalizing before tokens items st t with
  | zero => cases hcount
  | succ count ih =>
    rw [loopUpTo, Agrees.current?_left, hagain]
    cases tokens with
    | nil => exact .right (fun c _ hc => Machine.run_once_nil hc) (.pure (by rwa [List.append_nil]))
    | cons token tokens =>
      refine .once fun start hstart => (Agrees.run (hround hn hR)).bind ?_
      rintro result next w rest ⟨hnext, discarded, discarded', hrun⟩
      cases result with
      | stop =>
        obtain ⟨rfl, rfl⟩ := hnext
        exact .pure (by rwa [List.append_nil])
      | next more st' =>
        obtain ⟨t', rfl, hR'⟩ := hnext
        have hlt : rest.length < (token :: tokens).length := (hsettles st token).lowers hn rfl hrun
        refine (Agrees.goOn_right hstart hlt).2 ?_
        refine (ih hR' (hlt.trans hn) (by omega)).map ?_
        rintro result t'' w' rest' hR''
        rwa [← List.append_assoc]

theorem agrees_loop (hagain : ∀ t, again t = Machine.once (turn t) again t)
    (hsettles : ∀ st token, RoundSettles n tokensLeft st token (round st token))
    (hround : ∀ {before token tokens items st t}, (token :: tokens).length < n →
      R items st t (token :: tokens) →
      RoundAgrees p total before (token :: tokens) R items (round st token) (turn t token.span))
    (hR : R [] st t tokens) (hn : tokens.length < n) :
    Agrees p total before tokens (loop round st) (again t) fun result t' _ rest =>
      R result.1 result.2 t' rest :=
  .left (fun _ => rfl) (agrees_loopUpTo hagain hsettles hround hR hn (Nat.lt_succ_self _))

/-- The loop of the machine goes on where that of the reader ends. -/
theorem agrees_loopUpTo_bind (ends : Token → Prop) (k : List α × σ → Parser β) {goal : β → τ → Prop}
    {bound : Nat} (hagain : ∀ t, again t = Machine.once (turn t) again t)
    (hsettles : ∀ st token, RoundSettles n tokensLeft st token (round st token))
    (hround : ∀ {before token tokens items st t}, (token :: tokens).length < n →
      R items st t (token :: tokens) → (ends token ∧ round st token = Pure.pure .stop) ∨
      (∀ s s', round st token s ≠ .ok .stop s') ∧
      RoundAgrees p total before (token :: tokens) R items (round st token) (turn t token.span))
    (hend : ∀ {before tokens items st t}, tokens.length ≤ bound → R items st t tokens →
      (∀ token ∈ tokens.head?, ends token) → Agrees p total before tokens (k (items, st)) (again t)
        fun b t' _ _ => goal b t')
    (hR : R items st t tokens) (hn : tokens.length < n) (hcount : tokens.length < count)
    (hbound : tokens.length ≤ bound) :
    Agrees p total before tokens (loopUpTo round count st >>=
      fun result => k (items ++ result.1, result.2)) (again t)
      fun b t' _ _ => goal b t' := by
  induction count generalizing before tokens items st t with
  | zero => cases hcount
  | succ count ih =>
    rw [loopUpTo, bind_assoc, Agrees.current?_left]
    cases tokens with
    | nil => simpa using hend hbound hR (by simp)
    | cons token tokens =>
      rcases hround hn hR with ⟨hends, hstop⟩ | ⟨hnever, hnext⟩
      · simpa [hstop] using hend hbound hR (by simpa using hends)
      · rw [hagain]
        simp only [List.head?_cons, bind_assoc]
        refine .once fun start hstart => (Agrees.run hnext).bind ?_
        rintro result next w rest ⟨hnext, discarded, discarded', hrun⟩
        cases result with
        | stop => exact absurd hrun (hnever _ _)
        | next more st' =>
          obtain ⟨t', rfl, hR'⟩ := hnext
          have hlt : rest.length < (token :: tokens).length :=
            (hsettles st token).lowers hn rfl hrun
          refine (Agrees.goOn_right hstart hlt).2 ?_
          have hrest := @ih (before ++ w) _ _ _ _ hR' (hlt.trans hn) (by omega) (by omega)
          simpa only [bind_assoc, pure_bind, List.append_assoc] using hrest

end

/-- The machine has collected the nodes at their source positions. -/
def Source.Collects (p : Source) (nodes : List Tree) (_ : Unit) (nodes' : List (Node SourceInfo))
    (_ : List Token) :
    Prop :=
  nodes' = nodes.map p.tree

namespace RoundAgrees

variable {items : List Tree}

/-- A round that adds what is read to the nodes. -/
theorem add {read : Parser Tree} {m : Action (Node SourceInfo)}
    (h : Agrees p total before tokens read m p.Resolves) :
    RoundAgrees p total before tokens p.Collects items (add read)
      (m >>= fun node => Pure.pure (some (items.map p.tree ++ [node]))) :=
  next h fun node _ _ _ hnode => by rw [Source.Collects, hnode]; simp

theorem skip : RoundAgrees p total before (token :: tokens) p.Collects items skip
    (Machine.advance >>= fun _ => Pure.pure (some (items.map p.tree))) :=
  advance rfl

end RoundAgrees

/-- A loop of the reader that collects nodes, and a loop of the machine. -/
theorem agrees_many {round : Token → Parser Item}
    {turn : List (Node SourceInfo) → Span → Action (Option (List (Node SourceInfo)))}
    {again : List (Node SourceInfo) → Action (List (Node SourceInfo))} {n : Nat}
    (hagain : ∀ t, again t = Machine.once (turn t) again t)
    (hsettles : ∀ token, RoundSettles n tokensLeft () token (round token))
    (hround : ∀ {before token tokens items}, (token :: tokens).length < n →
      RoundAgrees p total before (token :: tokens) p.Collects items (round token)
        (turn (items.map p.tree) token.span))
    (hn : tokens.length < n) :
    Agrees p total before tokens (many round) (again [])
      fun nodes nodes' _ _ => nodes' = nodes.map p.tree := by
  have hloop : Agrees p total before tokens (loop (fun _ token => round token) ()) (again [])
      fun result t _ rest => p.Collects result.1 () t rest :=
    agrees_loop hagain (fun _ => hsettles)
      (fun hn hR => by rw [Source.Collects] at hR; rw [hR]; exact hround hn) rfl hn
  exact hloop.map fun _ _ _ _ h => h

/-! ### Entries that commas separate -/

/-- What is read from a place where an entry is due; `again` reads on after a comma. -/
def separatedFrom (endsAt : Token → Bool) (entry : Parser Tree) (between : Parser Unit)
    (again : Parser (List Tree × Bool)) : Parser (List Tree × Bool) := do
  match ← current? with
  | none => return ([], true)
  | some token =>
    if endsAt token then return ([], true)
    else
      let node ← entry
      if ← isAt .comma then
        advance
        between
        let (later, missing) ← again
        return (node :: later, missing)
      else return ([node], false)

section
variable {endsAt : Token → Bool} {entry : Parser Tree} {between : Parser Unit} {count n : Nat}

/-- No entry is due. -/
theorem loopUpTo_separatedRound_false :
    loopUpTo (separatedRound endsAt entry between) (count + 1) false = pure ([], false) := by
  funext s
  rw [loopUpTo, current?_bind_run]
  cases s.rest.head? <;> rfl

theorem loopUpTo_separatedRound {s : ParserState} :
    loopUpTo (separatedRound endsAt entry between) (count + 2) true s =
      separatedFrom endsAt entry between
        (loopUpTo (separatedRound endsAt entry between) (count + 1) true) s := by
  rw [loopUpTo, separatedFrom, current?_bind_run, current?_bind_run]
  cases s.rest.head? with
  | none => rfl
  | some token =>
    simp only [separatedRound, Bool.not_true, Bool.false_or, ite_bind, bind_assoc, pure_bind,
      loopUpTo_separatedRound_false, List.singleton_append]

/-- Entries that commas separate, and a loop of the machine. In its state `Due` relates to the
entries that were read, an entry is due; from there the machine does what the reader does, if it
does so after the next comma. -/
theorem agrees_separated (Due : List Tree → List Token → τ → Prop) {again : τ → Action τ}
    {goal : List Tree × Bool → τ → Prop}
    (hround : ∀ {before tokens items t} {x : Parser (List Tree × Bool)}, tokens.length < n →
      Due items tokens t → (∀ {before rest items t}, rest.length < tokens.length →
        Due items rest t → Agrees p total before rest x (again t)
          fun result t' _ _ => goal (items ++ result.1, result.2) t') →
          Agrees p total before tokens (separatedFrom endsAt entry between x) (again t)
            fun result t' _ _ => goal (items ++ result.1, result.2) t')
    {t : τ} (hdue : Due [] tokens t) (hn : tokens.length < n) :
    Agrees p total before tokens (separated endsAt entry between) (again t)
      fun result t' _ _ => goal result t' := by
  have hloop : ∀ {count before tokens items t}, tokens.length ≤ count → tokens.length < n →
      Due items tokens t →
      Agrees p total before tokens (loopUpTo (separatedRound endsAt entry between) (count + 1) true)
        (again t)
        fun result t' _ _ => goal (items ++ result.1, result.2) t' := by
    intro count
    induction count with
    | zero =>
      intro before tokens items t hcount hn hdue
      obtain rfl := List.length_eq_zero_iff.1 (Nat.le_zero.1 hcount)
      exact .left (y := separatedFrom endsAt entry between (Parser.fail .stuck)) (fun _ => rfl)
        (hround hn hdue fun hlt => absurd hlt (Nat.not_lt_zero _))
    | succ count ih =>
      intro before tokens items t hcount hn hdue
      refine .left (fun _ => loopUpTo_separatedRound) (hround hn hdue fun hlt hdue => ?_)
      exact ih (by omega) (hlt.trans hn) hdue
  exact .left (fun _ => rfl) (hloop Nat.le.refl hn hdue)

end

end
end StyleTree
