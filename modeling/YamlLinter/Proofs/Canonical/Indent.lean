import YamlLinter.Proofs.Canonical.Ink
import YamlLinter.Proofs.Canonical.Silent
import YamlLinter.Proofs.Indentation.Step

/-!
# The indentation of a canonical document

The indentation rule finds nothing in a canonical document if its options agree with the layout. A
tree leaves the stack of the rule as the last token of the tree closes it, and the width and the
policy that the rule has settled on stay those of the layout.

## Contents

* `Fits`: the width and the policy of the rule agree with the layout;
* `Closes`: what the last token of a tree closes;
* `Reaches`: the rule is silent on tokens, and the stack behind them;
* `reaches_tree`: the tokens of a tree.
-/

namespace YamlLinter.Canonical

open Indentation

variable {layout : Layout} {config : Config} {buffer : List UInt8} {s s₁ s' : State}
  {prev nextNext : Option Token} {t nx : Token} {k : TokenKind} {stack stack' : List Frame}

/-! ## Options -/

/-- The policies under which sequences may stand as the layout puts them. -/
def Layout.Allows (layout : Layout) (policy : Policy) : Prop :=
  policy ≠ if layout.indented then .never else .always

/-- The width and the policy found so far agree with the layout. -/
structure Fits (layout : Layout) (s : State) : Prop where
  width : s.width = none ∨ s.width = some (layout.width : Int)
  policy : layout.Allows s.policy

theorem Fits.of_eq (h : Fits layout s) (hw : s'.width = s.width) (hp : s'.policy = s.policy) :
    Fits layout s' := by
  refine ⟨?_, ?_⟩
  · rw [hw]
    exact h.width
  · rw [hp]
    exact h.policy

/-- Content that is nested by the width of the layout is where it is expected. -/
theorem Fits.expect (h : Fits layout s) (base : Int) :
    (s.expect base (base + layout.width)).1 = base + layout.width ∧
      Fits layout (s.expect base (base + layout.width)).2 := by
  unfold State.expect
  rcases h.width with hw | hw
  · rw [hw]
    exact ⟨rfl, .inr (congrArg some (by omega)), h.policy⟩
  · rw [hw]
    exact ⟨rfl, .inr hw, h.policy⟩

/-- A sequence below a key is where it is expected. -/
theorem Fits.expectSequence (hw : 0 < layout.width) (h : Fits layout s) (column : Nat)
    (its : Items) :
    (s.expectSequence column ((Tree.sequence its).inset layout column : Nat)).1 =
        ((Tree.sequence its).inset layout column : Nat) ∧
      Fits layout (s.expectSequence column ((Tree.sequence its).inset layout column : Nat)).2 := by
  have hpolicy := h.policy
  unfold State.expectSequence Tree.inset
  rw [Layout.Allows] at hpolicy
  -- an indented sequence settles the width like a mapping; one at the column of its key does not
  cases hi : layout.indented with
  | true =>
    have hne : ((column + layout.width : Nat) == (column : Int)) = false := by
      rw [beq_eq_false_iff_ne]
      omega
    have hcast : ((column + layout.width : Nat) : Int) = (column : Int) + layout.width := by omega
    simp only [hi, if_true, hne, Bool.and_false, Bool.false_eq_true, if_false] at hpolicy ⊢
    rw [hcast]
    cases hp : s.policy with
    | never => exact absurd hp hpolicy
    | always | whatever => exact h.expect column
    | consistent =>
      have h' : Fits layout { s with policy := .always } := ⟨h.width, by simp [Layout.Allows, hi]⟩
      exact h'.expect column
  | false =>
    simp only [hi, Bool.false_eq_true, if_false, beq_self_eq_true, Bool.and_true, if_true]
      at hpolicy ⊢
    cases hp : s.policy with
    | always => exact absurd hp hpolicy
    | never | whatever => exact ⟨rfl, h⟩
    | consistent => exact ⟨rfl, h.width, by simp [Layout.Allows, hi]⟩

/-! ## Closing -/

/-- The last token of a tree that is followed by a token of kind `k` leaves `stack'` of `stack`. -/
def Closes (k : TokenKind) (stack stack' : List Frame) : Prop :=
  ∀ t : Token, t.kind ≠ .blockEntry → t.kind ≠ .value → isProperty t = false →
    closeFrames t (some k) true stack = (stack', true)

theorem closes_root : Closes k [.root] [.root] := by
  intro t _ _ _
  simp [closeFrames, closing]

/-- The value of a key ends, and with it the key. -/
theorem closes_value {i c : Int} :
    Closes k (.value i :: .key c false :: .blockMap c :: stack) (.blockMap c :: stack) := by
  intro t _ hv hp
  have hclosing : closing t (some k) true (.value i) (some (.key c false)) = .closeTwo := by
    simp [closing, closesOwn, hv, hp, Frame.isKey]
  rw [closeFrames, hclosing]
  exact closeFrames_true_owned rfl _

/-- An item ends, but not its sequence. -/
theorem closes_item {i c : Int} {implicit : Bool} (hk : endsItem k = true)
    (hi : k = .blockEntry ∨ implicit = false) :
    Closes k (.blockEntry i :: .blockSeq c implicit :: stack) (.blockSeq c implicit :: stack) := by
  intro t hb _ _
  have hclosing : closing t (some k) true (.blockEntry i) (some (.blockSeq c implicit)) =
      .closeOne := by
    rcases hi with rfl | rfl <;> simp [closing, closesOwn, Frame.isImplicitSeq, hk]
  have hstay : ∀ below, closing t (some k) true (.blockSeq c implicit) below = .stay := by
    intro below
    simp [closing]
  rw [closeFrames, hclosing]
  cases stack with
  | nil => simp only [closeFrames, hstay]
  | cons below rest => simp only [closeFrames, hstay]

/-- The last item of a sequence without tokens of its own ends, and with it the sequence. -/
theorem closes_last {i c : Int} (hk : k ≠ .blockEntry) (hs : stack ≠ [])
    (h : Closes k stack stack') :
    Closes k (.blockEntry i :: .blockSeq c true :: stack) stack' := by
  intro t hb hv hp
  have hclosing : closing t (some k) true (.blockEntry i) (some (.blockSeq c true)) =
      .closeTwo := by
    simp [closing, closesOwn, Frame.isImplicitSeq, hb, hp, hk]
  rw [closeFrames, hclosing]
  simp only [List.isEmpty_iff, hs, if_false]
  exact h t hb hv hp

/-! ## The first token of a tree -/

/-- The first token of a tree. -/
def Tree.first (bare : Bool) (m : Mark) : Tree → Token
  | .leaf word => word.token m
  | .mapping _ => .empty .blockMappingStart m
  | .sequence _ => if bare then dash m else .empty .blockSequenceStart m

theorem head?_tree (tree : Tree) (bare : Bool) (column : Nat) (m e : Mark) (rest : List Token) :
    (tree.tokens layout bare column m e ++ rest).head? = some (tree.first bare m) := by
  cases tree with
  | leaf word => rw [Tree.tokens]; rfl
  | mapping es => rw [Tree.tokens]; rfl
  | sequence its =>
    rw [Tree.tokens, Tree.first]
    cases bare with
    | false => rfl
    | true => cases its <;> (rw [if_pos rfl, if_pos rfl, Items.tokens]; rfl)

theorem start_first (tree : Tree) (bare : Bool) (m : Mark) : (tree.first bare m).start = m := by
  cases tree with
  | leaf word => rfl
  | mapping es => rfl
  | sequence its => cases bare <;> rfl

theorem endsEntry_first (tree : Tree) (bare : Bool) (m : Mark) :
    endsEntry (tree.first bare m).kind = false := by
  cases tree with
  | leaf word => rfl
  | mapping es => rfl
  | sequence its => cases bare <;> rfl

theorem isProperty_first (tree : Tree) (bare : Bool) (m : Mark) :
    isProperty (tree.first bare m) = false := by
  cases tree with
  | leaf word => rfl
  | mapping es => rfl
  | sequence its => cases bare <;> rfl

/-- A value is where it is expected: a word on the line of its key, a collection below. -/
theorem Fits.expectValue (hw : 0 < layout.width) (h : Fits layout s) (value : Tree) (bare : Bool)
    (column : Nat) {m : Mark} (ht : t.start.line = m.line) :
    (s.expectValue column false t (value.first bare (value.place layout column m))).1 =
        (value.place layout column m).column ∧
      Fits layout
        (s.expectValue column false t (value.first bare (value.place layout column m))).2 := by
  have hbelow : (m.line + 1 == t.start.line) = false := by
    rw [beq_eq_false_iff_ne]
    omega
  cases value with
  | leaf word =>
    have hsame : (m.line == t.start.line) = true := by simp [ht]
    simp [State.expectValue, Tree.first, Tree.place, Word.token, columnOf, Mark.right, hsame, h]
  | mapping es =>
    have hexpect := h.expect column
    simpa [State.expectValue, Tree.first, Tree.place, Tree.inset, Token.empty, columnOf, Mark.right,
      Mark.down, hbelow, startsSequence] using hexpect
  | sequence its =>
    have hexpect := h.expectSequence hw column its
    have hstarts : ∀ m, startsSequence ((Tree.sequence its).first bare m).kind = true := by
      intro m
      cases bare <;> rfl
    simp only [State.expectValue, start_first, columnOf, hstarts, Tree.place, Mark.right, Mark.down,
      hbelow, Nat.zero_add, Bool.false_eq_true, if_false, if_true]
    exact hexpect

/-! ## One token -/

/-- The innermost construct expects its content at `column`. -/
def Awaits (stack : List Frame) (column : Nat) : Prop :=
  ∃ top rest, stack = top :: rest ∧ top.isExplicitKey = false ∧ top.indent = column

theorem Awaits.ne_nil {column : Nat} (h : Awaits stack column) : stack ≠ [] := by
  obtain ⟨top, rest, rfl, -⟩ := h
  simp

/-- A token at the start of a line that stands where it is expected, or a token further right, whose
constructs fit together. -/
theorem check_of_awaits {next : Option Token} (hc : config.checkMultiLine = false)
    (hend : t.kind.isFlowEnd = false) (hs : s.isFirst t = true → Awaits s.stack t.start.column)
    (hopen : (s.moveTo buffer t (s.isFirst t)).openFrames ⟨buffer, prev, t, next, nextNext⟩ =
      some s₁)
    (hclose : closeFrames t (next.map Token.kind) false s₁.stack = (stack', true)) :
    check config ⟨buffer, prev, t, next, nextNext⟩ s = ([], { s₁ with stack := stack' }) := by
  have hstart : s.checkStart t = some ([], s) := by
    unfold State.checkStart
    split
    · rename_i hfirst
      obtain ⟨top, below, hstack, hkey, hindent⟩ := hs hfirst
      have hexpect : s.expectStart t = some (columnOf t, s) := by
        simp [State.expectStart, State.top?, hstack, hend, hkey, hindent, columnOf]
      simp [hexpect, compareIndent]
    · rfl
  have hscalar : s.checkScalar config buffer t = some ([], s) := by
    simp [State.checkScalar, hc]
  simp [check, State.step, hstart, hscalar, State.shift, hopen, hclose]

theorem stack_moveTo (first : Bool) : (s.moveTo buffer t first).stack = s.stack := by
  unfold State.moveTo
  split <;> rfl

theorem line_moveTo (first : Bool) (hv : isVisible t = true) :
    (s.moveTo buffer t first).line = lastLine buffer t := by
  simp [State.moveTo, hv]

theorem Fits.moveTo (h : Fits layout s) (buffer : List UInt8) (t : Token) (first : Bool) :
    Fits layout (s.moveTo buffer t first) := by
  unfold State.moveTo
  split
  · exact h.of_eq rfl rfl
  · exact h

/-! ## Runs -/

/-- The rule is silent on the tokens `ts` between `prev` and `rest`, and leaves `stack'` behind. -/
def Reaches (layout : Layout) (config : Config) (buffer : List UInt8) (prev : Option Token)
    (s : State) (ts rest : List Token) (stack' : List Frame) : Prop :=
  ∃ s', Silent (Indentation.rule config) buffer prev s ts rest s' ∧ s'.stack = stack' ∧
    Fits layout s'

variable {ts us rest : List Token}

theorem Reaches.append (stack₁ : List Frame)
    (h₁ : Reaches layout config buffer prev s ts (us ++ rest) stack₁)
    (h₂ : ∀ prev s₁, Fits layout s₁ → s₁.stack = stack₁ →
      Reaches layout config buffer prev s₁ us rest stack') :
    Reaches layout config buffer prev s (ts ++ us) rest stack' := by
  obtain ⟨s₁, hsilent₁, hstack₁, hfit₁⟩ := h₁
  obtain ⟨s', hsilent, hstack, hfit⟩ := h₂ (ts.getLast?.or prev) s₁ hfit₁ hstack₁
  exact ⟨s', hsilent₁.append hsilent, hstack, hfit⟩

/-- One token, which opens and closes constructs but settles nothing. -/
theorem Reaches.token (next : Option Token) (opened stack₁ : List Frame)
    (hc : config.checkMultiLine = false)
    (hend : t.kind.isFlowEnd = false) (hfit : Fits layout s)
    (hs : s.isFirst t = true → Awaits s.stack t.start.column)
    (hnext : (ts ++ rest).head? = next)
    (hopen : ∀ nextNext, ∀ s₀ : State, s₀.stack = s.stack →
      s₀.openFrames ⟨buffer, prev, t, next, nextNext⟩ = some { s₀ with stack := opened })
    (hclose : closeFrames t (next.map Token.kind) false opened = (stack₁, true))
    (hts : ∀ s₁, Fits layout s₁ → s₁.stack = stack₁ →
      (isVisible t = true → s₁.line = lastLine buffer t) →
        Reaches layout config buffer (some t) s₁ ts rest stack') :
    Reaches layout config buffer prev s (t :: ts) rest stack' := by
  have hmoved := hfit.moveTo buffer t (s.isFirst t)
  obtain ⟨s', hsilent, hstack, hfit'⟩ :=
    hts { s.moveTo buffer t (s.isFirst t) with stack := stack₁ } (hmoved.of_eq rfl rfl) rfl
      (line_moveTo (s.isFirst t))
  refine ⟨s', .cons ?_ hsilent, hstack, hfit'⟩
  rw [hnext]
  have hopened := hopen (ts ++ rest).tail.head? (s.moveTo buffer t (s.isFirst t))
    (stack_moveTo _)
  have hcheck := check_of_awaits hc hend hs hopened hclose
  exact hcheck

/-- One token that opens nothing. -/
theorem Reaches.quiet (next : Option Token) (stack₁ : List Frame)
    (hc : config.checkMultiLine = false) (hend : t.kind.isFlowEnd = false) (hfit : Fits layout s)
    (hs : s.isFirst t = true → Awaits s.stack t.start.column) (hnext : (ts ++ rest).head? = next)
    (hopen : ∀ nextNext, ∀ s₀ : State,
      s₀.openFrames ⟨buffer, prev, t, next, nextNext⟩ = some s₀)
    (hclose : closeFrames t (next.map Token.kind) false s.stack = (stack₁, true))
    (hts : ∀ s₁, Fits layout s₁ → s₁.stack = stack₁ →
      (isVisible t = true → s₁.line = lastLine buffer t) →
        Reaches layout config buffer (some t) s₁ ts rest stack') :
    Reaches layout config buffer prev s (t :: ts) rest stack' := by
  apply Reaches.token next s.stack stack₁ hc hend hfit hs hnext _ hclose hts
  intro nextNext s₀ hs₀
  rw [hopen, ← hs₀]

theorem reaches_nil (hfit : Fits layout s) (hs : s.stack = stack) :
    Reaches layout config buffer prev s [] rest stack :=
  ⟨s, .nil, hs, hfit⟩

/-- A block collection with tokens of its own around it. -/
theorem Reaches.enclosed {k : TokenKind} {m e : Mark} (f : Frame) (inner : Token)
    (hc : config.checkMultiLine = false) (hend : k.isFlowEnd = false) (hender : isEnder k = false)
    (hfit : Fits layout s) (hs : Awaits s.stack m.column) (hf : closesOwn f .blockEnd = true)
    (hinner : ∀ rest, (ts ++ rest).head? = some inner)
    (hopen : ∀ nextNext, ∀ s₀ : State,
      s₀.openFrames ⟨buffer, prev, .empty k m, some inner, nextNext⟩ = some (s₀.push f))
    (hts : ∀ s₁, Fits layout s₁ → s₁.stack = f :: s.stack →
      Reaches layout config buffer (some (.empty k m)) s₁ ts (.empty .blockEnd e :: nx :: rest)
        (f :: s.stack))
    (hclose : Closes nx.kind s.stack stack') :
    Reaches layout config buffer prev s (.empty k m :: (ts ++ [.empty .blockEnd e])) (nx :: rest)
      stack' := by
  have howned : f.isOwned = true := by
    cases f <;> simp_all [closesOwn, Frame.isOwned]
  apply Reaches.token (some inner) (f :: s.stack) (f :: s.stack) hc hend hfit (fun _ => hs)
  · rw [List.append_assoc]
    exact hinner _
  · intro nextNext s₀ hs₀
    rw [← hs₀]
    exact hopen nextNext s₀
  · rw [closeFrames_of_not_isEnder hender]
    exact closeFrames_true_owned howned _
  · intro s₁ hfit₁ hstack₁ _
    apply Reaches.append (f :: s.stack) (hts s₁ hfit₁ hstack₁)
    intro prev₂ s₂ hfit₂ hstack₂
    -- the end token takes no room, and closes its own collection before those around it
    apply Reaches.quiet (some nx) stack' hc rfl hfit₂ (fun hfirst => by cases hfirst) rfl
      (fun _ _ => rfl)
    · show closeFrames _ (some nx.kind) false s₂.stack = (stack', true)
      rw [hstack₂, closeFrames_closesOwn hf hs.ne_nil]
      exact hclose _ (by simp [Token.empty]) (by simp [Token.empty]) rfl
    · intro s₃ hfit₃ hstack₃ _
      exact reaches_nil hfit₃ hstack₃

/-- The line on which a word ends that stands on one line. -/
theorem lastLine_token {word : Word} {m : Mark} (hink : trailingSpace buffer (word.token m) = []) :
    lastLine buffer (word.token m) = m.line + 1 := by
  unfold lastLine
  rw [hink]
  simp [Word.token, Token.isScalar, Token.scalarStyle?, Mark.right]

/-- The colon of a key, behind the word of the key. -/
theorem Reaches.colon {column : Nat} {m₁ m : Mark} (value : Tree) (bare : Bool)
    (hc : config.checkMultiLine = false) (hw : 0 < layout.width) (hfit : Fits layout s)
    (hs : s.stack = .key column false :: stack) (hline : s.line = m.line + 1)
    (hm₁ : m₁.line = m.line) (ht : t.start.line = m.line)
    (hnext : (us ++ rest).head? = some (value.first bare (value.place layout column m)))
    (hus : ∀ prev s₁, Fits layout s₁ →
      s₁.stack = .value (value.place layout column m).column :: .key column false :: stack →
        Reaches layout config buffer prev s₁ us rest stack') :
    Reaches layout config buffer (some t) s (⟨.value, m₁, m⟩ :: us) rest stack' := by
  have hfirst : s.isFirst ⟨.value, m₁, m⟩ = false := by
    simp [State.isFirst, isVisible, hline, hm₁]
  let moved := s.moveTo buffer ⟨.value, m₁, m⟩ (s.isFirst ⟨.value, m₁, m⟩)
  let first := value.first bare (value.place layout column m)
  -- the value expects its content where the content stands, which may settle width and policy
  obtain ⟨hcolumn, hfit₁⟩ := (hfit.moveTo buffer ⟨.value, m₁, m⟩
    (s.isFirst ⟨.value, m₁, m⟩)).expectValue hw value bare column ht
  have hmoved : moved.stack = .key column false :: stack := by
    rw [← hs]
    exact stack_moveTo _
  let s₁ := (moved.expectValue column false t first).2.push
    (.value (value.place layout column m).column)
  have hs₁ : s₁.stack =
      .value (value.place layout column m).column :: .key column false :: stack := by
    simp [s₁, State.push, hmoved]
  have hopen : ∀ nextNext, moved.openFrames
      ⟨buffer, some t, ⟨.value, m₁, m⟩, some first, nextNext⟩ = some s₁ := by
    intro nextNext
    have hcontent : State.contentOf t first nextNext = first := by
      cases nextNext <;> simp [State.contentOf, first, isProperty_first]
    have htop : moved.top? = some (.key column false) := by
      rw [State.top?, hmoved]
      rfl
    simp [State.openFrames, State.openValue, htop, hcontent, first, endsEntry_first, hcolumn, moved,
      s₁]
  have hclose : closeFrames ⟨.value, m₁, m⟩ (some first.kind) false s₁.stack =
      (s₁.stack, true) := by
    rw [hs₁, closeFrames]
    rfl
  obtain ⟨s', hsilent, hstack, hfit'⟩ := hus (some ⟨.value, m₁, m⟩) s₁ (hfit₁.of_eq rfl rfl) hs₁
  refine ⟨s', .cons ?_ hsilent, hstack, hfit'⟩
  rw [hnext]
  have hcheck := check_of_awaits hc rfl (by simp [hfirst]) (hopen (us ++ rest).tail.head?) hclose
  exact hcheck

/-- A key in its mapping, with its colon and the start of its value. -/
theorem Reaches.key (key : Key) (value : Tree) (bare : Bool) {m : Mark}
    (hc : config.checkMultiLine = false) (hw : 0 < layout.width) (hfit : Fits layout s)
    (hs : s.stack = .blockMap m.column :: stack)
    (hink : trailingSpace buffer (key.token m) = [])
    (hnext : (us ++ rest).head? = some (value.first bare
      (value.place layout m.column (m.right (key.chars.length + 1)))))
    (hus : ∀ prev s₁, Fits layout s₁ →
      s₁.stack = .value (value.place layout m.column (m.right (key.chars.length + 1))).column ::
        .key m.column false :: .blockMap m.column :: stack →
          Reaches layout config buffer prev s₁ us rest stack') :
    Reaches layout config buffer prev s (key.tokens m ++ us) rest stack' := by
  -- neither the key nor its word closes anything: the next token does not end the entry
  have hstay : ∀ t next : Token, endsEntry next.kind = false → isEnder t.kind = false →
      closeFrames t (some next.kind) false (.key m.column false :: .blockMap m.column :: stack) =
        (.key m.column false :: .blockMap m.column :: stack, true) := by
    intro t next hnext ht
    rw [closeFrames, closing_key, hnext]
    rfl
  have hawaits : Awaits s.stack m.column := ⟨_, _, hs, rfl, rfl⟩
  rw [Key.tokens]
  apply Reaches.token (some (key.token m)) (.key m.column false :: .blockMap m.column :: stack)
    (.key m.column false :: .blockMap m.column :: stack) hc rfl hfit (fun _ => hawaits) rfl
  · intro nextNext s₀ hs₀
    simp [State.openFrames, State.openKey, State.top?, State.push, hs₀, hs, Frame.indent,
      Indentation.isExplicitKey, Token.empty]
  · exact hstay _ _ rfl rfl
  intro s₁ hfit₁ hstack₁ _
  have hawaits₁ : Awaits s₁.stack m.column := ⟨_, _, hstack₁, rfl, rfl⟩
  apply Reaches.quiet (some ⟨.value, m.right key.chars.length, m.right (key.chars.length + 1)⟩)
    (.key m.column false :: .blockMap m.column :: stack) hc rfl hfit₁ (fun _ => hawaits₁) rfl
    (fun _ _ => rfl)
  · rw [hstack₁]
    exact hstay _ ⟨.value, m.right key.chars.length, m.right (key.chars.length + 1)⟩ rfl rfl
  intro s₂ hfit₂ hstack₂ hline₂
  have hvisible : isVisible (key.token m) = true := by
    simp [isVisible, Word.token, key.ne_nil]
  have hline : s₂.line = m.line + 1 := by
    rw [hline₂ hvisible]
    exact lastLine_token hink
  exact .colon value bare hc hw hfit₂ hstack₂ hline rfl rfl hnext hus

/-- A dash in its sequence, which it opens if the sequence has no tokens of its own. -/
theorem Reaches.dash (item : Tree) {m : Mark} {implicit : Bool} (hc : config.checkMultiLine = false)
    (hfit : Fits layout s) (hs : Awaits s.stack m.column)
    (hopen : (if s.stack.head?.any Frame.isBlockSeq then s.stack
      else .blockSeq m.column true :: s.stack) = .blockSeq m.column implicit :: stack)
    (hnext : (us ++ rest).head? = some (item.first false (m.right 2)))
    (hus : ∀ prev s₁, Fits layout s₁ →
      s₁.stack = .blockEntry (m.column + 2 : Nat) :: .blockSeq m.column implicit :: stack →
        Reaches layout config buffer prev s₁ us rest stack') :
    Reaches layout config buffer prev s (dash m :: us) rest stack' := by
  have hends : endsItem (item.first false (m.right 2)).kind = false := by
    cases item <;> rfl
  apply Reaches.token (some (item.first false (m.right 2)))
    (.blockEntry (m.column + 2 : Nat) :: .blockSeq m.column implicit :: stack)
    (.blockEntry (m.column + 2 : Nat) :: .blockSeq m.column implicit :: stack) hc rfl hfit
    (fun _ => hs) hnext
  · intro nextNext s₀ hs₀
    obtain ⟨top, below, hstack, -, -⟩ := hs
    rw [hstack] at hopen hs₀
    simp only [State.openFrames, Canonical.dash, State.openEntry, State.top?, hs₀, List.head?_cons,
      hends, start_first, columnOf]
    cases hseq : top.isBlockSeq with
    | true => simp_all [State.push, Mark.right]
    | false => simp_all [State.push, Mark.right]
  · show closeFrames _ (some _) false _ = _
    rw [closeFrames]
    simp [closing, closesOwn, Canonical.dash, hends]
  · intro s₁ hfit₁ hstack₁ _
    exact hus _ s₁ hfit₁ hstack₁

/-! ## Trees -/

theorem Inked.key {key : Key} {m : Mark} (h : Inked buffer (key.tokens m ++ us)) :
    trailingSpace buffer (key.token m) = [] := by
  apply h
  · simp [Key.tokens]
  · rfl

/-- A collection starts at its column. -/
def Tree.Stands (column : Nat) (m : Mark) : Tree → Prop
  | .leaf _ => True
  | _ => m.column = column

theorem stands_place (tree : Tree) (column : Nat) (m : Mark) :
    tree.Stands (tree.inset layout column) (tree.place layout column m) := by
  cases tree with
  | leaf word => trivial
  | mapping es => exact Nat.zero_add _
  | sequence its => exact Nat.zero_add _

theorem stands_item (tree : Tree) (m : Mark) : tree.Stands (m.column + 2) (m.right 2) := by
  cases tree with
  | leaf word => trivial
  | mapping es => rfl
  | sequence its => rfl

theorem exists_tokens_entries (layout : Layout) (es : Entries) (column : Nat) (m e : Mark) :
    ∃ more, es.tokens layout column m e = .empty .key m :: more := by
  cases es with
  | last key value => exact ⟨_, by rw [Entries.tokens]; rfl⟩
  | cons key value rest => exact ⟨_, by rw [Entries.tokens]; rfl⟩

theorem exists_tokens_items (layout : Layout) (its : Items) (column : Nat) (m e : Mark) :
    ∃ more, its.tokens layout column m e = dash m :: more := by
  cases its with
  | last item => exact ⟨_, by rw [Items.tokens]⟩
  | cons item rest => exact ⟨_, by rw [Items.tokens]⟩

mutual

/-- The rule is silent on a tree that stands where it is expected. -/
theorem reaches_tree (hc : config.checkMultiLine = false) (hw : 0 < layout.width) (tree : Tree)
    (bare : Bool) (column : Nat) (m e : Mark) (prev : Option Token) (s : State) (nx : Token)
    (rest : List Token) (stack' : List Frame)
    (hink : Inked buffer (tree.tokens layout bare column m e)) (hm : tree.Stands column m)
    (hfit : Fits layout s) (hs : Awaits s.stack m.column)
    (hbare : bare = true → nx.kind ≠ .blockEntry ∧ s.stack.head?.any Frame.isBlockSeq = false)
    (hclose : Closes nx.kind s.stack stack') :
    Reaches layout config buffer prev s (tree.tokens layout bare column m e) (nx :: rest)
      stack' := by
  match tree with
  | .leaf word =>
    rw [Tree.tokens]
    apply Reaches.quiet (some nx) stack' hc rfl hfit (fun _ => hs) rfl (fun _ _ => rfl)
    · rw [closeFrames_of_not_isEnder rfl]
      exact hclose _ (by simp [Word.token]) (by simp [Word.token]) rfl
    · intro s₁ hfit₁ hstack₁ _
      exact reaches_nil hfit₁ hstack₁
  | .mapping es =>
    obtain rfl : m.column = column := hm
    rw [Tree.tokens] at hink ⊢
    obtain ⟨more, hmore⟩ := exists_tokens_entries layout es m.column m e
    refine .enclosed (.blockMap m.column) (.empty .key m) hc rfl rfl hfit hs rfl
      ?_ ?_ ?_ hclose
    · intro rest
      rw [hmore]
      rfl
    · intro nextNext s₀
      simp [State.openFrames, State.openBlock, Token.empty, columnOf]
    · intro s₁ hfit₁ hstack₁
      exact reaches_entries hc hw es m.column m e _ s₁ _ _ s.stack hink.tail.left rfl hfit₁ hstack₁
        (by simp [Token.empty])
  | .sequence its =>
    obtain rfl : m.column = column := hm
    rw [Tree.tokens] at hink ⊢
    cases bare with
    | true =>
      -- the first dash opens the sequence, and the token behind the last item closes it
      obtain ⟨hnx, hseq⟩ := hbare rfl
      rw [if_pos rfl] at hink ⊢
      refine reaches_items hc hw its m.column m e prev s nx rest true s.stack stack' hink rfl hfit hs
        (by rw [hseq]; rfl) ?_
      exact closes_last hnx hs.ne_nil hclose
    | false =>
      rw [if_neg (by simp)] at hink ⊢
      obtain ⟨more, hmore⟩ := exists_tokens_items layout its m.column m e
      refine .enclosed (.blockSeq m.column false) (dash m) hc rfl rfl hfit hs rfl
        ?_ ?_ ?_ hclose
      · intro rest
        rw [hmore]
        rfl
      · intro nextNext s₀
        simp [State.openFrames, State.openBlock, Token.empty, columnOf, dash]
      · intro s₁ hfit₁ hstack₁
        exact reaches_items hc hw its m.column m e _ s₁ _ _ false s.stack _ hink.tail.left rfl hfit₁
          ⟨_, _, hstack₁, rfl, rfl⟩ (by rw [hstack₁]; rfl) (closes_item rfl (.inr rfl))

/-- The entries of an open mapping. -/
theorem reaches_entries (hc : config.checkMultiLine = false) (hw : 0 < layout.width) (es : Entries)
    (column : Nat) (m e : Mark) (prev : Option Token) (s : State) (nx : Token) (rest : List Token)
    (stack : List Frame) (hink : Inked buffer (es.tokens layout column m e))
    (hm : m.column = column) (hfit : Fits layout s) (hs : s.stack = .blockMap column :: stack)
    (hnx : nx.kind ≠ .blockEntry) :
    Reaches layout config buffer prev s (es.tokens layout column m e) (nx :: rest)
      (.blockMap column :: stack) := by
  subst hm
  match es with
  | .last key value =>
    rw [Entries.tokens] at hink ⊢
    apply Reaches.key key value (!layout.indented) hc hw hfit hs hink.key (head?_tree ..)
    intro prev s₁ hfit₁ hstack₁
    refine reaches_tree hc hw value _ _ _ e prev s₁ nx rest _ hink.right (stands_place ..) hfit₁
      ⟨_, _, hstack₁, rfl, rfl⟩ (fun _ => ⟨hnx, by rw [hstack₁]; rfl⟩) ?_
    rw [hstack₁]
    exact closes_value
  | .cons key value more =>
    rw [Entries.tokens] at hink ⊢
    let behind := (value.stop layout (value.inset layout m.column)
      (value.place layout m.column (m.right (key.chars.length + 1)))).right m.column
    have hbehind : behind.column = m.column := by
      simp [behind, Mark.right, column_stop_tree]
    -- the token behind the value is the next key
    obtain ⟨ts, hts⟩ := exists_tokens_entries layout more m.column behind e
    apply Reaches.key key value (!layout.indented) hc hw hfit hs hink.key
      (by rw [List.append_assoc]; exact head?_tree ..)
    intro prev s₁ hfit₁ hstack₁
    apply Reaches.append (.blockMap m.column :: stack)
    · rw [hts]
      refine reaches_tree hc hw value _ _ _ behind prev s₁ (.empty .key behind) (ts ++ nx :: rest) _
        hink.right.left (stands_place ..) hfit₁ ⟨_, _, hstack₁, rfl, rfl⟩
        (fun _ => ⟨by simp [Token.empty], by rw [hstack₁]; rfl⟩) ?_
      rw [hstack₁]
      exact closes_value
    · intro prev s₂ hfit₂ hstack₂
      exact reaches_entries hc hw more m.column behind e prev s₂ nx rest stack hink.right.right
        hbehind hfit₂ hstack₂ hnx

/-- The items of a sequence, which is open or has no tokens of its own. -/
theorem reaches_items (hc : config.checkMultiLine = false) (hw : 0 < layout.width) (its : Items)
    (column : Nat) (m e : Mark) (prev : Option Token) (s : State) (nx : Token) (rest : List Token)
    (implicit : Bool) (stack stack' : List Frame)
    (hink : Inked buffer (its.tokens layout column m e)) (hm : m.column = column)
    (hfit : Fits layout s) (hs : Awaits s.stack column)
    (hopen : (if s.stack.head?.any Frame.isBlockSeq then s.stack
      else .blockSeq column true :: s.stack) = .blockSeq column implicit :: stack)
    (hclose : Closes nx.kind (.blockEntry (column + 2 : Nat) :: .blockSeq column implicit :: stack)
      stack') :
    Reaches layout config buffer prev s (its.tokens layout column m e) (nx :: rest) stack' := by
  subst hm
  match its with
  | .last item =>
    rw [Items.tokens] at hink ⊢
    apply Reaches.dash item hc hfit hs hopen (head?_tree ..)
    intro prev s₁ hfit₁ hstack₁
    exact reaches_tree hc hw item false _ _ e prev s₁ nx rest _ hink.tail (stands_item ..) hfit₁
      ⟨_, _, hstack₁, rfl, rfl⟩ (fun h => by cases h) (by rw [hstack₁]; exact hclose)
  | .cons item more =>
    rw [Items.tokens] at hink ⊢
    let behind := (item.stop layout (m.column + 2) (m.right 2)).right m.column
    have hbehind : behind.column = m.column := by
      simp [behind, Mark.right, column_stop_tree]
    -- the token behind the item is the next dash, which keeps the sequence open
    obtain ⟨ts, hts⟩ := exists_tokens_items layout more m.column behind e
    apply Reaches.dash item hc hfit hs hopen (by rw [List.append_assoc]; exact head?_tree ..)
    intro prev s₁ hfit₁ hstack₁
    apply Reaches.append (.blockSeq m.column implicit :: stack)
    · rw [hts]
      refine reaches_tree hc hw item false _ _ behind prev s₁ (dash behind) (ts ++ nx :: rest) _
        hink.tail.left (stands_item ..) hfit₁ ⟨_, _, hstack₁, rfl, rfl⟩ (fun h => by cases h) ?_
      rw [hstack₁]
      exact closes_item rfl (.inl rfl)
    · intro prev s₂ hfit₂ hstack₂
      exact reaches_items hc hw more m.column behind e prev s₂ nx rest implicit stack stack'
        hink.tail.right hbehind hfit₂ ⟨_, _, hstack₂, rfl, rfl⟩ (by rw [hstack₂]; rfl) hclose

end

/-- The rule is silent on a canonical document. -/
theorem silent_indentation (hc : config.checkMultiLine = false) (hw : 0 < layout.width)
    (hfit : Fits layout (.start config)) (tree : Tree) (hink : Inked buffer (tree.stream layout)) :
    ∃ s', Silent (Indentation.rule config) buffer none (.start config) (tree.stream layout) [] s' := by
  let e := tree.stop layout 0 .origin
  have hreaches : Reaches layout config buffer none (.start config) (tree.stream layout) []
      [.root] := by
    rw [Tree.stream] at hink ⊢
    apply Reaches.quiet (some (tree.first false .origin)) [.root] hc rfl hfit
      (fun hfirst => by cases hfirst) (by rw [List.append_assoc]; exact head?_tree ..)
      (fun _ _ => rfl) rfl
    intro s₁ hfit₁ hstack₁ _
    apply Reaches.append [.root]
    · refine reaches_tree hc hw tree false 0 .origin e _ s₁ (.empty .streamEnd e) [] [.root]
        hink.tail.left ?_ hfit₁ ⟨_, _, hstack₁, rfl, rfl⟩ (fun h => by cases h) ?_
      · cases tree <;> trivial
      · rw [hstack₁]
        exact closes_root
    · intro prev s₂ hfit₂ hstack₂
      apply Reaches.quiet none [.root] hc rfl hfit₂ (fun hfirst => by cases hfirst) rfl
        (fun _ _ => rfl)
      · rw [hstack₂]
        rfl
      · intro s₃ hfit₃ hstack₃ _
        exact reaches_nil hfit₃ hstack₃
  obtain ⟨s', hsilent, -, -⟩ := hreaches
  exact ⟨s', hsilent⟩

end YamlLinter.Canonical
