import YamlLinter.Proofs.Indentation.Stack

/-!
# What a token does to the stack

## Contents

* `State.Compared`: what comparing columns does to a state;
* `State.Passes`: nothing keeps a token from opening and closing frames;
* `check_passes`, `check_blocked`: one token, split into what comes before the frames and the frames;
* `plain_check_*`: what each sort of token does to the stack without columns;
* `own_check_*`: what it does to the number of frames that wait for an end token.
-/

namespace YamlLinter.Indentation

variable {t next : Token} {s s₁ s' : State} {config : Config} {w : Window}

namespace State

/-! ## Frames stay while columns are compared -/

@[simp] theorem stack_expect (s : State) (base column : Int) :
    (s.expect base column).2.stack = s.stack := by
  unfold expect
  split <;> rfl

@[simp] theorem line_expect (s : State) (base column : Int) :
    (s.expect base column).2.line = s.line := by
  unfold expect
  split <;> rfl

@[simp] theorem stack_expectSequence (s : State) (base column : Int) :
    (s.expectSequence base column).2.stack = s.stack := by
  unfold expectSequence
  split
  · rfl
  · split <;> simp
  · split <;> simp
  · split <;> simp

@[simp] theorem line_expectSequence (s : State) (base column : Int) :
    (s.expectSequence base column).2.line = s.line := by
  unfold expectSequence
  split
  · rfl
  · split <;> simp
  · split <;> simp
  · split <;> simp

@[simp] theorem stack_expectValue (s : State) (base : Int) (explicit : Bool) (prev content : Token) :
    (s.expectValue base explicit prev content).2.stack = s.stack := by
  unfold expectValue
  simp only
  repeat' split
  all_goals simp

@[simp] theorem line_expectValue (s : State) (base : Int) (explicit : Bool) (prev content : Token) :
    (s.expectValue base explicit prev content).2.line = s.line := by
  unfold expectValue
  simp only
  repeat' split
  all_goals simp

/-- What comparing columns does to a state: nothing, or it settles the width. -/
def Compared (s s₁ : State) : Prop := s₁ = s ∨ ∃ base column, s₁ = (s.expect base column).2

/-- To expect a column is to compare one. -/
theorem Compared.of_expect {base column expected : Int}
    (h : s.expect base column = (expected, s₁)) : Compared s s₁ :=
  .inr ⟨base, column, by rw [h]⟩

/-- Comparing columns does not touch the stack. -/
theorem Compared.stack (h : Compared s s₁) : s₁.stack = s.stack := by
  rcases h with rfl | ⟨base, column, rfl⟩
  · rfl
  · exact stack_expect s base column

/-- What is expected at the start of a line may settle the width, and changes nothing else. -/
theorem compared_expectStart {expected : Int} (h : s.expectStart t = some (expected, s₁)) :
    Compared s s₁ := by
  unfold expectStart at h
  split at h
  · cases h
  · split at h
    · obtain ⟨l, -, hl⟩ := Option.map_eq_some_iff.1 h
      cases hl
      exact .inl rfl
    · split at h
      · exact .of_expect (Option.some.inj h)
      · cases h
        exact .inl rfl

/-- At the start of a line, one column is compared; elsewhere none is. -/
theorem checkStart_cases {fs : List Finding} (h : s.checkStart t = some (fs, s₁)) :
    Compared s s₁ ∧
      (fs = [] ∨ ∃ expected, fs = compareIndent (t.start.line + 1) (columnOf t) expected) := by
  unfold checkStart at h
  split at h
  · split at h
    · cases h
    · rename_i expected _ he
      cases h
      exact ⟨compared_expectStart he, .inr ⟨expected, rfl⟩⟩
  · cases h
    exact ⟨.inl rfl, .inl rfl⟩

/-- What is expected of the lines of a block scalar may settle the width too. -/
theorem compared_expectBlock {found expected : Int}
    (h : s.expectBlock t found = some (expected, s₁)) : Compared s s₁ := by
  unfold expectBlock at h
  split at h
  · cases h
  · exact .of_expect (Option.some.inj h)
  · split at h
    · exact .of_expect (Option.some.inj h)
    · cases h
  · split at h
    · exact .of_expect (Option.some.inj h)
    · split at h
      · cases h
      · split at h
        · exact .of_expect (Option.some.inj h)
        · exact .of_expect (Option.some.inj h)
  · exact .of_expect (Option.some.inj h)

/-- So may what is expected of the lines of any scalar. -/
theorem compared_expectScalar {found expected : Int}
    (h : s.expectScalar t found = some (expected, s₁)) : Compared s s₁ := by
  unfold expectScalar at h
  split at h
  · cases h
  · cases h
    exact .inl rfl
  · cases h
    exact .inl rfl
  · cases h
    exact .inl rfl
  · exact compared_expectBlock h
  · exact compared_expectBlock h

/-- The lines of a scalar behind its first are compared with one column, if the rule is asked to. -/
theorem checkScalar_cases {fs : List Finding} {buffer : List UInt8}
    (h : s.checkScalar config buffer t = some (fs, s₁)) :
    Compared s s₁ ∧ (fs = [] ∨ config.checkMultiLine = true ∧ t.isScalar = true ∧
      ∃ expected, fs =
        (continuationLines buffer t).flatMap fun x => compareIndent x.1 x.2 expected) := by
  unfold checkScalar at h
  split at h
  · rename_i hasked
    unfold checkLines at h
    split at h
    · cases h
      exact ⟨.inl rfl, .inl rfl⟩
    · rename_i hlines
      split at h
      · cases h
      · rename_i expected _ he
        cases h
        rw [hlines]
        obtain ⟨hasked, hscalar⟩ := Bool.and_eq_true_iff.1 hasked
        exact ⟨compared_expectScalar he, .inr ⟨hasked, hscalar, expected, rfl⟩⟩
  · cases h
    exact ⟨.inl rfl, .inl rfl⟩

/-! ## What comes before the frames -/

/-- Nothing keeps a token from opening and closing frames. -/
def Passes (config : Config) (w : Window) (s : State) : Prop :=
  ∃ fs s₁, s.checkStart w.token = some (fs, s₁) ∧
    (s₁.checkScalar config w.buffer w.token).isSome = true

end State

/-- The state behind a token, as one step gives it. -/
theorem check_snd (config : Config) (w : Window) (s : State) :
    (check config w s).2 = (s.step config w).2.1 := rfl

/-- A token that makes no sense at its place leaves the stack as it is. -/
theorem check_blocked (h : ¬s.Passes config w) : (check config w s).2.stack = s.stack := by
  rw [check_snd]
  unfold State.step
  split
  · rfl
  · rename_i fs s₁ hs
    split
    · exact (State.checkStart_cases hs).1.stack
    · rename_i gs s₂ hl
      exact absurd ⟨fs, s₁, hs, by simp [hl]⟩ h

/-- Behind a token that passes, frames are opened and closed, and nothing else happens to the stack.
-/
theorem check_passes (h : s.Passes config w) :
    ∃ s₂ : State, s₂.stack = s.stack ∧
      (isVisible w.token = true → s₂.line = lastLine w.buffer w.token) ∧
      (check config w s).2 = (s₂.shift w).1 := by
  obtain ⟨fs, s₁, hs, hl⟩ := h
  obtain ⟨⟨gs, s₂⟩, hl⟩ := Option.isSome_iff_exists.1 hl
  refine ⟨s₂.moveTo w.buffer w.token (s.isFirst w.token), ?_, ?_, ?_⟩
  · unfold State.moveTo
    rw [← (State.checkStart_cases hs).1.stack, ← (State.checkScalar_cases hl).1.stack]
    split <;> rfl
  · intro hv
    simp [State.moveTo, hv]
  · simp [check, State.step, hs, hl]

/-! ## When nothing is in the way -/

/-- A scalar whose lines are indented relative to what is around it. -/
def isBlockScalar (t : Token) : Bool := t.scalarStyle?.any ScalarStyle.isBlock

theorem Based.top? (h : Based s.stack) : ∃ top, s.top? = some top := by
  obtain ⟨f, stack, hs⟩ := List.exists_cons_of_ne_nil h.ne_nil
  exact ⟨f, by simp [State.top?, hs]⟩

/-- A token that closes no flow collection can always be compared with the column expected. -/
theorem checkStart_isSome (hb : Based s.stack)
    (h : t.kind.isFlowEnd = true → s.isFirst t = true → (s.top?.bind Frame.lineIndent?).isSome) :
    ∃ fs s₁, s.checkStart t = some (fs, s₁) := by
  obtain ⟨top, ht⟩ := hb.top?
  unfold State.checkStart
  by_cases hf : s.isFirst t = true
  · rw [if_pos hf]
    have he : (s.expectStart t).isSome = true := by
      unfold State.expectStart
      rw [ht]
      by_cases hk : t.kind.isFlowEnd = true
      · have := h hk hf
        rw [ht] at this
        simpa [hk] using this
      · simp only [hk, Bool.false_eq_true, if_false]
        split <;> rfl
    obtain ⟨⟨e, s₁⟩, he⟩ := Option.isSome_iff_exists.1 he
    rw [he]
    exact ⟨_, _, rfl⟩
  · rw [if_neg hf]
    exact ⟨_, _, rfl⟩

/-- What is neither a closing bracket nor a scalar always passes. -/
theorem State.passes_of_not_isScalar (hb : Based s.stack) (hf : w.token.kind.isFlowEnd = false)
    (hs : w.token.isScalar = false) : s.Passes config w := by
  obtain ⟨fs, s₁, h⟩ := checkStart_isSome (t := w.token) hb (by simp [hf])
  exact ⟨fs, s₁, h, by simp [State.checkScalar, hs]⟩

/-- A value in a based stack has a frame below. -/
theorem Based.below? {i : Int} (h : Based s.stack) (ht : s.top? = some (.value i)) :
    ∃ below, s.below? = some below := by
  unfold State.top? at ht
  unfold State.below?
  cases hs : s.stack with
  | nil => simp [hs] at ht
  | cons top rest =>
    rw [hs] at ht h
    cases rest with
    | nil =>
      obtain rfl : top = .value i := by simpa using ht
      cases h
    | cons below rest => exact ⟨below, rfl⟩

/-- The lines of a block scalar can be compared unless it stands behind a key without `?`. -/
theorem expectBlock_isSome (hb : Based s.stack) (hk : ∀ i, s.top? ≠ some (.key i false))
    (found : Int) : (s.expectBlock t found).isSome = true := by
  obtain ⟨top, ht⟩ := hb.top?
  unfold State.expectBlock
  rw [ht]
  cases top with
  | key i explicit =>
    cases explicit with
    | true => rfl
    | false => exact absurd ht (hk i)
  | value i =>
    obtain ⟨below, hbelow⟩ := hb.below? ht
    simp only [hbelow]
    repeat' split
    all_goals rfl
  | _ => rfl

/-- A scalar passes unless it is a block scalar right behind a key without `?`. -/
theorem State.passes_of_isScalar (hb : Based s.stack) (hf : w.token.kind.isFlowEnd = false)
    (hk : isBlockScalar w.token = true → ∀ i, s.top? ≠ some (.key i false)) :
    s.Passes config w := by
  obtain ⟨fs, s₁, h⟩ := checkStart_isSome (t := w.token) hb (by simp [hf])
  have hstack := (State.checkStart_cases h).1.stack
  have hb₁ : Based s₁.stack := hstack ▸ hb
  refine ⟨fs, s₁, h, ?_⟩
  unfold State.checkScalar
  split
  · rename_i hc
    unfold State.checkLines
    split
    · rfl
    · rename_i found rest _
      -- only a block scalar right behind a key without `?` has no column to be compared with
      have he : (s₁.expectScalar w.token found).isSome = true := by
        unfold State.expectScalar
        split
        · rename_i hstyle
          simp [Token.isScalar, hstyle] at hc
        · rfl
        · rfl
        · rfl
        all_goals
          rename_i hstyle
          refine expectBlock_isSome hb₁ (fun i => ?_) _
          have := hk (by simp [isBlockScalar, hstyle, ScalarStyle.isBlock]) i
          simpa [State.top?, hstack] using this
      obtain ⟨⟨e, s₂⟩, he⟩ := Option.isSome_iff_exists.1 he
      rw [he]
      rfl
  · rfl

/-! ## Opening and closing -/

/-- Where nothing can be opened, nothing is closed either. -/
theorem shift_of_none (h : s.openFrames w = none) : (s.shift w).1 = s := by
  simp [State.shift, h]

/-- What is opened is followed by what is closed. -/
theorem plain_shift (h : s.openFrames w = some s₁) :
    (s.shift w).1.plain = (closeFrames w.token (w.next.map Token.kind) false s₁.plain).1 := by
  simp only [State.shift, h, State.plain, closeFrames_plain]

theorem line_shift (h : s.openFrames w = some s₁) : (s.shift w).1.line = s₁.line := by
  simp only [State.shift, h]

/-- Whether a token of this kind opens no frame. -/
def opensNone : TokenKind → Bool
  | .blockMappingStart | .blockSequenceStart | .flowMappingStart | .flowSequenceStart
  | .blockEntry | .key | .value => false
  | _ => true

/-- A token of a kind that opens nothing opens nothing. -/
theorem openFrames_of_opensNone (h : opensNone w.token.kind = true) : s.openFrames w = some s := by
  unfold State.openFrames
  split <;> simp_all [opensNone]

/-- A frame with an end token stays open behind a token that ends no collection. -/
theorem closeFrames_owned {f : Frame} {n : Option TokenKind} {stack : List Frame}
    (hf : f.isOwned = true) (ht : isEnder t.kind = false) (consumed : Bool) :
    (closeFrames t n consumed (f :: stack)).1 = f :: stack := by
  rw [closeFrames_of_not_isEnder ht, closeFrames_true_owned hf]

/-- A token that opens nothing only closes. -/
theorem plain_check_quiet (hp : s.Passes config w) (hq : opensNone w.token.kind = true) :
    (check config w s).2.plain =
      (closeFrames w.token (w.next.map Token.kind) false s.plain).1 := by
  obtain ⟨s₂, hs, -, he⟩ := check_passes hp
  rw [he, plain_shift (openFrames_of_opensNone hq)]
  simp only [State.plain, hs]

/-- A block collection opens its frame at its start token, if its first token is on the same line. -/
theorem plain_check_block (first : TokenKind) (frame : Int → Frame) (hb : Based s.stack)
    (hn : w.next = some next) (hk : next.kind = first)
    (hl : next.start.line = w.token.start.line) (hf : ∀ i, (frame i).isOwned = true)
    (hi : ∀ i, (frame i).plain = (frame 0).plain)
    (hq : w.token.kind.isFlowEnd = false ∧ w.token.isScalar = false ∧
      isEnder w.token.kind = false)
    (ho : ∀ s : State, s.openFrames w = s.openBlock w first frame) :
    (check config w s).2.plain = (frame 0).plain :: s.plain := by
  obtain ⟨s₂, hs, -, he⟩ := check_passes (State.passes_of_not_isScalar hb hq.1 hq.2.1)
  have hopen : s₂.openFrames w = some (s₂.push (frame (columnOf w.token))) := by
    rw [ho, State.openBlock, hn]
    simp [hk, hl]
  rw [he, plain_shift hopen]
  simp only [State.plain, State.push, List.map_cons, hs, hi]
  exact closeFrames_owned (by simp [hf]) hq.2.2 _

/-- The start of a block mapping opens its frame. -/
theorem plain_check_blockMappingStart (hb : Based s.stack)
    (ht : w.token.kind = .blockMappingStart) (hn : w.next = some next) (hk : next.kind = .key)
    (hl : next.start.line = w.token.start.line) :
    (check config w s).2.plain = .blockMap 0 :: s.plain := by
  refine plain_check_block .key .blockMap hb hn hk hl (fun _ => rfl) (fun _ => rfl) ?_ ?_
  · simp [ht, TokenKind.isFlowEnd, Token.isScalar, Token.scalarStyle?, isEnder]
  · intro s
    simp [State.openFrames, ht]

/-- The start of a block sequence opens its frame. -/
theorem plain_check_blockSequenceStart (hb : Based s.stack)
    (ht : w.token.kind = .blockSequenceStart) (hn : w.next = some next)
    (hk : next.kind = .blockEntry) (hl : next.start.line = w.token.start.line) :
    (check config w s).2.plain = .blockSeq 0 false :: s.plain := by
  refine plain_check_block .blockEntry (.blockSeq · false) hb hn hk hl (fun _ => rfl)
    (fun _ => rfl) ?_ ?_
  · simp [ht, TokenKind.isFlowEnd, Token.isScalar, Token.scalarStyle?, isEnder]
  · intro s
    simp [State.openFrames, ht]

/-- The frame of a flow collection. -/
def flowFrame (sequence : Bool) : Frame := if sequence then .flowSeq 0 0 else .flowMap 0 0

/-- An opening bracket opens the frame of its collection. -/
theorem plain_check_flowStart {sequence : Bool} (hb : Based s.stack)
    (ht : w.token.kind = Grammar.flowStart sequence) (hn : w.next = some next) :
    (check config w s).2.plain = flowFrame sequence :: s.plain := by
  have hq : w.token.kind.isFlowEnd = false ∧ w.token.isScalar = false ∧
      isEnder w.token.kind = false := by
    cases sequence <;>
      simp [ht, Grammar.flowStart, TokenKind.isFlowEnd, Token.isScalar, Token.scalarStyle?, isEnder]
  obtain ⟨s₂, hs, -, he⟩ := check_passes (State.passes_of_not_isScalar hb hq.1 hq.2.1)
  have hopen : ∃ s₃, s₂.openFrames w = some s₃ ∧ s₃.plain = flowFrame sequence :: s.plain := by
    cases sequence with
    | false =>
      simp only [State.openFrames, ht, Grammar.flowStart, State.openFlow, hn]
      by_cases hl : next.start.line = w.token.start.line <;>
        simp [hl, State.push, State.plain, hs, Frame.plain, flowFrame]
    | true =>
      simp only [State.openFrames, ht, Grammar.flowStart, State.openFlow, hn]
      by_cases hl : next.start.line = w.token.start.line <;>
        simp [hl, State.push, State.plain, hs, Frame.plain, flowFrame]
  obtain ⟨s₃, ho, hplain⟩ := hopen
  rw [he, plain_shift ho, hplain]
  exact closeFrames_owned (by cases sequence <;> rfl) hq.2.2 _

/-- A key is pushed onto the stack, and closed again if the token behind it ends the entry. -/
theorem check_key (config : Config) (hb : Based s.stack) (ht : w.token.kind = .key) :
    ∃ (s₂ : State) (i : Int), s₂.stack = s.stack ∧ (check config w s).2 = (s₂.shift w).1 ∧
      s₂.openFrames w = some (s₂.push (.key i (isExplicitKey w.buffer w.token))) := by
  obtain ⟨top, htop⟩ := hb.top?
  have hp : s.Passes config w := State.passes_of_not_isScalar hb
    (by simp [ht, TokenKind.isFlowEnd]) (by simp [ht, Token.isScalar, Token.scalarStyle?])
  obtain ⟨s₂, hs, -, he⟩ := check_passes hp
  have htop₂ : s₂.top? = some top := by simpa [State.top?, hs] using htop
  refine ⟨s₂, top.indent, hs, he, ?_⟩
  simp [State.openFrames, ht, State.openKey, htop₂]

/-- A `KEY` token opens a key, which is closed at once if it is empty. -/
theorem plain_check_key (hb : Based s.stack) (ht : w.token.kind = .key) (hn : w.next = some next) :
    (check config w s).2.plain =
      (closeFrames w.token (some next.kind) false (.key 0 false :: s.plain)).1 := by
  obtain ⟨s₂, i, hs, he, hopen⟩ := check_key config hb ht
  rw [he, plain_shift hopen, hn]
  simp [State.plain, State.push, hs, Frame.plain]

/-- A key that is not over at once is on top, and knows whether it has a `?`. -/
theorem top?_check_key (hb : Based s.stack) (ht : w.token.kind = .key) (hn : w.next = some next)
    (he : endsEntry next.kind = false) :
    ∃ i, (check config w s).2.top? = some (.key i (isExplicitKey w.buffer w.token)) := by
  obtain ⟨s₂, i, hs, hc, hopen⟩ := check_key config hb ht
  have hne : s₂.stack ≠ [] := hs ▸ hb.ne_nil
  refine ⟨i, ?_⟩
  rw [hc, State.shift, hopen]
  simp [State.top?, State.push, hn, closeFrames_cons hne, closing_key, he]

/-- A dash opens an item, and its sequence where none is on top; nothing if the item is empty. -/
def dashFrames (next : Token) (stack : List Frame) : List Frame :=
  if endsItem next.kind then stack
  else if stack.head?.any Frame.isBlockSeq then .blockEntry 0 :: stack
  else .blockEntry 0 :: .blockSeq 0 true :: stack

/-- A dash opens an item, and its sequence if that has no start token. -/
theorem plain_check_blockEntry (hb : Based s.stack) (ht : w.token.kind = .blockEntry)
    (hn : w.next = some next) :
    (check config w s).2.plain =
      (closeFrames w.token (some next.kind) false (dashFrames next s.plain)).1 := by
  obtain ⟨top, htop⟩ := hb.top?
  have hp : s.Passes config w := State.passes_of_not_isScalar hb
    (by simp [ht, TokenKind.isFlowEnd]) (by simp [ht, Token.isScalar, Token.scalarStyle?])
  obtain ⟨s₂, hs, -, he⟩ := check_passes hp
  have htop₂ : s₂.top? = some top := by simpa [State.top?, hs] using htop
  have hseq : s.plain.head?.any Frame.isBlockSeq = top.isBlockSeq := by
    have : s.stack.head? = some top := htop
    simp [State.plain, this]
  have hopen : ∃ s₃, s₂.openFrames w = some s₃ ∧ s₃.plain = dashFrames next s.plain := by
    simp only [State.openFrames, ht, State.openEntry, hn, htop₂, dashFrames, hseq]
    by_cases hi : endsItem next.kind = true
    · simp [hi, State.plain, hs]
    · cases hq : top.isBlockSeq <;>
        by_cases hl : (next.start.line == w.token.stop.line ||
          columnOf next == columnOf w.token) = true <;>
        simp [hi, hl, State.plain, State.push, hs, Frame.plain]
  obtain ⟨s₃, ho, hplain⟩ := hopen
  rw [he, plain_shift ho, hplain, hn]
  rfl

/-- Behind a key, a `VALUE` token opens the value unless that is empty. -/
theorem plain_check_value_key {prev : Token} {stack : List Frame} (hb : Based s.stack)
    (ht : w.token.kind = .value) (hprev : w.prev = some prev) (hn : w.next = some next)
    (hk : s.plain = .key 0 false :: stack) :
    (check config w s).2.plain =
      (closeFrames w.token (some next.kind) false
        (if endsEntry (State.contentOf prev next w.nextNext).kind then s.plain
          else .value 0 :: s.plain)).1 := by
  have hp : s.Passes config w := State.passes_of_not_isScalar hb
    (by simp [ht, TokenKind.isFlowEnd]) (by simp [ht, Token.isScalar, Token.scalarStyle?])
  obtain ⟨s₂, hs, -, he⟩ := check_passes hp
  -- the columns are forgotten in `plain`, but the sort of the frame on top is known
  have htop : ∃ i e, s₂.top? = some (.key i e) := by
    unfold State.plain at hk
    cases hstack : s.stack with
    | nil => simp [hstack] at hk
    | cons top rest =>
      rw [hstack] at hk
      simp only [List.map_cons, List.cons.injEq] at hk
      cases top with
      | key i e => exact ⟨i, e, by simp [State.top?, hs, hstack]⟩
      | _ => simp [Frame.plain] at hk
  obtain ⟨i, e, htop⟩ := htop
  have hopen : ∃ s₃, s₂.openFrames w = some s₃ ∧ s₃.plain =
      if endsEntry (State.contentOf prev next w.nextNext).kind then s.plain
      else .value 0 :: s.plain := by
    simp only [State.openFrames, ht, State.openValue, hn, hprev, htop]
    by_cases hc : endsEntry (State.contentOf prev next w.nextNext).kind = true <;>
      simp [hc, State.plain, State.push, hs, Frame.plain]
  obtain ⟨s₃, ho, hplain⟩ := hopen
  rw [he, plain_shift ho, hplain, hn]
  rfl

/-- A `VALUE` token that finds no key on top is passed over. -/
theorem plain_check_value_other (hb : Based s.stack) (ht : w.token.kind = .value)
    (hk : ∀ stack, s.plain ≠ .key 0 false :: stack) : (check config w s).2.plain = s.plain := by
  obtain ⟨top, htop⟩ := hb.top?
  have hp : s.Passes config w := State.passes_of_not_isScalar hb
    (by simp [ht, TokenKind.isFlowEnd]) (by simp [ht, Token.isScalar, Token.scalarStyle?])
  obtain ⟨s₂, hs, -, he⟩ := check_passes hp
  have hopen : s₂.openFrames w = none := by
    unfold State.plain at hk
    cases hstack : s.stack with
    | nil => exact absurd hstack hb.ne_nil
    | cons top rest =>
      cases top with
      | key i e => exact absurd (by rw [hstack]; rfl) (hk (rest.map Frame.plain))
      | _ => simp [State.openFrames, ht, State.openValue, State.top?, hs, hstack]
  rw [he, shift_of_none hopen]
  simp [State.plain, hs]

/-! ## The end of a flow collection -/

theorem lineIndent?_plain (f : Frame) : f.plain.lineIndent?.isSome = f.lineIndent?.isSome := by
  cases f <;> rfl

theorem top?_lineIndent? (s : State) :
    (s.top?.bind Frame.lineIndent?).isSome = (s.plain.head?.bind Frame.lineIndent?).isSome := by
  unfold State.top? State.plain
  cases s.stack with
  | nil => rfl
  | cons f stack => simp [lineIndent?_plain]

/-- A closing bracket that starts a line, while no flow collection is on top, is passed over. -/
theorem plain_check_flowEnd_blocked (ht : w.token.kind.isFlowEnd = true)
    (hf : s.isFirst w.token = true) (hk : (s.plain.head?.bind Frame.lineIndent?) = none) :
    (check config w s).2.plain = s.plain := by
  have hb : ¬s.Passes config w := by
    rintro ⟨fs, s₁, h, -⟩
    unfold State.checkStart State.expectStart at h
    rw [if_pos hf] at h
    have hnone : s.top?.bind Frame.lineIndent? = none := by
      have := top?_lineIndent? s
      rw [hk] at this
      simpa using this
    cases htop : s.top? with
    | none => simp [htop] at h
    | some top =>
      rw [htop] at hnone
      have : top.lineIndent? = none := by simpa using hnone
      simp [htop, ht, this] at h
  simp [State.plain, check_blocked hb]

/-- Any other closing bracket closes frames. -/
theorem plain_check_flowEnd (hb : Based s.stack) (ht : w.token.kind.isFlowEnd = true)
    (hn : w.next = some next)
    (h : s.isFirst w.token = true → (s.plain.head?.bind Frame.lineIndent?).isSome = true) :
    (check config w s).2.plain = (closeFrames w.token (some next.kind) false s.plain).1 := by
  have hs : w.token.isScalar = false ∧ opensNone w.token.kind = true := by
    unfold TokenKind.isFlowEnd at ht
    split at ht
    · simp_all [Token.isScalar, Token.scalarStyle?, opensNone]
    · simp_all [Token.isScalar, Token.scalarStyle?, opensNone]
    · cases ht
  obtain ⟨fs, s₁, hc⟩ := checkStart_isSome (t := w.token) hb (by
    intro _ hf
    rw [top?_lineIndent?]
    exact h hf)
  have hp : s.Passes config w := ⟨fs, s₁, hc, by simp [State.checkScalar, hs.1]⟩
  rw [plain_check_quiet hp hs.2, hn]
  rfl

/-! ## All tokens -/

/-- Nothing but new frames has been put on the stack. -/
def Grown (s s₁ : State) : Prop := (∃ fs, s₁.stack = fs ++ s.stack) ∧ s₁.line = s.line

/-- Nothing opened yet. -/
theorem Grown.refl (s : State) : Grown s s := ⟨⟨[], rfl⟩, rfl⟩

theorem Grown.of_same (hs : s₁.stack = s.stack) (hl : s₁.line = s.line) : Grown s s₁ :=
  ⟨⟨[], hs⟩, hl⟩

/-- One frame more. -/
theorem Grown.push (h : Grown s s₁) (f : Frame) : Grown s (s₁.push f) := by
  obtain ⟨⟨fs, hfs⟩, hl⟩ := h
  exact ⟨⟨f :: fs, by simp [State.push, hfs]⟩, hl⟩

theorem Grown.expect (h : Grown s s₁) (base column : Int) :
    Grown s (s₁.expect base column).2 := by
  obtain ⟨⟨fs, hfs⟩, hl⟩ := h
  exact ⟨⟨fs, by simp [hfs]⟩, by simp [hl]⟩

/-- A block collection only opens frames. -/
theorem grown_openBlock {first : TokenKind} {frame : Int → Frame}
    (h : s.openBlock w first frame = some s₁) : Grown s s₁ := by
  unfold State.openBlock at h
  repeat' split at h
  all_goals cases h
  exact (Grown.refl s).push _

theorem grown_openFlow {frame : Int → Int → Frame} (h : s.openFlow w frame = some s₁) :
    Grown s s₁ := by
  unfold State.openFlow at h
  split at h
  · cases h
  · rename_i next _
    split at h
    · cases h
      exact (Grown.refl s).push _
    · obtain rfl := Option.some.inj h
      exact ((Grown.refl s).expect s.lineIndent (columnOf next)).push _

/-- A dash only opens frames. -/
theorem grown_openEntry (h : s.openEntry w = some s₁) : Grown s s₁ := by
  unfold State.openEntry at h
  split at h
  · rename_i next top _ _
    split at h
    · cases h
      exact .refl s
    · have hseq : Grown s (if top.isBlockSeq then s
          else s.push (.blockSeq (columnOf w.token) true)) := by
        split
        · exact .refl s
        · exact (Grown.refl s).push _
      simp only at h
      split at h
      · obtain rfl := Option.some.inj h
        exact hseq.push _
      · obtain rfl := Option.some.inj h
        exact (hseq.expect _ _).push _
  · cases h

/-- A key only opens frames. -/
theorem grown_openKey (h : s.openKey w = some s₁) : Grown s s₁ := by
  unfold State.openKey at h
  split at h
  · cases h
  · obtain rfl := Option.some.inj h
    exact (Grown.refl s).push _

/-- A value only opens frames. -/
theorem grown_openValue (h : s.openValue w = some s₁) : Grown s s₁ := by
  unfold State.openValue at h
  split at h
  · simp only at h
    split at h
    · cases h
      exact .refl s
    · obtain rfl := Option.some.inj h
      exact (Grown.of_same (by simp) (by simp)).push _
  · cases h

/-- Opening frames leaves those that are open below. -/
theorem grown_openFrames (h : s.openFrames w = some s₁) : Grown s s₁ := by
  unfold State.openFrames at h
  split at h
  · exact grown_openBlock h
  · exact grown_openBlock h
  · exact grown_openFlow h
  · exact grown_openFlow h
  · exact grown_openEntry h
  · exact grown_openKey h
  · exact grown_openValue h
  · cases h
    exact .refl s

theorem based_append {fs stack : List Frame} (h : Based stack) : Based (fs ++ stack) := by
  induction fs with
  | nil => exact h
  | cons f fs ih => exact ih.cons f

/-- What a token leaves of a stack: everything, or what is left of it behind some new frames. -/
theorem stack_check (config : Config) (w : Window) (s : State) :
    (check config w s).2.stack = s.stack ∨
      ∃ fs, (check config w s).2.stack =
        (closeFrames w.token (w.next.map Token.kind) false (fs ++ s.stack)).1 := by
  by_cases hp : s.Passes config w
  · obtain ⟨s₂, hs, -, he⟩ := check_passes hp
    rw [he, ← hs]
    cases ho : s₂.openFrames w with
    | none =>
      rw [shift_of_none ho]
      exact .inl rfl
    | some s₃ =>
      obtain ⟨⟨fs, hfs⟩, -⟩ := grown_openFrames ho
      refine .inr ⟨fs, ?_⟩
      simp [State.shift, ho, hfs]
  · exact .inl (check_blocked hp)

/-- The root is never closed. -/
theorem based_check (hb : Based s.stack) : Based (check config w s).2.stack := by
  rcases stack_check config w s with h | ⟨fs, h⟩
  · rw [h]
    exact hb
  · rw [h]
    exact based_closeFrames (based_append hb)

theorem own_append (fs stack : List Frame) : own stack ≤ own (fs ++ stack) := by
  simp [own]

/-- A token that ends no collection closes no frame that waits for an end token. -/
theorem own_check (ht : isEnder w.token.kind = false) :
    own s.stack ≤ own (check config w s).2.stack := by
  rcases stack_check config w s with h | ⟨fs, h⟩
  · exact Nat.le_of_eq (congrArg own h.symm)
  · rw [h, closeFrames_of_not_isEnder ht, own_closeFrames_true]
    exact own_append fs s.stack

/-- An end token closes at most one of them. -/
theorem own_check_le (config : Config) (w : Window) (s : State) :
    own s.stack ≤ own (check config w s).2.stack + 1 := by
  rcases stack_check config w s with h | ⟨fs, h⟩
  · rw [h]
    exact Nat.le_succ _
  · rw [h]
    exact Nat.le_trans (own_append fs s.stack) (own_le_closeFrames _)

/-- The rule knows on which line a token that is no scalar has ended. -/
theorem line_check (hb : Based s.stack) (hv : isVisible w.token = true)
    (hf : w.token.kind.isFlowEnd = false) (hs : w.token.isScalar = false) :
    (check config w s).2.line = w.token.stop.line + 1 := by
  have hp : s.Passes config w := State.passes_of_not_isScalar hb hf hs
  obtain ⟨s₂, -, hl, he⟩ := check_passes hp
  have hlast : lastLine w.buffer w.token = w.token.stop.line + 1 := by simp [lastLine, hs]
  rw [he]
  cases ho : s₂.openFrames w with
  | none => rw [shift_of_none ho, hl hv, hlast]
  | some s₃ =>
    rw [line_shift ho, (grown_openFrames ho).2, hl hv, hlast]

end YamlLinter.Indentation
