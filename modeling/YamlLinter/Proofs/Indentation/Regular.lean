import YamlLinter.Proofs.Indentation.Balance
import YamlLinter.Proofs.Indentation.Pairs

/-!
# Streams without properties

Where no anchors and tags stand and every sequence has its start and end tokens, each token fits. In
front of a node the stack is that of the collection around it, with an item, a key, or a value and its
key on top; behind it, the token that follows decides whether these are over. In a flow collection a
key without a value stays open behind its comma, until a key or a closing bracket comes.

## Contents

* `Node.regular` and its kin: neither properties nor sequences without start and end tokens;
* `Firm`, `Poised`: the stacks on which a node can start;
* `moves_quiet`, `exists_moves_key`, `exists_moves_dash`, `exists_moves_value`: single tokens;
* `Trails`, `Lingers`: what an entry of a collection leaves open, and what a comma leaves of it;
* `smooth_node` and its kin: regular trees run smoothly;
* `regular_stream_fits`: the states of the rule on a regular stream.
-/

namespace YamlLinter.Grammar

mutual

/-- Whether a node has no properties, and every sequence in it has start and end tokens. -/
def Node.regular : Node → Bool
  | .bare _ _ => false
  | .leaf props _ => props.isEmpty
  | .blockMap props _ entries _ => props.isEmpty && entries.regular
  | .blockSeq props _ items _ => props.isEmpty && items.regular
  | .flow props _ _ members _ => props.isEmpty && members.regular

/-- Whether a place is empty or holds a regular node. -/
def Slot.regular : Slot → Bool
  | .empty => true
  | .filled node => node.regular

/-- Whether all places of some items are regular. -/
def Items.regular : Items → Bool
  | .last _ slot => slot.regular
  | .cons _ slot rest => slot.regular && rest.regular

/-- Whether what stands behind a key or a value is a regular place. -/
def Body.regular : Body → Bool
  | .slot slot => slot.regular
  | .list _ _ => false

/-- Whether the key and the value of an entry are regular. -/
def Entry.regular : Entry → Bool
  | .key _ content => content.regular
  | .pair _ content _ held => content.regular && held.regular

/-- Whether some entries are regular. -/
def Entries.regular : Entries → Bool
  | .last entry => entry.regular
  | .cons entry rest => entry.regular && rest.regular

/-- Whether a member is regular. -/
def Member.regular : Member → Bool
  | .slot slot => slot.regular
  | .entry entry => entry.regular

/-- Whether some members are regular. -/
def Members.regular : Members → Bool
  | .last member => member.regular
  | .cons member _ rest => member.regular && rest.regular

end

/-- Whether the node of a part is regular. -/
def Part.regular : Part → Bool
  | .boundary _ => true
  | .node content => content.regular

/-- Whether all nodes of a stream are regular. -/
def Stream.regular (y : Stream) : Bool := y.parts.all Part.regular

end YamlLinter.Grammar

namespace YamlLinter.Indentation

open Grammar

variable {config : Config} {buffer : List UInt8} {prev : Option Token} {s s₁ : State}
  {t next : Token} {n : Option TokenKind} {ts rest : List Token} {f : Frame} {stack : List Frame}
  {i j : Int} {e : Bool}

/-! ## Stacks -/

/-- A frame that only a token of its own can close, or none. -/
def Firm (f : Frame) : Prop := f = .root ∨ f.isOwned = true

theorem closeFrames_firm (h : Firm f) (stack : List Frame) :
    closeFrames t n true (f :: stack) = (f :: stack, true) := by
  rcases h with rfl | h
  · cases stack <;> simp [closeFrames, closing]
  · exact closeFrames_true_owned h stack

/-- The token behind an item decides whether it is over. -/
theorem closeFrames_item :
    (closeFrames t n true (.blockEntry i :: .blockSeq j false :: stack)).1 =
      if n.any endsItem then .blockSeq j false :: stack
      else .blockEntry i :: .blockSeq j false :: stack := by
  have hclosing : closing t n true (.blockEntry i) (some (.blockSeq j false)) =
      if n.any endsItem then .closeOne else .stay := by
    simp [closing, Frame.isImplicitSeq]
  rw [closeFrames, hclosing]
  by_cases hn : n.any endsItem = true
  · simp only [if_pos hn]
    rw [closeFrames_firm (.inr rfl)]
  · simp only [if_neg hn]

/-- The token behind a key decides whether it is over. -/
theorem closeFrames_key (hf : Firm f) :
    (closeFrames t n true (.key i e :: f :: stack)).1 =
      if n.any endsEntry then f :: stack else .key i e :: f :: stack := by
  have hclosing : closing t n true (.key i e) (some f) =
      if n.any endsEntry then .closeOne else .stay := by
    simp [closing]
  rw [closeFrames, hclosing]
  by_cases hn : n.any endsEntry = true
  · simp only [if_pos hn]
    rw [closeFrames_firm hf]
  · simp only [if_neg hn]

/-- A value is over behind its first token, unless that is a property. -/
theorem closeFrames_value (hf : Firm f) :
    (closeFrames t n true (.value i :: .key j e :: f :: stack)).1 =
      if t.kind != .value && !isProperty t then f :: stack
      else .value i :: .key j e :: f :: stack := by
  have hclosing : closing t n true (.value i) (some (.key j e)) =
      if t.kind != .value && !isProperty t then .closeTwo else .stay := by
    simp [closing, Frame.isKey]
  rw [closeFrames, hclosing]
  by_cases ht : (t.kind != .value && !isProperty t) = true
  · simp only [if_pos ht]
    rw [closeFrames_firm hf]
    rfl
  · simp only [if_neg ht]

/-- The stacks on which a node can start: that of the collection around it, with an item, a key, or a
value and its key on top. -/
inductive Poised : List Frame → Prop
  | firm {f : Frame} {stack : List Frame} (hf : Firm f) : Poised (f :: stack)
  | item {i j : Int} {stack : List Frame} : Poised (.blockEntry i :: .blockSeq j false :: stack)
  | key {i : Int} {e : Bool} {f : Frame} {stack : List Frame} (hf : Firm f) :
      Poised (.key i e :: f :: stack)
  | value {i j : Int} {e : Bool} {f : Frame} {stack : List Frame} (hf : Firm f) :
      Poised (.value i :: .key j e :: f :: stack)

theorem Poised.restores (h : Poised stack) : Restores stack (closeFrames t n true stack).1 := by
  cases h with
  | firm hf =>
    rw [closeFrames_firm hf]
    exact .inl rfl
  | @item i j stack =>
    rw [closeFrames_item]
    split
    · exact .inr (.inl ⟨i, rfl⟩)
    · exact .inl rfl
  | @key i e f stack hf =>
    rw [closeFrames_key hf]
    split
    · exact .inr (.inr (.inl ⟨i, e, rfl⟩))
    · exact .inl rfl
  | @value i j e f stack hf =>
    rw [closeFrames_value hf]
    split
    · exact .inr (.inr (.inr ⟨i, j, e, rfl⟩))
    · exact .inl rfl

/-! ## Single tokens -/

/-- A token that opens frames is neither a scalar nor the end of a collection. -/
theorem not_isScalar_of_opens (h : opensNone t.kind = false) :
    t.kind.isFlowEnd = false ∧ t.isScalar = false ∧ isEnder t.kind = false := by
  unfold opensNone at h
  split at h <;> simp_all [TokenKind.isFlowEnd, Token.isScalar, Token.scalarStyle?, isEnder]

/-- A token that opens no frame starts no collection. -/
theorem nesting_of_opensNone (h : opensNone t.kind = true) (hender : isEnder t.kind = false) :
    nesting t = 0 := by
  refine nesting_other ?_ hender
  unfold opensNone at h
  split at h <;> simp_all [isOpener]

/-- A token that nothing keeps from it opens frames on the stack that it finds. -/
theorem opened_of_passes {w : Window} (h : s.Passes config w) :
    ∃ s₂ : State, s₂.stack = s.stack ∧ s.opened config w = s₂.openFrames w := by
  obtain ⟨fs, s₁, hstart, hscalar⟩ := h
  obtain ⟨⟨gs, s₂⟩, hscalar⟩ := Option.isSome_iff_exists.1 hscalar
  refine ⟨s₂.moveTo w.buffer w.token (s.isFirst w.token), ?_, ?_⟩
  · rw [← (State.checkStart_cases hstart).1.stack, ← (State.checkScalar_cases hscalar).1.stack]
    unfold State.moveTo
    split <;> rfl
  · simp [State.opened, hstart, hscalar]

theorem moves_of_opened
    (h : s.opened config ⟨buffer, prev, t, rest.head?, rest.tail.head?⟩ = some s₁) :
    Moves config buffer prev s t rest
      (closeFrames t (rest.head?.map Token.kind) false s₁.stack).1 := by
  refine ⟨?_, stack_check_of_opened h⟩
  rw [h]
  rfl

/-- A token that opens no frame. -/
theorem moves_quiet (hp : s.Passes config ⟨buffer, prev, t, rest.head?, rest.tail.head?⟩)
    (hq : opensNone t.kind = true) :
    Moves config buffer prev s t rest
      (closeFrames t (rest.head?.map Token.kind) false s.stack).1 := by
  obtain ⟨s₂, hs, hopened⟩ := opened_of_passes hp
  rw [openFrames_of_opensNone hq] at hopened
  rw [← hs]
  exact moves_of_opened hopened

/-- A token that opens frames. -/
theorem exists_moves (config : Config) (P : List Frame → Prop) (hb : Based s.stack)
    (ht : opensNone t.kind = false)
    (hopen : ∀ s₂ : State, s₂.stack = s.stack →
      ∃ s₃, s₂.openFrames ⟨buffer, prev, t, rest.head?, rest.tail.head?⟩ = some s₃ ∧ P s₃.stack) :
    ∃ opened, P opened ∧
      Moves config buffer prev s t rest
        (closeFrames t (rest.head?.map Token.kind) true opened).1 := by
  obtain ⟨hflow, hscalar, hender⟩ := not_isScalar_of_opens ht
  have hp : s.Passes config ⟨buffer, prev, t, rest.head?, rest.tail.head?⟩ :=
    State.passes_of_not_isScalar hb hflow hscalar
  obtain ⟨s₂, hs, hopened⟩ := opened_of_passes hp
  obtain ⟨s₃, hs₃, hP⟩ := hopen s₂ hs
  refine ⟨s₃.stack, hP, ?_⟩
  rw [← closeFrames_of_not_isEnder hender]
  exact moves_of_opened (hopened.trans hs₃)

/-- The start token of a block collection, in front of its first key or dash. -/
theorem moves_blockStart (first : TokenKind) (frame : Int → Frame) (hb : Based s.stack)
    (ht : isBlockStart t.kind = true) (hs : Scanned buffer (t :: rest))
    (hn : ∃ next us, rest = next :: us ∧ next.kind = first) (hf : Firm (frame (columnOf t)))
    (hopen : ∀ s₂ : State, s₂.openFrames ⟨buffer, prev, t, rest.head?, rest.tail.head?⟩ =
      s₂.openBlock ⟨buffer, prev, t, rest.head?, rest.tail.head?⟩ first frame) :
    Moves config buffer prev s t rest (frame (columnOf t) :: s.stack) := by
  obtain ⟨next, us, rfl, hfirst⟩ := hn
  have hline : next.start.line = t.start.line := hs.lined [] t next us rfl ht
  have hopens : opensNone t.kind = false := by
    unfold isBlockStart at ht
    split at ht <;> simp_all [opensNone]
  have hpush : ∀ s₂ : State, s₂.stack = s.stack →
      ∃ s₃, s₂.openFrames ⟨buffer, prev, t, (next :: us).head?, (next :: us).tail.head?⟩ = some s₃ ∧
        s₃.stack = frame (columnOf t) :: s.stack := by
    intro s₂ hs₂
    refine ⟨s₂.push (frame (columnOf t)), ?_, ?_⟩
    · rw [hopen, State.openBlock]
      simp [hfirst, hline]
    · simp [State.push, hs₂]
  obtain ⟨opened, rfl, hmoves⟩ :=
    exists_moves config (· = frame (columnOf t) :: s.stack) hb hopens hpush
  rwa [closeFrames_firm hf] at hmoves

/-- The frame of a flow collection. -/
def flowFrameAt (sequence : Bool) (i l : Int) : Frame :=
  if sequence then .flowSeq i l else .flowMap i l

theorem firm_flowFrameAt (sequence : Bool) (i l : Int) : Firm (flowFrameAt sequence i l) := by
  cases sequence <;> exact .inr rfl

/-- An opening bracket. -/
theorem exists_moves_flowStart {sequence : Bool} (config : Config) (buffer : List UInt8)
    (prev : Option Token) (rest : List Token) (hb : Based s.stack)
    (ht : t.kind = flowStart sequence) (hn : rest.head? = some next) :
    ∃ i l, Moves config buffer prev s t rest (flowFrameAt sequence i l :: s.stack) := by
  have hopens : opensNone t.kind = false := by
    rw [ht]
    cases sequence <;> rfl
  have hpush : ∀ s₂ : State, s₂.stack = s.stack →
      ∃ s₃, s₂.openFrames ⟨buffer, prev, t, rest.head?, rest.tail.head?⟩ = some s₃ ∧
        ∃ i l, s₃.stack = flowFrameAt sequence i l :: s.stack := by
    intro s₂ hs₂
    cases sequence with
    | false =>
      simp only [State.openFrames, ht, flowStart, State.openFlow, hn, Bool.false_eq_true, if_false]
      split
      · exact ⟨_, rfl, columnOf next, s₂.lineIndent, by rw [← hs₂]; rfl⟩
      · refine ⟨_, rfl, (s₂.expect s₂.lineIndent (columnOf next)).1, s₂.lineIndent, ?_⟩
        simp [State.push, hs₂, flowFrameAt]
    | true =>
      simp only [State.openFrames, ht, flowStart, State.openFlow, hn, if_true]
      split
      · exact ⟨_, rfl, columnOf next, s₂.lineIndent, by rw [← hs₂]; rfl⟩
      · refine ⟨_, rfl, (s₂.expect s₂.lineIndent (columnOf next)).1, s₂.lineIndent, ?_⟩
        simp [State.push, hs₂, flowFrameAt]
  obtain ⟨opened, ⟨i, l, rfl⟩, hmoves⟩ :=
    exists_moves config (fun opened => ∃ i l, opened = flowFrameAt sequence i l :: s.stack) hb
      hopens hpush
  refine ⟨i, l, ?_⟩
  rwa [closeFrames_firm (firm_flowFrameAt sequence i l)] at hmoves

/-- A key, on the stack of its collection. -/
theorem exists_moves_key (config : Config) (buffer : List UInt8) (prev : Option Token)
    (rest : List Token) (hb : Based s.stack) (ht : t.kind = .key)
    (hn : rest.head? = some next) (hf : Firm f) (hs : s.stack = f :: stack) :
    ∃ i, Moves config buffer prev s t rest
      (if endsEntry next.kind then f :: stack
        else .key i (isExplicitKey buffer t) :: f :: stack) := by
  have hpush : ∀ s₂ : State, s₂.stack = s.stack →
      ∃ s₃, s₂.openFrames ⟨buffer, prev, t, rest.head?, rest.tail.head?⟩ = some s₃ ∧
        ∃ i, s₃.stack = .key i (isExplicitKey buffer t) :: f :: stack := by
    intro s₂ hs₂
    have htop : s₂.top? = some f := by simp [State.top?, hs₂, hs]
    simp only [State.openFrames, ht, State.openKey, htop]
    exact ⟨_, rfl, f.indent, by rw [State.push, hs₂, hs]⟩
  obtain ⟨opened, ⟨i, rfl⟩, hmoves⟩ :=
    exists_moves config (fun opened => ∃ i, opened = .key i (isExplicitKey buffer t) :: f :: stack)
      hb (by rw [ht]; rfl) hpush
  refine ⟨i, ?_⟩
  rw [hn, closeFrames_key hf] at hmoves
  exact hmoves

/-- The dash of an item, in a sequence with start and end tokens. -/
theorem exists_moves_dash (config : Config) (buffer : List UInt8) (prev : Option Token)
    (rest : List Token) (hb : Based s.stack) (ht : t.kind = .blockEntry)
    (hn : rest.head? = some next) (hs : s.stack = .blockSeq j false :: stack) :
    ∃ i, Moves config buffer prev s t rest
      (if endsItem next.kind then .blockSeq j false :: stack
        else .blockEntry i :: .blockSeq j false :: stack) := by
  have hpush : ∀ s₂ : State, s₂.stack = s.stack →
      ∃ s₃, s₂.openFrames ⟨buffer, prev, t, rest.head?, rest.tail.head?⟩ = some s₃ ∧
        ∃ i, s₃.stack = if endsItem next.kind then .blockSeq j false :: stack
          else .blockEntry i :: .blockSeq j false :: stack := by
    intro s₂ hs₂
    have htop : s₂.top? = some (.blockSeq j false) := by simp [State.top?, hs₂, hs]
    simp only [State.openFrames, ht, State.openEntry, hn, htop, Frame.isBlockSeq, if_true]
    by_cases hends : endsItem next.kind = true
    · simp only [if_pos hends]
      exact ⟨s₂, rfl, 0, hs₂.trans hs⟩
    · simp only [if_neg hends]
      split
      · exact ⟨_, rfl, columnOf next, by rw [State.push, hs₂, hs]⟩
      · refine ⟨_, rfl, (s₂.expect (columnOf t) (columnOf next)).1, ?_⟩
        simp [State.push, hs₂, hs]
  obtain ⟨opened, ⟨i, rfl⟩, hmoves⟩ :=
    exists_moves config (fun opened => ∃ i, opened = if endsItem next.kind
        then .blockSeq j false :: stack else .blockEntry i :: .blockSeq j false :: stack) hb
      (by rw [ht]; rfl) hpush
  refine ⟨i, ?_⟩
  by_cases hends : endsItem next.kind = true
  · rw [if_pos hends, closeFrames_firm (.inr rfl)] at hmoves
    rwa [if_pos hends]
  · rw [if_neg hends, hn, closeFrames_item] at hmoves
    simpa [hends] using hmoves

/-- A `VALUE` token behind its key. -/
theorem exists_moves_value (config : Config) (buffer : List UInt8) (last : Token)
    (rest : List Token) (hb : Based s.stack) (ht : t.kind = .value)
    (hn : rest.head? = some next) (hp : isProperty next = false) (hf : Firm f)
    (hs : s.stack = .key j e :: f :: stack) :
    ∃ i, Moves config buffer (some last) s t rest
      (if endsEntry next.kind then f :: stack else .value i :: .key j e :: f :: stack) := by
  have hpush : ∀ s₂ : State, s₂.stack = s.stack →
      ∃ s₃, s₂.openFrames ⟨buffer, some last, t, rest.head?, rest.tail.head?⟩ = some s₃ ∧
        ∃ i, s₃.stack = if endsEntry next.kind then .key j e :: f :: stack
          else .value i :: .key j e :: f :: stack := by
    intro s₂ hs₂
    have htop : s₂.top? = some (.key j e) := by simp [State.top?, hs₂, hs]
    simp only [State.openFrames, ht, State.openValue, hn, htop, contentOf_of_not_isProperty hp]
    by_cases hends : endsEntry next.kind = true
    · simp only [if_pos hends]
      exact ⟨s₂, rfl, 0, hs₂.trans hs⟩
    · simp only [if_neg hends]
      refine ⟨_, rfl, (s₂.expectValue j e last next).1, ?_⟩
      simp [State.push, hs₂, hs]
  obtain ⟨opened, ⟨i, rfl⟩, hmoves⟩ :=
    exists_moves config (fun opened => ∃ i, opened = if endsEntry next.kind
        then .key j e :: f :: stack else .value i :: .key j e :: f :: stack) hb
      (by rw [ht]; rfl) hpush
  refine ⟨i, ?_⟩
  by_cases hends : endsEntry next.kind = true
  · rw [if_pos hends, hn, closeFrames_key hf] at hmoves
    simpa [hends] using hmoves
  · rw [if_neg hends, closeFrames_value hf] at hmoves
    simpa [hends, ht] using hmoves

/-- The end token of a block collection whose frame is on top. -/
theorem moves_blockEnd (hb : Based s.stack) (ht : t.kind = .blockEnd) (hs : s.stack = f :: stack)
    (hown : closesOwn f .blockEnd = true) (hne : stack ≠ []) :
    Moves config buffer prev s t (next :: rest) (closeFrames t (some next.kind) true stack).1 := by
  have hp : s.Passes config ⟨buffer, prev, t, some next, rest.head?⟩ :=
    State.passes_of_not_isScalar hb (by simp [ht, TokenKind.isFlowEnd])
      (by simp [ht, Token.isScalar, Token.scalarStyle?])
  have hmoves : Moves config buffer prev s t (next :: rest)
      (closeFrames t (some next.kind) false s.stack).1 := moves_quiet hp (by simp [ht, opensNone])
  rwa [hs, closeFrames_closesOwn (by rw [ht]; exact hown) hne] at hmoves

/-- The closing bracket of a flow collection whose frame is on top. -/
theorem moves_flowEnd {sequence : Bool} {l : Int} (hb : Based s.stack)
    (ht : t.kind = flowEnd sequence) (hs : s.stack = flowFrameAt sequence i l :: stack)
    (hne : stack ≠ []) :
    Moves config buffer prev s t (next :: rest) (closeFrames t (some next.kind) true stack).1 := by
  have hkind : t.isScalar = false ∧ opensNone t.kind = true := by
    cases sequence <;> simp [ht, flowEnd, Token.isScalar, Token.scalarStyle?, opensNone]
  -- a bracket that starts a line is compared with the line of the opening one
  have hbracket : (s.top?.bind Frame.lineIndent?).isSome = true := by
    simp only [State.top?, hs]
    cases sequence <;> rfl
  obtain ⟨fs, s₁, hstart⟩ := checkStart_isSome (t := t) hb fun _ _ => hbracket
  have hp : s.Passes config ⟨buffer, prev, t, some next, rest.head?⟩ :=
    ⟨fs, s₁, hstart, by simp [State.checkScalar, hkind.1]⟩
  have hmoves : Moves config buffer prev s t (next :: rest)
      (closeFrames t (some next.kind) false s.stack).1 := moves_quiet hp hkind.2
  have hown : closesOwn (flowFrameAt sequence i l) t.kind = true := by
    cases sequence <;> simp [ht, flowEnd, flowFrameAt, closesOwn]
  rwa [hs, closeFrames_closesOwn hown hne] at hmoves

/-! ## Nodes -/

/-- The first token of a regular node. -/
theorem exists_first (node : Node) (h : node.regular = true) (rest : List Token) :
    ∃ t, (node.tokens ++ rest).head? = some t ∧ Starts t ∧ isProperty t = false := by
  have hnone : ∀ {props : List Property} {b : Bool}, (props.isEmpty && b) = true → props = [] := by
    intro props b hprops
    exact List.isEmpty_iff.1 (Bool.and_eq_true_iff.1 hprops).1
  cases node with
  | bare p ps => cases h
  | leaf props leaf =>
    obtain rfl : props = [] := List.isEmpty_iff.1 h
    obtain ⟨-, -, -, hi, he, hp⟩ := leaf_quiet leaf.2
    exact ⟨leaf.1, by rw [Node.tokens]; rfl, ⟨hi, he⟩, hp⟩
  | blockMap props start entries stop =>
    obtain rfl := hnone h
    refine ⟨start.1, by rw [Node.tokens]; rfl, ⟨?_, ?_⟩, ?_⟩ <;>
      simp [start.2, endsItem, endsEntry, isProperty]
  | blockSeq props start items stop =>
    obtain rfl := hnone h
    refine ⟨start.1, by rw [Node.tokens]; rfl, ⟨?_, ?_⟩, ?_⟩ <;>
      simp [start.2, endsItem, endsEntry, isProperty]
  | flow props sequence start members stop =>
    obtain rfl := hnone h
    refine ⟨start.1, by rw [Node.tokens]; rfl, ⟨?_, ?_⟩, ?_⟩ <;>
      cases sequence <;> simp [start.2, flowStart, endsItem, endsEntry, isProperty]

/-- Behind the last token of a regular node, a value is over. -/
theorem last_ends_value (node : Node) (h : node.regular = true) :
    (node.last.kind != .value && !isProperty node.last) = true := by
  cases node with
  | bare p ps => cases h
  | leaf props leaf =>
    obtain ⟨-, hopens, -, -, -, hp⟩ := leaf_quiet leaf.2
    have hvalue : leaf.1.kind ≠ .value := by
      intro hkind
      rw [hkind] at hopens
      cases hopens
    simp [Node.last, hvalue, hp]
  | blockMap props start entries stop => simp [Node.last, stop.2, isProperty]
  | blockSeq props start items stop => simp [Node.last, stop.2, isProperty]
  | flow props sequence start members stop =>
    cases sequence <;> simp [Node.last, stop.2, flowEnd, isProperty]

/-- A node runs smoothly on every stack on which it can start. -/
def NodeSmooth (config : Config) (buffer : List UInt8) (node : Node) : Prop :=
  node.regular = true ∧
    ∀ (prev : Option Token) (s : State) (next : Token) (rest : List Token), Based s.stack →
      Scanned buffer (node.tokens ++ next :: rest) → Poised s.stack → Guarded s node →
        Smooth config buffer prev s node.tokens (next :: rest)
          (closeFrames node.last (some next.kind) true s.stack).1

/-- The node of a place runs smoothly. -/
def SlotSmooth (config : Config) (buffer : List UInt8) (slot : Slot) : Prop :=
  ∀ node, slot = .filled node → NodeSmooth config buffer node

theorem slotSmooth_empty : SlotSmooth config buffer .empty := by
  intro node h
  cases h

theorem slotSmooth_filled {node : Node} (h : NodeSmooth config buffer node) :
    SlotSmooth config buffer (.filled node) := by
  intro node' hnode
  cases hnode
  exact h

theorem guarded_of_stack {node : Node} (hs : s.stack = f :: stack) (hf : ∀ i, f ≠ .key i false) :
    Guarded s node := by
  intro ps leaf _ _ i htop
  rw [State.top?, hs] at htop
  exact hf i (Option.some.inj htop)

theorem smooth_leaf (leaf : Leaf) : NodeSmooth config buffer (.leaf [] leaf) := by
  refine ⟨rfl, ?_⟩
  intro prev s next rest hb _ _ hg
  obtain ⟨hflow, hopens, hender, -⟩ := leaf_quiet leaf.2
  have hp : s.Passes config ⟨buffer, prev, leaf.1, some next, rest.head?⟩ :=
    State.passes_of_isScalar hb hflow (hg [] leaf rfl)
  have hmoves : Moves config buffer prev s leaf.1 (next :: rest)
      (closeFrames leaf.1 (some next.kind) false s.stack).1 := moves_quiet hp hopens
  rw [closeFrames_of_not_isEnder hender] at hmoves
  rw [Node.tokens]
  exact .single (nesting_of_opensNone hopens hender) hmoves

/-- A collection whose content leaves nothing but its frame. -/
theorem smooth_collection {start stop : Token} {inner : List Token} (hb : Based s.stack)
    (hp : Poised s.stack) (ho : isOpener start.kind = true) (hc : isEnder stop.kind = true)
    (hstart : Moves config buffer prev s start (inner ++ stop :: next :: rest) (f :: s.stack))
    (hinner : ∀ s₁ : State, Based s₁.stack → s₁.stack = f :: s.stack →
      Smooth config buffer (some start) s₁ inner (stop :: next :: rest) (f :: s.stack))
    (hstop : ∀ (prev : Option Token) (s₂ : State), Based s₂.stack → s₂.stack = f :: s.stack →
      Moves config buffer prev s₂ stop (next :: rest)
        (closeFrames stop (some next.kind) true s.stack).1) :
    Smooth config buffer prev s (start :: (inner ++ [stop])) (next :: rest)
      (closeFrames stop (some next.kind) true s.stack).1 := by
  have hinner := hinner _ (based_after hb) hstart.stack
  have hstop := hstop (inner.getLast?.or (some start)) _ (based_over (based_after hb)) hinner.stack
  exact .enclosed ho hc hstart hinner hstop hp.restores

/-! ## Block sequences -/

/-- An item in front of another one or of the end of its sequence. -/
theorem smooth_item {slot : Slot} (hslot : SlotSmooth config buffer slot)
    (dash : TokenOf .blockEntry) (hb : Based s.stack)
    (hs : Scanned buffer (dash.1 :: (slot.tokens ++ next :: rest)))
    (hnext : endsItem next.kind = true) (hstack : s.stack = .blockSeq j false :: stack) :
    Smooth config buffer prev s (dash.1 :: slot.tokens) (next :: rest)
      (.blockSeq j false :: stack) := by
  have hdash : nesting dash.1 = 0 :=
    nesting_other (by simp [dash.2, isOpener]) (by simp [dash.2, isEnder])
  cases slot with
  | empty =>
    obtain ⟨i, hmoves⟩ := exists_moves_dash config buffer prev (next :: rest) hb dash.2 rfl hstack
    rw [if_pos hnext] at hmoves
    exact .single hdash hmoves
  | filled node =>
    obtain ⟨hregular, hnode⟩ := hslot node rfl
    obtain ⟨u, hfirst, hstarts, -⟩ := exists_first node hregular (next :: rest)
    obtain ⟨i, hmoves⟩ := exists_moves_dash config buffer prev _ hb dash.2 hfirst hstack
    rw [hstarts.1] at hmoves
    have hsmooth := hnode (some dash.1) _ next rest (based_after hb) hs.tail
      (by rw [hmoves.stack]; exact .item) (guarded_of_stack hmoves.stack (by simp))
    have hend : (closeFrames node.last (some next.kind) true
        (.blockEntry i :: .blockSeq j false :: stack)).1 = .blockSeq j false :: stack := by
      rw [closeFrames_item]
      simp [hnext]
    rw [hmoves.stack] at hsmooth
    exact .cons hdash hmoves (hend ▸ hsmooth)

/-- The items of a sequence leave nothing but its frame. -/
def ItemsSmooth (config : Config) (buffer : List UInt8) (items : Items) : Prop :=
  ∀ (prev : Option Token) (s : State) (stop : Token) (rest : List Token) (j : Int)
    (stack : List Frame), Based s.stack → Scanned buffer (items.tokens ++ stop :: rest) →
      stop.kind = .blockEnd → s.stack = .blockSeq j false :: stack →
        Smooth config buffer prev s items.tokens (stop :: rest) (.blockSeq j false :: stack)

theorem itemsSmooth_last {slot : Slot} (hslot : SlotSmooth config buffer slot)
    (dash : TokenOf .blockEntry) : ItemsSmooth config buffer (.last dash slot) := by
  intro prev s stop rest j stack hb hs hstop hstack
  rw [Items.tokens] at hs ⊢
  exact smooth_item hslot dash hb hs (by simp [hstop, endsItem]) hstack

theorem itemsSmooth_cons {slot : Slot} {more : Items} (hslot : SlotSmooth config buffer slot)
    (hmore : ItemsSmooth config buffer more) (dash : TokenOf .blockEntry) :
    ItemsSmooth config buffer (.cons dash slot more) := by
  intro prev s stop rest j stack hb hs hstop hstack
  obtain ⟨u, us, hu, hk⟩ := exists_items_tokens more
  have hs : Scanned buffer (dash.1 :: (slot.tokens ++ (more.tokens ++ stop :: rest))) := by
    simpa [Items.tokens] using hs
  have hitem : Smooth config buffer prev s (dash.1 :: slot.tokens) (more.tokens ++ stop :: rest)
      (.blockSeq j false :: stack) := by
    rw [hu] at hs ⊢
    exact smooth_item hslot dash hb hs (by simp [hk, endsItem]) hstack
  rw [Items.tokens, ← List.cons_append]
  exact hitem.append
    (hmore _ _ stop rest j stack (based_over hb) (hs.drop (dash.1 :: slot.tokens)) hstop hitem.stack)

theorem smooth_blockSeq {items : Items} (hregular : items.regular = true)
    (hitems : ItemsSmooth config buffer items) (start : TokenOf .blockSequenceStart)
    (stop : TokenOf .blockEnd) : NodeSmooth config buffer (.blockSeq [] start items stop) := by
  refine ⟨by simp [Node.regular, hregular], ?_⟩
  intro prev s next rest hb hs hp _
  have hs : Scanned buffer (start.1 :: (items.tokens ++ stop.1 :: next :: rest)) := by
    simpa [Node.tokens, propTokens] using hs
  obtain ⟨u, us, hu, hk⟩ := exists_items_tokens items
  have hfirst : ∃ next' us', items.tokens ++ stop.1 :: next :: rest = next' :: us' ∧
      next'.kind = .blockEntry := ⟨u, us ++ stop.1 :: next :: rest, by rw [hu]; rfl, hk⟩
  have hstart : Moves config buffer prev s start.1 (items.tokens ++ stop.1 :: next :: rest)
      (.blockSeq (columnOf start.1) false :: s.stack) :=
    moves_blockStart .blockEntry (.blockSeq · false) hb (by rw [start.2]; rfl) hs hfirst (.inr rfl)
      (by intro s₂; simp [State.openFrames, start.2])
  rw [Node.tokens]
  apply smooth_collection hb hp (by simp [start.2, isOpener]) (by simp [stop.2, isEnder]) hstart
  · intro s₁ hb₁ hs₁
    exact hitems _ s₁ stop.1 (next :: rest) _ _ hb₁ hs.tail stop.2 hs₁
  · intro prev s₂ hb₂ hs₂
    exact moves_blockEnd hb₂ stop.2 hs₂ rfl hb.ne_nil

/-! ## Entries -/

/-- What an entry leaves open in front of `next`: nothing if `next` ends it; else it may be its key,
or its key with an empty value. -/
def Trails (next : Token) (f : Frame) (stack stack' : List Frame) : Prop :=
  stack' = f :: stack ∨ endsEntry next.kind = false ∧
    ((∃ i e, stack' = .key i e :: f :: stack) ∨
      ∃ i j e, stack' = .value i :: .key j e :: f :: stack)

/-- A key with its content. -/
theorem smooth_keyed {slot : Slot} (hslot : SlotSmooth config buffer slot) (k : TokenOf .key)
    (prev : Option Token) (hb : Based s.stack)
    (hs : Scanned buffer (k.1 :: (slot.tokens ++ next :: rest))) (hf : Firm f) (hstack : s.stack = f :: stack) :
    ∃ i e, Smooth config buffer prev s (k.1 :: slot.tokens) (next :: rest)
      (if endsEntry next.kind then f :: stack else .key i e :: f :: stack) := by
  have hkey : nesting k.1 = 0 := nesting_other (by simp [k.2, isOpener]) (by simp [k.2, isEnder])
  cases slot with
  | empty =>
    obtain ⟨i, hmoves⟩ := exists_moves_key config buffer prev (next :: rest) hb k.2 rfl hf hstack
    exact ⟨i, _, .single hkey hmoves⟩
  | filled node =>
    obtain ⟨hregular, hnode⟩ := hslot node rfl
    obtain ⟨u, hfirst, hstarts, -⟩ := exists_first node hregular (next :: rest)
    obtain ⟨i, hmoves⟩ := exists_moves_key config buffer prev _ hb k.2 hfirst hf hstack
    rw [hstarts.2] at hmoves
    -- a block scalar stands only behind a key that has a `?`
    have hguarded : Guarded (s.after config buffer prev k.1 (node.tokens ++ next :: rest)) node := by
      rintro ps leaf rfl hblock j htop
      have hexplicit : isExplicitKey buffer k.1 = true := by
        refine hs.keyed [] k.1 (propTokens ps) leaf.1 (next :: rest) ?_ k.2
          (fun p hp => isProperty_of_mem_propTokens hp) hblock
        rw [Slot.tokens, Node.tokens]
        simp
      rw [State.top?, hmoves.stack, hexplicit] at htop
      simp at htop
    have hsmooth := hnode (some k.1) _ next rest (based_after hb) hs.tail
      (by rw [hmoves.stack]; exact .key hf) hguarded
    refine ⟨i, isExplicitKey buffer k.1, ?_⟩
    rw [hmoves.stack] at hsmooth
    have hend : (closeFrames node.last (some next.kind) true
        (.key i (isExplicitKey buffer k.1) :: f :: stack)).1 =
          if endsEntry next.kind then f :: stack
          else .key i (isExplicitKey buffer k.1) :: f :: stack := closeFrames_key hf
    exact .cons hkey hmoves (hend ▸ hsmooth)

/-- A value with its content, behind its key. -/
theorem smooth_held {slot : Slot} (hslot : SlotSmooth config buffer slot) (v : TokenOf .value)
    (last : Token) (hb : Based s.stack)
    (hs : Scanned buffer (v.1 :: (slot.tokens ++ next :: rest))) (hnext : isProperty next = false)
    (hf : Firm f) (hstack : s.stack = .key j e :: f :: stack) :
    ∃ stack', Smooth config buffer (some last) s (v.1 :: slot.tokens) (next :: rest) stack' ∧
      Trails next f stack stack' := by
  have hvalue : nesting v.1 = 0 := nesting_other (by simp [v.2, isOpener]) (by simp [v.2, isEnder])
  cases slot with
  | empty =>
    obtain ⟨i, hmoves⟩ :=
      exists_moves_value config buffer last (next :: rest) hb v.2 rfl hnext hf hstack
    refine ⟨_, .single hvalue hmoves, ?_⟩
    by_cases hends : endsEntry next.kind = true
    · rw [if_pos hends]
      exact .inl rfl
    · rw [if_neg hends]
      exact .inr ⟨by simpa using hends, .inr ⟨i, j, e, rfl⟩⟩
  | filled node =>
    obtain ⟨hregular, hnode⟩ := hslot node rfl
    obtain ⟨u, hfirst, hstarts, hproperty⟩ := exists_first node hregular (next :: rest)
    obtain ⟨i, hmoves⟩ := exists_moves_value config buffer last _ hb v.2 hfirst hproperty hf hstack
    rw [hstarts.2] at hmoves
    have hsmooth := hnode (some v.1) _ next rest (based_after hb) hs.tail
      (by rw [hmoves.stack]; exact .value hf) (guarded_of_stack hmoves.stack (by simp))
    rw [hmoves.stack] at hsmooth
    have hend : (closeFrames node.last (some next.kind) true
        (.value i :: .key j e :: f :: stack)).1 = f :: stack := by
      rw [closeFrames_value hf, last_ends_value node hregular]
      rfl
    exact ⟨f :: stack, .cons hvalue hmoves (hend ▸ hsmooth), .inl rfl⟩

/-- The place behind a key or a value runs smoothly. -/
def BodySmooth (config : Config) (buffer : List UInt8) (body : Body) : Prop :=
  ∃ slot, body = .slot slot ∧ SlotSmooth config buffer slot

/-- An entry leaves no more open than its key and its value. -/
def EntrySmooth (config : Config) (buffer : List UInt8) (entry : Entry) : Prop :=
  ∀ (prev : Option Token) (s : State) (next : Token) (rest : List Token) (f : Frame)
    (stack : List Frame), Based s.stack → Scanned buffer (entry.tokens ++ next :: rest) →
      isProperty next = false → Firm f → s.stack = f :: stack →
        ∃ stack', Smooth config buffer prev s entry.tokens (next :: rest) stack' ∧
          Trails next f stack stack'

theorem entrySmooth_key {content : Body} (hcontent : BodySmooth config buffer content)
    (k : TokenOf .key) : EntrySmooth config buffer (.key k content) := by
  obtain ⟨slot, rfl, hslot⟩ := hcontent
  intro prev s next rest f stack hb hs hnext hf hstack
  rw [Entry.tokens, Body.tokens] at hs ⊢
  obtain ⟨i, e, hsmooth⟩ := smooth_keyed hslot k prev hb hs hf hstack
  refine ⟨_, hsmooth, ?_⟩
  by_cases hends : endsEntry next.kind = true
  · rw [if_pos hends]
    exact .inl rfl
  · rw [if_neg hends]
    exact .inr ⟨by simpa using hends, .inl ⟨i, e, rfl⟩⟩

theorem entrySmooth_pair {content held : Body} (hcontent : BodySmooth config buffer content)
    (hheld : BodySmooth config buffer held) (k : TokenOf .key) (v : TokenOf .value) :
    EntrySmooth config buffer (.pair k content v held) := by
  obtain ⟨slot, rfl, hslot⟩ := hcontent
  obtain ⟨place, rfl, hplace⟩ := hheld
  intro prev s next rest f stack hb hs hnext hf hstack
  have hs : Scanned buffer
      (k.1 :: (slot.tokens ++ v.1 :: (place.tokens ++ next :: rest))) := by
    simpa [Entry.tokens, Body.tokens] using hs
  obtain ⟨i, e, hkeyed⟩ := smooth_keyed hslot k prev hb hs hf hstack
  have hvalue : endsEntry v.1.kind = false := by simp [v.2, endsEntry]
  rw [hvalue] at hkeyed
  obtain ⟨last, hlast⟩ : ∃ last, (k.1 :: slot.tokens).getLast?.or prev = some last := by
    rw [getLast?_or_cons]
    cases slot.tokens.getLast? with
    | none => exact ⟨k.1, rfl⟩
    | some u => exact ⟨u, rfl⟩
  obtain ⟨stack', hsmooth, htrails⟩ := smooth_held hplace v last (based_over hb)
    (hs.drop (k.1 :: slot.tokens)) hnext hf hkeyed.stack
  refine ⟨stack', ?_, htrails⟩
  rw [Entry.tokens, Body.tokens, Body.tokens, ← List.cons_append]
  rw [← hlast] at hsmooth
  exact hkeyed.append hsmooth

/-! ## Block mappings -/

/-- The entries of a block mapping leave nothing but its frame. -/
def EntriesSmooth (config : Config) (buffer : List UInt8) (entries : Entries) : Prop :=
  ∀ (prev : Option Token) (s : State) (stop : Token) (rest : List Token) (f : Frame)
    (stack : List Frame), Based s.stack → Scanned buffer (entries.tokens ++ stop :: rest) →
      stop.kind = .blockEnd → Firm f → s.stack = f :: stack →
        Smooth config buffer prev s entries.tokens (stop :: rest) (f :: stack)

/-- An entry in front of another one or of the end of its mapping. -/
theorem EntrySmooth.closed {entry : Entry} (h : EntrySmooth config buffer entry)
    (prev : Option Token) (hb : Based s.stack) (hs : Scanned buffer (entry.tokens ++ next :: rest))
    (hnext : next.kind = .key ∨ next.kind = .blockEnd) (hf : Firm f)
    (hstack : s.stack = f :: stack) :
    Smooth config buffer prev s entry.tokens (next :: rest) (f :: stack) := by
  have hkind : isProperty next = false ∧ endsEntry next.kind = true := by
    rcases hnext with hnext | hnext <;> simp [hnext, isProperty, endsEntry]
  obtain ⟨stack', hsmooth, rfl | ⟨hends, -⟩⟩ := h prev s next rest f stack hb hs hkind.1 hf hstack
  · exact hsmooth
  · rw [hkind.2] at hends
    cases hends

theorem entriesSmooth_last {entry : Entry} (h : EntrySmooth config buffer entry) :
    EntriesSmooth config buffer (.last entry) := by
  intro prev s stop rest f stack hb hs hstop hf hstack
  rw [Entries.tokens] at hs ⊢
  exact h.closed prev hb hs (.inr hstop) hf hstack

theorem entriesSmooth_cons {entry : Entry} {more : Entries} (h : EntrySmooth config buffer entry)
    (hmore : EntriesSmooth config buffer more) : EntriesSmooth config buffer (.cons entry more) := by
  intro prev s stop rest f stack hb hs hstop hf hstack
  obtain ⟨u, us, hu, hk⟩ := exists_entries_tokens more
  have hs : Scanned buffer (entry.tokens ++ (more.tokens ++ stop :: rest)) := by
    simpa [Entries.tokens] using hs
  have hentry : Smooth config buffer prev s entry.tokens (more.tokens ++ stop :: rest)
      (f :: stack) := by
    rw [hu] at hs ⊢
    exact h.closed prev hb hs (.inl hk) hf hstack
  rw [Entries.tokens]
  exact hentry.append
    (hmore _ _ stop rest f stack (based_over hb) (hs.drop entry.tokens) hstop hf hentry.stack)

theorem smooth_blockMap {entries : Entries} (hregular : entries.regular = true)
    (hentries : EntriesSmooth config buffer entries) (start : TokenOf .blockMappingStart)
    (stop : TokenOf .blockEnd) : NodeSmooth config buffer (.blockMap [] start entries stop) := by
  refine ⟨by simp [Node.regular, hregular], ?_⟩
  intro prev s next rest hb hs hp _
  have hs : Scanned buffer (start.1 :: (entries.tokens ++ stop.1 :: next :: rest)) := by
    simpa [Node.tokens, propTokens] using hs
  obtain ⟨u, us, hu, hk⟩ := exists_entries_tokens entries
  have hfirst : ∃ next' us', entries.tokens ++ stop.1 :: next :: rest = next' :: us' ∧
      next'.kind = .key := ⟨u, us ++ stop.1 :: next :: rest, by rw [hu]; rfl, hk⟩
  have hstart : Moves config buffer prev s start.1 (entries.tokens ++ stop.1 :: next :: rest)
      (.blockMap (columnOf start.1) :: s.stack) :=
    moves_blockStart .key .blockMap hb (by rw [start.2]; rfl) hs hfirst (.inr rfl)
      (by intro s₂; simp [State.openFrames, start.2])
  rw [Node.tokens]
  apply smooth_collection hb hp (by simp [start.2, isOpener]) (by simp [stop.2, isEnder]) hstart
  · intro s₁ hb₁ hs₁
    exact hentries _ s₁ stop.1 (next :: rest) _ _ hb₁ hs.tail stop.2 (.inr rfl) hs₁
  · intro prev s₂ hb₂ hs₂
    exact moves_blockEnd hb₂ stop.2 hs₂ rfl hb.ne_nil

/-! ## Flow collections -/

/-- What is left open in front of a member that starts with `first`: nothing, or the key of an entry
before it, which lingers until a key or a closing bracket comes. -/
def Lingers (first : Token) (f : Frame) (stack stack' : List Frame) : Prop :=
  stack' = f :: stack ∨ endsEntry first.kind = false ∧ ∃ i e, stack' = .key i e :: f :: stack

theorem Lingers.trails {stack' : List Frame} (h : Lingers next f stack stack') :
    Trails next f stack stack' := by
  rcases h with h | ⟨hends, hkey⟩
  · exact .inl h
  · exact .inr ⟨hends, .inl hkey⟩

theorem Lingers.poised {stack' : List Frame} (h : Lingers next f stack stack') (hf : Firm f) :
    Poised stack' := by
  rcases h with rfl | ⟨-, i, e, rfl⟩
  · exact .firm hf
  · exact .key hf

/-- Behind a node, a key that lingers goes on or is over. -/
theorem Lingers.closeFrames {first : Token} {stack' : List Frame} (h : Lingers first f stack stack')
    (hf : Firm f) :
    Trails next f stack (Indentation.closeFrames t (some next.kind) true stack').1 := by
  rcases h with rfl | ⟨-, i, e, rfl⟩
  · rw [closeFrames_firm hf]
    exact .inl rfl
  · rw [closeFrames_key hf]
    by_cases hends : endsEntry next.kind = true
    · rw [Option.any_some, if_pos hends]
      exact .inl rfl
    · rw [Option.any_some, if_neg hends]
      exact .inr ⟨by simpa using hends, .inl ⟨i, e, rfl⟩⟩

/-- A comma closes a value, and a key only in front of another key or a closing bracket. -/
theorem exists_moves_comma (config : Config) (buffer : List UInt8) (prev : Option Token)
    (rest : List Token) (hb : Based s.stack) (ht : t.kind = .flowEntry)
    (hn : rest.head? = some next) (hf : Firm f) (hs : Trails t f stack s.stack) :
    ∃ stack', Moves config buffer prev s t rest stack' ∧ Lingers next f stack stack' := by
  have hp : s.Passes config ⟨buffer, prev, t, rest.head?, rest.tail.head?⟩ :=
    State.passes_of_not_isScalar hb (by simp [ht, TokenKind.isFlowEnd])
      (by simp [ht, Token.isScalar, Token.scalarStyle?])
  have hmoves := moves_quiet hp (by simp [ht, opensNone])
  rw [closeFrames_of_not_isEnder (by simp [ht, isEnder]), hn] at hmoves
  refine ⟨_, hmoves, ?_⟩
  rcases hs with hs | ⟨-, ⟨i, e, hs⟩ | ⟨i, j, e, hs⟩⟩
  · rw [hs, closeFrames_firm hf]
    exact .inl rfl
  · rw [hs, closeFrames_key hf]
    by_cases hends : endsEntry next.kind = true
    · simp only [Option.map_some, Option.any_some, if_pos hends]
      exact .inl rfl
    · simp only [Option.map_some, Option.any_some, if_neg hends]
      exact .inr ⟨by simpa using hends, i, e, rfl⟩
  · rw [hs, closeFrames_value hf]
    simp only [ht, isProperty]
    exact .inl rfl

/-- A member of a flow collection leaves no more open than a key and its value. -/
def MemberSmooth (config : Config) (buffer : List UInt8) (member : Member) : Prop :=
  ∀ (prev : Option Token) (s : State) (next : Token) (rest : List Token) (f : Frame)
    (stack : List Frame), Based s.stack → Scanned buffer (member.tokens ++ next :: rest) →
      (∀ t ∈ member.tokens, isBlockScalar t = false) → isProperty next = false → Firm f →
        Lingers (firstOr next member.tokens) f stack s.stack →
          ∃ stack', Smooth config buffer prev s member.tokens (next :: rest) stack' ∧
            Trails next f stack stack'

theorem memberSmooth_slot {slot : Slot} (h : SlotSmooth config buffer slot) :
    MemberSmooth config buffer (.slot slot) := by
  intro prev s next rest f stack hb hs hflat hnext hf hlingers
  rw [Member.tokens] at hs hflat hlingers ⊢
  cases slot with
  | empty => exact ⟨s.stack, .nil, hlingers.trails⟩
  | filled node =>
    obtain ⟨-, hnode⟩ := h node rfl
    have hguarded : Guarded s node := by
      rintro ps leaf rfl hblock
      have hmem : leaf.1 ∈ (Slot.filled (.leaf ps leaf)).tokens := by
        rw [Slot.tokens, Node.tokens]
        simp
      rw [hflat leaf.1 hmem] at hblock
      cases hblock
    exact ⟨_, hnode prev s next rest hb hs (hlingers.poised hf) hguarded, hlingers.closeFrames hf⟩

theorem memberSmooth_entry {entry : Entry} (h : EntrySmooth config buffer entry) :
    MemberSmooth config buffer (.entry entry) := by
  intro prev s next rest f stack hb hs _ hnext hf hlingers
  rw [Member.tokens] at hs hlingers ⊢
  obtain ⟨u, us, hu, hk⟩ := exists_entry_tokens entry
  rcases hlingers with hstack | ⟨hends, -⟩
  · exact h prev s next rest f stack hb hs hnext hf hstack
  · -- the comma in front of a key has closed everything
    rw [hu] at hends
    simp [firstOr, hk, endsEntry] at hends

/-- The members of a flow collection leave nothing but its frame. -/
def MembersSmooth (config : Config) (buffer : List UInt8) (members : Members) : Prop :=
  ∀ (prev : Option Token) (s : State) (stop : Token) (rest : List Token) (f : Frame)
    (stack : List Frame), Based s.stack → Scanned buffer (members.tokens ++ stop :: rest) →
      (∀ t ∈ members.tokens, isBlockScalar t = false) → stop.kind.isFlowEnd = true → Firm f →
        Lingers (firstOr stop members.tokens) f stack s.stack →
          Smooth config buffer prev s members.tokens (stop :: rest) (f :: stack)

theorem membersSmooth_last {member : Member} (h : MemberSmooth config buffer member) :
    MembersSmooth config buffer (.last member) := by
  intro prev s stop rest f stack hb hs hflat hstop hf hlingers
  have hkind : isProperty stop = false ∧ endsEntry stop.kind = true := by
    unfold TokenKind.isFlowEnd at hstop
    split at hstop <;> simp_all [isProperty, endsEntry]
  rw [Members.tokens] at hs hflat hlingers ⊢
  obtain ⟨stack', hsmooth, rfl | ⟨hends, -⟩⟩ :=
    h prev s stop rest f stack hb hs hflat hkind.1 hf hlingers
  · exact hsmooth
  · rw [hkind.2] at hends
    cases hends

theorem membersSmooth_cons {member : Member} {more : Members}
    (h : MemberSmooth config buffer member) (hmore : MembersSmooth config buffer more)
    (comma : TokenOf .flowEntry) : MembersSmooth config buffer (.cons member comma more) := by
  intro prev s stop rest f stack hb hs hflat hstop hf hlingers
  have hs : Scanned buffer (member.tokens ++ comma.1 :: (more.tokens ++ stop :: rest)) := by
    simpa [Members.tokens] using hs
  simp only [Members.tokens, List.mem_append, List.mem_cons] at hflat
  have hfirst : firstOr stop (Members.cons member comma more).tokens =
      firstOr comma.1 member.tokens := by
    rw [Members.tokens]
    cases member.tokens <;> rfl
  rw [hfirst] at hlingers
  obtain ⟨stack₁, hmember, htrails⟩ := h prev s comma.1 (more.tokens ++ stop :: rest) f stack hb hs
    (fun t ht => hflat t (.inl ht)) (by simp [comma.2, isProperty]) hf hlingers
  -- the comma stands behind the member, and the others behind the comma
  have hb₁ : Based (s.over config buffer prev member.tokens
      (comma.1 :: (more.tokens ++ stop :: rest))).stack := based_over hb
  rw [← hmember.stack] at htrails
  obtain ⟨stack₂, hcomma, hlingers₂⟩ := exists_moves_comma config buffer
    (member.tokens.getLast?.or prev) _ hb₁ comma.2 (head?_tokens stop more.tokens rest) hf htrails
  rw [← hcomma.stack] at hlingers₂
  have hrest := hmore (some comma.1) _ stop rest f stack (based_after hb₁)
    (hs.drop member.tokens).tail (fun t ht => hflat t (.inr (.inr ht))) hstop hf hlingers₂
  have hnesting : nesting comma.1 = 0 :=
    nesting_of_opensNone (by rw [comma.2]; rfl) (by rw [comma.2]; rfl)
  rw [Members.tokens]
  exact hmember.append (.cons hnesting hcomma hrest)

theorem smooth_flow {members : Members} {sequence : Bool} (hregular : members.regular = true)
    (hmembers : MembersSmooth config buffer members) (start : TokenOf (flowStart sequence))
    (stop : TokenOf (flowEnd sequence)) :
    NodeSmooth config buffer (.flow [] sequence start members stop) := by
  refine ⟨by simp [Node.regular, hregular], ?_⟩
  intro prev s next rest hb hs hp _
  have hs : Scanned buffer (start.1 :: (members.tokens ++ stop.1 :: next :: rest)) := by
    simpa [Node.tokens, propTokens] using hs
  have hflat := hs.not_isBlockScalar start.2 (bracketed_members members)
  obtain ⟨i, l, hstart⟩ := exists_moves_flowStart config buffer prev _ hb start.2
    (head?_tokens stop.1 members.tokens (next :: rest))
  have hopener : isOpener start.1.kind = true := by
    cases sequence <;> simp [start.2, flowStart, isOpener]
  have hender : isEnder stop.1.kind = true := by
    cases sequence <;> simp [stop.2, flowEnd, isEnder]
  rw [Node.tokens]
  apply smooth_collection hb hp hopener hender hstart
  · intro s₁ hb₁ hs₁
    refine hmembers _ s₁ stop.1 (next :: rest) _ _ hb₁ hs.tail hflat ?_
      (firm_flowFrameAt sequence i l) (.inl hs₁)
    cases sequence <;> simp [stop.2, flowEnd, TokenKind.isFlowEnd]
  · intro prev s₂ hb₂ hs₂
    exact moves_flowEnd hb₂ stop.2 hs₂ hb.ne_nil

/-! ## All trees -/

mutual

/-- Regular nodes run smoothly. -/
theorem smooth_node (node : Node) (h : node.regular = true) : NodeSmooth config buffer node := by
  match node with
  | .leaf props leaf =>
    obtain rfl : props = [] := List.isEmpty_iff.1 h
    exact smooth_leaf leaf
  | .blockMap props start entries stop =>
    obtain ⟨hprops, hentries⟩ := Bool.and_eq_true_iff.1 h
    obtain rfl : props = [] := List.isEmpty_iff.1 hprops
    exact smooth_blockMap hentries (smooth_entries entries hentries) start stop
  | .blockSeq props start items stop =>
    obtain ⟨hprops, hitems⟩ := Bool.and_eq_true_iff.1 h
    obtain rfl : props = [] := List.isEmpty_iff.1 hprops
    exact smooth_blockSeq hitems (smooth_items items hitems) start stop
  | .flow props sequence start members stop =>
    obtain ⟨hprops, hmembers⟩ := Bool.and_eq_true_iff.1 h
    obtain rfl : props = [] := List.isEmpty_iff.1 hprops
    exact smooth_flow hmembers (smooth_members members hmembers) start stop

theorem smooth_slot (slot : Slot) (h : slot.regular = true) : SlotSmooth config buffer slot := by
  match slot with
  | .empty => exact slotSmooth_empty
  | .filled node => exact slotSmooth_filled (smooth_node node h)

theorem smooth_items (items : Items) (h : items.regular = true) :
    ItemsSmooth config buffer items := by
  match items with
  | .last dash slot => exact itemsSmooth_last (smooth_slot slot h) dash
  | .cons dash slot more =>
    obtain ⟨hslot, hmore⟩ := Bool.and_eq_true_iff.1 h
    exact itemsSmooth_cons (smooth_slot slot hslot) (smooth_items more hmore) dash

theorem smooth_body (body : Body) (h : body.regular = true) : BodySmooth config buffer body := by
  match body with
  | .slot slot => exact ⟨slot, rfl, smooth_slot slot h⟩

theorem smooth_entry (entry : Entry) (h : entry.regular = true) :
    EntrySmooth config buffer entry := by
  match entry with
  | .key k content => exact entrySmooth_key (smooth_body content h) k
  | .pair k content v held =>
    obtain ⟨hcontent, hheld⟩ := Bool.and_eq_true_iff.1 h
    exact entrySmooth_pair (smooth_body content hcontent) (smooth_body held hheld) k v

theorem smooth_entries (entries : Entries) (h : entries.regular = true) :
    EntriesSmooth config buffer entries := by
  match entries with
  | .last entry => exact entriesSmooth_last (smooth_entry entry h)
  | .cons entry more =>
    obtain ⟨hentry, hmore⟩ := Bool.and_eq_true_iff.1 h
    exact entriesSmooth_cons (smooth_entry entry hentry) (smooth_entries more hmore)

theorem smooth_member (member : Member) (h : member.regular = true) :
    MemberSmooth config buffer member := by
  match member with
  | .slot slot => exact memberSmooth_slot (smooth_slot slot h)
  | .entry entry => exact memberSmooth_entry (smooth_entry entry h)

theorem smooth_members (members : Members) (h : members.regular = true) :
    MembersSmooth config buffer members := by
  match members with
  | .last member => exact membersSmooth_last (smooth_member member h)
  | .cons member comma more =>
    obtain ⟨hmember, hmore⟩ := Bool.and_eq_true_iff.1 h
    exact membersSmooth_cons (smooth_member member hmember) (smooth_members more hmore) comma

end

/-! ## Streams -/

/-- A quiet token between documents. -/
theorem smooth_root (hs : s.stack = [.root]) (hflow : t.kind.isFlowEnd = false)
    (hscalar : t.isScalar = false) (hopens : opensNone t.kind = true)
    (hender : isEnder t.kind = false) : Smooth config buffer prev s [t] rest [.root] := by
  have hb : Based s.stack := by
    rw [hs]
    rfl
  have hmoves : Moves config buffer prev s t rest
      (closeFrames t (rest.head?.map Token.kind) false s.stack).1 :=
    moves_quiet (State.passes_of_not_isScalar hb hflow hscalar) hopens
  rw [hs, closeFrames_single] at hmoves
  exact .single (nesting_of_opensNone hopens hender) hmoves

/-- The documents of a stream leave nothing but the root. -/
theorem smooth_parts (config : Config) (parts : List Part) (h : parts.all Part.regular = true)
    (prev : Option Token) (s : State) (stop : Token)
    (hs : Scanned buffer (parts.flatMap Part.tokens ++ [stop])) (hstack : s.stack = [.root]) :
    Smooth config buffer prev s (parts.flatMap Part.tokens) [stop] [.root] := by
  induction parts generalizing prev s with
  | nil =>
    rw [← hstack]
    exact .nil
  | cons part parts ih =>
    rw [List.all_cons, Bool.and_eq_true] at h
    rw [List.flatMap_cons, List.append_assoc] at hs
    have hpart : Smooth config buffer prev s part.tokens (parts.flatMap Part.tokens ++ [stop])
        [.root] := by
      match part with
      | .boundary token =>
        obtain ⟨hflow, hscalar, hopens, hender⟩ := boundary_quiet token.2
        exact smooth_root hstack hflow hscalar hopens hender
      | .node node =>
        -- the token behind the node is the first of the parts that follow, or the end of the stream
        obtain ⟨next, after, hnext⟩ :
            ∃ next after, parts.flatMap Part.tokens ++ [stop] = next :: after := by
          cases parts.flatMap Part.tokens with
          | nil => exact ⟨stop, [], rfl⟩
          | cons t ts => exact ⟨t, ts ++ [stop], rfl⟩
        have hb : Based s.stack := by
          rw [hstack]
          rfl
        have hpoised : Poised s.stack := by
          rw [hstack]
          exact .firm (.inl rfl)
        have hguarded : Guarded s node := guarded_of_stack hstack (by simp)
        rw [hnext] at hs ⊢
        obtain ⟨-, hsmooth⟩ : NodeSmooth config buffer node := smooth_node node h.1
        have hnode := hsmooth prev s next after hb hs hpoised hguarded
        rwa [hstack, closeFrames_single] at hnode
    rw [List.flatMap_cons]
    exact hpart.append (ih h.2 _ _ (hs.drop part.tokens) hpart.stack)

/-- A regular stream runs smoothly. -/
theorem smooth_stream (config : Config) (y : Stream) (h : y.regular = true)
    (hs : Scanned buffer y.tokens) :
    Smooth config buffer none (.start config) y.tokens [] [.root] := by
  obtain ⟨start, parts, stop⟩ := y
  rw [Stream.tokens] at hs ⊢
  have hstart : Smooth config buffer none (.start config) [start.1]
      (parts.flatMap Part.tokens ++ [stop.1] ++ []) [.root] := by
    apply smooth_root rfl <;>
      simp [start.2, TokenKind.isFlowEnd, Token.isScalar, Token.scalarStyle?, opensNone, isEnder]
  have hparts := smooth_parts config parts h (some start.1) _ stop.1 hs.tail hstart.stack
  refine hstart.append (hparts.append ?_)
  apply smooth_root hparts.stack <;>
    simp [stop.2, TokenKind.isFlowEnd, Token.isScalar, Token.scalarStyle?, opensNone, isEnder]

/-- The states of the rule on a source whose tokens are those of a stream without anchors, tags and
sequences that lack start and end tokens. For all options, no token is told not to fit. For every
collection, the stack behind its end token is the one in front of its start token, but that an item, a
key, or a value and its key may be gone from the top. -/
theorem regular_stream_fits (source : String) (config : Config) (y : Stream)
    (hy : (scan source).tokens = y.tokens) (h : y.regular = true) :
    (∀ fs ∈ (rule config).run (windows (Text.bytes source.toList) (scan source).tokens),
      ∀ f ∈ fs, isAnomaly f = false) ∧
    ∀ xs o inner c ys, Pair (scan source).tokens xs o inner c ys →
      Restores
        (stateBehind config (Text.bytes source.toList) (scan source).tokens xs.length).stack
        (stateBehind config (Text.bytes source.toList) (scan source).tokens
          (xs.length + inner.length + 2)).stack := by
  have hscanned : Scanned (Text.bytes source.toList) (scan source).tokens :=
    ScanState.scanned_scanText source.toList
  have hsmooth : Smooth config (Text.bytes source.toList) none (.start config) (scan source).tokens
      [] [.root] := by
    rw [hy] at hscanned ⊢
    exact smooth_stream config y h hscanned
  constructor
  · exact hsmooth.not_isAnomaly
  · intro xs o inner c ys hpair
    exact hsmooth.restores_stateBehind hpair

/-- A token of a kind, between two marks. -/
def tokenAt (kind : TokenKind) (start stop : Mark) : TokenOf kind := ⟨⟨kind, start, stop⟩, rfl⟩

theorem isLeafKind_scalar (value : String) (style : ScalarStyle) :
    isLeafKind (.scalar value style) = true := rfl

/-- A plain scalar between two marks. -/
def wordAt (value : String) (start stop : Mark) : Slot :=
  .filled (.leaf [] ⟨⟨.scalar value .plain, start, stop⟩, isLeafKind_scalar value .plain⟩)

/-- The stream of a flow sequence whose first member is a key without a value. The key is open while
the mapping behind it starts. -/
def lingeringKey : Stream :=
  let pair : Entry :=
    .pair (tokenAt .key ⟨9, 0, 9⟩ ⟨9, 0, 9⟩) (.slot (wordAt "b" ⟨9, 0, 9⟩ ⟨10, 0, 10⟩))
      (tokenAt .value ⟨10, 0, 10⟩ ⟨11, 0, 11⟩) (.slot (wordAt "c" ⟨12, 0, 12⟩ ⟨13, 0, 13⟩))
  let mapping : Node :=
    .flow [] false (tokenAt .flowMappingStart ⟨8, 0, 8⟩ ⟨9, 0, 9⟩) (.last (.entry pair))
      (tokenAt .flowMappingEnd ⟨13, 0, 13⟩ ⟨14, 0, 14⟩)
  let key : Entry :=
    .key (tokenAt .key ⟨3, 0, 3⟩ ⟨4, 0, 4⟩) (.slot (wordAt "a" ⟨5, 0, 5⟩ ⟨6, 0, 6⟩))
  let members : Members :=
    .cons (.entry key) (tokenAt .flowEntry ⟨6, 0, 6⟩ ⟨7, 0, 7⟩) (.last (.slot (.filled mapping)))
  let sequence : Node :=
    .flow [] true (tokenAt .flowSequenceStart ⟨2, 0, 2⟩ ⟨3, 0, 3⟩) members
      (tokenAt .flowSequenceEnd ⟨14, 0, 14⟩ ⟨15, 0, 15⟩)
  let entry : Entry := .key (tokenAt .key .origin ⟨1, 0, 1⟩) (.slot (.filled sequence))
  { start := tokenAt .streamStart .origin .origin
    parts := [.node (.blockMap [] (tokenAt .blockMappingStart .origin .origin) (.last entry)
      (tokenAt .blockEnd ⟨16, 1, 0⟩ ⟨16, 1, 0⟩))]
    stop := tokenAt .streamEnd ⟨16, 1, 0⟩ ⟨16, 1, 0⟩ }

/-- The mapping behind a key without a value fits, and takes no more than that key. -/
theorem regular_stream_fits_lingeringKey :
    (scan "? [? a, {b: c}]\n").error = none ∧
      (scan "? [? a, {b: c}]\n").tokens = lingeringKey.tokens ∧ lingeringKey.regular = true ∧
      ∀ config : Config,
        (∀ fs ∈ (rule config).run (windows (Text.bytes "? [? a, {b: c}]\n".toList)
          (scan "? [? a, {b: c}]\n").tokens), ∀ f ∈ fs, isAnomaly f = false) ∧
        Restores
          (stateBehind config (Text.bytes "? [? a, {b: c}]\n".toList)
            (scan "? [? a, {b: c}]\n").tokens 7).stack
          (stateBehind config (Text.bytes "? [? a, {b: c}]\n".toList)
            (scan "? [? a, {b: c}]\n").tokens 13).stack := by
  have htokens : (scan "? [? a, {b: c}]\n").tokens = lingeringKey.tokens := by decide +kernel
  have hregular : lingeringKey.regular = true := by decide +kernel
  refine ⟨by decide +kernel, htokens, hregular, fun config => ?_⟩
  obtain ⟨hfits, hrestores⟩ :=
    regular_stream_fits "? [? a, {b: c}]\n" config lingeringKey htokens hregular
  refine ⟨hfits, hrestores (lingeringKey.tokens.take 7) ⟨.flowMappingStart, ⟨8, 0, 8⟩, ⟨9, 0, 9⟩⟩
    ((lingeringKey.tokens.drop 8).take 4) ⟨.flowMappingEnd, ⟨13, 0, 13⟩, ⟨14, 0, 14⟩⟩
    (lingeringKey.tokens.drop 13) ⟨?_, rfl, rfl, ?_⟩⟩
  · rw [htokens]
    decide +kernel
  · exact (Balanced.single rfl).append
      ((Balanced.single rfl).append ((Balanced.single rfl).append (.single rfl)))

end YamlLinter.Indentation
