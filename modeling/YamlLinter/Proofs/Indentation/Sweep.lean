import YamlLinter.Proofs.Indentation.Walk

/-!
# Tokens among litter

A token that belongs to a tree finds on the stack what the entries in front of it have left open,
and leaves of it what `sweep` says.

## Contents

* `stack_over_props`, `plain_over_bare`, `plain_over_leaf`: properties and leaves;
* `plain_after_key`, `plain_after_dash`, `plain_after_value`, `plain_after_comma`: marks;
* `Starts`, `opensValue_eq`: the first tokens of trees;
* `Hollow`, `Swept`: the last tokens of trees.
-/

namespace YamlLinter.Indentation

open Grammar

variable {config : Config} {buffer : List UInt8} {prev : Option Token} {s s' s₁ s₂ : State}
  {t next : Token} {ts us rest : List Token} {f : Frame} {stack stack' : List Frame}
  {w : List Litter}

/-! ## Properties and leaves -/

/-- A property opens nothing, ends nothing, and is visible. -/
theorem property_quiet (ht : isProperty t = true) :
    t.kind.isFlowEnd = false ∧ t.isScalar = false ∧ opensNone t.kind = true ∧
      isEnder t.kind = false ∧ endsItem t.kind = false ∧ endsEntry t.kind = false ∧
      isVisible t = true := by
  unfold isProperty at ht
  split at ht
  · simp_all [TokenKind.isFlowEnd, Token.isScalar, Token.scalarStyle?, opensNone, isEnder, endsItem,
      endsEntry, isVisible]
  · simp_all [TokenKind.isFlowEnd, Token.isScalar, Token.scalarStyle?, opensNone, isEnder, endsItem,
      endsEntry, isVisible]
  · cases ht

/-- Behind a property that belongs to something, the stack is as before. -/
theorem stack_after_property (hb : Based s.stack) (ht : isProperty t = true)
    (hi : endsItem next.kind = false) (he : endsEntry next.kind = false) :
    (s.after config buffer prev t (next :: rest)).stack = s.stack := by
  obtain ⟨hflow, hscalar, hopens, -⟩ := property_quiet ht
  have hp : s.Passes config ⟨buffer, prev, t, some next, rest.head?⟩ :=
    State.passes_of_not_isScalar hb hflow hscalar
  obtain ⟨s₂, hs, -, hc⟩ := check_passes hp
  show (check config ⟨buffer, prev, t, some next, rest.head?⟩ s).2.stack = s.stack
  rw [hc, State.shift, openFrames_of_opensNone hopens]
  show (closeFrames t (some next.kind) false s₂.stack).1 = s.stack
  rw [closeFrames_property ht hi he, hs]

/-- Behind properties that belong to something, the stack is as before. -/
theorem stack_over_props (props : List Property) (prev : Option Token) (s : State)
    (hb : Based s.stack) (hi : endsItem next.kind = false) (he : endsEntry next.kind = false) :
    (s.over config buffer prev (propTokens props) (next :: rest)).stack = s.stack := by
  induction props generalizing prev s with
  | nil => rfl
  | cons p props ih =>
    show ((s.after config buffer prev p.1 (propTokens props ++ next :: rest)).over config buffer
      (some p.1) (propTokens props) (next :: rest)).stack = s.stack
    have hafter : (s.after config buffer prev p.1 (propTokens props ++ next :: rest)).stack =
        s.stack := by
      cases props with
      | nil => exact stack_after_property hb p.2 hi he
      | cons q props =>
        obtain ⟨-, -, -, -, hqi, hqe, -⟩ := property_quiet q.2
        exact stack_after_property hb p.2 hqi hqe
    rw [ih _ _ (hafter ▸ hb), hafter]

/-- A quiet token closes frames and opens none. -/
theorem plain_after_quiet (hb : Based s.stack) (hflow : t.kind.isFlowEnd = false)
    (hscalar : t.isScalar = false) (hopens : opensNone t.kind = true) :
    (s.after config buffer prev t (next :: rest)).plain =
      (closeFrames t (some next.kind) false s.plain).1 :=
  plain_check_quiet (State.passes_of_not_isScalar hb hflow hscalar) hopens

/-- Properties without content close frames at their end. -/
theorem plain_over_bare (more : List Property) (first : Property) (prev : Option Token) (s : State)
    (hb : Based s.stack) :
    (s.over config buffer prev (first.1 :: propTokens more) (next :: rest)).plain =
      (closeFrames (lastOr first.1 (propTokens more)) (some next.kind) true s.plain).1 := by
  induction more generalizing first prev s with
  | nil =>
    obtain ⟨hflow, hscalar, hopens, hender, -⟩ := property_quiet first.2
    show (s.after config buffer prev first.1 (next :: rest)).plain = _
    rw [plain_after_quiet hb hflow hscalar hopens, closeFrames_of_not_isEnder hender]
    rfl
  | cons q more ih =>
    obtain ⟨-, -, -, -, hqi, hqe, -⟩ := property_quiet q.2
    have hafter : (s.after config buffer prev first.1
        (propTokens (q :: more) ++ next :: rest)).stack = s.stack :=
      stack_after_property hb first.2 hqi hqe
    rw [over_cons]
    show (State.over config buffer _ _ (q.1 :: propTokens more) (next :: rest)).plain = _
    rw [ih _ _ _ (hafter ▸ hb)]
    show _ = (closeFrames (lastOr first.1 (q.1 :: propTokens more)) _ true s.plain).1
    rw [lastOr_cons, State.plain, hafter]
    rfl

/-- An alias or a scalar opens nothing and ends nothing. -/
theorem leaf_quiet (ht : isLeafKind t.kind = true) :
    t.kind.isFlowEnd = false ∧ opensNone t.kind = true ∧ isEnder t.kind = false ∧
      endsItem t.kind = false ∧ endsEntry t.kind = false ∧ isProperty t = false := by
  unfold isLeafKind at ht
  split at ht
  · simp_all [TokenKind.isFlowEnd, opensNone, isEnder, endsItem, endsEntry, isProperty]
  · simp_all [TokenKind.isFlowEnd, opensNone, isEnder, endsItem, endsEntry, isProperty]
  · cases ht

/-- A node whose lines can be compared: it is no block scalar behind a key without `?`. -/
def Guarded (s : State) (node : Node) : Prop :=
  ∀ ps leaf, node = .leaf ps leaf → isBlockScalar leaf.1 = true →
    ∀ i, s.top? ≠ some (.key i false)

/-- A node that no key stands in front of can be compared. -/
theorem guarded_of_top (h : ∀ stack, s.plain ≠ .key 0 false :: stack) (node : Node) :
    Guarded s node := by
  intro ps leaf _ _ i htop
  unfold State.top? at htop
  obtain ⟨rest, hstack⟩ : ∃ rest, s.stack = .key i false :: rest := by
    cases hs : s.stack with
    | nil => simp [hs] at htop
    | cons f rest =>
      rw [hs] at htop
      cases htop
      exact ⟨rest, rfl⟩
  exact h (rest.map Frame.plain) (by rw [State.plain, hstack]; rfl)

/-- A leaf closes frames at its end, with its properties in front of it. -/
theorem plain_over_leaf {props : List Property} {leaf : Leaf} (hb : Based s.stack)
    (hg : isBlockScalar leaf.1 = true → ∀ i, s.top? ≠ some (.key i false)) :
    (s.over config buffer prev (propTokens props ++ [leaf.1]) (next :: rest)).plain =
      (closeFrames leaf.1 (some next.kind) true s.plain).1 := by
  obtain ⟨hflow, hopens, hender, hi, he, -⟩ := leaf_quiet leaf.2
  rw [over_append]
  generalize hs₁ : s.over config buffer prev (propTokens props) ([leaf.1] ++ next :: rest) = s₁
  have hstack : s₁.stack = s.stack := hs₁ ▸ stack_over_props props prev s hb hi he
  have hb₁ : Based s₁.stack := hstack ▸ hb
  have hp : s₁.Passes config ⟨buffer, (propTokens props).getLast?.or prev, leaf.1, some next,
      rest.head?⟩ := by
    refine State.passes_of_isScalar hb₁ hflow fun hblock i => ?_
    have := hg hblock i
    simpa [State.top?, hstack] using this
  show (check config ⟨buffer, (propTokens props).getLast?.or prev, leaf.1, some next,
    rest.head?⟩ s₁).2.plain = _
  rw [plain_check_quiet hp hopens, closeFrames_of_not_isEnder hender]
  simp only [State.plain, hstack]
  rfl

/-! ## Tokens among litter -/

theorem head?_tokens (next : Token) (ts rest : List Token) :
    (ts ++ next :: rest).head? = some (firstOr next ts) := by
  cases ts <;> rfl

/-- A frame of a collection whose entries leave litter. -/
def Holds (f : Frame) : Prop := f.isOwned = true ∧ f.isBlockSeq = false

/-- Among litter that does not start with a key, no key is on top. -/
theorem plain_ne_key (hf : Holds f) (hw : ∀ v, w ≠ .key :: v) (hp : s.plain = frames w ++ f :: stack) :
    ∀ v, s.plain ≠ .key 0 false :: v := by
  intro v hv
  rw [hp] at hv
  cases w with
  | nil =>
    have hfk : f = .key 0 false := (List.cons.inj hv).1
    rw [hfk] at hf
    cases hf.1
  | cons l w =>
    cases l with
    | key => exact hw w rfl
    | _ => cases hv

/-- A token that ends no collection sweeps the litter. -/
theorem plain_closes_litter (hf : Holds f) (he : isEnder t.kind = false) :
    (closeFrames t (some next.kind) false (frames w ++ f :: stack)).1 =
      frames (sweep t next w) ++ f :: stack := by
  rw [closeFrames_of_not_isEnder he, closeFrames_true_frames w hf.1]

/-- A `KEY` token leaves its key on the litter, and sweeps it if the key is empty. -/
theorem plain_after_key (hb : Based s.stack) (ht : t.kind = .key) (hn : rest.head? = some next)
    (hf : Holds f) (hp : s.plain = frames w ++ f :: stack) :
    (s.after config buffer prev t rest).plain = frames (sweep t next (.key :: w)) ++ f :: stack := by
  have h : (s.after config buffer prev t rest).plain =
      (closeFrames t (some next.kind) false (.key 0 false :: s.plain)).1 :=
    plain_check_key hb ht hn
  have hender : isEnder t.kind = false := by simp [ht, isEnder]
  rw [h, hp]
  exact plain_closes_litter (w := .key :: w) hf hender

theorem plain_after_comma (hb : Based s.stack) (ht : t.kind = .flowEntry)
    (hn : rest.head? = some next) (hf : Holds f) (hp : s.plain = frames w ++ f :: stack) :
    (s.after config buffer prev t rest).plain = frames (sweep t next w) ++ f :: stack := by
  have h : (s.after config buffer prev t rest).plain =
      (closeFrames t (rest.head?.map Token.kind) false s.plain).1 :=
    plain_check_quiet (State.passes_of_not_isScalar hb (by simp [ht, TokenKind.isFlowEnd])
      (by simp [ht, Token.isScalar, Token.scalarStyle?])) (by simp [ht, opensNone])
  rw [h, hn, hp]
  exact plain_closes_litter hf (by simp [ht, isEnder])

/-- What a dash opens among litter. -/
theorem dashFrames_frames (hf : Holds f) (hi : endsItem next.kind = false) :
    dashFrames next (frames w ++ f :: stack) = frames (openItem w) ++ f :: stack := by
  unfold dashFrames
  rw [if_neg (by simp [hi])]
  cases w with
  | nil => simp [hf.2, openItem, Litter.frames]
  | cons l w => cases l <;> rfl

theorem exists_openItem (w : List Litter) : ∃ v, openItem w = .item :: v := by
  cases w with
  | nil => exact ⟨[], rfl⟩
  | cons l w => cases l <;> exact ⟨_, rfl⟩

/-- A dash opens an item, or sweeps if the item is empty. -/
theorem plain_after_dash (hb : Based s.stack) (ht : t.kind = .blockEntry)
    (hn : rest.head? = some next) (hf : Holds f) (hp : s.plain = frames w ++ f :: stack) :
    (s.after config buffer prev t rest).plain = frames (dashLitter t next w) ++ f :: stack := by
  have h : (s.after config buffer prev t rest).plain =
      (closeFrames t (some next.kind) false (dashFrames next s.plain)).1 :=
    plain_check_blockEntry hb ht hn
  have hender : isEnder t.kind = false := by simp [ht, isEnder]
  rw [h, hp]
  by_cases hi : endsItem next.kind = true
  · have hsame : dashFrames next (frames w ++ f :: stack) = frames w ++ f :: stack := by
      simp [dashFrames, hi]
    rw [hsame, plain_closes_litter hf hender, dashLitter, if_pos hi]
  · have hi : endsItem next.kind = false := by simpa using hi
    rw [dashFrames_frames hf hi, plain_closes_litter hf hender, dashLitter, if_neg (by simp [hi])]
    -- the item just opened stays open
    obtain ⟨v, hv⟩ := exists_openItem w
    have hstays : sweep t next (.item :: v) = .item :: v := by simp [sweep, ht, hi]
    rw [hv, hstays]

/-- A dash in a sequence with start and end tokens. -/
theorem plain_after_dash_seq (hb : Based s.stack) (ht : t.kind = .blockEntry)
    (hn : rest.head? = some next) (hp : s.plain = .blockSeq 0 false :: stack) :
    (s.after config buffer prev t rest).plain =
      if endsItem next.kind then .blockSeq 0 false :: stack
      else .blockEntry 0 :: .blockSeq 0 false :: stack := by
  have h : (s.after config buffer prev t rest).plain =
      (closeFrames t (some next.kind) false (dashFrames next s.plain)).1 :=
    plain_check_blockEntry hb ht hn
  rw [h, hp]
  by_cases hi : endsItem next.kind = true
  · have hender : isEnder t.kind = false := by simp [ht, isEnder]
    rw [dashFrames, if_pos hi, if_pos hi]
    exact closeFrames_owned rfl hender false
  · rw [dashFrames, if_neg hi, if_neg hi]
    simp [Frame.isBlockSeq, closeFrames, closing, closesOwn, ht, hi]

/-- The end of an item in a sequence with start and end tokens. -/
theorem closeFrames_item_seq (hi : endsItem next.kind = true) :
    (closeFrames t (some next.kind) true (.blockEntry 0 :: .blockSeq 0 false :: stack)).1 =
      .blockSeq 0 false :: stack := by
  have hclose : closing t (some next.kind) true (.blockEntry 0) (some (.blockSeq 0 false)) =
      .closeOne := by
    simp [closing, closesOwn, Frame.isImplicitSeq, hi]
  rw [closeFrames, hclose]
  exact congrArg Prod.fst (closeFrames_true_owned rfl stack)

/-- A `VALUE` token behind a key. -/
theorem plain_after_value {last : Token} (hb : Based s.stack) (ht : t.kind = .value)
    (hn : rest.head? = some next) (hf : Holds f) (hp : s.plain = frames w ++ f :: stack)
    {opens : Bool} (hopens : opens = !endsEntry (State.contentOf last next rest.tail.head?).kind) :
    (s.after config buffer (some last) t rest).plain =
      frames (valueLitter t next opens w) ++ f :: stack := by
  have hender : isEnder t.kind = false := by simp [ht, isEnder]
  -- with no key on top the token is passed over
  have hother : (∀ v, w ≠ .key :: v) →
      (s.after config buffer (some last) t rest).plain = frames w ++ f :: stack := by
    intro hw
    rw [← hp]
    exact plain_check_value_other hb ht (plain_ne_key hf hw hp)
  cases w with
  | nil => exact hother (by simp)
  | cons l w =>
    cases l with
    | key =>
      have h : (s.after config buffer (some last) t rest).plain =
          (closeFrames t (some next.kind) false
            (if endsEntry (State.contentOf last next rest.tail.head?).kind then s.plain
              else .value 0 :: s.plain)).1 :=
        plain_check_value_key hb ht rfl hn hp
      rw [h, hp, valueLitter, hopens]
      cases endsEntry (State.contentOf last next rest.tail.head?).kind with
      | true => exact plain_closes_litter hf hender
      | false =>
        have hstays : sweep t next (.pair :: w) = .pair :: w := by simp [sweep, ht]
        have hclose : (closeFrames t (some next.kind) false (frames (.pair :: w) ++ f :: stack)).1 =
            frames (sweep t next (.pair :: w)) ++ f :: stack := plain_closes_litter hf hender
        rw [hstays] at hclose
        exact hclose
    | pair => exact hother (by simp)
    | item => exact hother (by simp)
    | list => exact hother (by simp)

/-! ## The first tokens of trees -/

/-- A token with which content starts. -/
def Starts (t : Token) : Prop := endsItem t.kind = false ∧ endsEntry t.kind = false

/-- Content can start with a property. -/
theorem starts_property (ht : isProperty t = true) : Starts t := by
  obtain ⟨-, -, -, -, hi, he, -⟩ := property_quiet ht
  exact ⟨hi, he⟩

/-- A node that is not bare: properties, and what they belong to. -/
theorem exists_core (node : Node) (h : ∀ p ps, node ≠ .bare p ps) :
    ∃ props t ts, node.tokens = propTokens props ++ t :: ts ∧ Starts t ∧ isProperty t = false := by
  cases node with
  | bare p ps => exact absurd rfl (h p ps)
  | leaf props leaf =>
    obtain ⟨-, -, -, hi, he, hp⟩ := leaf_quiet leaf.2
    exact ⟨props, leaf.1, [], by rw [Node.tokens], ⟨hi, he⟩, hp⟩
  | blockMap props start entries stop =>
    refine ⟨props, start.1, _, by rw [Node.tokens], ⟨?_, ?_⟩, ?_⟩ <;>
      simp [start.2, endsItem, endsEntry, isProperty]
  | blockSeq props start items stop =>
    refine ⟨props, start.1, _, by rw [Node.tokens], ⟨?_, ?_⟩, ?_⟩ <;>
      simp [start.2, endsItem, endsEntry, isProperty]
  | flow props sequence start members stop =>
    refine ⟨props, start.1, _, by rw [Node.tokens], ⟨?_, ?_⟩, ?_⟩ <;>
      cases sequence <;> simp [start.2, flowStart, endsItem, endsEntry, isProperty]

/-- Nodes have a token, and start content. -/
theorem exists_node_tokens (node : Node) : ∃ t ts, node.tokens = t :: ts ∧ Starts t := by
  by_cases h : ∃ p ps, node = .bare p ps
  · obtain ⟨p, ps, rfl⟩ := h
    exact ⟨p.1, _, by rw [Node.tokens], starts_property p.2⟩
  · obtain ⟨props, t, ts, htokens, hstarts, -⟩ :=
      exists_core node fun p ps hn => h ⟨p, ps, hn⟩
    cases props with
    | nil => exact ⟨t, ts, htokens, hstarts⟩
    | cons p props => exact ⟨p.1, _, htokens, starts_property p.2⟩

/-- What is no property is content itself. -/
theorem contentOf_of_not_isProperty {last : Token} {after : Option Token}
    (ht : isProperty t = false) : State.contentOf last t after = t := by
  unfold State.contentOf
  split <;> simp [ht]

/-- A value whose content is not bare is opened. -/
theorem endsEntry_contentOf {last : Token} (props : List Property)
    (hends : endsEntry t.kind = false) (ht : isProperty t = false) :
    endsEntry (State.contentOf last (firstOr next (propTokens props ++ t :: ts))
      (propTokens props ++ t :: ts ++ rest).tail.head?).kind = false := by
  cases props with
  | nil =>
    show endsEntry (State.contentOf last t (ts ++ rest).head?).kind = false
    rw [contentOf_of_not_isProperty ht]
    exact hends
  | cons p props =>
    -- the content is the property itself or the token behind it, and neither ends an entry
    have hsecond : ∃ u, (propTokens props ++ t :: ts ++ rest).head? = some u ∧
        endsEntry u.kind = false := by
      cases props with
      | nil => exact ⟨t, rfl, hends⟩
      | cons q props => exact ⟨q.1, rfl, (starts_property q.2).2⟩
    obtain ⟨u, hu, hue⟩ := hsecond
    show endsEntry (State.contentOf last p.1 (propTokens props ++ t :: ts ++ rest).head?).kind = false
    rw [hu]
    simp only [State.contentOf]
    split
    · exact hue
    · exact (starts_property p.2).2

/-- A node that is not bare opens its value. -/
theorem opensValue_of_not_bare {node : Node} {last : Token} (h : ∀ p ps, node ≠ .bare p ps) :
    (Body.slot (.filled node)).opensValue last next = true := by
  cases node with
  | bare p ps => exact absurd rfl (h p ps)
  | _ => rfl

theorem opensValue_eq_of_not_bare (node : Node) (last next : Token) (rest : List Token)
    (h : ∀ p ps, node ≠ .bare p ps) :
    (Body.slot (.filled node)).opensValue last next =
      !endsEntry (State.contentOf last (firstOr next (Body.slot (.filled node)).tokens)
        ((Body.slot (.filled node)).tokens ++ next :: rest).tail.head?).kind := by
  obtain ⟨ps, t, ts, htokens, hstarts, hp⟩ := exists_core node h
  rw [Body.tokens, Slot.tokens, htokens, endsEntry_contentOf ps hstarts.2 hp,
    opensValue_of_not_bare h]
  rfl

/-- The rule opens a value just when its content says so. -/
theorem opensValue_eq (held : Body) (last next : Token) (rest : List Token)
    (hnext : isProperty next = false) :
    held.opensValue last next =
      !endsEntry (State.contentOf last (firstOr next held.tokens)
        (held.tokens ++ next :: rest).tail.head?).kind := by
  match held with
  | .slot .empty =>
    show (!endsEntry next.kind) = !endsEntry (State.contentOf last next rest.head?).kind
    rw [contentOf_of_not_isProperty hnext]
  | .slot (.filled (.bare p [])) =>
    show (!(endsEntry next.kind && p.1.start.line == last.start.line &&
      p.1.start.line < next.start.line)) = !endsEntry (State.contentOf last p.1 (some next)).kind
    -- a property alone: the rule looks at the token behind it, if that starts another line
    simp only [State.contentOf, p.2, Bool.true_and]
    split
    · rename_i hc
      simp only [Bool.and_eq_true] at hc
      simp [hc.1, hc.2]
    · rename_i hc
      simp only [Bool.not_eq_true] at hc
      rw [(starts_property p.2).2, Bool.and_assoc, hc]
      simp
  | .slot (.filled (.bare p (q :: more))) =>
    show true = !endsEntry (State.contentOf last p.1 (some q.1)).kind
    simp only [State.contentOf]
    split
    · rw [(starts_property q.2).2]
      rfl
    · rw [(starts_property p.2).2]
      rfl
  | .slot (.filled (.leaf props leaf)) => exact opensValue_eq_of_not_bare (.leaf props leaf) _ _ _ (by simp)
  | .slot (.filled (.blockMap props start entries stop)) =>
    exact opensValue_eq_of_not_bare (.blockMap props start entries stop) _ _ _ (by simp)
  | .slot (.filled (.blockSeq props start items stop)) =>
    exact opensValue_eq_of_not_bare (.blockSeq props start items stop) _ _ _ (by simp)
  | .slot (.filled (.flow props sequence start members stop)) =>
    exact opensValue_eq_of_not_bare (.flow props sequence start members stop) _ _ _ (by simp)
  | .list props items =>
    obtain ⟨t, ts, htokens, hk⟩ := exists_items_tokens items
    have hp : isProperty t = false := by simp [isProperty, hk]
    have hends : endsEntry t.kind = false := by rw [hk]; rfl
    rw [Body.tokens, htokens, endsEntry_contentOf props hends hp]
    rfl

/-! ## The last token of a flow collection -/

/-- A token that the rule knows by its line, and which does not close all litter. -/
def Hollow (t : Token) : Prop := isProperty t = true ∨ t.kind = .blockEntry ∨ t.kind = .value

/-- How litter comes about: nothing was there, or the last token is hollow, or it has swept. -/
def Swept (next : Token) (ts : List Token) (w w' : List Litter) : Prop :=
  ts = [] ∧ w' = w ∨ ∃ us t, ts = us ++ [t] ∧ (Hollow t ∨ ∃ v, w' = sweep t next v)

theorem Swept.behind {w₁ w₂ : List Litter} (h : Swept next ts w₁ w₂) (us : List Token)
    (hts : ts ≠ []) : Swept next (us ++ ts) w w₂ := by
  rcases h with ⟨rfl, -⟩ | ⟨vs, t, rfl, ht⟩
  · exact absurd rfl hts
  · exact .inr ⟨us ++ vs, t, by rw [List.append_assoc], ht⟩

/-- A token that is hollow or has swept, in front of a tree. -/
theorem Swept.cons {w₁ w₂ : List Litter} (h : Swept next ts w₁ w₂)
    (ht : ts = [] → Hollow t ∨ ∃ v, w₁ = sweep t next v) : Swept next (t :: ts) w w₂ := by
  by_cases hts : ts = []
  · rcases h with ⟨-, rfl⟩ | ⟨vs, u, hvs, -⟩
    · exact .inr ⟨[], t, by rw [hts]; rfl, ht hts⟩
    · rw [hts] at hvs
      simp at hvs
  · exact h.behind [t] hts

/-- The last token of a node is the last of its tokens. -/
theorem exists_node_last (node : Node) : ∃ us, node.tokens = us ++ [node.last] := by
  cases node with
  | bare first more =>
    rw [Node.tokens, Node.last]
    exact exists_lastOr first.1 (propTokens more)
  | leaf props leaf => exact ⟨propTokens props, by rw [Node.tokens, Node.last]⟩
  | blockMap props start entries stop =>
    exact ⟨propTokens props ++ start.1 :: entries.tokens, by simp [Node.tokens, Node.last]⟩
  | blockSeq props start items stop =>
    exact ⟨propTokens props ++ start.1 :: items.tokens, by simp [Node.tokens, Node.last]⟩
  | flow props sequence start members stop =>
    exact ⟨propTokens props ++ start.1 :: members.tokens, by simp [Node.tokens, Node.last]⟩

/-- Behind a node, its last token has swept. -/
theorem swept_slot (slot : Slot) (next : Token) (w : List Litter) :
    Swept next slot.tokens w (slot.litter next w) := by
  cases slot with
  | empty => exact .inl ⟨rfl, rfl⟩
  | filled node =>
    obtain ⟨us, hus⟩ := exists_node_last node
    exact .inr ⟨us, node.last, by rw [Slot.tokens, hus], .inr ⟨w, rfl⟩⟩

theorem swept_items (items : Items) (next : Token) (w : List Litter) :
    Swept next items.tokens w (items.litter next w) := by
  cases items with
  | last dash slot =>
    rw [Items.tokens, Items.litter]
    exact (swept_slot slot next _).cons fun _ => .inl (.inr (.inl dash.2))
  | cons dash slot more =>
    obtain ⟨t, ts, htokens, -⟩ := exists_items_tokens more
    rw [Items.tokens, Items.litter]
    exact (swept_items more next _).behind (dash.1 :: slot.tokens) (by simp [htokens])

theorem swept_body (content : Body) (next : Token) (w : List Litter) :
    Swept next content.tokens w (content.litter next w) := by
  cases content with
  | slot slot =>
    rw [Body.tokens, Body.litter]
    exact swept_slot slot next w
  | list props items =>
    obtain ⟨t, ts, htokens, -⟩ := exists_items_tokens items
    rw [Body.tokens, Body.litter]
    exact (swept_items items next _).behind (propTokens props) (by simp [htokens])

/-- The last token of an entry is its mark, or has swept. -/
theorem swept_entry (entry : Entry) (next : Token) (w : List Litter) :
    Swept next entry.tokens w (entry.litter next w) := by
  cases entry with
  | key k content =>
    rw [Entry.tokens, Entry.litter]
    refine (swept_body content next _).cons fun hts => .inr ⟨.key :: w, ?_⟩
    rw [hts]
    rfl
  | pair k content v held =>
    rw [Entry.tokens, Entry.litter]
    have hvalue := (swept_body held next (valueLitter v.1 (firstOr next held.tokens)
      (held.opensValue (lastOr k.1 content.tokens) next) (content.litter v.1
        (sweep k.1 (firstOr v.1 content.tokens) (.key :: w))))).cons (t := v.1) (w := w)
        fun _ => .inl (.inr (.inr v.2))
    exact hvalue.behind (k.1 :: content.tokens) (by simp)

theorem swept_member (member : Member) (next : Token) (w : List Litter) :
    Swept next member.tokens w (member.litter next w) := by
  cases member with
  | slot slot =>
    rw [Member.tokens, Member.litter]
    exact swept_slot slot next w
  | entry entry =>
    rw [Member.tokens, Member.litter]
    exact swept_entry entry next w

theorem swept_members (members : Members) (next : Token) (w : List Litter) :
    Swept next members.tokens w (members.litter next w) := by
  cases members with
  | last member =>
    rw [Members.tokens, Members.litter]
    exact swept_member member next w
  | cons member comma more =>
    rw [Members.tokens, Members.litter]
    have hcomma := (swept_members more next (sweep comma.1 (firstOr next more.tokens)
      (member.litter comma.1 w))).cons (t := comma.1) (w := w) fun hts => by
        refine .inr ⟨member.litter comma.1 w, ?_⟩
        rw [hts]
        rfl
    exact hcomma.behind member.tokens (by simp)

/-- A token that is not hollow closes everything in front of a closing bracket, but for a sequence
without start and end tokens that stands alone. -/
theorem sweep_not_hollow (ht : ¬Hollow t) (hn : next.kind.isFlowEnd = true) (w : List Litter) :
    sweep t next w = [] ∨ ∃ v, sweep t next w = .list :: v := by
  have hnext : endsEntry next.kind = true ∧ next.kind != .blockEntry := by
    unfold TokenKind.isFlowEnd at hn
    split at hn <;> simp_all [endsEntry]
  have hsolid : isProperty t = false ∧ t.kind ≠ .blockEntry ∧ t.kind ≠ .value := by
    refine ⟨?_, fun h => ht (.inr (.inl h)), fun h => ht (.inr (.inr h))⟩
    simpa using fun h => ht (.inl h)
  induction w with
  | nil => exact .inl rfl
  | cons l w ih =>
    cases l with
    | list => exact .inr ⟨w, rfl⟩
    | key => simpa [sweep, hnext.1] using ih
    | pair => simpa [sweep, hsolid.1, hsolid.2.2] using ih
    | item =>
      have : next.kind ≠ .blockEntry := by simpa using hnext.2
      simpa [sweep, hsolid.1, hsolid.2.1, this] using ih

end YamlLinter.Indentation
