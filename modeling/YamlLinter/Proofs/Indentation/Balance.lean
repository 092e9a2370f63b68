import YamlLinter.Proofs.Indentation.Neighbours
import YamlLinter.Proofs.Indentation.Sweep

/-!
# The balance of the stack

The frames of a tree are closed again when the tree is over, but for what is left open in the
collection around it. A collection that does not find its own frame when it ends leaves a frame on
the stack for good.

## Contents

* `Outcome`: the stack behind a tree, or a frame too many;
* `outcome_enclosed`, `outcome_blockEnd`, `outcome_flowEnd`: collections;
* `outcome_node` and its kin: the outcome of every sort of tree;
* `outcome_parts`: the outcome of a stream.
-/

namespace YamlLinter.Indentation

open Grammar

variable {config : Config} {buffer : List UInt8} {prev : Option Token} {s s' s₁ s₂ : State}
  {t next : Token} {ts us rest : List Token} {f : Frame} {stack stack' : List Frame}
  {w : List Litter}

/-- Behind a tidy tree the stack is as given. Behind any other, one frame more than before it waits
for an end token. -/
def Outcome (tidy : Bool) (s s' : State) (stack : List Frame) : Prop :=
  if tidy then s'.plain = stack else own s.stack < own s'.stack

/-- Two trees behind each other. -/
theorem Outcome.trans {a b : Bool} (h₁ : Outcome a s s₁ stack) (hle₁ : own s.stack ≤ own s₁.stack)
    (h₂ : s₁.plain = stack → Outcome b s₁ s₂ stack') (hle₂ : own s₁.stack ≤ own s₂.stack) :
    Outcome (a && b) s s₂ stack' := by
  cases a with
  | false => exact Nat.lt_of_lt_of_le h₁ hle₂
  | true =>
    have h₂ := h₂ h₁
    cases b with
    | false => exact Nat.lt_of_le_of_lt hle₁ h₂
    | true => exact h₂

/-- A token that leaves the stack as given, in front of a tree. -/
theorem Outcome.after {b : Bool} (h₁ : s₁.plain = stack) (hle : own s.stack ≤ own s₁.stack)
    (h₂ : s₁.plain = stack → Outcome b s₁ s₂ stack') : Outcome b s s₂ stack' := by
  have h₂ := h₂ h₁
  cases b with
  | false => exact Nat.lt_of_le_of_lt hle h₂
  | true => exact h₂

theorem own_plain (s : State) : own s.plain = own s.stack := own_map_plain s.stack

/-! ## Collections -/

/-- The end of a collection that has not found its frame, or of one whose content is not tidy. -/
theorem own_lt_of_after (h₁ : own s₁.stack = own s.stack + 1) (h₂ : own s₁.stack < own s₂.stack) :
    own s.stack < own (s₂.after config buffer prev t rest).stack := by
  have := own_check_le config ⟨buffer, prev, t, rest.head?, rest.tail.head?⟩ s₂
  show own s.stack < own (check config _ s₂).2.stack
  omega

/-- What is left of a collection: the frame opened at its start is closed at its end. -/
theorem outcome_enclosed {start stop : Token} {inner : List Token} {a b : Bool}
    (inside : List Frame) (props : List Property) (prev : Option Token) (s : State)
    (hb : Based s.stack) (hf : f.isOwned = true) (hi : endsItem start.kind = false)
    (he : endsEntry start.kind = false)
    (ho : ∀ (prev : Option Token) (s : State), Based s.stack →
      (s.after config buffer prev start (inner ++ stop :: next :: rest)).plain = f :: s.plain)
    (hinner : ∀ (s₁ s₂ : State), Based s₁.stack → s₁.plain = f :: s.plain →
      s₁.over config buffer (some start) inner (stop :: next :: rest) = s₂ →
      Outcome a s₁ s₂ inside)
    (hstop : ∀ s₂ : State, Based s₂.stack → s₂.plain = inside →
      (∃ s₁ : State, Based s₁.stack ∧
        s₁.over config buffer (some start) inner (stop :: next :: rest) = s₂) →
      Outcome b s (s₂.after config buffer (inner.getLast?.or (some start)) stop (next :: rest))
        (closeFrames stop (some next.kind) true s.plain).1) :
    Outcome (a && b) s
      (s.over config buffer prev (propTokens props ++ start :: (inner ++ [stop])) (next :: rest))
      (closeFrames stop (some next.kind) true s.plain).1 := by
  rw [over_enclosed]
  -- the states behind the properties, behind the start token and behind the content
  generalize h₀ : s.over config buffer prev (propTokens props)
    (start :: (inner ++ stop :: next :: rest)) = s₀
  have hs₀ : s₀.stack = s.stack := h₀ ▸ stack_over_props props prev s hb hi he
  have hp₀ : s₀.plain = s.plain := by simp only [State.plain, hs₀]
  have hb₀ : Based s₀.stack := hs₀ ▸ hb
  generalize h₁ : s₀.after config buffer _ start (inner ++ stop :: next :: rest) = s₁
  have hp₁ : s₁.plain = f :: s.plain := by rw [← h₁, ho _ _ hb₀, hp₀]
  have hb₁ : Based s₁.stack := h₁ ▸ based_after hb₀
  generalize h₂ : s₁.over config buffer (some start) inner (stop :: next :: rest) = s₂
  have hb₂ : Based s₂.stack := h₂ ▸ based_over hb₁
  have hinner := hinner s₁ s₂ hb₁ hp₁ h₂
  cases a with
  | false =>
    -- a frame inside has missed its end token, and the end token here makes up for one frame only
    have hown : own s₁.stack = own s.stack + 1 := by
      rw [← own_plain, hp₁, own_cons_of_isOwned hf, own_plain]
    exact own_lt_of_after hown hinner
  | true => exact hstop s₂ hb₂ hinner ⟨s₁, hb₁, h₂⟩

theorem own_lt_of_frames (hf : f.isOwned = true) (h : s₂.plain = frames w ++ f :: s.plain) :
    own s.stack < own s₂.stack := by
  rw [← own_plain, ← own_plain s₂, h, own_frames, own_cons_of_isOwned hf]
  exact Nat.lt_succ_self _

/-- The end token of a block collection that finds nothing but litter above its frame. -/
theorem outcome_blockEnd {stop : TokenOf .blockEnd} (hb : Based s₂.stack) (hs : Based s.stack)
    (hf : f.isOwned = true) (hc : closesOwn f .blockEnd = true)
    (h : s₂.plain = frames w ++ f :: s.plain) :
    Outcome (sweep stop.1 next w).isEmpty s
      (s₂.after config buffer prev stop.1 (next :: rest))
      (closeFrames stop.1 (some next.kind) true s.plain).1 := by
  have hplain : (s₂.after config buffer prev stop.1 (next :: rest)).plain =
      (closeFrames stop.1 (some next.kind) false s₂.plain).1 :=
    plain_after_quiet hb (by simp [stop.2, TokenKind.isFlowEnd])
      (by simp [stop.2, Token.isScalar, Token.scalarStyle?]) (by simp [stop.2, opensNone])
  have hne : s.plain ≠ [] := by
    intro hnil
    exact hs.ne_nil (List.map_eq_nil_iff.1 hnil)
  rw [h, closeFrames_frames w (by simp)] at hplain
  cases hw : (sweep stop.1 next w).isEmpty with
  | true =>
    rw [hw, if_pos rfl, closeFrames_closesOwn (by rw [stop.2]; exact hc) hne] at hplain
    exact hplain
  | false =>
    -- the frame is still there, below what is left of the litter
    rw [hw] at hplain
    exact own_lt_of_frames hf hplain

/-- The closing bracket of a flow collection. It does nothing if it starts a line while a frame
other than its own is on top. -/
theorem outcome_flowEnd {sequence : Bool} {stop : TokenOf (flowEnd sequence)} {last : Token}
    (hb : Based s₂.stack) (hs : Based s.stack)
    (h : s₂.plain = frames w ++ flowFrame sequence :: s.plain)
    (hline : w = [] ∨ (∃ v, w = .list :: v) ∨ s₂.line = last.stop.line + 1) :
    Outcome (closesFlow last stop.1 next w) s
      (s₂.after config buffer prev stop.1 (next :: rest))
      (closeFrames stop.1 (some next.kind) true s.plain).1 := by
  have hkind : stop.1.kind.isFlowEnd = true ∧ isVisible stop.1 = true := by
    cases sequence <;> simp [stop.2, flowEnd, TokenKind.isFlowEnd, isVisible]
  have hown : closesOwn (flowFrame sequence) stop.1.kind = true := by
    cases sequence <;> simp [stop.2, flowEnd, flowFrame, closesOwn]
  have hne : s.plain ≠ [] := by
    intro hnil
    exact hs.ne_nil (List.map_eq_nil_iff.1 hnil)
  by_cases hw : w = []
  · -- nothing is above the frame
    subst hw
    have hplain : (s₂.after config buffer prev stop.1 (next :: rest)).plain =
        (closeFrames stop.1 (some next.kind) false s₂.plain).1 := by
      refine plain_check_flowEnd hb hkind.1 rfl fun _ => ?_
      rw [h]
      cases sequence <;> rfl
    rw [h, frames_nil, List.nil_append, closeFrames_closesOwn hown hne] at hplain
    exact hplain
  · have htop : (s₂.plain.head?.bind Frame.lineIndent?) = none := by
      rw [h]
      cases w with
      | nil => exact absurd rfl hw
      | cons l w => cases l <;> rfl
    have hempty : w.isEmpty = false := by simpa using hw
    by_cases hfirst : s₂.isFirst stop.1 = true
    · -- the bracket is passed over
      have hplain : (s₂.after config buffer prev stop.1 (next :: rest)).plain = s₂.plain :=
        plain_check_flowEnd_blocked hkind.1 hfirst htop
      have huntidy : closesFlow last stop.1 next w = false := by
        rw [closesFlow, hempty, Bool.false_or, Bool.and_eq_false_iff]
        rcases hline with hnil | ⟨v, rfl⟩ | hline
        · exact absurd hnil hw
        · exact .inr rfl
        · left
          simp only [State.isFirst, hkind.2, Bool.true_and, decide_eq_true_eq, hline] at hfirst
          simp only [decide_eq_false_iff_not]
          omega
      rw [huntidy]
      exact own_lt_of_frames (isOwned_flowFrame sequence) (hplain.trans h)
    · have hplain : (s₂.after config buffer prev stop.1 (next :: rest)).plain =
          (closeFrames stop.1 (some next.kind) false s₂.plain).1 :=
        plain_check_flowEnd hb hkind.1 rfl fun hf => absurd hf hfirst
      rw [h, closeFrames_frames w (by simp)] at hplain
      -- the bracket stands behind other tokens of its line, and sweeps what is above its frame
      cases hsweep : (sweep stop.1 next w).isEmpty with
      | false =>
        rw [hsweep] at hplain
        have huntidy : closesFlow last stop.1 next w = false := by
          rw [closesFlow, hempty, hsweep, Bool.and_false, Bool.or_false]
        rw [huntidy]
        exact own_lt_of_frames (isOwned_flowFrame sequence) hplain
      | true =>
        rw [hsweep, if_pos rfl, closeFrames_closesOwn hown hne] at hplain
        have htidy : closesFlow last stop.1 next w = true := by
          rw [closesFlow, hempty, hsweep, Bool.and_true, Bool.false_or, decide_eq_true_eq]
          rcases hline with hnil | ⟨v, rfl⟩ | hline
          · exact absurd hnil hw
          · cases hsweep
          · simp only [State.isFirst, hkind.2, Bool.true_and, decide_eq_true_eq, hline] at hfirst
            omega
        rw [htidy]
        exact hplain

theorem hollow_quiet (ht : Hollow t) :
    isVisible t = true ∧ t.kind.isFlowEnd = false ∧ t.isScalar = false := by
  rcases ht with ht | ht | ht
  · obtain ⟨hflow, hscalar, -, -, -, -, hvisible⟩ := property_quiet ht
    exact ⟨hvisible, hflow, hscalar⟩
  · simp [isVisible, TokenKind.isFlowEnd, Token.isScalar, Token.scalarStyle?, ht]
  · simp [isVisible, TokenKind.isFlowEnd, Token.isScalar, Token.scalarStyle?, ht]

/-- What the rule knows in front of a closing bracket, if something is left open. -/
theorem line_over_members (members : Members) {start stop : Token} (hb : Based s.stack)
    (hstop : stop.kind.isFlowEnd = true) :
    members.litter stop [] = [] ∨ (∃ v, members.litter stop [] = .list :: v) ∨
      (s.over config buffer prev members.tokens (stop :: rest)).line =
        (lastOr start members.tokens).stop.line + 1 := by
  rcases swept_members members stop [] with ⟨-, hw⟩ | ⟨us, t, htokens, ht⟩
  · exact .inl hw
  · by_cases hollow : Hollow t
    · right
      right
      obtain ⟨hvisible, hflow, hscalar⟩ := hollow_quiet hollow
      have hlast : lastOr start (us ++ [t]) = t := by simp [lastOr]
      rw [htokens, hlast, over_append]
      exact line_check (based_over hb) hvisible hflow hscalar
    · rcases ht with ht | ⟨v, hv⟩
      · exact absurd ht hollow
      · rcases sweep_not_hollow hollow hstop v with h | ⟨u, hu⟩
        · exact .inl (hv.trans h)
        · exact .inr (.inl ⟨u, hv.trans hu⟩)

/-! ## All trees -/

/-- A place whose node can be compared. -/
def SlotGuarded (s : State) (slot : Slot) : Prop := ∀ node, slot = .filled node → Guarded s node

/-- Body whose node can be compared. -/
def BodyGuarded (s : State) (content : Body) : Prop :=
  ∀ slot, content = .slot slot → SlotGuarded s slot

theorem holds_blockMap : Holds (.blockMap 0) := ⟨rfl, rfl⟩

theorem holds_flowFrame (sequence : Bool) : Holds (flowFrame sequence) := by
  cases sequence <;> exact ⟨rfl, rfl⟩

/-- Behind the dash of an item that is not empty, the item is on top. -/
theorem slotGuarded_after_dash {slot : Slot} (hf : Holds f)
    (hp : s.plain = frames (dashLitter t (firstOr next slot.tokens) w) ++ f :: stack) :
    SlotGuarded s slot := by
  intro node hnode
  refine guarded_of_top (plain_ne_key hf ?_ hp) node
  obtain ⟨u, us, hu, hstarts⟩ := exists_node_tokens node
  obtain ⟨v, hv⟩ := exists_openItem w
  intro v'
  rw [hnode, Slot.tokens, hu]
  simp [firstOr, dashLitter, hstarts.1, hv]

/-- Behind a `VALUE` token whose content is a block scalar, no key is on top. -/
theorem bodyGuarded_after_value {held : Body} {last m : Token} (hf : Holds f)
    (hp : s.plain = frames (valueLitter t m (held.opensValue last next) w) ++ f :: stack) :
    BodyGuarded s held := by
  rintro slot rfl node rfl ps leaf rfl hblock
  have hopens : (Body.slot (.filled (.leaf ps leaf))).opensValue last next = true := rfl
  refine guarded_of_top (plain_ne_key hf (fun v => ?_) hp) (.leaf ps leaf) ps leaf rfl hblock
  rw [hopens]
  cases w with
  | nil => simp [valueLitter]
  | cons l w => cases l <;> simp [valueLitter]

/-- Behind a `KEY` token, its content is no block scalar unless the key has a `?`. -/
theorem bodyGuarded_after_key {content : Body} (hb : Based s.stack) (ht : t.kind = .key)
    (hs : Scanned buffer (t :: (content.tokens ++ next :: rest))) :
    BodyGuarded (s.after config buffer prev t (content.tokens ++ next :: rest)) content := by
  rintro slot rfl node rfl ps leaf rfl hblock i htop
  have htokens : (Body.slot (.filled (.leaf ps leaf))).tokens = propTokens ps ++ [leaf.1] := by
    rw [Body.tokens, Slot.tokens, Node.tokens]
  have hexplicit : isExplicitKey buffer t = true := by
    refine hs.keyed [] t (propTokens ps) leaf.1 (next :: rest) ?_ ht
      (fun p hp => isProperty_of_mem_propTokens hp) hblock
    rw [htokens]
    simp
  obtain ⟨u, us, hu, hstarts⟩ := exists_node_tokens (.leaf ps leaf)
  have hkey : ∃ j, (check config ⟨buffer, prev, t, some u, (us ++ next :: rest).head?⟩ s).2.top? =
      some (.key j (isExplicitKey buffer t)) := top?_check_key hb ht rfl hstarts.2
  obtain ⟨j, hj⟩ := hkey
  have hsame : (s.after config buffer prev t
      ((Body.slot (.filled (.leaf ps leaf))).tokens ++ next :: rest)) =
      (check config ⟨buffer, prev, t, some u, (us ++ next :: rest).head?⟩ s).2 := by
    rw [Body.tokens, Slot.tokens, hu]
    rfl
  rw [hsame, hj] at htop
  simp [hexplicit] at htop

/-- The outcome of a node. -/
def NodeOutcome (config : Config) (buffer : List UInt8) (node : Node) : Prop :=
  ∀ (prev : Option Token) (s : State) (next : Token) (rest : List Token), Based s.stack →
    Scanned buffer (node.tokens ++ next :: rest) → Guarded s node →
      Outcome (node.tidy next) s (s.over config buffer prev node.tokens (next :: rest))
        (closeFrames node.last (some next.kind) true s.plain).1

/-- The outcome of some tokens among litter: in front of `next`, they are tidy or not, and turn the
litter in front of them into that behind them. -/
def Leaves (config : Config) (buffer : List UInt8) (ts : List Token) (tidy : Token → Bool)
    (litter : Token → List Litter → List Litter) (ready : State → Token → Prop) : Prop :=
  ∀ (prev : Option Token) (s : State) (next : Token) (rest : List Token) (w : List Litter)
    (f : Frame) (stack : List Frame), Based s.stack → Scanned buffer (ts ++ next :: rest) →
      Holds f → s.plain = frames w ++ f :: stack → ready s next →
        Outcome (tidy next) s (s.over config buffer prev ts (next :: rest))
          (frames (litter next w) ++ f :: stack)

/-- Nothing is asked of the state and of the token that follows. -/
def always (_ : State) (_ : Token) : Prop := True

/-- What follows is no property. -/
def noProperty (_ : State) (next : Token) : Prop := isProperty next = false

theorem leaves_slot {slot : Slot} (h : ∀ node, slot = .filled node → NodeOutcome config buffer node) :
    Leaves config buffer slot.tokens (Slot.tidy · slot) (Slot.litter · slot)
      fun s _ => SlotGuarded s slot := by
  intro prev s next rest w f stack hb hs hf hp hg
  match slot with
  | .empty => exact hp
  | .filled node =>
    rw [Slot.tokens] at hs
    have hnode := h node rfl prev s next rest hb hs (hg node rfl)
    rw [hp, closeFrames_true_frames w hf.1] at hnode
    simp only [Slot.tokens, Slot.tidy, Slot.litter]
    exact hnode

/-- Tokens behind each other. -/
theorem Leaves.append {a₁ a₂ : Token → Bool} {l₁ l₂ : Token → List Litter → List Litter}
    {r : State → Token → Prop} (h₁ : Leaves config buffer ts a₁ l₁ r)
    (h₂ : Leaves config buffer us a₂ l₂ r) (k₁ : Keeps config buffer ts)
    (k₂ : Keeps config buffer us) (hne : us ≠ [])
    (hr₁ : ∀ s next, r s (firstOr next us)) (hr₂ : ∀ s s' next, r s next → r s' next) :
    Leaves config buffer (ts ++ us) (fun next => a₁ (firstOr next us) && a₂ next)
      (fun next w => l₂ next (l₁ (firstOr next us) w)) r := by
  intro prev s next rest w f stack hb hs hf hp hr
  rw [List.append_assoc] at hs
  have hs₂ : Scanned buffer (us ++ next :: rest) := hs.drop ts
  obtain ⟨t, vs, rfl⟩ := List.exists_cons_of_ne_nil hne
  rw [over_append]
  have hb₁ : Based (s.over config buffer prev ts (t :: vs ++ next :: rest)).stack := based_over hb
  refine Outcome.trans (h₁ prev s t (vs ++ next :: rest) w f stack hb hs hf hp (hr₁ s next)) ?_
    (fun hp₁ => ?_) ?_
  · exact k₁ prev s _ hb hs
  · exact h₂ _ _ next rest _ f stack hb₁ hs₂ hf hp₁ (hr₂ s _ next hr)
  · exact k₂ _ _ _ hb₁ hs₂

/-- An item of a sequence without start and end tokens. -/
theorem leaves_listItem {slot : Slot} {dash : TokenOf .blockEntry}
    (h : ∀ node, slot = .filled node → NodeOutcome config buffer node) :
    Leaves config buffer (dash.1 :: slot.tokens) (Slot.tidy · slot)
      (fun next w => slot.litter next (dashLitter dash.1 (firstOr next slot.tokens) w)) always := by
  intro prev s next rest w f stack hb hs hf hp _
  have hdash : (s.after config buffer prev dash.1 (slot.tokens ++ next :: rest)).plain = _ :=
    plain_after_dash hb dash.2 (head?_tokens next slot.tokens rest) hf hp
  rw [over_cons]
  refine Outcome.after hdash (own_after (by simp [dash.2, isEnder])) fun hdash => ?_
  exact leaves_slot h (some dash.1) _ next rest _ f stack (based_after hb) hs.tail hf hdash
    (slotGuarded_after_dash hf hdash)

/-- Properties in front of the first dash of a sequence without start and end tokens. -/
theorem leaves_props (props : List Property) :
    Leaves config buffer (propTokens props) (fun _ => true) (fun next w => propsLitter next props w)
      always := by
  intro prev s next rest w f stack hb _ hf hp _
  cases props with
  | nil => exact hp
  | cons first more =>
    have hlast : (propTokens (first :: more)).getLast? =
        some (lastOr first.1 (propTokens more)) := by
      obtain ⟨us, hus⟩ := exists_lastOr first.1 (propTokens more)
      show (first.1 :: propTokens more).getLast? = _
      rw [hus, List.getLast?_concat]
    have hbare : (s.over config buffer prev (propTokens (first :: more)) (next :: rest)).plain = _ :=
      plain_over_bare more first prev s hb
    rw [hp, closeFrames_true_frames w hf.1] at hbare
    simp only [propsLitter, hlast]
    exact hbare

/-- What is known of the content of a key or a value. -/
abbrev BodyLeaves (config : Config) (buffer : List UInt8) (content : Body) : Prop :=
  Leaves config buffer content.tokens (Body.tidy · content) (Body.litter · content)
    fun s _ => BodyGuarded s content

/-- A `KEY` token with its content. -/
theorem leaves_keyed {content : Body} {k : TokenOf .key}
    (h : BodyLeaves config buffer content) :
    Leaves config buffer (k.1 :: content.tokens) (Body.tidy · content)
      (fun next w => content.litter next (sweep k.1 (firstOr next content.tokens) (.key :: w)))
      always := by
  intro prev s next rest w f stack hb hs hf hp _
  have hkey : (s.after config buffer prev k.1 (content.tokens ++ next :: rest)).plain = _ :=
    plain_after_key hb k.2 (head?_tokens next content.tokens rest) hf hp
  rw [over_cons]
  refine Outcome.after hkey (own_after (by simp [k.2, isEnder])) fun hkey => ?_
  exact h (some k.1) _ next rest _ f stack (based_after hb) hs.tail hf hkey
    (bodyGuarded_after_key hb k.2 hs)

/-- A key with a value. -/
theorem leaves_pair {content held : Body} {k : TokenOf .key} {v : TokenOf .value}
    (h₁ : BodyLeaves config buffer content) (h₂ : BodyLeaves config buffer held) :
    Leaves config buffer (Entry.pair k content v held).tokens (Entry.tidy · (.pair k content v held))
      (Entry.litter · (.pair k content v held)) noProperty := by
  intro prev s next rest w f stack hb hs hf hp hn
  rw [Entry.tokens, List.cons_append, List.append_assoc, List.cons_append] at hs
  simp only [Entry.tidy, Entry.litter]
  rw [Entry.tokens, ← List.cons_append, over_append]
  have hvalue : Scanned buffer (v.1 :: (held.tokens ++ next :: rest)) :=
    hs.tail.drop content.tokens
  have hlast : (k.1 :: content.tokens).getLast?.or prev = some (lastOr k.1 content.tokens) := by
    obtain ⟨us, hus⟩ := exists_lastOr k.1 content.tokens
    rw [hus]
    simp
  have hb₁ : Based (s.over config buffer prev (k.1 :: content.tokens)
      (v.1 :: (held.tokens ++ next :: rest))).stack := based_over hb
  rw [hlast]
  -- the key with its content, then the value token, then the content of the value
  refine Outcome.trans (leaves_keyed h₁ prev s v.1 (held.tokens ++ next :: rest) w f stack hb hs hf
    hp trivial) ?_ (fun hp₁ => ?_) ?_
  · exact (keeps_body content).cons (by simp [k.2, isEnder]) prev s _ hb hs
  · have hv : ((s.over config buffer prev (k.1 :: content.tokens)
        (v.1 :: (held.tokens ++ next :: rest))).after config buffer
          (some (lastOr k.1 content.tokens)) v.1 (held.tokens ++ next :: rest)).plain = _ :=
      plain_after_value hb₁ v.2 (head?_tokens next held.tokens rest) hf hp₁
        (opensValue_eq held _ next rest hn)
    refine Outcome.after hv (own_after (by simp [v.2, isEnder])) fun hv => ?_
    exact h₂ (some v.1) _ next rest _ f stack (based_after hb₁) hvalue.tail hf hv
      (bodyGuarded_after_value hf hv)
  · exact (keeps_body held).cons (by simp [v.2, isEnder]) _ _ _ hb₁ hvalue

/-- A comma in front of members. -/
theorem leaves_comma {a : Token → Bool} {l : Token → List Litter → List Litter}
    {comma : TokenOf .flowEntry} (h : Leaves config buffer ts a l noProperty) :
    Leaves config buffer (comma.1 :: ts) a
      (fun next w => l next (sweep comma.1 (firstOr next ts) w)) noProperty := by
  intro prev s next rest w f stack hb hs hf hp hn
  have hcomma : (s.after config buffer prev comma.1 (ts ++ next :: rest)).plain = _ :=
    plain_after_comma hb comma.2 (head?_tokens next ts rest) hf hp
  rw [over_cons]
  refine Outcome.after hcomma (own_after (by simp [comma.2, isEnder])) fun hcomma => ?_
  exact h (some comma.1) _ next rest _ f stack (based_after hb) hs.tail hf hcomma hn

/-- A member that is no entry. It is no block scalar, since it stands in a flow collection. -/
theorem leaves_plainSlot {slot : Slot}
    (h : ∀ node, slot = .filled node → NodeOutcome config buffer node)
    (hflow : ∀ t ∈ slot.tokens, isBlockScalar t = false) :
    Leaves config buffer slot.tokens (Slot.tidy · slot) (Slot.litter · slot) noProperty := by
  intro prev s next rest w f stack hb hs hf hp _
  refine leaves_slot h prev s next rest w f stack hb hs hf hp ?_
  rintro node rfl ps leaf rfl hblock
  have := hflow leaf.1 (by simp [Slot.tokens, Node.tokens])
  rw [hblock] at this
  cases this

/-- Some tokens in a sequence with start and end tokens, which leave nothing open. -/
def LeavesSeq (config : Config) (buffer : List UInt8) (ts : List Token) (tidy : Token → Bool) :
    Prop :=
  ∀ (prev : Option Token) (s : State) (next : Token) (rest : List Token) (stack : List Frame),
    Based s.stack → Scanned buffer (ts ++ next :: rest) → s.plain = .blockSeq 0 false :: stack →
      endsItem next.kind = true →
        Outcome (tidy next) s (s.over config buffer prev ts (next :: rest))
          (.blockSeq 0 false :: stack)

/-- An item of a sequence with start and end tokens. -/
theorem leavesSeq_item {slot : Slot} {dash : TokenOf .blockEntry}
    (h : ∀ node, slot = .filled node → NodeOutcome config buffer node) :
    LeavesSeq config buffer (dash.1 :: slot.tokens) (Slot.tidy · slot) := by
  intro prev s next rest stack hb hs hp hn
  have hdash : (s.after config buffer prev dash.1 (slot.tokens ++ next :: rest)).plain = _ :=
    plain_after_dash_seq hb dash.2 (head?_tokens next slot.tokens rest) hp
  have hb₁ : Based (s.after config buffer prev dash.1 (slot.tokens ++ next :: rest)).stack :=
    based_after hb
  rw [over_cons]
  refine Outcome.after hdash (own_after (by simp [dash.2, isEnder])) fun _ => ?_
  match slot with
  | .empty =>
    rw [Slot.tokens, firstOr, List.headD_nil, if_pos hn] at hdash
    exact hdash
  | .filled node =>
    obtain ⟨t, ts, htokens, hstarts⟩ := exists_node_tokens node
    rw [Slot.tokens] at hdash hb₁ hs ⊢
    have hfirst : firstOr next node.tokens = t := by rw [htokens]; rfl
    rw [hfirst, hstarts.1, if_neg (by simp)] at hdash
    have hg := guarded_of_top (s := s.after config buffer prev dash.1 (node.tokens ++ next :: rest))
      (fun v hv => by rw [hdash] at hv; cases hv) node
    have hnode := h node rfl (some dash.1) _ next rest hb₁ hs.tail hg
    rw [hdash, closeFrames_item_seq hn] at hnode
    exact hnode

theorem LeavesSeq.append {a₁ a₂ : Token → Bool} (h₁ : LeavesSeq config buffer ts a₁)
    (h₂ : LeavesSeq config buffer us a₂) (k₁ : Keeps config buffer ts)
    (k₂ : Keeps config buffer us) (hus : ∃ t vs, us = t :: vs ∧ t.kind = .blockEntry) :
    LeavesSeq config buffer (ts ++ us) fun next => a₁ (firstOr next us) && a₂ next := by
  intro prev s next rest stack hb hs hp hn
  obtain ⟨t, vs, rfl, hk⟩ := hus
  rw [List.append_assoc] at hs
  have hs₂ : Scanned buffer (t :: vs ++ next :: rest) := hs.drop ts
  rw [over_append]
  have hb₁ : Based (s.over config buffer prev ts (t :: vs ++ next :: rest)).stack := based_over hb
  refine Outcome.trans (h₁ prev s t (vs ++ next :: rest) stack hb hs hp (by simp [hk, endsItem])) ?_
    (fun hp₁ => ?_) ?_
  · exact k₁ prev s _ hb hs
  · exact h₂ _ _ next rest stack hb₁ hs₂ hp₁ hn
  · exact k₂ _ _ _ hb₁ hs₂

mutual

/-- A node closes what is over behind its last token, and its collections close their own frames. -/
theorem outcome_node (node : Node) : NodeOutcome config buffer node := by
  intro prev s next rest hb hs hg
  -- the body of a collection leaves the frame of its start, and its end takes that off
  match node with
  | .bare first more =>
    rw [Node.tokens, Node.tidy, Node.last]
    exact plain_over_bare more first prev s hb
  | .leaf props leaf =>
    rw [Node.tokens, Node.tidy, Node.last]
    exact plain_over_leaf hb (hg props leaf rfl)
  | .blockMap props start entries stop =>
    rw [Node.tokens] at hs
    have hs : Scanned buffer (start.1 :: (entries.tokens ++ stop.1 :: next :: rest)) :=
      Scanned.drop (propTokens props) (by simpa using hs)
    rw [Node.tokens, Node.tidy, Node.last]
    refine outcome_enclosed (frames (entries.litter stop.1 []) ++ .blockMap 0 :: s.plain) props prev
      s hb rfl (by simp [start.2, endsItem]) (by simp [start.2, endsEntry])
      (fun _ _ hb => plain_after_mapStart hb hs) ?_ ?_
    · rintro s₁ s₂ hb₁ hp₁ rfl
      exact leaves_entries entries (some start.1) s₁ stop.1 (next :: rest) [] _ _ hb₁ hs.tail
        holds_blockMap hp₁ (by simp [noProperty, isProperty, stop.2])
    · intro s₂ hb₂ hp₂ _
      exact outcome_blockEnd hb₂ hb rfl rfl hp₂
  | .blockSeq props start items stop =>
    rw [Node.tokens] at hs
    have hs : Scanned buffer (start.1 :: (items.tokens ++ stop.1 :: next :: rest)) :=
      Scanned.drop (propTokens props) (by simpa using hs)
    rw [Node.tokens, Node.tidy, Node.last, ← Bool.and_true (items.tidy stop.1)]
    refine outcome_enclosed (.blockSeq 0 false :: s.plain) props prev s hb rfl
      (by simp [start.2, endsItem]) (by simp [start.2, endsEntry])
      (fun _ _ hb => plain_after_seqStart hb hs) ?_ ?_
    · rintro s₁ s₂ hb₁ hp₁ rfl
      exact leavesSeq_items items (some start.1) s₁ stop.1 (next :: rest) _ hb₁ hs.tail hp₁
        (by simp [stop.2, endsItem])
    · intro s₂ hb₂ hp₂ _
      exact outcome_blockEnd (w := []) hb₂ hb rfl rfl hp₂
  | .flow props sequence start members stop =>
    rw [Node.tokens] at hs
    have hs : Scanned buffer (start.1 :: (members.tokens ++ stop.1 :: next :: rest)) :=
      Scanned.drop (propTokens props) (by simpa using hs)
    have hkind : stop.1.kind.isFlowEnd = true ∧ isProperty stop.1 = false := by
      cases sequence <;> simp [stop.2, flowEnd, TokenKind.isFlowEnd, isProperty]
    rw [Node.tokens, Node.tidy, Node.last]
    refine outcome_enclosed (frames (members.litter stop.1 []) ++ flowFrame sequence :: s.plain)
      props prev s hb (isOwned_flowFrame sequence)
      (by cases sequence <;> simp [start.2, flowStart, endsItem])
      (by cases sequence <;> simp [start.2, flowStart, endsEntry])
      (fun _ _ hb => plain_after_flowStart hb (by simp)) ?_ ?_
    · rintro s₁ s₂ hb₁ hp₁ rfl
      exact leaves_members members (hs.not_isBlockScalar start.2 (bracketed_members members))
        (some start.1) s₁ stop.1 (next :: rest) [] _ _ hb₁ hs.tail (holds_flowFrame sequence) hp₁
        hkind.2
    · rintro s₂ hb₂ hp₂ ⟨s₁, hb₁, rfl⟩
      exact outcome_flowEnd hb₂ hb hp₂ (line_over_members members hb₁ hkind.1)

theorem outcome_filled (slot : Slot) :
    ∀ node, slot = .filled node → NodeOutcome config buffer node := by
  match slot with
  | .empty =>
    intro node h
    cases h
  | .filled node =>
    rintro _ ⟨⟩
    exact outcome_node node

/-- The items of a sequence with start and end tokens. -/
theorem leavesSeq_items (items : Items) :
    LeavesSeq config buffer items.tokens (Items.tidy · items) := by
  match items with
  | .last dash slot =>
    simp only [Items.tokens, Items.tidy]
    exact leavesSeq_item (outcome_filled slot)
  | .cons dash slot more =>
    simp only [Items.tokens, Items.tidy]
    exact (leavesSeq_item (outcome_filled slot)).append (leavesSeq_items more)
      ((keeps_slot slot).cons (by simp [dash.2, isEnder])) (keeps_items more)
      (exists_items_tokens more)

/-- The items of a sequence without start and end tokens. -/
theorem leaves_items (items : Items) :
    Leaves config buffer items.tokens (Items.tidy · items) (Items.litter · items) always := by
  match items with
  | .last dash slot =>
    simp only [Items.tokens, Items.tidy, Items.litter]
    exact leaves_listItem (outcome_filled slot)
  | .cons dash slot more =>
    obtain ⟨t, ts, htokens, -⟩ := exists_items_tokens more
    simp only [Items.tokens, Items.tidy, Items.litter]
    exact (leaves_listItem (outcome_filled slot)).append (leaves_items more)
      ((keeps_slot slot).cons (by simp [dash.2, isEnder])) (keeps_items more) (by simp [htokens])
      (fun _ _ => trivial) fun _ _ _ _ => trivial

theorem leaves_body (content : Body) : BodyLeaves config buffer content := by
  match content with
  | .slot slot =>
    intro prev s next rest w f stack hb hs hf hp hg
    simp only [Body.tokens] at hs
    simp only [Body.tokens, Body.tidy, Body.litter]
    exact leaves_slot (outcome_filled slot) prev s next rest w f stack hb hs hf hp (hg slot rfl)
  | .list props items =>
    intro prev s next rest w f stack hb hs hf hp _
    obtain ⟨t, ts, htokens, -⟩ := exists_items_tokens items
    simp only [Body.tokens] at hs
    simp only [Body.tokens, Body.tidy, Body.litter]
    exact (leaves_props props).append (leaves_items items) (keeps_props props) (keeps_items items)
      (by simp [htokens]) (fun _ _ => trivial) (fun _ _ _ _ => trivial) prev s next rest w f stack
      hb hs hf hp trivial

theorem leaves_entry (entry : Entry) :
    Leaves config buffer entry.tokens (Entry.tidy · entry) (Entry.litter · entry) noProperty := by
  match entry with
  | .key k content =>
    intro prev s next rest w f stack hb hs hf hp _
    simp only [Entry.tokens] at hs
    simp only [Entry.tokens, Entry.tidy, Entry.litter]
    exact leaves_keyed (leaves_body content) prev s next rest w f stack hb hs hf hp trivial
  | .pair k content v held => exact leaves_pair (leaves_body content) (leaves_body held)

/-- The entries of a block mapping. -/
theorem leaves_entries (entries : Entries) :
    Leaves config buffer entries.tokens (Entries.tidy · entries) (Entries.litter · entries)
      noProperty := by
  match entries with
  | .last entry =>
    simp only [Entries.tokens, Entries.tidy, Entries.litter]
    exact leaves_entry entry
  | .cons entry more =>
    obtain ⟨t, ts, htokens, hk⟩ := exists_entries_tokens more
    simp only [Entries.tokens, Entries.tidy, Entries.litter]
    refine (leaves_entry entry).append (leaves_entries more) (keeps_entry entry)
      (keeps_entries more) (by simp [htokens]) (fun _ next => ?_) fun _ _ _ h => h
    simp [noProperty, htokens, firstOr, isProperty, hk]

theorem leaves_member (member : Member) (hflow : ∀ t ∈ member.tokens, isBlockScalar t = false) :
    Leaves config buffer member.tokens (Member.tidy · member) (Member.litter · member)
      noProperty := by
  match member with
  | .slot slot =>
    simp only [Member.tokens] at hflow
    simp only [Member.tokens, Member.tidy]
    exact leaves_plainSlot (outcome_filled slot) hflow
  | .entry entry =>
    simp only [Member.tokens, Member.tidy]
    exact leaves_entry entry

/-- The members of a flow collection. -/
theorem leaves_members (members : Members)
    (hflow : ∀ t ∈ members.tokens, isBlockScalar t = false) :
    Leaves config buffer members.tokens (Members.tidy · members) (Members.litter · members)
      noProperty := by
  match members with
  | .last member =>
    simp only [Members.tokens] at hflow
    simp only [Members.tokens, Members.tidy, Members.litter]
    exact leaves_member member hflow
  | .cons member comma more =>
    simp only [Members.tokens, List.mem_append, List.mem_cons] at hflow
    simp only [Members.tokens, Members.tidy, Members.litter]
    refine (leaves_member member fun t ht => hflow t (.inl ht)).append
      (leaves_comma (leaves_members more fun t ht => hflow t (.inr (.inr ht))))
      (keeps_member member) ((keeps_members more).cons (by simp [comma.2, isEnder])) (by simp)
      (fun _ _ => ?_) fun _ _ _ h => h
    simp [noProperty, firstOr, isProperty, comma.2]

end

/-! ## Streams -/

/-- A quiet token between documents. -/
theorem plain_after_root (hp : s.plain = [.root]) (hb : Based s.stack)
    (hflow : t.kind.isFlowEnd = false) (hscalar : t.isScalar = false)
    (hopens : opensNone t.kind = true) : (s.after config buffer prev t rest).plain = [.root] := by
  have hquiet : (s.after config buffer prev t rest).plain = (closeFrames t _ false s.plain).1 :=
    plain_check_quiet (State.passes_of_not_isScalar hb hflow hscalar) hopens
  rw [hquiet, hp, closeFrames_single]

theorem boundary_quiet (ht : isBoundaryKind t.kind = true) :
    t.kind.isFlowEnd = false ∧ t.isScalar = false ∧ opensNone t.kind = true ∧
      isEnder t.kind = false := by
  unfold isBoundaryKind at ht
  split at ht <;>
    simp_all [TokenKind.isFlowEnd, Token.isScalar, Token.scalarStyle?, opensNone, isEnder]

theorem keeps_parts (parts : List Part) : Keeps config buffer (parts.flatMap Part.tokens) := by
  induction parts with
  | nil => exact .nil
  | cons part parts ih =>
    rw [List.flatMap_cons]
    match part with
    | .boundary token =>
      obtain ⟨-, -, -, hender⟩ := boundary_quiet token.2
      exact ih.cons hender
    | .node node => exact (keeps_node node).append ih

/-- The documents of a stream leave nothing but the root, unless one of them is not tidy. -/
theorem outcome_parts (parts : List Part) (prev : Option Token) (s : State) (stop : Token)
    (rest : List Token) (hb : Based s.stack)
    (hs : Scanned buffer (parts.flatMap Part.tokens ++ stop :: rest)) (hp : s.plain = [.root]) :
    Outcome (partsTidy stop parts) s
      (s.over config buffer prev (parts.flatMap Part.tokens) (stop :: rest)) [.root] := by
  induction parts generalizing prev s with
  | nil => exact hp
  | cons part parts ih =>
    -- the token behind a part is the first of the parts that follow, or the end of the stream
    obtain ⟨next, after, hnext⟩ : ∃ next after, parts.flatMap Part.tokens ++ stop :: rest =
        next :: after ∧ next = firstOr stop (parts.flatMap Part.tokens) := by
      cases parts.flatMap Part.tokens with
      | nil => exact ⟨stop, rest, rfl, rfl⟩
      | cons t ts => exact ⟨t, ts ++ stop :: rest, rfl, rfl⟩
    rw [List.flatMap_cons, List.append_assoc] at hs
    have hs₁ := hs.drop part.tokens
    have hb₁ : Based (s.over config buffer prev part.tokens
        (parts.flatMap Part.tokens ++ stop :: rest)).stack := based_over hb
    rw [List.flatMap_cons, over_append]
    match part with
    | .boundary token =>
      obtain ⟨hflow, hscalar, hopens, hender⟩ := boundary_quiet token.2
      have hp₁ : (s.after config buffer prev token.1
          (parts.flatMap Part.tokens ++ stop :: rest)).plain = [.root] :=
        plain_after_root hp hb hflow hscalar hopens
      exact Outcome.after hp₁ (own_after hender) (ih _ _ (based_after hb) hs₁)
    | .node node =>
      have hnode : Outcome (node.tidy next) s
          (s.over config buffer prev node.tokens (next :: after)) [.root] := by
        have hg := guarded_of_top (s := s) (fun v hv => by rw [hp] at hv; cases hv) node
        have h : Outcome (node.tidy next) s
            (s.over config buffer prev node.tokens (next :: after)) _ :=
          outcome_node node prev s next after hb (hnext.1 ▸ hs) hg
        rwa [hp, closeFrames_single] at h
      rw [← hnext.1, hnext.2] at hnode
      exact hnode.trans (keeps_node node prev s _ hb hs) (ih _ _ hb₁ hs₁)
        (keeps_parts parts _ _ _ hb₁ hs₁)

/-- A stack is the root alone if it is so without columns. -/
theorem plain_eq_root : s.plain = [.root] ↔ s.stack = [.root] := by
  constructor
  · intro h
    obtain ⟨f, hf, hroot⟩ := List.map_eq_singleton_iff.1 h
    rw [hf]
    cases f <;> cases hroot
    rfl
  · intro h
    rw [State.plain, h]
    rfl

/-- The rule comes back to the root if and only if every collection finds its frame. -/
theorem stack_over_stream (config : Config) (y : Stream) (hs : Scanned buffer y.tokens) :
    ((State.start config).over config buffer none y.tokens []).stack = [.root] ↔
      y.tidy = true := by
  obtain ⟨start, parts, stop⟩ := y
  rw [Stream.tokens] at hs ⊢
  rw [over_cons, over_append, over_cons, over_nil]
  generalize h₁ : (State.start config).after config buffer none start.1 _ = s₁
  have hb₁ : Based s₁.stack := h₁ ▸ based_after rfl
  have hp₁ : s₁.plain = [.root] := by
    rw [← h₁]
    exact plain_after_root rfl rfl (by simp [start.2, TokenKind.isFlowEnd])
      (by simp [start.2, Token.isScalar, Token.scalarStyle?]) (by simp [start.2, opensNone])
  generalize h₂ : s₁.over config buffer (some start.1) _ _ = s₂
  have hb₂ : Based s₂.stack := h₂ ▸ based_over hb₁
  have hparts : Outcome (partsTidy stop.1 parts) s₁ s₂ [.root] :=
    h₂ ▸ outcome_parts parts (some start.1) s₁ stop.1 [] hb₁ hs.tail hp₁
  rw [Stream.tidy, ← plain_eq_root]
  cases htidy : partsTidy stop.1 parts with
  | true =>
    rw [htidy] at hparts
    refine iff_of_true ?_ rfl
    exact plain_after_root hparts hb₂ (by simp [stop.2, TokenKind.isFlowEnd])
      (by simp [stop.2, Token.isScalar, Token.scalarStyle?]) (by simp [stop.2, opensNone])
  | false =>
    -- a frame that waits for its end token stays on the stack
    rw [htidy] at hparts
    refine iff_of_false (fun hroot => ?_) (by simp)
    have hlast : own s₂.stack ≤ own (s₂.after config buffer
        ((parts.flatMap Part.tokens).getLast?.or (some start.1)) stop.1 ([] ++ [])).stack :=
      own_after (by simp [stop.2, isEnder])
    rw [← own_plain (s₂.after _ _ _ _ _), hroot] at hlast
    have hnone : own [.root] = 0 := rfl
    have hless : own s₁.stack < own s₂.stack := hparts
    omega

/-- The stack behind the last token of a source. For every source whose tokens are those of a stream
and for all options, it is the root alone if and only if every collection of the stream finds its own
frame when it ends. A mapping does not if its last value is a sequence without an end token that ends
with an empty item. -/
theorem stack_is_root_iff_tidy (source : String) (config : Config) (y : Stream)
    (hy : (scan source).tokens = y.tokens) :
    ((windows (Text.bytes source.toList) (scan source).tokens).foldl
      (fun s w => (check config w s).2) (.start config)).stack = [.root] ↔ y.tidy = true := by
  rw [windows, foldl_windowsFrom, hy]
  apply stack_over_stream
  rw [← hy]
  exact ScanState.scanned_scanText source.toList

/-- The stream of a mapping whose only value is a sequence without start and end tokens, which ends
with an empty item. -/
def emptyLastItem : Stream :=
  let leaf (value : String) (start stop : Mark) : Slot :=
    .filled (.leaf [] ⟨⟨.scalar value .plain, start, stop⟩, rfl⟩)
  let items : Items :=
    .cons ⟨⟨.blockEntry, ⟨3, 1, 0⟩, ⟨4, 1, 1⟩⟩, rfl⟩ (leaf "b" ⟨5, 1, 2⟩ ⟨6, 1, 3⟩) <|
      .last ⟨⟨.blockEntry, ⟨7, 2, 0⟩, ⟨8, 2, 1⟩⟩, rfl⟩ .empty
  let entry : Entry :=
    .pair ⟨.empty .key .origin, rfl⟩ (.slot (leaf "a" .origin ⟨1, 0, 1⟩))
      ⟨⟨.value, ⟨1, 0, 1⟩, ⟨2, 0, 2⟩⟩, rfl⟩ (.list [] items)
  { start := ⟨.empty .streamStart .origin, rfl⟩
    parts := [.node (.blockMap [] ⟨.empty .blockMappingStart .origin, rfl⟩ (.last entry)
      ⟨.empty .blockEnd ⟨9, 3, 0⟩, rfl⟩)]
    stop := ⟨.empty .streamEnd ⟨9, 3, 0⟩, rfl⟩ }

/-- Behind an empty last item, the rule does not come back to the root. -/
theorem stack_is_root_iff_tidy_emptyLastItem :
    (scan "a:\n- b\n-\n").error = none ∧
      (scan "a:\n- b\n-\n").tokens = emptyLastItem.tokens ∧
      ∀ config : Config, ((windows (Text.bytes "a:\n- b\n-\n".toList)
        (scan "a:\n- b\n-\n").tokens).foldl
          (fun s w => (check config w s).2) (.start config)).stack ≠ [.root] := by
  have htokens : (scan "a:\n- b\n-\n").tokens = emptyLastItem.tokens := by decide +kernel
  refine ⟨by decide +kernel, htokens, fun config hroot => ?_⟩
  have htidy := (stack_is_root_iff_tidy "a:\n- b\n-\n" config emptyLastItem htokens).1 hroot
  revert htidy
  decide +kernel

end YamlLinter.Indentation
