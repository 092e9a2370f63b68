import YamlLinter.Proofs.Indentation.Step

/-!
# Over the tokens of a tree

The indentation rule sees the tokens of a tree one after the other. Whatever the stack is in front of
a tree, the tree closes no frames that wait for the end tokens of others.

## Contents

* `State.after`, `State.over`: the state behind a token, and behind some tokens;
* `Scanned`: what the places of tokens promise to the rule;
* `Bracketed`: flow collections close their brackets, so that no block scalar stands inside;
* `Keeps`: the frames that wait for an end token do not get fewer.
-/

namespace YamlLinter.Indentation

open Grammar

/-! ## Runs -/

/-- The state behind a token that stands behind `prev` and in front of `rest`. -/
def State.after (config : Config) (buffer : List UInt8) (prev : Option Token) (s : State)
    (t : Token) (rest : List Token) : State :=
  (check config ⟨buffer, prev, t, rest.head?, rest.tail.head?⟩ s).2

/-- The state behind the tokens `ts`, which `rest` follows. -/
def State.over (config : Config) (buffer : List UInt8) (prev : Option Token) (s : State) :
    (ts rest : List Token) → State
  | [], _ => s
  | t :: ts, rest =>
    State.over config buffer (some t) (s.after config buffer prev t (ts ++ rest)) ts rest

variable {config : Config} {buffer : List UInt8} {prev : Option Token} {s s' : State}
  {t next : Token} {ts us rest : List Token}

theorem over_nil : s.over config buffer prev [] rest = s := rfl

theorem over_cons :
    s.over config buffer prev (t :: ts) rest =
      (s.after config buffer prev t (ts ++ rest)).over config buffer (some t) ts rest := rfl

/-- Tokens behind each other are walked over one after the other. -/
theorem over_append (s : State) (prev : Option Token) (ts us rest : List Token) :
    s.over config buffer prev (ts ++ us) rest =
      (s.over config buffer prev ts (us ++ rest)).over config buffer (ts.getLast?.or prev) us
        rest := by
  induction ts generalizing s prev with
  | nil => rfl
  | cons t ts ih =>
    rw [List.cons_append, over_cons, ih, over_cons, List.append_assoc]
    congr 1
    cases h : ts.getLast? with
    | none =>
      rw [List.getLast?_eq_none_iff] at h
      simp [h]
    | some u => simp [List.getLast?_cons, h]

/-- The four parts of a collection: properties, start token, content and end token. -/
theorem over_enclosed (s : State) (prev : Option Token) (ps inner rest : List Token)
    (start stop : Token) :
    s.over config buffer prev (ps ++ start :: (inner ++ [stop])) rest =
      (((s.over config buffer prev ps (start :: (inner ++ stop :: rest))).after config buffer
        (ps.getLast?.or prev) start (inner ++ stop :: rest)).over config buffer (some start) inner
          (stop :: rest)).after config buffer (inner.getLast?.or (some start)) stop rest := by
  rw [over_append, over_cons, over_append, over_cons, over_nil]
  simp

/-- The states of a rule that sees a list of tokens. -/
theorem foldl_windowsFrom (s : State) (prev : Option Token) (ts : List Token) :
    (windowsFrom buffer prev ts).foldl (fun s w => (check config w s).2) s =
      s.over config buffer prev ts [] := by
  induction ts generalizing s prev with
  | nil => rfl
  | cons t ts ih =>
    rw [windowsFrom, List.foldl_cons, ih, over_cons, List.append_nil]
    rfl

/-- The root stays at the bottom. -/
theorem based_over (hb : Based s.stack) : Based (s.over config buffer prev ts rest).stack := by
  induction ts generalizing s prev with
  | nil => exact hb
  | cons t ts ih => exact ih (based_check hb)

/-! ## Places of tokens -/

/-- A start token of a block collection. -/
def isBlockStart : TokenKind → Bool
  | .blockMappingStart | .blockSequenceStart => true
  | _ => false

/-- The number of flow collections that are open behind some tokens, if there were `depth` before. -/
def flowDepth (depth : Nat) : List Token → Nat
  | [] => depth
  | t :: ts =>
    match t.kind with
    | .flowSequenceStart | .flowMappingStart => flowDepth (depth + 1) ts
    | .flowSequenceEnd | .flowMappingEnd => flowDepth (depth - 1) ts
    | _ => flowDepth depth ts

/-- What the places of tokens promise: a block collection starts on the line of its first token, a
block scalar stands only behind keys that have a `?`, and never inside a flow collection. -/
structure Scanned (buffer : List UInt8) (ts : List Token) : Prop where
  lined : ∀ xs t u ys, ts = xs ++ t :: u :: ys → isBlockStart t.kind = true →
    u.start.line = t.start.line
  keyed : ∀ xs k ps b ys, ts = xs ++ k :: (ps ++ b :: ys) → k.kind = .key →
    (∀ p ∈ ps, isProperty p = true) → isBlockScalar b = true → isExplicitKey buffer k = true
  flat : ∀ xs t ys b zs, ts = xs ++ t :: (ys ++ b :: zs) →
    (∃ sequence, t.kind = flowStart sequence) → isBlockScalar b = true →
      ∃ depth, flowDepth (depth + 1) ys = 0

/-- What the places of tokens promise, they promise of the last ones too. -/
theorem Scanned.drop (xs : List Token) (h : Scanned buffer (xs ++ ts)) : Scanned buffer ts := by
  refine ⟨?_, ?_, ?_⟩
  · intro ys t u zs he
    exact h.lined (xs ++ ys) t u zs (by rw [he, List.append_assoc])
  · intro ys k ps b zs he
    exact h.keyed (xs ++ ys) k ps b zs (by rw [he, List.append_assoc])
  · intro ys t us b zs he
    exact h.flat (xs ++ ys) t us b zs (by rw [he, List.append_assoc])

theorem Scanned.tail (h : Scanned buffer (t :: ts)) : Scanned buffer ts :=
  Scanned.drop [t] h

/-! ## First tokens -/

/-- The first token of some items is a dash. -/
theorem exists_items_tokens (items : Items) :
    ∃ t ts, items.tokens = t :: ts ∧ t.kind = .blockEntry := by
  cases items with
  | last dash slot => exact ⟨dash.1, _, by rw [Items.tokens], dash.2⟩
  | cons dash slot rest => exact ⟨dash.1, _, by rw [Items.tokens], dash.2⟩

/-- The first token of an entry is its `KEY`. -/
theorem exists_entry_tokens (entry : Entry) :
    ∃ t ts, entry.tokens = t :: ts ∧ t.kind = .key := by
  cases entry with
  | key k content => exact ⟨k.1, _, by rw [Entry.tokens], k.2⟩
  | pair k content v held => exact ⟨k.1, _, by rw [Entry.tokens], k.2⟩

/-- The first token of some entries is the `KEY` of the first. -/
theorem exists_entries_tokens (entries : Entries) :
    ∃ t ts, entries.tokens = t :: ts ∧ t.kind = .key := by
  cases entries with
  | last entry =>
    rw [Entries.tokens]
    exact exists_entry_tokens entry
  | cons entry rest =>
    obtain ⟨t, ts, h, hk⟩ := exists_entry_tokens entry
    exact ⟨t, ts ++ rest.tokens, by rw [Entries.tokens, h, List.cons_append], hk⟩

theorem isEnder_of_isProperty (h : isProperty t = true) : isEnder t.kind = false := by
  unfold isProperty at h
  split at h <;> simp_all [isEnder]

theorem isProperty_of_mem_propTokens {props : List Property} (h : t ∈ propTokens props) :
    isProperty t = true := by
  obtain ⟨p, -, rfl⟩ := List.mem_map.1 h
  exact p.2

/-! ## Brackets -/

/-- Brackets are counted over tokens behind each other. -/
theorem flowDepth_append (depth : Nat) (ts us : List Token) :
    flowDepth depth (ts ++ us) = flowDepth (flowDepth depth ts) us := by
  induction ts generalizing depth with
  | nil => rfl
  | cons t ts ih =>
    simp only [List.cons_append, flowDepth]
    split <;> exact ih _

/-- All brackets of some tokens are closed among them. -/
structure Bracketed (ts : List Token) : Prop where
  whole : ∀ depth, flowDepth depth ts = depth
  part : ∀ depth us vs, ts = us ++ vs → depth ≤ flowDepth depth us

/-- A token that is no bracket. -/
def isUnbracketed : TokenKind → Bool
  | .flowSequenceStart | .flowMappingStart | .flowSequenceEnd | .flowMappingEnd => false
  | _ => true

/-- A token that is no bracket does not count. -/
theorem flowDepth_cons (ht : isUnbracketed t.kind = true) (depth : Nat) (ts : List Token) :
    flowDepth depth (t :: ts) = flowDepth depth ts := by
  rw [flowDepth]
  split <;> simp_all [isUnbracketed]

theorem Bracketed.nil : Bracketed [] := by
  refine ⟨fun _ => rfl, ?_⟩
  intro depth us vs h
  obtain ⟨rfl, -⟩ := List.append_eq_nil_iff.1 h.symm
  exact Nat.le_refl _

/-- A token that is no bracket may stand in front. -/
theorem Bracketed.cons (ht : isUnbracketed t.kind = true) (h : Bracketed ts) :
    Bracketed (t :: ts) := by
  refine ⟨fun depth => by rw [flowDepth_cons ht, h.whole], ?_⟩
  intro depth us vs he
  cases us with
  | nil => exact Nat.le_refl _
  | cons u us =>
    obtain ⟨rfl, htail⟩ := List.cons.inj he
    rw [flowDepth_cons ht]
    exact h.part depth us vs htail

/-- Brackets that are closed in two parts are closed in both together. -/
theorem Bracketed.append (h₁ : Bracketed ts) (h₂ : Bracketed us) : Bracketed (ts ++ us) := by
  refine ⟨fun depth => by rw [flowDepth_append, h₁.whole, h₂.whole], ?_⟩
  intro depth vs ws he
  rcases List.append_eq_append_iff.1 he with ⟨xs, rfl, hsecond⟩ | ⟨xs, rfl, -⟩
  · -- the part reaches into the second half
    rw [flowDepth_append, h₁.whole]
    exact h₂.part depth xs ws hsecond
  · exact h₁.part depth vs xs rfl

/-- Brackets around tokens whose own brackets are closed. -/
theorem Bracketed.enclosed {sequence : Bool} {start stop : Token} (h : Bracketed ts)
    (hstart : start.kind = flowStart sequence) (hstop : stop.kind = flowEnd sequence) :
    Bracketed (start :: (ts ++ [stop])) := by
  have hopen : ∀ depth us, flowDepth depth (start :: us) = flowDepth (depth + 1) us := by
    intro depth us
    cases sequence <;> simp [flowDepth, hstart, flowStart]
  have hclose : ∀ depth us, flowDepth (depth + 1) (stop :: us) = flowDepth depth us := by
    intro depth us
    cases sequence <;> simp [flowDepth, hstop, flowEnd]
  refine ⟨fun depth => ?_, ?_⟩
  · rw [hopen, flowDepth_append, h.whole, hclose]
    rfl
  · intro depth us vs he
    cases us with
    | nil => exact Nat.le_refl _
    | cons u us =>
      obtain ⟨rfl, htail⟩ := List.cons.inj he
      rw [hopen]
      -- the part ends inside the brackets, or reaches the closing one
      rcases List.append_eq_append_iff.1 htail with ⟨xs, rfl, hlast⟩ | ⟨xs, rfl, -⟩
      · rw [flowDepth_append, h.whole]
        cases xs with
        | nil => exact Nat.le_succ depth
        | cons x xs =>
          obtain ⟨rfl, hnil⟩ := List.cons.inj hlast
          obtain ⟨rfl, -⟩ := List.append_eq_nil_iff.1 hnil.symm
          rw [hclose]
          exact Nat.le_refl depth
      · exact Nat.le_of_succ_le (h.part (depth + 1) us xs rfl)

/-- Properties are no brackets. -/
theorem bracketed_props (props : List Property) : Bracketed (propTokens props) := by
  induction props with
  | nil => exact .nil
  | cons p props ih =>
    refine ih.cons ?_
    obtain ⟨p, hp⟩ := p
    unfold isProperty at hp
    split at hp <;> simp_all [isUnbracketed]

mutual

/-- Flow collections close their brackets. -/
theorem bracketed_node (node : Node) : Bracketed node.tokens := by
  match node with
  | .bare first more =>
    rw [Node.tokens]
    exact bracketed_props (first :: more)
  | .leaf props leaf =>
    rw [Node.tokens]
    refine (bracketed_props props).append (.cons ?_ .nil)
    obtain ⟨leaf, ht⟩ := leaf
    unfold isLeafKind at ht
    split at ht <;> simp_all [isUnbracketed]
  | .blockMap props start entries stop =>
    rw [Node.tokens]
    refine (bracketed_props props).append (.cons (by simp [start.2, isUnbracketed]) ?_)
    exact (bracketed_entries entries).append (.cons (by simp [stop.2, isUnbracketed]) .nil)
  | .blockSeq props start items stop =>
    rw [Node.tokens]
    refine (bracketed_props props).append (.cons (by simp [start.2, isUnbracketed]) ?_)
    exact (bracketed_items items).append (.cons (by simp [stop.2, isUnbracketed]) .nil)
  | .flow props sequence start members stop =>
    rw [Node.tokens]
    exact (bracketed_props props).append ((bracketed_members members).enclosed start.2 stop.2)

theorem bracketed_slot (slot : Slot) : Bracketed slot.tokens := by
  match slot with
  | .empty => exact .nil
  | .filled node =>
    rw [Slot.tokens]
    exact bracketed_node node

theorem bracketed_items (items : Items) : Bracketed items.tokens := by
  match items with
  | .last dash slot =>
    rw [Items.tokens]
    exact (bracketed_slot slot).cons (by simp [dash.2, isUnbracketed])
  | .cons dash slot more =>
    rw [Items.tokens]
    exact ((bracketed_slot slot).append (bracketed_items more)).cons
      (by simp [dash.2, isUnbracketed])

/-- What stands behind a key or a value closes its brackets. -/
theorem bracketed_body (content : Body) : Bracketed content.tokens := by
  match content with
  | .slot slot =>
    rw [Body.tokens]
    exact bracketed_slot slot
  | .list props items =>
    rw [Body.tokens]
    exact (bracketed_props props).append (bracketed_items items)

/-- Entries close their brackets. -/
theorem bracketed_entry (entry : Entry) : Bracketed entry.tokens := by
  match entry with
  | .key k content =>
    rw [Entry.tokens]
    exact (bracketed_body content).cons (by simp [k.2, isUnbracketed])
  | .pair k content v held =>
    rw [Entry.tokens]
    refine Bracketed.cons (by simp [k.2, isUnbracketed]) ((bracketed_body content).append ?_)
    exact (bracketed_body held).cons (by simp [v.2, isUnbracketed])

theorem bracketed_entries (entries : Entries) : Bracketed entries.tokens := by
  match entries with
  | .last entry =>
    rw [Entries.tokens]
    exact bracketed_entry entry
  | .cons entry more =>
    rw [Entries.tokens]
    exact (bracketed_entry entry).append (bracketed_entries more)

theorem bracketed_member (member : Member) : Bracketed member.tokens := by
  match member with
  | .slot slot =>
    rw [Member.tokens]
    exact bracketed_slot slot
  | .entry entry =>
    rw [Member.tokens]
    exact bracketed_entry entry

theorem bracketed_members (members : Members) : Bracketed members.tokens := by
  match members with
  | .last member =>
    rw [Members.tokens]
    exact bracketed_member member
  | .cons member comma more =>
    rw [Members.tokens]
    refine (bracketed_member member).append ?_
    exact (bracketed_members more).cons (by simp [comma.2, isUnbracketed])

end

/-- No block scalar stands inside a flow collection. -/
theorem Scanned.not_isBlockScalar {sequence : Bool} {start stop : Token}
    (hs : Scanned buffer (start :: (ts ++ stop :: rest))) (hstart : start.kind = flowStart sequence)
    (hb : Bracketed ts) : ∀ t ∈ ts, isBlockScalar t = false := by
  intro t ht
  obtain ⟨us, vs, hsplit⟩ := List.append_of_mem ht
  cases hblock : isBlockScalar t with
  | false => rfl
  | true =>
    obtain ⟨depth, hdepth⟩ := hs.flat [] start us t (vs ++ stop :: rest)
      (by rw [hsplit]; simp) ⟨sequence, hstart⟩ hblock
    have := hb.part (depth + 1) us (t :: vs) hsplit
    omega

/-! ## Frames that wait for an end token -/

/-- A token that ends no collection closes no frame that waits for its end. -/
theorem own_after (ht : isEnder t.kind = false) :
    own s.stack ≤ own (s.after config buffer prev t rest).stack :=
  own_check ht

/-- The root stays at the bottom behind a token. -/
theorem based_after (hb : Based s.stack) : Based (s.after config buffer prev t rest).stack :=
  based_check hb

/-- Some tokens close no frames that wait for the end tokens of others. -/
def Keeps (config : Config) (buffer : List UInt8) (ts : List Token) : Prop :=
  ∀ (prev : Option Token) (s : State) (rest : List Token), Based s.stack →
    Scanned buffer (ts ++ rest) →
      own s.stack ≤ own (s.over config buffer prev ts rest).stack

theorem Keeps.nil : Keeps config buffer [] := fun _ _ _ _ _ => Nat.le_refl _

/-- A token that ends no collection may stand in front. -/
theorem Keeps.cons (ht : isEnder t.kind = false) (h : Keeps config buffer ts) :
    Keeps config buffer (t :: ts) := by
  intro prev s rest hb hs
  rw [over_cons]
  exact Nat.le_trans (own_after ht) (h _ _ _ (based_after hb) hs.tail)

/-- What two parts keep, both together keep. -/
theorem Keeps.append (h₁ : Keeps config buffer ts) (h₂ : Keeps config buffer us) :
    Keeps config buffer (ts ++ us) := by
  intro prev s rest hb hs
  rw [List.append_assoc] at hs
  rw [over_append]
  exact Nat.le_trans (h₁ prev s _ hb hs) (h₂ _ _ _ (based_over hb) (hs.drop ts))

/-- Properties end no collection. -/
theorem keeps_props (props : List Property) : Keeps config buffer (propTokens props) := by
  induction props with
  | nil => exact .nil
  | cons p props ih => exact ih.cons (isEnder_of_isProperty p.2)

/-- A collection opens one frame and closes at most one. -/
theorem Keeps.enclosed {start stop : Token} {inner : List Token} {f : Frame}
    (hinner : Keeps config buffer inner) (props : List Property) (hf : f.isOwned = true)
    (ho : ∀ (prev : Option Token) (s : State) (rest : List Token), Based s.stack →
      Scanned buffer (start :: (inner ++ stop :: rest)) →
        (s.after config buffer prev start (inner ++ stop :: rest)).plain = f :: s.plain) :
    Keeps config buffer (propTokens props ++ start :: (inner ++ [stop])) := by
  intro prev s rest hb hs
  have hs : Scanned buffer (propTokens props ++ start :: (inner ++ stop :: rest)) := by
    simpa using hs
  rw [over_enclosed]
  generalize h₁ : s.over config buffer prev (propTokens props)
    (start :: (inner ++ stop :: rest)) = s₁
  generalize h₂ : s₁.after config buffer _ start (inner ++ stop :: rest) = s₂
  generalize h₃ : s₂.over config buffer (some start) inner (stop :: rest) = s₃
  have hb₁ : Based s₁.stack := h₁ ▸ based_over hb
  have hb₂ : Based s₂.stack := h₂ ▸ based_after hb₁
  have hs₁ := hs.drop (propTokens props)
  have hprops : own s.stack ≤ own s₁.stack := h₁ ▸ keeps_props props prev s _ hb hs
  have hopen : own s₂.stack = own s₁.stack + 1 := by
    have := congrArg own (ho ((propTokens props).getLast?.or prev) s₁ rest hb₁ hs₁)
    rw [h₂, State.plain, own_map_plain, own_cons_of_isOwned hf, State.plain, own_map_plain] at this
    exact this
  have hkeep : own s₂.stack ≤ own s₃.stack := h₃ ▸ hinner (some start) s₂ _ hb₂ hs₁.tail
  have hclose : own s₃.stack ≤ own (s₃.after config buffer
      (inner.getLast?.or (some start)) stop rest).stack + 1 := own_check_le _ _ _
  omega

/-- The start token of a block mapping opens its frame. -/
theorem plain_after_mapStart {start : TokenOf .blockMappingStart} {entries : Entries}
    (hb : Based s.stack) (hs : Scanned buffer (start.1 :: (entries.tokens ++ rest))) :
    (s.after config buffer prev start.1 (entries.tokens ++ rest)).plain = .blockMap 0 :: s.plain := by
  obtain ⟨t, ts, ht, hk⟩ := exists_entries_tokens entries
  rw [ht] at hs ⊢
  exact plain_check_blockMappingStart hb start.2 rfl hk
    (hs.lined [] start.1 t (ts ++ rest) rfl (by simp [start.2, isBlockStart]))

/-- The start token of a block sequence opens its frame. -/
theorem plain_after_seqStart {start : TokenOf .blockSequenceStart} {items : Items}
    (hb : Based s.stack) (hs : Scanned buffer (start.1 :: (items.tokens ++ rest))) :
    (s.after config buffer prev start.1 (items.tokens ++ rest)).plain =
      .blockSeq 0 false :: s.plain := by
  obtain ⟨t, ts, ht, hk⟩ := exists_items_tokens items
  rw [ht] at hs ⊢
  exact plain_check_blockSequenceStart hb start.2 rfl hk
    (hs.lined [] start.1 t (ts ++ rest) rfl (by simp [start.2, isBlockStart]))

/-- An opening bracket opens the frame of its flow collection. -/
theorem plain_after_flowStart {sequence : Bool} {start : TokenOf (flowStart sequence)}
    (hb : Based s.stack) (hr : rest ≠ []) :
    (s.after config buffer prev start.1 rest).plain = flowFrame sequence :: s.plain := by
  obtain ⟨t, ts, rfl⟩ := List.exists_cons_of_ne_nil hr
  exact plain_check_flowStart hb start.2 rfl

theorem isOwned_flowFrame (sequence : Bool) : (flowFrame sequence).isOwned = true := by
  cases sequence <;> rfl

theorem isEnder_of_isLeafKind (ht : isLeafKind t.kind = true) : isEnder t.kind = false := by
  unfold isLeafKind at ht
  split at ht <;> simp_all [isEnder]

mutual

/-- A node closes no frames that wait for the end tokens of others. -/
theorem keeps_node (node : Node) : Keeps config buffer node.tokens := by
  match node with
  | .bare first more =>
    rw [Node.tokens]
    exact keeps_props (first :: more)
  | .leaf props leaf =>
    rw [Node.tokens]
    exact (keeps_props props).append (.cons (isEnder_of_isLeafKind leaf.2) .nil)
  | .blockMap props start entries stop =>
    rw [Node.tokens]
    exact (keeps_entries entries).enclosed props rfl fun _ _ _ hb hs => plain_after_mapStart hb hs
  | .blockSeq props start items stop =>
    rw [Node.tokens]
    exact (keeps_items items).enclosed props rfl fun _ _ _ hb hs => plain_after_seqStart hb hs
  | .flow props sequence start members stop =>
    rw [Node.tokens]
    exact (keeps_members members).enclosed props (isOwned_flowFrame sequence) fun _ _ _ hb _ =>
      plain_after_flowStart hb (by simp)

/-- Nor does what stands in a place. -/
theorem keeps_slot (slot : Slot) : Keeps config buffer slot.tokens := by
  match slot with
  | .empty => exact .nil
  | .filled node =>
    rw [Slot.tokens]
    exact keeps_node node

/-- Nor do the items of a sequence. -/
theorem keeps_items (items : Items) : Keeps config buffer items.tokens := by
  match items with
  | .last dash slot =>
    rw [Items.tokens]
    exact (keeps_slot slot).cons (by simp [dash.2, isEnder])
  | .cons dash slot more =>
    rw [Items.tokens]
    exact ((keeps_slot slot).append (keeps_items more)).cons (by simp [dash.2, isEnder])

/-- Nor does what stands behind a key or a value. -/
theorem keeps_body (content : Body) : Keeps config buffer content.tokens := by
  match content with
  | .slot slot =>
    rw [Body.tokens]
    exact keeps_slot slot
  | .list props items =>
    rw [Body.tokens]
    exact (keeps_props props).append (keeps_items items)

theorem keeps_entry (entry : Entry) : Keeps config buffer entry.tokens := by
  match entry with
  | .key k content =>
    rw [Entry.tokens]
    exact (keeps_body content).cons (by simp [k.2, isEnder])
  | .pair k content v held =>
    rw [Entry.tokens]
    refine Keeps.cons (by simp [k.2, isEnder]) ((keeps_body content).append ?_)
    exact (keeps_body held).cons (by simp [v.2, isEnder])

theorem keeps_entries (entries : Entries) : Keeps config buffer entries.tokens := by
  match entries with
  | .last entry =>
    rw [Entries.tokens]
    exact keeps_entry entry
  | .cons entry more =>
    rw [Entries.tokens]
    exact (keeps_entry entry).append (keeps_entries more)

theorem keeps_member (member : Member) : Keeps config buffer member.tokens := by
  match member with
  | .slot slot =>
    rw [Member.tokens]
    exact keeps_slot slot
  | .entry entry =>
    rw [Member.tokens]
    exact keeps_entry entry

theorem keeps_members (members : Members) : Keeps config buffer members.tokens := by
  match members with
  | .last member =>
    rw [Members.tokens]
    exact keeps_member member
  | .cons member comma more =>
    rw [Members.tokens]
    refine (keeps_member member).append ?_
    exact (keeps_members more).cons (by simp [comma.2, isEnder])

end

end YamlLinter.Indentation
