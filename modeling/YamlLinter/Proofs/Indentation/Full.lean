import YamlLinter.Proofs.Indentation.Balance

/-!
# Streams without empty places

Only empty places and properties without content can keep the indentation rule from coming back to
the root. In a stream without them, an entry leaves at most its key open, and that only in a flow
collection, whose closing bracket shows that the key is over.

## Contents

* `Node.full` and its kin: no place is empty, but for those between the commas of a flow collection;
* `litter_body`, `litter_entry`, `litter_members`: what full trees leave open;
* `tidy_node`: full trees are tidy;
* `stack_of_full`: the stack behind a full stream.
-/

namespace YamlLinter.Grammar

mutual

/-- Whether no place of a node is empty. -/
def Node.full : Node → Bool
  | .bare _ _ => false
  | .leaf _ _ => true
  | .blockMap _ _ entries _ => entries.full
  | .blockSeq _ _ items _ => items.full
  | .flow _ _ _ members _ => members.full

/-- Whether a place is not empty, and none in it is. -/
def Slot.full : Slot → Bool
  | .empty => false
  | .filled node => node.full

/-- Whether no place of some items is empty. -/
def Items.full : Items → Bool
  | .last _ slot => slot.full
  | .cons _ slot rest => slot.full && rest.full

/-- Whether no place behind a key or a value is empty. -/
def Body.full : Body → Bool
  | .slot slot => slot.full
  | .list _ items => items.full

/-- Whether no place of an entry is empty. -/
def Entry.full : Entry → Bool
  | .key _ content => content.full
  | .pair _ content _ held => content.full && held.full

/-- Whether no place of some entries is empty. -/
def Entries.full : Entries → Bool
  | .last entry => entry.full
  | .cons entry rest => entry.full && rest.full

/-- Whether a member is nothing at all, or no place of it is empty. -/
def Member.full : Member → Bool
  | .slot .empty => true
  | .slot (.filled node) => node.full
  | .entry entry => entry.full

/-- Whether no place of some members is empty. -/
def Members.full : Members → Bool
  | .last member => member.full
  | .cons member _ rest => member.full && rest.full

end

/-- Whether no place of a part is empty. -/
def Part.full : Part → Bool
  | .boundary _ => true
  | .node content => content.full

/-- Whether no place of a stream is empty. -/
def Stream.full (y : Stream) : Bool := y.parts.all Part.full

end YamlLinter.Grammar

namespace YamlLinter.Indentation

open Grammar

variable {t next : Token} {w : List Litter}

/-! ## Sweeping -/

/-- A token behind which values and items are over. -/
def Solid (t : Token) : Prop := t.kind ≠ .blockEntry ∧ t.kind ≠ .value ∧ isProperty t = false

/-- The last token of a full node. -/
theorem solid_last (node : Node) (h : node.full = true) : Solid node.last := by
  cases node with
  | bare first more => cases h
  | leaf props leaf =>
    have hleaf := leaf.2
    show Solid leaf.1
    unfold isLeafKind at hleaf
    split at hleaf
    · rename_i name hk
      simp [Solid, hk, isProperty]
    · rename_i value style hk
      simp [Solid, hk, isProperty]
    · cases hleaf
  | blockMap props start entries stop => simp [Node.last, Solid, stop.2, isProperty]
  | blockSeq props start items stop => simp [Node.last, Solid, stop.2, isProperty]
  | flow props sequence start members stop =>
    cases sequence <;> simp [Node.last, Solid, stop.2, flowEnd, isProperty]

theorem sweep_pair (ht : Solid t) : sweep t next (.pair :: w) = sweep t next w := by
  simp [sweep, ht.2.1, ht.2.2]

/-- The last item of a sequence without start and end tokens. -/
theorem sweep_last_item (ht : Solid t) (hn : next.kind ≠ .blockEntry) :
    sweep t next (.item :: w) = sweep t next w := by
  simp [sweep, ht.1, ht.2.2, hn]

/-- An item in front of another. -/
theorem sweep_item (hn : next.kind = .blockEntry) : sweep t next (.item :: w) = .list :: w := by
  simp [sweep, hn, endsItem]

/-- Keys go together. -/
theorem sweep_keys (hw : ∀ l ∈ w, l = .key) :
    sweep t next w = if endsEntry next.kind then [] else w := by
  induction w with
  | nil => simp [sweep]
  | cons l w ih =>
    obtain rfl : l = .key := hw l List.mem_cons_self
    have hkeys : ∀ l ∈ w, l = .key := fun l hl => hw l (List.mem_cons_of_mem _ hl)
    rw [sweep, ih hkeys]
    split <;> rfl

theorem keys_sweep (hw : ∀ l ∈ w, l = .key) : ∀ l ∈ sweep t next w, l = .key := by
  rw [sweep_keys hw]
  split
  · intro l hl
    cases hl
  · exact hw

/-! ## What full trees leave open -/

/-- The dash of an item that is not empty opens the item. -/
theorem litter_dash {dash : Token} {node : Node} {v : List Litter} (hw : openItem w = .item :: v) :
    dashLitter dash (firstOr next node.tokens) w = .item :: v := by
  obtain ⟨u, us, htokens, hstarts⟩ := exists_node_tokens node
  have hfirst : firstOr next node.tokens = u := by rw [htokens]; rfl
  rw [dashLitter, hfirst, if_neg (by simp [hstarts.1]), hw]

/-- The items of a sequence without start and end tokens close it. -/
theorem litter_items (items : Items) (h : items.full = true) (hn : next.kind ≠ .blockEntry)
    (v w : List Litter) (hw : openItem w = .item :: v) :
    ∃ t, Solid t ∧ items.litter next w = sweep t next v := by
  match items with
  | .last dash (.filled node) =>
    have hlast := solid_last node h
    refine ⟨node.last, hlast, ?_⟩
    rw [Items.litter, Slot.tokens, litter_dash hw, Slot.litter]
    exact sweep_last_item hlast hn
  | .cons dash (.filled node) rest =>
    obtain ⟨hnode, hrest⟩ := Bool.and_eq_true_iff.1 h
    obtain ⟨u, us, htokens, hk⟩ := exists_items_tokens rest
    have hbehind : (firstOr next rest.tokens).kind = .blockEntry := by
      rw [htokens]
      exact hk
    -- the next dash leaves the sequence open, and opens the next item in it
    obtain ⟨t, ht, hlitter⟩ := litter_items rest hrest hn v (.list :: v) rfl
    refine ⟨t, ht, ?_⟩
    rw [Items.litter, Slot.tokens, litter_dash hw, Slot.litter, sweep_item hbehind]
    exact hlitter

/-- The first dash of a sequence ends no entry. -/
theorem endsEntry_items (items : Items) : endsEntry (firstOr next items.tokens).kind = false := by
  obtain ⟨u, us, htokens, hk⟩ := exists_items_tokens items
  rw [htokens]
  show endsEntry u.kind = false
  rw [hk]
  rfl

/-- Behind a key or a value, properties in front of a dash close nothing. -/
theorem litter_props (props : List Property) {dash : Token} (hd : endsEntry dash.kind = false)
    (hw : ∃ v, w = .key :: v ∨ w = .pair :: v) : propsLitter dash props w = w := by
  unfold propsLitter
  split
  · rfl
  · rename_i t ht
    have hprop : isProperty t = true := isProperty_of_mem_propTokens (List.mem_of_getLast? ht)
    obtain ⟨v, rfl | rfl⟩ := hw
    · simp [sweep, hd]
    · simp [sweep, hprop]

/-- The content of a key or value closes what was opened for it. -/
theorem litter_body (body : Body) (h : body.full = true) (hn : next.kind ≠ .blockEntry)
    (hw : ∃ v, w = .key :: v ∨ w = .pair :: v) :
    ∃ t, Solid t ∧ body.litter next w = sweep t next w := by
  cases body with
  | slot slot =>
    cases slot with
    | empty => cases h
    | filled node => exact ⟨node.last, solid_last node h, rfl⟩
  | list props items =>
    have hopen : openItem w = .item :: w := by
      obtain ⟨v, rfl | rfl⟩ := hw <;> rfl
    rw [Body.litter, litter_props props (endsEntry_items items) hw]
    exact litter_items items h hn w w hopen

theorem endsEntry_firstOr (body : Body) (h : body.full = true) :
    endsEntry (firstOr next body.tokens).kind = false := by
  cases body with
  | slot slot =>
    cases slot with
    | empty => cases h
    | filled node =>
      obtain ⟨u, us, htokens, hstarts⟩ := exists_node_tokens node
      rw [Body.tokens, Slot.tokens, htokens]
      exact hstarts.2
  | list props items =>
    rw [Body.tokens]
    cases props with
    | nil => exact endsEntry_items items
    | cons p props => exact (starts_property p.2).2

theorem opensValue_of_full (body : Body) (h : body.full = true) (prev : Token) :
    body.opensValue prev next = true := by
  cases body with
  | slot slot =>
    cases slot with
    | empty => cases h
    | filled node =>
      cases node with
      | bare first more => cases h
      | _ => rfl
  | list props items => rfl

/-- An entry leaves nothing open but keys, and none if the token behind it ends the entry. -/
theorem litter_entry (entry : Entry) (h : entry.full = true) (hn : next.kind ≠ .blockEntry)
    (hw : ∀ l ∈ w, l = .key) :
    (∀ l ∈ entry.litter next w, l = .key) ∧
      (endsEntry next.kind = true → entry.litter next w = []) := by
  have hkeys : ∀ l ∈ (.key :: w), l = .key := by
    intro l hl
    rcases List.mem_cons.1 hl with rfl | hl
    · rfl
    · exact hw l hl
  have hkey : ∀ (k v : Token) (content : Body), content.full = true →
      sweep k (firstOr v content.tokens) (.key :: w) = .key :: w := by
    intro k v content hfull
    rw [sweep_keys hkeys, endsEntry_firstOr content hfull]
    rfl
  -- behind the last token of the entry, only keys are left to be swept
  obtain ⟨t, v, hv, hlitter⟩ : ∃ t v, (∀ l ∈ v, l = .key) ∧
      entry.litter next w = sweep t next v := by
    cases entry with
    | key k content =>
      obtain ⟨t, -, hlitter⟩ := litter_body (w := .key :: w) content h hn ⟨w, .inl rfl⟩
      refine ⟨t, .key :: w, hkeys, ?_⟩
      rw [Entry.litter, hkey _ _ content h]
      exact hlitter
    | pair k content v held =>
      obtain ⟨hcontent, hheld⟩ := Bool.and_eq_true_iff.1 h
      have hvalue : v.1.kind ≠ .blockEntry := by simp [v.2]
      obtain ⟨t₁, -, hlitter₁⟩ := litter_body (w := .key :: w) content hcontent hvalue
        ⟨w, .inl rfl⟩
      obtain ⟨t, ht, hlitter⟩ := litter_body (w := .pair :: w) held hheld hn ⟨w, .inr rfl⟩
      refine ⟨t, w, hw, ?_⟩
      simp only [Entry.litter, hkey _ _ content hcontent, hlitter₁, sweep_keys hkeys, v.2,
        opensValue_of_full held hheld]
      exact hlitter.trans (sweep_pair ht)
  rw [hlitter]
  constructor
  · exact keys_sweep hv
  · intro hends
    rw [sweep_keys hv, if_pos hends]

/-- The entries of a block mapping leave nothing open. -/
theorem litter_entries (entries : Entries) (h : entries.full = true) (hn : next.kind = .blockEnd) :
    entries.litter next [] = [] := by
  match entries with
  | .last entry =>
    exact (litter_entry entry h (by simp [hn]) (by simp)).2 (by rw [hn]; rfl)
  | .cons entry rest =>
    obtain ⟨hentry, hrest⟩ := Bool.and_eq_true_iff.1 h
    obtain ⟨u, us, htokens, hk⟩ := exists_entries_tokens rest
    have hbehind : (firstOr next rest.tokens).kind = .key := by
      rw [htokens]
      exact hk
    have hnone : entry.litter (firstOr next rest.tokens) [] = [] :=
      (litter_entry entry hentry (by simp [hbehind]) (by simp)).2 (by rw [hbehind]; rfl)
    rw [Entries.litter, hnone]
    exact litter_entries rest hrest hn

/-- A member leaves nothing open but keys, and none if it is not empty and the token behind it ends
the entry. -/
theorem litter_member (member : Member) (h : member.full = true) (hn : next.kind ≠ .blockEntry)
    (hw : ∀ l ∈ w, l = .key) :
    (∀ l ∈ member.litter next w, l = .key) ∧
      (endsEntry next.kind = true → (member = .slot .empty → w = []) →
        member.litter next w = []) := by
  cases member with
  | slot slot =>
    cases slot with
    | empty => exact ⟨hw, fun _ hempty => hempty rfl⟩
    | filled node =>
      constructor
      · exact keys_sweep hw
      · intro hends _
        show sweep node.last next w = []
        rw [sweep_keys hw, if_pos hends]
  | entry entry =>
    obtain ⟨hkeys, hnone⟩ := litter_entry entry h hn hw
    exact ⟨hkeys, fun hends _ => hnone hends⟩

/-- The members of a flow collection leave nothing open in front of its closing bracket. -/
theorem litter_members (members : Members) (h : members.full = true)
    (hn : next.kind = .flowSequenceEnd ∨ next.kind = .flowMappingEnd) (w : List Litter)
    (hw : ∀ l ∈ w, l = .key) (hlast : members = .last (.slot .empty) → w = []) :
    members.litter next w = [] := by
  have hends : endsEntry next.kind = true := by
    rcases hn with hn | hn <;> rw [hn] <;> rfl
  match members with
  | .last member =>
    refine (litter_member member h ?_ hw).2 hends fun hempty => hlast (by rw [hempty])
    rcases hn with hn | hn <;> simp [hn]
  | .cons member comma rest =>
    obtain ⟨hmember, hrest⟩ := Bool.and_eq_true_iff.1 h
    obtain ⟨hkeys, -⟩ := litter_member (w := w) member hmember
      (show comma.1.kind ≠ .blockEntry by simp [comma.2]) hw
    rw [Members.litter]
    apply litter_members rest hrest hn _ (keys_sweep hkeys)
    -- in front of the bracket, the comma has swept the keys itself
    rintro rfl
    rw [sweep_keys hkeys]
    exact if_pos hends

/-! ## Full trees are tidy -/

mutual

theorem tidy_node (node : Node) (h : node.full = true) (next : Token) : node.tidy next = true := by
  match node with
  | .leaf props leaf => rfl
  | .blockMap props start entries stop =>
    rw [Node.tidy, litter_entries entries h stop.2, tidy_entries entries h]
    rfl
  | .blockSeq props start items stop =>
    rw [Node.tidy]
    exact tidy_items items h stop.1
  | .flow props sequence start members stop =>
    have hstop : stop.1.kind = .flowSequenceEnd ∨ stop.1.kind = .flowMappingEnd := by
      cases sequence <;> simp [stop.2, flowEnd]
    rw [Node.tidy, litter_members members h hstop [] (by simp) (fun _ => rfl),
      tidy_members members h]
    rfl

theorem tidy_slot (slot : Slot) (h : slot.full = true) (next : Token) : slot.tidy next = true := by
  match slot with
  | .filled node =>
    rw [Slot.tidy]
    exact tidy_node node h next

theorem tidy_items (items : Items) (h : items.full = true) (next : Token) :
    items.tidy next = true := by
  match items with
  | .last dash slot =>
    rw [Items.tidy]
    exact tidy_slot slot h next
  | .cons dash slot rest =>
    obtain ⟨hslot, hrest⟩ := Bool.and_eq_true_iff.1 h
    rw [Items.tidy, tidy_slot slot hslot, tidy_items rest hrest]
    rfl

theorem tidy_body (body : Body) (h : body.full = true) (next : Token) : body.tidy next = true := by
  match body with
  | .slot slot =>
    rw [Body.tidy]
    exact tidy_slot slot h next
  | .list props items =>
    rw [Body.tidy]
    exact tidy_items items h next

theorem tidy_entry (entry : Entry) (h : entry.full = true) (next : Token) :
    entry.tidy next = true := by
  match entry with
  | .key k content =>
    rw [Entry.tidy]
    exact tidy_body content h next
  | .pair k content v held =>
    obtain ⟨hcontent, hheld⟩ := Bool.and_eq_true_iff.1 h
    rw [Entry.tidy, tidy_body content hcontent, tidy_body held hheld]
    rfl

theorem tidy_entries (entries : Entries) (h : entries.full = true) (next : Token) :
    entries.tidy next = true := by
  match entries with
  | .last entry =>
    rw [Entries.tidy]
    exact tidy_entry entry h next
  | .cons entry rest =>
    obtain ⟨hentry, hrest⟩ := Bool.and_eq_true_iff.1 h
    rw [Entries.tidy, tidy_entry entry hentry, tidy_entries rest hrest]
    rfl

theorem tidy_member (member : Member) (h : member.full = true) (next : Token) :
    member.tidy next = true := by
  match member with
  | .slot .empty => rfl
  | .slot (.filled node) =>
    rw [Member.tidy, Slot.tidy]
    exact tidy_node node h next
  | .entry entry =>
    rw [Member.tidy]
    exact tidy_entry entry h next

theorem tidy_members (members : Members) (h : members.full = true) (next : Token) :
    members.tidy next = true := by
  match members with
  | .last member =>
    rw [Members.tidy]
    exact tidy_member member h next
  | .cons member comma rest =>
    obtain ⟨hmember, hrest⟩ := Bool.and_eq_true_iff.1 h
    rw [Members.tidy, tidy_member member hmember, tidy_members rest hrest]
    rfl

end

theorem tidy_stream (y : Stream) (h : y.full = true) : y.tidy = true := by
  obtain ⟨start, parts, stop⟩ := y
  show partsTidy stop.1 parts = true
  have hparts : ∀ part ∈ parts, part.full = true := List.all_eq_true.1 h
  clear h
  induction parts with
  | nil => rfl
  | cons part parts ih =>
    have hrest := ih fun p hp => hparts p (List.mem_cons_of_mem _ hp)
    have hpart := hparts part List.mem_cons_self
    cases part with
    | boundary token => exact hrest
    | node node => rw [partsTidy, tidy_node node hpart, hrest]; rfl

/-- The rule comes back to the root behind every source in which no place is empty. -/
theorem stack_of_full (source : String) (config : Config) (y : Stream)
    (hy : (scan source).tokens = y.tokens) (h : y.full = true) :
    ((windows (Text.bytes source.toList) (scan source).tokens).foldl
      (fun s w => (check config w s).2) (.start config)).stack = [.root] := by
  have hscanned : Scanned (Text.bytes source.toList) y.tokens := by
    rw [← hy]
    exact ScanState.scanned_scanText source.toList
  rw [windows, foldl_windowsFrom, hy, stack_over_stream config y hscanned]
  exact tidy_stream y h

end YamlLinter.Indentation
