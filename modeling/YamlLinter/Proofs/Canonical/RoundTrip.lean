import YamlLinter.Proofs.Canonical.Scan
import YamlLinter.Proofs.Canonical.Verdict

/-!
# Reading a tree back

The kinds of the tokens of a canonical document are its tree, flattened. No two trees have the same
flattened form, so the scanner tells the trees of a layout apart.

## Contents

* `Tree.flatten`: the kinds of the tokens of a tree, without a place;
* `kinds_tree`: the tokens of a tree are of these kinds;
* `flatten_tree_append`: a flattened tree ends where it ends, whatever follows it;
* `scan_emit`: the scan of a canonical document.
-/

namespace YamlLinter.Canonical

variable {layout : Layout} {bare : Bool}

/-! ## Flattened trees -/

/-- The kind of a word. -/
def Word.kind (w : Word) : TokenKind := .scalar (String.ofList w.chars) .plain

mutual

/-- The kinds of the tokens of a tree. A bare sequence has no start and end. -/
def Tree.flatten (layout : Layout) (bare : Bool) : Tree → List TokenKind
  | .leaf word => [word.kind]
  | .mapping entries => .blockMappingStart :: (entries.flatten layout ++ [.blockEnd])
  | .sequence items =>
    if bare then items.flatten layout
    else .blockSequenceStart :: (items.flatten layout ++ [.blockEnd])

/-- The kinds of the tokens of the entries of a mapping. Below a key, a sequence is bare unless it
is indented. -/
def Entries.flatten (layout : Layout) : Entries → List TokenKind
  | .last key value => .key :: key.kind :: .value :: value.flatten layout (!layout.indented)
  | .cons key value rest =>
    .key :: key.kind :: .value ::
      (value.flatten layout (!layout.indented) ++ rest.flatten layout)

/-- The kinds of the tokens of the items of a sequence. -/
def Items.flatten (layout : Layout) : Items → List TokenKind
  | .last item => .blockEntry :: item.flatten layout false
  | .cons item rest => .blockEntry :: (item.flatten layout false ++ rest.flatten layout)

end

theorem kinds_key (key : Key) (m : Mark) :
    (key.tokens m).map Token.kind = [.key, key.kind, .value] := rfl

mutual

/-- The tokens of a tree are of its kinds, wherever it stands. -/
theorem kinds_tree (t : Tree) (bare : Bool) (column : Nat) (m e : Mark) :
    (t.tokens layout bare column m e).map Token.kind = t.flatten layout bare := by
  match t with
  | .leaf word =>
    rw [Tree.tokens, Tree.flatten]
    rfl
  | .mapping es =>
    rw [Tree.tokens, Tree.flatten]
    simp [Token.empty, kinds_entries es column m e]
  | .sequence its =>
    rw [Tree.tokens, Tree.flatten]
    cases bare <;> simp [Token.empty, kinds_items its column m e]

theorem kinds_entries (es : Entries) (column : Nat) (m e : Mark) :
    (es.tokens layout column m e).map Token.kind = es.flatten layout := by
  match es with
  | .last key value =>
    rw [Entries.tokens, Entries.flatten, List.map_append, kinds_key, kinds_tree value]
    rfl
  | .cons key value rest =>
    rw [Entries.tokens, Entries.flatten, List.map_append, List.map_append, kinds_key,
      kinds_tree value, kinds_entries rest]
    rfl

theorem kinds_items (its : Items) (column : Nat) (m e : Mark) :
    (its.tokens layout column m e).map Token.kind = its.flatten layout := by
  match its with
  | .last item =>
    rw [Items.tokens, Items.flatten, List.map_cons, kinds_tree item]
    rfl
  | .cons item rest =>
    rw [Items.tokens, Items.flatten, List.map_cons, List.map_append, kinds_tree item,
      kinds_items rest]
    rfl

end

/-! ## Telling trees apart -/

theorem Word.kind_injective {v w : Word} (h : v.kind = w.kind) : v = w := by
  obtain ⟨chars, _, _⟩ := v
  obtain ⟨chars', _, _⟩ := w
  have hchars : chars = chars' := String.ofList_injective (TokenKind.scalar.inj h).1
  subst hchars
  rfl

theorem Key.kind_injective {k l : Key} (h : k.kind = l.kind) : k = l := by
  obtain ⟨word, _⟩ := k
  obtain ⟨word', _⟩ := l
  have hword : word = word' := Word.kind_injective h
  subst hword
  rfl

/-- Flattened entries start with a key. -/
theorem flatten_entries_eq (layout : Layout) (es : Entries) :
    ∃ ks, es.flatten layout = .key :: ks := by
  cases es with
  | last key value => exact ⟨_, Entries.flatten.eq_1 ..⟩
  | cons key value rest => exact ⟨_, Entries.flatten.eq_2 ..⟩

/-- Flattened items start with a dash. -/
theorem flatten_items_eq (layout : Layout) (its : Items) :
    ∃ ks, its.flatten layout = .blockEntry :: ks := by
  cases its with
  | last item => exact ⟨_, Items.flatten.eq_1 ..⟩
  | cons item rest => exact ⟨_, Items.flatten.eq_2 ..⟩

/-- What follows the items of a sequence: no further item. -/
def EndsItems (ks : List TokenKind) : Prop := ∀ ks', ks ≠ .blockEntry :: ks'

/-- What follows the entries of a mapping: no further entry, nor an item of a sequence that would
belong to the last value. -/
def EndsEntries (ks : List TokenKind) : Prop := EndsItems ks ∧ ∀ ks', ks ≠ .key :: ks'

theorem endsEntries_blockEnd (ks : List TokenKind) : EndsEntries (.blockEnd :: ks) := by
  constructor
  · intro ks' h
    cases h
  · intro ks' h
    cases h

theorem endsItems_entries (es : Entries) (ks : List TokenKind) :
    EndsItems (es.flatten layout ++ ks) := by
  obtain ⟨ks', hks'⟩ := flatten_entries_eq layout es
  rw [hks']
  intro ks'' h
  cases h

theorem EndsItems.ne_flatten {ks : List TokenKind} (h : EndsItems ks) (its : Items)
    (ks' : List TokenKind) : ks ≠ its.flatten layout ++ ks' := by
  obtain ⟨ls, hls⟩ := flatten_items_eq layout its
  rw [hls]
  exact h _

theorem EndsEntries.ne_flatten {ks : List TokenKind} (h : EndsEntries ks) (es : Entries)
    (ks' : List TokenKind) : ks ≠ es.flatten layout ++ ks' := by
  obtain ⟨ls, hls⟩ := flatten_entries_eq layout es
  rw [hls]
  exact h.2 _

/-- The kind with which a flattened tree starts. -/
def Tree.opener (bare : Bool) : Tree → TokenKind
  | .leaf word => word.kind
  | .mapping _ => .blockMappingStart
  | .sequence _ => if bare then .blockEntry else .blockSequenceStart

theorem flatten_tree_eq (layout : Layout) (bare : Bool) (t : Tree) :
    ∃ ks, t.flatten layout bare = t.opener bare :: ks := by
  cases t with
  | leaf word => exact ⟨_, Tree.flatten.eq_1 ..⟩
  | mapping es => exact ⟨_, Tree.flatten.eq_2 ..⟩
  | sequence its =>
    rw [Tree.flatten, Tree.opener]
    cases bare with
    | false => exact ⟨_, rfl⟩
    | true => exact flatten_items_eq layout its

/-- Trees with the same flattened form start in the same way. -/
theorem opener_eq {t u : Tree} {ks ks' : List TokenKind}
    (h : t.flatten layout bare ++ ks = u.flatten layout bare ++ ks') :
    t.opener bare = u.opener bare := by
  obtain ⟨ls, hls⟩ := flatten_tree_eq layout bare t
  obtain ⟨ls', hls'⟩ := flatten_tree_eq layout bare u
  rw [hls, hls'] at h
  exact (List.cons.inj h).1

mutual

/-- A flattened tree ends where it ends: what is read tells both the tree and what follows it. Only a
bare sequence has to be told apart from further items. -/
theorem flatten_tree_append (t u : Tree) (bare : Bool) {ks ks' : List TokenKind}
    (hks : bare = true → EndsItems ks) (hks' : bare = true → EndsItems ks')
    (h : t.flatten layout bare ++ ks = u.flatten layout bare ++ ks') : t = u ∧ ks = ks' := by
  have hopener := opener_eq h
  match t, u with
  | .leaf word, .leaf word' =>
    rw [Tree.flatten, Tree.flatten] at h
    obtain ⟨hword, hrest⟩ := List.cons.inj h
    exact ⟨congrArg _ (Word.kind_injective hword), hrest⟩
  | .mapping es, .mapping es' =>
    rw [Tree.flatten, Tree.flatten] at h
    simp only [List.cons_append, List.append_assoc, List.nil_append, List.cons.injEq,
      true_and] at h
    obtain ⟨rfl, hrest⟩ := flatten_entries_append es es' (endsEntries_blockEnd ks)
      (endsEntries_blockEnd ks') h
    exact ⟨rfl, (List.cons.inj hrest).2⟩
  | .sequence its, .sequence its' =>
    rw [Tree.flatten, Tree.flatten] at h
    cases bare with
    | false =>
      simp only [Bool.false_eq_true, if_false, List.cons_append, List.append_assoc,
        List.nil_append, List.cons.injEq, true_and] at h
      obtain ⟨rfl, hrest⟩ := flatten_items_append its its' (endsEntries_blockEnd ks).1
        (endsEntries_blockEnd ks').1 h
      exact ⟨rfl, (List.cons.inj hrest).2⟩
    | true =>
      obtain ⟨rfl, hrest⟩ := flatten_items_append its its' (hks rfl) (hks' rfl) h
      exact ⟨rfl, hrest⟩
  | .leaf _, .mapping _ | .mapping _, .leaf _ => cases hopener
  | .leaf _, .sequence _ | .sequence _, .leaf _ | .mapping _, .sequence _
  | .sequence _, .mapping _ => cases bare <;> cases hopener

theorem flatten_entries_append (es es' : Entries) {ks ks' : List TokenKind}
    (hks : EndsEntries ks) (hks' : EndsEntries ks')
    (h : es.flatten layout ++ ks = es'.flatten layout ++ ks') : es = es' ∧ ks = ks' := by
  match es, es' with
  | .last key value, .last key' value' =>
    rw [Entries.flatten, Entries.flatten] at h
    simp only [List.cons_append, List.cons.injEq, true_and] at h
    obtain ⟨hkey, h⟩ := h
    obtain ⟨rfl, hrest⟩ := flatten_tree_append value value' _ (fun _ => hks.1) (fun _ => hks'.1) h
    obtain rfl := Key.kind_injective hkey
    exact ⟨rfl, hrest⟩
  | .cons key value rest, .cons key' value' rest' =>
    rw [Entries.flatten, Entries.flatten] at h
    simp only [List.cons_append, List.append_assoc, List.cons.injEq, true_and] at h
    obtain ⟨hkey, h⟩ := h
    obtain ⟨rfl, hmore⟩ := flatten_tree_append value value' _
      (fun _ => endsItems_entries rest ks) (fun _ => endsItems_entries rest' ks') h
    obtain ⟨rfl, hrest⟩ := flatten_entries_append rest rest' hks hks' hmore
    obtain rfl := Key.kind_injective hkey
    exact ⟨rfl, hrest⟩
  -- one mapping is over where the other goes on with a key
  | .last key value, .cons key' value' rest' =>
    rw [Entries.flatten, Entries.flatten] at h
    simp only [List.cons_append, List.append_assoc, List.cons.injEq, true_and] at h
    obtain ⟨-, hmore⟩ := flatten_tree_append value value' _ (fun _ => hks.1)
      (fun _ => endsItems_entries rest' ks') h.2
    exact absurd hmore (hks.ne_flatten rest' ks')
  | .cons key value rest, .last key' value' =>
    rw [Entries.flatten, Entries.flatten] at h
    simp only [List.cons_append, List.append_assoc, List.cons.injEq, true_and] at h
    obtain ⟨-, hmore⟩ := flatten_tree_append value value' _ (fun _ => endsItems_entries rest ks)
      (fun _ => hks'.1) h.2
    exact absurd hmore.symm (hks'.ne_flatten rest ks)

theorem flatten_items_append (its its' : Items) {ks ks' : List TokenKind}
    (hks : EndsItems ks) (hks' : EndsItems ks')
    (h : its.flatten layout ++ ks = its'.flatten layout ++ ks') : its = its' ∧ ks = ks' := by
  match its, its' with
  | .last item, .last item' =>
    rw [Items.flatten, Items.flatten] at h
    obtain ⟨rfl, hrest⟩ := flatten_tree_append item item' false nofun nofun (List.cons.inj h).2
    exact ⟨rfl, hrest⟩
  | .cons item rest, .cons item' rest' =>
    rw [Items.flatten, Items.flatten] at h
    simp only [List.cons_append, List.append_assoc, List.cons.injEq, true_and] at h
    obtain ⟨rfl, hmore⟩ := flatten_tree_append item item' false nofun nofun h
    obtain ⟨rfl, hrest⟩ := flatten_items_append rest rest' hks hks' hmore
    exact ⟨rfl, hrest⟩
  -- one sequence is over where the other goes on with a dash
  | .last item, .cons item' rest' =>
    rw [Items.flatten, Items.flatten] at h
    simp only [List.cons_append, List.append_assoc, List.cons.injEq, true_and] at h
    obtain ⟨-, hmore⟩ := flatten_tree_append item item' false nofun nofun h
    exact absurd hmore (hks.ne_flatten rest' ks')
  | .cons item rest, .last item' =>
    rw [Items.flatten, Items.flatten] at h
    simp only [List.cons_append, List.append_assoc, List.cons.injEq, true_and] at h
    obtain ⟨-, hmore⟩ := flatten_tree_append item item' false nofun nofun h
    exact absurd hmore.symm (hks'.ne_flatten rest ks)

end

/-! ## The scan of a canonical document -/

/-- The kinds of the tokens of a canonical document. -/
theorem kinds_stream (t : Tree) :
    (t.stream layout).map Token.kind = .streamStart :: (t.flatten layout false ++ [.streamEnd]) := by
  rw [Tree.stream, List.map_cons, List.map_append, kinds_tree]
  rfl

/-- The scan of a canonical document has neither an error nor comments, its tokens are the flattened
tree between the start and the end of the stream, and no other tree has these tokens. -/
theorem scan_emit (layout : Layout) (hw : 0 < layout.width) (tree : Tree) :
    (scan (emit layout tree)).error = none ∧ (scan (emit layout tree)).comments = [] ∧
      (scan (emit layout tree)).tokens.map Token.kind =
        .streamStart :: (tree.flatten layout false ++ [.streamEnd]) ∧
      ∀ other : Tree, (scan (emit layout other)).tokens.map Token.kind =
        (scan (emit layout tree)).tokens.map Token.kind → other = tree := by
  have hscan : ∀ t : Tree, scan (emit layout t) = ⟨t.stream layout, [], none⟩ := by
    intro t
    rw [scan, emit, String.toList_ofList]
    exact scanText_text hw t
  rw [hscan]
  refine ⟨rfl, rfl, kinds_stream tree, ?_⟩
  intro other hother
  rw [hscan, kinds_stream, kinds_stream] at hother
  exact (flatten_tree_append other tree false nofun nofun (List.cons.inj hother).2).1

/-- A mapping with a key twice, and with a sequence of sequences below it. -/
def repeatedKey : Tree :=
  .mapping (.cons (.ofChar 'k' rfl) (.sequence (.cons (.sequence (.last (.leaf (.ofChar 'p' rfl))))
      (.last (.leaf (.ofChar 'q' rfl)))))
    (.last (.ofChar 'k' rfl) (.leaf (.ofChar '3' rfl))))

theorem scan_emit_repeatedKey :
    emit ⟨2, false⟩ repeatedKey = "k:\n- - p\n- q\nk: 3\n" ∧
      (scan (emit ⟨2, false⟩ repeatedKey)).error = none ∧
      (scan (emit ⟨2, false⟩ repeatedKey)).tokens.map Token.kind =
        [.streamStart, .blockMappingStart, .key, .scalar "k" .plain, .value,
          .blockEntry, .blockSequenceStart, .blockEntry, .scalar "p" .plain, .blockEnd,
          .blockEntry, .scalar "q" .plain,
          .key, .scalar "k" .plain, .value, .scalar "3" .plain, .blockEnd, .streamEnd] := by
  obtain ⟨herror, -, hkinds, -⟩ := scan_emit ⟨2, false⟩ (by decide) repeatedKey
  refine ⟨by decide, herror, ?_⟩
  rw [hkinds]
  decide

end YamlLinter.Canonical
