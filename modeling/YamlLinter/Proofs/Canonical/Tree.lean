import YamlLinter.Scan.State

/-!
# Canonical documents

Trees of mappings and sequences over plain words, and the one way in which they are written here:
in block style, with every entry and item on a line of its own, and with collections below their keys
indented by a fixed width.

## Contents

* `Word`, `Key`, `Tree`, `Entries`, `Items`: the trees;
* `Layout`: the width, and whether sequences are indented below their keys;
* `Tree.text`, `emit`: the text of a tree;
* `Tree.stop`: where the text of a tree ends;
* `Tree.tokens`, `Tree.stream`: the tokens of a tree;
* `Tree.Distinct`: no mapping has a key twice.
-/

namespace YamlLinter

/-- The place `n` characters further right on the same line. -/
def Mark.right (m : Mark) (n : Nat) : Mark := ⟨m.index + n, m.line, m.column + n⟩

/-- The start of the next line, behind the line feed that stands here. -/
def Mark.down (m : Mark) : Mark := ⟨m.index + 1, m.line + 1, 0⟩

namespace Canonical

/-! ## Trees -/

/-- Letters and digits of ASCII, at least one. -/
structure Word where
  chars : List Char
  ne_nil : chars ≠ []
  alphanum : ∀ c ∈ chars, c.isAlphanum = true

/-- A word that is short enough for a key. -/
structure Key extends Word where
  short : chars.length ≤ longestSimpleKey

mutual

/-- A word, or a collection that is not empty. -/
inductive Tree where
  | leaf (word : Word)
  | mapping (entries : Entries)
  | sequence (items : Items)

/-- The entries of a mapping. -/
inductive Entries where
  | last (key : Key) (value : Tree)
  | cons (key : Key) (value : Tree) (rest : Entries)

/-- The items of a sequence. -/
inductive Items where
  | last (item : Tree)
  | cons (item : Tree) (rest : Items)

end

/-- How a tree is written. -/
structure Layout where
  /-- The width of one step. -/
  width : Nat
  /-- Whether sequences are indented below their keys. -/
  indented : Bool

/-! ## Text -/

/-- Indentation. -/
def spaces (n : Nat) : List Char := List.replicate n ' '

/-- The column of a collection below a key that stands at `column`. -/
def Tree.inset (layout : Layout) (column : Nat) : Tree → Nat
  | .leaf _ => column
  | .mapping _ => column + layout.width
  | .sequence _ => if layout.indented then column + layout.width else column

/-- What stands between the colon of a key at `column` and its value. -/
def Tree.lead (layout : Layout) (column : Nat) : Tree → List Char
  | .leaf _ => [' ']
  | t => '\n' :: spaces (t.inset layout column)

mutual

/-- The text of a tree that starts at `column`. -/
def Tree.text (layout : Layout) (column : Nat) : Tree → List Char
  | .leaf word => word.chars ++ ['\n']
  | .mapping entries => entries.text layout column
  | .sequence items => items.text layout column

/-- The text of the entries of a mapping at `column`. -/
def Entries.text (layout : Layout) (column : Nat) : Entries → List Char
  | .last key value =>
    key.chars ++ ':' ::
      (value.lead layout column ++ value.text layout (value.inset layout column))
  | .cons key value rest =>
    key.chars ++ ':' ::
      (value.lead layout column ++ (value.text layout (value.inset layout column) ++
        (spaces column ++ rest.text layout column)))

/-- The text of the items of a sequence at `column`. -/
def Items.text (layout : Layout) (column : Nat) : Items → List Char
  | .last item => '-' :: ' ' :: item.text layout (column + 2)
  | .cons item rest =>
    '-' :: ' ' :: (item.text layout (column + 2) ++ (spaces column ++ rest.text layout column))

end

/-- A tree as a source. -/
def emit (layout : Layout) (t : Tree) : String := String.ofList (t.text layout 0)

/-! ## Places -/

/-- Where the value of a key at `column` starts, if its colon ends at `m`. -/
def Tree.place (layout : Layout) (column : Nat) (m : Mark) : Tree → Mark
  | .leaf _ => m.right 1
  | t => m.down.right (t.inset layout column)

mutual

/-- Where the text of a tree ends that starts at `m`: at the start of the next line. -/
def Tree.stop (layout : Layout) (column : Nat) (m : Mark) : Tree → Mark
  | .leaf word => (m.right word.chars.length).down
  | .mapping entries => entries.stop layout column m
  | .sequence items => items.stop layout column m

/-- Where the entries of a mapping end. -/
def Entries.stop (layout : Layout) (column : Nat) (m : Mark) : Entries → Mark
  | .last key value =>
    value.stop layout (value.inset layout column)
      (value.place layout column (m.right (key.chars.length + 1)))
  | .cons key value rest =>
    rest.stop layout column ((value.stop layout (value.inset layout column)
      (value.place layout column (m.right (key.chars.length + 1)))).right column)

/-- Where the items of a sequence end. -/
def Items.stop (layout : Layout) (column : Nat) (m : Mark) : Items → Mark
  | .last item => item.stop layout (column + 2) (m.right 2)
  | .cons item rest =>
    rest.stop layout column ((item.stop layout (column + 2) (m.right 2)).right column)

end

variable {layout : Layout}

mutual

/-- The text of a tree ends at the start of a line. -/
theorem column_stop_tree (t : Tree) (column : Nat) (m : Mark) :
    (t.stop layout column m).column = 0 := by
  match t with
  | .leaf word =>
    rw [Tree.stop]
    rfl
  | .mapping es =>
    rw [Tree.stop]
    exact column_stop_entries es column m
  | .sequence its =>
    rw [Tree.stop]
    exact column_stop_items its column m

theorem column_stop_entries (es : Entries) (column : Nat) (m : Mark) :
    (es.stop layout column m).column = 0 := by
  match es with
  | .last key value =>
    rw [Entries.stop]
    exact column_stop_tree value _ _
  | .cons key value rest =>
    rw [Entries.stop]
    exact column_stop_entries rest _ _

theorem column_stop_items (its : Items) (column : Nat) (m : Mark) :
    (its.stop layout column m).column = 0 := by
  match its with
  | .last item =>
    rw [Items.stop]
    exact column_stop_tree item _ _
  | .cons item rest =>
    rw [Items.stop]
    exact column_stop_items rest _ _

end

/-! ## Tokens -/

/-- The token of a word. -/
def Word.token (m : Mark) (w : Word) : Token :=
  ⟨.scalar (String.ofList w.chars) .plain, m, m.right w.chars.length⟩

/-- The tokens of a key and its colon. -/
def Key.tokens (m : Mark) (k : Key) : List Token :=
  [.empty .key m, k.token m,
    ⟨.value, m.right k.chars.length, m.right (k.chars.length + 1)⟩]

/-- The token of a dash. -/
def dash (m : Mark) : Token := ⟨.blockEntry, m, m.right 1⟩

mutual

/-- The tokens of a tree that starts at `m`, if the next token behind it starts at `e`. A bare
sequence has no start and end tokens. -/
def Tree.tokens (layout : Layout) (bare : Bool) (column : Nat) (m e : Mark) : Tree → List Token
  | .leaf word => [word.token m]
  | .mapping entries =>
    .empty .blockMappingStart m :: (entries.tokens layout column m e ++ [.empty .blockEnd e])
  | .sequence items =>
    if bare then items.tokens layout column m e
    else .empty .blockSequenceStart m :: (items.tokens layout column m e ++ [.empty .blockEnd e])

/-- The tokens of the entries of a mapping. -/
def Entries.tokens (layout : Layout) (column : Nat) (m e : Mark) : Entries → List Token
  | .last key value =>
    key.tokens m ++ value.tokens layout (!layout.indented) (value.inset layout column)
      (value.place layout column (m.right (key.chars.length + 1))) e
  | .cons key value rest =>
    let behind := (value.stop layout (value.inset layout column)
      (value.place layout column (m.right (key.chars.length + 1)))).right column
    key.tokens m ++ (value.tokens layout (!layout.indented) (value.inset layout column)
      (value.place layout column (m.right (key.chars.length + 1))) behind ++
        rest.tokens layout column behind e)

/-- The tokens of the items of a sequence. -/
def Items.tokens (layout : Layout) (column : Nat) (m e : Mark) : Items → List Token
  | .last item => dash m :: item.tokens layout false (column + 2) (m.right 2) e
  | .cons item rest =>
    let behind := (item.stop layout (column + 2) (m.right 2)).right column
    dash m :: (item.tokens layout false (column + 2) (m.right 2) behind ++
      rest.tokens layout column behind e)

end

/-- The tokens of a source that is a tree. -/
def Tree.stream (layout : Layout) (t : Tree) : List Token :=
  let e := t.stop layout 0 .origin
  .empty .streamStart .origin :: (t.tokens layout false 0 .origin e ++ [.empty .streamEnd e])

/-! ## Keys -/

/-- The keys of a mapping. -/
def Entries.keys : Entries → List (List Char)
  | .last key _ => [key.chars]
  | .cons key _ rest => key.chars :: rest.keys

mutual

/-- No mapping has a key twice. -/
def Tree.Distinct : Tree → Prop
  | .leaf _ => True
  | .mapping entries => entries.keys.Nodup ∧ entries.Distinct
  | .sequence items => items.Distinct

/-- No mapping below the entries has a key twice. -/
def Entries.Distinct : Entries → Prop
  | .last _ value => value.Distinct
  | .cons _ value rest => value.Distinct ∧ rest.Distinct

/-- No mapping below the items has a key twice. -/
def Items.Distinct : Items → Prop
  | .last item => item.Distinct
  | .cons item rest => item.Distinct ∧ rest.Distinct

end

end Canonical

end YamlLinter
