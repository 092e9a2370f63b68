import YamlLinter.Rule.Indentation.Frames

/-!
# The grammar of tokens

The tokens of a stream form trees. Anchors and tags stand in front of the content that they belong
to, or alone where the content is empty. A block sequence below the key of a block mapping needs no
tokens for its start and end, and may have anchors and tags in front of its first dash.

## Contents

* `TokenOf`, `Property`, `Leaf`, `Boundary`: tokens that are known to be of a kind;
* `Node`, `Slot`, `Items`, `Body`, `Entry`, `Entries`, `Member`, `Members`: the trees;
* `Stream`: nodes between directives and document markers;
* `Node.tokens` and its kin: the tokens of a tree.
-/

namespace YamlLinter.Grammar

/-- A token of the given kind. -/
abbrev TokenOf (kind : TokenKind) := { t : Token // t.kind = kind }

/-- An anchor or a tag. -/
abbrev Property := { t : Token // Indentation.isProperty t = true }

/-- Whether a token of this kind is a whole node. -/
def isLeafKind : TokenKind → Bool
  | .aliasRef _ | .scalar _ _ => true
  | _ => false

/-- An alias or a scalar. -/
abbrev Leaf := { t : Token // isLeafKind t.kind = true }

/-- Whether a token of this kind stands between documents. -/
def isBoundaryKind : TokenKind → Bool
  | .directive _ _ | .documentStart | .documentEnd => true
  | _ => false

/-- A directive or a document marker. -/
abbrev Boundary := { t : Token // isBoundaryKind t.kind = true }

/-- The opening bracket of a flow sequence or mapping. -/
def flowStart (sequence : Bool) : TokenKind :=
  if sequence then .flowSequenceStart else .flowMappingStart

/-- The closing bracket of a flow sequence or mapping. -/
def flowEnd (sequence : Bool) : TokenKind :=
  if sequence then .flowSequenceEnd else .flowMappingEnd

/-! ## Trees -/

mutual

/-- A node. -/
inductive Node where
  /-- Properties without content. -/
  | bare (first : Property) (more : List Property)
  | leaf (props : List Property) (token : Leaf)
  | blockMap (props : List Property) (start : TokenOf .blockMappingStart) (entries : Entries)
      (stop : TokenOf .blockEnd)
  | blockSeq (props : List Property) (start : TokenOf .blockSequenceStart) (items : Items)
      (stop : TokenOf .blockEnd)
  | flow (props : List Property) (sequence : Bool) (start : TokenOf (flowStart sequence))
      (members : Members) (stop : TokenOf (flowEnd sequence))

/-- A place for a node. -/
inductive Slot where
  | empty
  | filled (node : Node)

/-- The items of a block sequence. -/
inductive Items where
  | last (dash : TokenOf .blockEntry) (slot : Slot)
  | cons (dash : TokenOf .blockEntry) (slot : Slot) (rest : Items)

/-- What stands behind a key or a value: a node, or the properties and items of a sequence that has
no tokens for its start and end. -/
inductive Body where
  | slot (slot : Slot)
  | list (props : List Property) (items : Items)

/-- A key with or without a value. -/
inductive Entry where
  | key (key : TokenOf .key) (content : Body)
  | pair (key : TokenOf .key) (content : Body) (value : TokenOf .value) (held : Body)

/-- The entries of a block mapping. -/
inductive Entries where
  | last (entry : Entry)
  | cons (entry : Entry) (rest : Entries)

/-- What stands between two commas of a flow collection. -/
inductive Member where
  | slot (slot : Slot)
  | entry (entry : Entry)

/-- The members of a flow collection. -/
inductive Members where
  | last (member : Member)
  | cons (member : Member) (comma : TokenOf .flowEntry) (rest : Members)

end

/-- A directive or marker between documents, or the node of a document. -/
inductive Part where
  | boundary (token : Boundary)
  | node (node : Node)

/-- The documents of a stream. -/
structure Stream where
  start : TokenOf .streamStart
  parts : List Part
  stop : TokenOf .streamEnd

/-! ## The tokens of a tree -/

/-- Properties as tokens. -/
def propTokens (props : List Property) : List Token := props.map Subtype.val

mutual

/-- The tokens of a node. -/
def Node.tokens : Node → List Token
  | .bare first more => first.1 :: propTokens more
  | .leaf props token => propTokens props ++ [token.1]
  | .blockMap props start entries stop =>
    propTokens props ++ start.1 :: (entries.tokens ++ [stop.1])
  | .blockSeq props start items stop => propTokens props ++ start.1 :: (items.tokens ++ [stop.1])
  | .flow props _ start members stop => propTokens props ++ start.1 :: (members.tokens ++ [stop.1])

/-- The tokens of a place. -/
def Slot.tokens : Slot → List Token
  | .empty => []
  | .filled node => node.tokens

/-- The tokens of items. -/
def Items.tokens : Items → List Token
  | .last dash slot => dash.1 :: slot.tokens
  | .cons dash slot rest => dash.1 :: (slot.tokens ++ rest.tokens)

/-- The tokens behind a key or a value. -/
def Body.tokens : Body → List Token
  | .slot slot => slot.tokens
  | .list props items => propTokens props ++ items.tokens

/-- The tokens of an entry. -/
def Entry.tokens : Entry → List Token
  | .key key content => key.1 :: content.tokens
  | .pair key content value held => key.1 :: (content.tokens ++ value.1 :: held.tokens)

/-- The tokens of entries. -/
def Entries.tokens : Entries → List Token
  | .last entry => entry.tokens
  | .cons entry rest => entry.tokens ++ rest.tokens

/-- The tokens of a member. -/
def Member.tokens : Member → List Token
  | .slot slot => slot.tokens
  | .entry entry => entry.tokens

/-- The tokens of members. -/
def Members.tokens : Members → List Token
  | .last member => member.tokens
  | .cons member comma rest => member.tokens ++ comma.1 :: rest.tokens

end

/-- The tokens of a part. -/
def Part.tokens : Part → List Token
  | .boundary token => [token.1]
  | .node content => content.tokens

/-- The tokens of a stream. -/
def Stream.tokens (y : Stream) : List Token :=
  y.start.1 :: (y.parts.flatMap Part.tokens ++ [y.stop.1])

end YamlLinter.Grammar
