import YamlLinter.Proofs.Grammar

/-!
# What a mapping leaves open

The indentation rule closes a value, a key or an entry when the token behind it shows that it is
over. Entries that end without content show this too late or not at all: a value stays open behind
properties, and a sequence without start and end tokens stays open behind an empty last item. What is
left open stands between the frame of the collection and whatever comes next.

## Contents

* `Litter`: what an entry may leave open;
* `sweep`: what the end of a token closes of it;
* `Entry.litter` and its kin: what a tree leaves open;
* `Node.tidy` and its kin: every collection finds its own frame when it ends.
-/

namespace YamlLinter.Indentation

/-- What an entry of a collection may leave open. -/
inductive Litter where
  /-- A value with its key. -/
  | pair
  /-- An item with its sequence, which has no tokens for its start and end. -/
  | item
  /-- A key alone. -/
  | key
  /-- A sequence without start and end tokens, alone. -/
  | list
  deriving Repr, DecidableEq, Inhabited

/-- What is left open behind a token, innermost first, when `next` follows. -/
def sweep (t next : Token) : List Litter → List Litter
  | [] => []
  | .pair :: w => if t.kind != .value && !isProperty t then sweep t next w else .pair :: w
  | .item :: w =>
    if t.kind != .blockEntry && !isProperty t && next.kind != .blockEntry then sweep t next w
    else if endsItem next.kind then .list :: w
    else .item :: w
  | .key :: w => if endsEntry next.kind then sweep t next w else .key :: w
  | .list :: w => .list :: w

/-- Opens an item, and its sequence unless that is open already. -/
def openItem : List Litter → List Litter
  | .list :: w => .item :: w
  | w => .item :: w

end YamlLinter.Indentation

namespace YamlLinter.Grammar

open Indentation

/-- The token behind a place: the first one of its tokens, or the one that follows. -/
def firstOr (next : Token) (ts : List Token) : Token := ts.headD next

/-- The token in front of what follows: the last one of some tokens, or the one before them. -/
def lastOr (prev : Token) (ts : List Token) : Token := ts.getLastD prev

theorem lastOr_cons (prev t : Token) (ts : List Token) : lastOr prev (t :: ts) = lastOr t ts :=
  List.getLastD_cons ..

theorem exists_lastOr (t : Token) (ts : List Token) : ∃ us, t :: ts = us ++ [lastOr t ts] := by
  induction ts generalizing t with
  | nil => exact ⟨[], rfl⟩
  | cons u ts ih =>
    obtain ⟨us, hus⟩ := ih u
    exact ⟨t :: us, by rw [lastOr_cons, List.cons_append, ← hus]⟩

/-- The last token of a node. -/
def Node.last : Node → Token
  | .bare first more => lastOr first.1 (propTokens more)
  | .leaf _ token => token.1
  | .blockMap _ _ _ stop | .blockSeq _ _ _ stop | .flow _ _ _ _ stop => stop.1

/-- Whether the content of a value makes the rule open the value. Properties that stand alone on the
line of the key do not, if the entry ends behind them. -/
def Body.opensValue (prev next : Token) : Body → Bool
  | .slot .empty => !endsEntry next.kind
  | .slot (.filled (.bare p [])) =>
    !(endsEntry next.kind && p.1.start.line == prev.start.line && p.1.start.line < next.start.line)
  | _ => true

/-! ## What a tree leaves open -/

/-- What a node leaves of the litter in front of it. -/
def Slot.litter (next : Token) : Slot → List Litter → List Litter
  | .empty, w => w
  | .filled node, w => sweep node.last next w

/-- What the dash of an item leaves open. -/
def dashLitter (dash next : Token) (w : List Litter) : List Litter :=
  if endsItem next.kind then sweep dash next w else openItem w

/-- What the items of a sequence without start and end tokens leave open. -/
def Items.litter (next : Token) : Items → List Litter → List Litter
  | .last dash slot, w => slot.litter next (dashLitter dash.1 (firstOr next slot.tokens) w)
  | .cons dash slot rest, w =>
    let behind := firstOr next rest.tokens
    rest.litter next (slot.litter behind (dashLitter dash.1 (firstOr behind slot.tokens) w))

/-- What properties leave open if the dash of an item follows. -/
def propsLitter (dash : Token) (props : List Property) (w : List Litter) : List Litter :=
  match (propTokens props).getLast? with
  | none => w
  | some t => sweep t dash w

/-- What the content of a key or value leaves open. -/
def Body.litter (next : Token) : Body → List Litter → List Litter
  | .slot s, w => s.litter next w
  | .list props items, w => items.litter next (propsLitter (firstOr next items.tokens) props w)

/-- What a `VALUE` token leaves open, if its content starts with `next`. It finds no key behind a
sequence that is still open, and is passed over. -/
def valueLitter (value next : Token) (opens : Bool) : List Litter → List Litter
  | .key :: w => if opens then .pair :: w else sweep value next (.key :: w)
  | w => w

/-- What an entry leaves open. -/
def Entry.litter (next : Token) : Entry → List Litter → List Litter
  | .key k content, w => content.litter next (sweep k.1 (firstOr next content.tokens) (.key :: w))
  | .pair k content v held, w =>
    let opens := held.opensValue (lastOr k.1 content.tokens) next
    held.litter next <|
      valueLitter v.1 (firstOr next held.tokens) opens <|
        content.litter v.1 (sweep k.1 (firstOr v.1 content.tokens) (.key :: w))

/-- What the entries of a mapping leave open. -/
def Entries.litter (next : Token) : Entries → List Litter → List Litter
  | .last entry, w => entry.litter next w
  | .cons entry rest, w => rest.litter next (entry.litter (firstOr next rest.tokens) w)

/-- What a member leaves open. -/
def Member.litter (next : Token) : Member → List Litter → List Litter
  | .slot s, w => s.litter next w
  | .entry e, w => e.litter next w

/-- What the members of a flow collection leave open. -/
def Members.litter (next : Token) : Members → List Litter → List Litter
  | .last member, w => member.litter next w
  | .cons member comma rest, w =>
    rest.litter next (sweep comma.1 (firstOr next rest.tokens) (member.litter comma.1 w))

/-! ## Tidy trees -/

/-- Whether a flow collection finds its frame when it ends: nothing is left open, or the bracket
stands on the line of the token before it and closes what is. -/
def closesFlow (last stop next : Token) (w : List Litter) : Bool :=
  w.isEmpty || (stop.start.line ≤ last.stop.line && (sweep stop next w).isEmpty)

mutual

/-- Whether every collection of a node finds its frame when it ends. -/
def Node.tidy (next : Token) : Node → Bool
  | .bare _ _ | .leaf _ _ => true
  | .blockMap _ _ entries stop =>
    entries.tidy stop.1 && (sweep stop.1 next (entries.litter stop.1 [])).isEmpty
  | .blockSeq _ _ items stop => items.tidy stop.1
  | .flow _ _ start members stop =>
    members.tidy stop.1 &&
      closesFlow (lastOr start.1 members.tokens) stop.1 next (members.litter stop.1 [])

/-- Whether every collection of a place finds its frame when it ends. -/
def Slot.tidy (next : Token) : Slot → Bool
  | .empty => true
  | .filled node => node.tidy next

/-- Whether every collection of some items finds its frame when it ends. -/
def Items.tidy (next : Token) : Items → Bool
  | .last _ slot => slot.tidy next
  | .cons _ slot rest => slot.tidy (firstOr next rest.tokens) && rest.tidy next

/-- Whether every collection behind a key or value finds its frame when it ends. -/
def Body.tidy (next : Token) : Body → Bool
  | .slot s => s.tidy next
  | .list _ items => items.tidy next

/-- Whether every collection of an entry finds its frame when it ends. -/
def Entry.tidy (next : Token) : Entry → Bool
  | .key _ content => content.tidy next
  | .pair _ content value held => content.tidy value.1 && held.tidy next

/-- Whether every collection of some entries finds its frame when it ends. -/
def Entries.tidy (next : Token) : Entries → Bool
  | .last entry => entry.tidy next
  | .cons entry rest => entry.tidy (firstOr next rest.tokens) && rest.tidy next

/-- Whether every collection of a member finds its frame when it ends. -/
def Member.tidy (next : Token) : Member → Bool
  | .slot s => s.tidy next
  | .entry e => e.tidy next

/-- Whether every collection of some members finds its frame when it ends. -/
def Members.tidy (next : Token) : Members → Bool
  | .last member => member.tidy next
  | .cons member comma rest => member.tidy comma.1 && rest.tidy next

end

/-- Whether every collection of some parts finds its frame when it ends. -/
def partsTidy (stop : Token) : List Part → Bool
  | [] => true
  | .boundary _ :: parts => partsTidy stop parts
  | .node node :: parts =>
    node.tidy (firstOr stop (parts.flatMap Part.tokens)) && partsTidy stop parts

/-- Whether every collection of a stream finds its frame when it ends. -/
def Stream.tidy (y : Stream) : Bool := partsTidy y.stop.1 y.parts

end YamlLinter.Grammar
