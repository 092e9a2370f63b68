import YamlLinter.Rule.Indentation.Extent
import YamlLinter.Rule.Indentation.State

/-!
# Opening and closing constructs

Every token may open constructs and then close those that end with it. A sequence that stands at the
column of its key has no tokens of its own, so that its end shows only in the token behind it.

## Contents

* `State.openFrames`: the constructs that a token opens;
* `closeFrames`: the constructs that end with a token.
-/

namespace YamlLinter.Indentation

/-- The width assumed for a sequence at the column of its key while the width is not known. -/
def assumedWidth : Int := 2

/-- Whether the token behind a key or a value ends it. -/
def endsEntry : TokenKind → Bool
  | .blockEnd | .flowMappingEnd | .flowSequenceEnd | .key => true
  | _ => false

/-- Whether the token behind a `-` shows that the entry is empty or over. -/
def endsItem : TokenKind → Bool
  | .blockEntry | .blockEnd => true
  | _ => false

/-- The start of a block sequence, with a token of its own or without. -/
def startsSequence : TokenKind → Bool
  | .blockSequenceStart | .blockEntry => true
  | _ => false

namespace State

/-! ## Opening -/

/-- The column expected for a sequence at `column` below a key at `base`. -/
def expectSequence (s : State) (base column : Int) : Int × State :=
  match s.policy with
  | .never => (base, s)
  | .always =>
    if s.width.isNone && column == base then (base + assumedWidth, s) else s.expect base column
  | .whatever => if column == base then (base, s) else s.expect base column
  | .consistent =>
    if column == base then (base, { s with policy := .never })
    else { s with policy := .always }.expect base column

/-- Opens a block collection that must start with a token of the given kind on the same line. -/
def openBlock (s : State) (w : Window) (first : TokenKind) (frame : Int → Frame) : Option State :=
  match w.next with
  | none => none
  | some next =>
    if next.kind == first && next.start.line == w.token.start.line then
      some (s.push (frame (columnOf w.token)))
    else
      none

/-- Opens a flow collection. -/
def openFlow (s : State) (w : Window) (frame : Int → Int → Frame) : Option State :=
  match w.next with
  | none => none
  | some next =>
    if next.start.line == w.token.start.line then
      some (s.push (frame (columnOf next) s.lineIndent))
    else
      let (indent, s') := s.expect s.lineIndent (columnOf next)
      some (s'.push (frame indent s.lineIndent))

/-- Opens an entry of a block sequence, and the sequence too if it has no start token. -/
def openEntry (s : State) (w : Window) : Option State :=
  match w.next, s.top? with
  | some next, some top =>
    if endsItem next.kind then some s
    else
      let column := columnOf w.token
      let s₁ := if top.isBlockSeq then s else s.push (.blockSeq column true)
      if next.start.line == w.token.stop.line || columnOf next == column then
        some (s₁.push (.blockEntry (columnOf next)))
      else
        let (indent, s₂) := s₁.expect column (columnOf next)
        some (s₂.push (.blockEntry indent))
  | _, _ => none

/-- Opens a key. -/
def openKey (s : State) (w : Window) : Option State :=
  match s.top? with
  | none => none
  | some top => some (s.push (.key top.indent (isExplicitKey w.buffer w.token)))

/-- The token with which the content of a value starts: properties alone on the line of the key
belong to the content below. -/
def contentOf (prev next : Token) (nextNext : Option Token) : Token :=
  match nextNext with
  | none => next
  | some after =>
    if isProperty next && next.start.line == prev.start.line &&
        next.start.line < after.start.line then after
    else next

/-- The column expected for the content of a value. -/
def expectValue (s : State) (base : Int) (explicit : Bool) (prev content : Token) : Int × State :=
  let column := columnOf content
  if explicit then s.expect base column
  else if content.start.line == prev.start.line then (column, s)
  else if startsSequence content.kind then s.expectSequence base column
  else s.expect base column

/-- Opens a value, unless it is empty. -/
def openValue (s : State) (w : Window) : Option State :=
  match s.top?, w.prev, w.next with
  | some (.key base explicit), some prev, some next =>
    let content := contentOf prev next w.nextNext
    if endsEntry content.kind then some s
    else
      let (indent, s') := s.expectValue base explicit prev content
      some (s'.push (.value indent))
  | _, _, _ => none

/-- Opens the constructs that start with a token, or finds that the tokens make no sense. -/
def openFrames (s : State) (w : Window) : Option State :=
  match w.token.kind with
  | .blockMappingStart => s.openBlock w .key .blockMap
  | .blockSequenceStart => s.openBlock w .blockEntry (.blockSeq · false)
  | .flowMappingStart => s.openFlow w .flowMap
  | .flowSequenceStart => s.openFlow w .flowSeq
  | .blockEntry => s.openEntry w
  | .key => s.openKey w
  | .value => s.openValue w
  | _ => some s

end State

/-! ## Closing -/

/-- What the end of a token does to the innermost construct. -/
inductive Closing where
  /-- It stays open. -/
  | stay
  /-- It is closed by a token of its own, which closes nothing else of that sort. -/
  | closeOwn
  /-- It is closed. -/
  | closeOne
  /-- It is closed together with the construct around it. -/
  | closeTwo
  /-- The constructs do not fit together. -/
  | broken
  deriving Repr, DecidableEq, Inhabited

/-- Whether a token of this kind closes a construct with start and end tokens. -/
def closesOwn : Frame → TokenKind → Bool
  | .flowSeq _ _, .flowSequenceEnd => true
  | .flowMap _ _, .flowMappingEnd => true
  | .blockMap _, .blockEnd => true
  | .blockSeq _ implicit, .blockEnd => !implicit
  | _, _ => false

/-- What becomes of the innermost construct `top` with `below` around it, when the token is followed
by one of kind `next`. The flag says whether the token has closed its own construct already. -/
def closing (token : Token) (next : Option TokenKind) (consumed : Bool) (top : Frame)
    (below : Option Frame) : Closing :=
  if closesOwn top token.kind && !consumed then .closeOwn
  else
    match top with
    | .blockEntry _ =>
      if token.kind != .blockEntry && below.any Frame.isImplicitSeq && !isProperty token &&
          next != some .blockEntry then .closeTwo
      else if token.kind != .blockEntry && below.isNone then .broken
      else if next.any endsItem then .closeOne
      else .stay
    | .value _ =>
      if token.kind != .value && !isProperty token then
        if below.any Frame.isKey then .closeTwo else .broken
      else .stay
    | .key _ _ => if next.any endsEntry then .closeOne else .stay
    | _ => .stay

/-- Closes constructs until the innermost one stays open. The flag of the result says whether the
constructs fitted together. -/
def closeFrames (token : Token) (next : Option TokenKind) (consumed : Bool) :
    List Frame → List Frame × Bool
  | [] => ([], false)
  | [top] =>
    match closing token next consumed top none with
    | .stay => ([top], true)
    | _ => ([top], false)
  | top :: below :: rest =>
    match closing token next consumed top (some below) with
    | .stay => (top :: below :: rest, true)
    | .closeOwn => closeFrames token next true (below :: rest)
    | .closeOne => closeFrames token next consumed (below :: rest)
    | .closeTwo =>
      if rest.isEmpty then ([below], false) else closeFrames token next consumed rest
    | .broken => (top :: below :: rest, false)

end YamlLinter.Indentation
