import YamlLinter.Scan.Block
import YamlLinter.Scan.Directive
import YamlLinter.Scan.Gap
import YamlLinter.Scan.Lead
import YamlLinter.Scan.Name
import YamlLinter.Scan.Plain
import YamlLinter.Scan.Quoted
import YamlLinter.Scan.Tag

/-!
# Fetching tokens

One fetch reads the lexeme at the cursor and puts its token into the queue, together with the tokens
of the block collections that it opens or closes.

## Contents

* a fetch for each `Lead`: marks, flow collections, entries, keys and values, names, scalars;
* `ScanState.fetchLead`: the fetch that a lead asks for;
* `ScanState.fetchHere`: fetches the token at the cursor.
-/

namespace YamlLinter.ScanState

/-! ## Ends and document markers -/

/-- Ends the stream: closes all block collections. -/
def fetchStreamEnd (s : ScanState) : Except ScanError ScanState :=
  match (s.unwind (-1)).removeKey with
  | .error e => .error e
  | .ok s' =>
    .ok { s' with
      allowKey := false
      keys := []
      queue := s'.queue ++ [.empty .streamEnd s'.cursor.mark]
      done := true }

/-- Fetches a directive. -/
def fetchDirective (s : ScanState) : Except ScanError ScanState :=
  match (s.unwind (-1)).removeKey with
  | .error e => .error e
  | .ok s' =>
    match s'.cursor.directive with
    | .error e => .error e
    | .ok (token, comment, cursor) =>
      .ok { s' with
        allowKey := false
        cursor
        comments := s'.comments ++ comment.toList
        queue := s'.queue ++ [token] }

/-- Fetches a document marker. -/
def fetchMarker (s : ScanState) (kind : TokenKind) : Except ScanError ScanState :=
  match (s.unwind (-1)).removeKey with
  | .error e => .error e
  | .ok s' => .ok ({ s' with allowKey := false }.pushMark kind 3)

/-! ## Flow collections -/

/-- Opens a flow collection, which may be a key. -/
def fetchFlowStart (s : ScanState) (kind : TokenKind) : Except ScanError ScanState :=
  match s.saveKey with
  | .error e => .error e
  | .ok s' => .ok ({ s' with flowLevel := s'.flowLevel + 1, allowKey := true }.pushMark kind 1)

/-- Closes a flow collection. One that was never opened is left to those who read the tokens. -/
def fetchFlowEnd (s : ScanState) (kind : TokenKind) : Except ScanError ScanState :=
  match s.removeKey with
  | .error e => .error e
  | .ok s' => .ok ({ s' with flowLevel := s'.flowLevel - 1, allowKey := false }.pushMark kind 1)

/-- Fetches the `,` between two entries of a flow collection. -/
def fetchFlowEntry (s : ScanState) : Except ScanError ScanState :=
  match s.removeKey with
  | .error e => .error e
  | .ok s' => .ok ({ s' with allowKey := true }.pushMark .flowEntry 1)

/-! ## Entries, keys and values -/

/-- Outside flow collections, opens a block collection where one is allowed, else fails. -/
def openBlockOr (s : ScanState) (kind : TokenKind) (cause : ScanError.Cause) :
    Except ScanError ScanState :=
  if s.inFlow then .ok s
  else if s.allowKey then .ok (s.openBlock kind)
  else s.cursor.fail cause

/-- Fetches the `-` of a sequence entry. -/
def fetchBlockEntry (s : ScanState) : Except ScanError ScanState :=
  match s.openBlockOr .blockSequenceStart .misplacedEntry with
  | .error e => .error e
  | .ok s' =>
    match s'.removeKey with
    | .error e => .error e
    | .ok s'' => .ok ({ s'' with allowKey := true }.pushMark .blockEntry 1)

/-- Fetches the `?` of a key. -/
def fetchKey (s : ScanState) : Except ScanError ScanState :=
  match s.openBlockOr .blockMappingStart .misplacedKey with
  | .error e => .error e
  | .ok s' =>
    match s'.removeKey with
    | .error e => .error e
    | .ok s'' => .ok ({ s'' with allowKey := !s''.inFlow }.pushMark .key 1)

/-- Makes a key of the tokens from a remembered place on: puts a `KEY` token in front of them, and
outside flow collections the start of the mapping, if the key opens one. -/
def insertKey (s : ScanState) (k : SimpleKey) : ScanState :=
  let key := Token.empty .key k.mark
  if !s.inFlow && s.nests k.mark.column then
    (s.openIndent k.mark.column).insertAt k.tokenNumber [.empty .blockMappingStart k.mark, key]
  else
    s.insertAt k.tokenNumber [key]

/-- Fetches the `:` of a value. -/
def fetchValue (s : ScanState) : Except ScanError ScanState :=
  match s.currentKey? with
  | some k => .ok ({ s.forgetKey.insertKey k with allowKey := false }.pushMark .value 1)
  | none =>
    match s.openBlockOr .blockMappingStart .misplacedValue with
    | .error e => .error e
    | .ok s' => .ok ({ s'.forgetKey with allowKey := !s'.inFlow }.pushMark .value 1)

/-! ## Names, tags and scalars -/

/-- Remembers a possible key and puts the token that `read` finds at the cursor into the queue. -/
def fetchKeyable (s : ScanState) (read : Cursor → Except ScanError (Token × Cursor)) :
    Except ScanError ScanState :=
  match s.saveKey with
  | .error e => .error e
  | .ok s' =>
    match read s'.cursor with
    | .error e => .error e
    | .ok (token, cursor) =>
      .ok { s' with allowKey := false, cursor, queue := s'.queue ++ [token] }

/-- Fetches a block scalar, behind which a key may start. -/
def fetchBlock (s : ScanState) (folded : Bool) : Except ScanError ScanState :=
  match s.removeKey with
  | .error e => .error e
  | .ok s' =>
    match s'.cursor.block folded s'.indent with
    | .error e => .error e
    | .ok (token, comment, cursor) =>
      .ok { s' with
        allowKey := true
        cursor
        comments := s'.comments ++ comment.toList
        queue := s'.queue ++ [token] }

/-- Fetches a plain scalar. A key may start behind it only on a new line. -/
def fetchPlain (s : ScanState) : Except ScanError ScanState :=
  match s.saveKey with
  | .error e => .error e
  | .ok s' =>
    let scalar := s'.cursor.plain s'.inFlow s'.indent
    let kind := TokenKind.scalar (String.ofList scalar.value) .plain
    .ok { s' with
      allowKey := scalar.broken
      cursor := scalar.cursor
      queue := s'.queue ++ [⟨kind, s'.cursor.mark, scalar.stop⟩] }

/-! ## One fetch -/

/-- The fetch that a lead asks for. -/
def fetchLead (s : ScanState) : Lead → Except ScanError ScanState
  | .streamEnd => s.fetchStreamEnd
  | .directive => s.fetchDirective
  | .documentStart => s.fetchMarker .documentStart
  | .documentEnd => s.fetchMarker .documentEnd
  | .flowStart kind => s.fetchFlowStart kind
  | .flowEnd kind => s.fetchFlowEnd kind
  | .flowEntry => s.fetchFlowEntry
  | .blockEntry => s.fetchBlockEntry
  | .key => s.fetchKey
  | .value => s.fetchValue
  | .aliasRef => s.fetchKeyable Cursor.aliasRef
  | .anchor => s.fetchKeyable Cursor.anchor
  | .tag => s.fetchKeyable (·.tag s.inFlow)
  | .block folded => s.fetchBlock folded
  | .quoted double => s.fetchKeyable (·.quoted double)
  | .plain => s.fetchPlain
  | .stray found => s.cursor.fail (.strayCharacter found)

/-- Fetches the token at the cursor: forgets keys that have ended, closes block collections that the
column has left, and reads what stands there. -/
def fetchHere (s : ScanState) : Except ScanError ScanState :=
  match s.dropStaleKeys with
  | .error e => .error e
  | .ok s' =>
    let s'' := s'.unwind s'.cursor.column
    s''.fetchLead s''.lead

end YamlLinter.ScanState
