import YamlLinter.Scan.Cursor
import YamlLinter.Scan.Error
import YamlLinter.Token

/-!
# The state of a scan

Whether a scalar is a key is known only when the `:` behind it is found. So the scanner holds tokens
back in a queue, remembers where a key could start (one place per flow level), and inserts the `KEY`
token later. Block collections are opened and closed by comparing columns with a stack of indents.

## Contents

* `SimpleKey`: a place where a key without `?` may have started;
* `ScanState`: everything the scanner knows;
* simple keys: `staleKey`, `dropStaleKeys`, `saveKey`, `removeKey`;
* indents: `unwind`, `openIndent`;
* the queue: `push`, `insertAt`.
-/

namespace YamlLinter

/-- A key without `?` ends within this many characters. -/
def longestSimpleKey : Nat := 1024

/-- A place where a key without `?` may have started. -/
structure SimpleKey where
  /-- The flow level of the place. -/
  level : Nat
  /-- The number, from the start of the stream, of the first token of the key. -/
  tokenNumber : Nat
  /-- Whether a key must stand here, because the column is that of a block mapping or sequence. -/
  required : Bool
  /-- The number of characters before the place. -/
  pos : Nat
  /-- Where the place is. -/
  mark : Mark
  deriving Repr, DecidableEq, Inhabited

/-- Everything a scanner knows between two tokens. -/
structure ScanState where
  cursor : Cursor
  /-- Whether the end of the stream has been put into the queue. -/
  done : Bool
  /-- Whether an error has been reported. -/
  failed : Bool
  /-- The number of open flow collections. -/
  flowLevel : Nat
  /-- The tokens read ahead. -/
  queue : List Token
  /-- The number of tokens taken from the queue so far. -/
  taken : Nat
  /-- The column of the innermost block collection, `-1` outside of all. -/
  indent : Int
  /-- The columns of the collections around it, innermost first. -/
  indents : List Int
  /-- Whether a key may start at the next token. -/
  allowKey : Bool
  /-- The places where a key may have started, at most one for a flow level. -/
  keys : List SimpleKey
  /-- The comments met so far. -/
  comments : List Comment
  deriving Repr, DecidableEq, Inhabited

namespace ScanState

/-- The state in front of a text. -/
def ofText (text : List Char) : ScanState :=
  { cursor := .ofText text
    done := false
    failed := false
    flowLevel := 0
    queue := [.empty .streamStart .origin]
    taken := 0
    indent := -1
    indents := []
    allowKey := true
    keys := []
    comments := [] }

/-- Whether the scanner is inside a flow collection. -/
def inFlow (s : ScanState) : Bool := s.flowLevel != 0

/-! ## The queue -/

/-- Puts a token at the end of the queue. -/
def push (s : ScanState) (t : Token) : ScanState :=
  { s with queue := s.queue ++ [t] }

/-- Puts tokens into the queue in front of the token with the given number. -/
def insertAt (s : ScanState) (number : Nat) (ts : List Token) : ScanState :=
  let place := number - s.taken
  { s with queue := s.queue.take place ++ ts ++ s.queue.drop place }

/-- Reads `width` characters as a token of the given kind. -/
def pushMark (s : ScanState) (kind : TokenKind) (width : Nat) : ScanState :=
  let cursor := s.cursor.forward width
  { s with cursor, queue := s.queue ++ [⟨kind, s.cursor.mark, cursor.mark⟩] }

/-! ## Simple keys -/

/-- Whether a possible key has ended without a `:`, by a line break or by its length. -/
def staleKey (s : ScanState) (k : SimpleKey) : Bool :=
  k.mark.line != s.cursor.line || longestSimpleKey < s.cursor.pos - k.pos

/-- Forgets the keys that have ended. A required one is an error. -/
def dropStaleKeys (s : ScanState) : Except ScanError ScanState :=
  match s.keys.find? (fun k => s.staleKey k && k.required) with
  | some k => .error ⟨.missingColon, k.mark⟩
  | none => .ok { s with keys := s.keys.filter (!s.staleKey ·) }

/-- The possible key of the current flow level. -/
def currentKey? (s : ScanState) : Option SimpleKey :=
  s.keys.find? (·.level == s.flowLevel)

/-- Forgets the possible key of the current flow level. -/
def forgetKey (s : ScanState) : ScanState :=
  { s with keys := s.keys.filter (·.level != s.flowLevel) }

/-- Forgets the possible key of the current flow level. A required one is an error. -/
def removeKey (s : ScanState) : Except ScanError ScanState :=
  match s.currentKey? with
  | some k => if k.required then .error ⟨.missingColon, k.mark⟩ else .ok s.forgetKey
  | none => .ok s.forgetKey

/-- Remembers that a key may start at the cursor, if one is allowed here. -/
def saveKey (s : ScanState) : Except ScanError ScanState :=
  if s.allowKey then
    match s.removeKey with
    | .error e => .error e
    | .ok s' =>
      let key : SimpleKey :=
        { level := s.flowLevel
          tokenNumber := s.taken + s.queue.length
          required := !s.inFlow && s.indent == s.cursor.column
          pos := s.cursor.pos
          mark := s.cursor.mark }
      .ok { s' with keys := s'.keys ++ [key] }
  else
    .ok s

/-- Whether the next token of the queue may turn out to be the start of a key. -/
def awaitsKey (s : ScanState) : Bool :=
  s.keys.any (·.tokenNumber == s.taken)

/-! ## Indents -/

/-- The columns of all open block collections, innermost first, without those beyond `column`. -/
def closeIndents (column : Int) (indent : Int) : List Int → Nat × Int × List Int
  | [] => if column < indent then (1, -1, []) else (0, indent, [])
  | outer :: rest =>
    if column < indent then
      let (n, r) := closeIndents column outer rest
      (n + 1, r)
    else
      (0, indent, outer :: rest)

/-- Outside flow collections, closes the block collections that start beyond `column`. -/
def unwind (s : ScanState) (column : Int) : ScanState :=
  if s.inFlow then s
  else
    let (closed, indent, indents) := closeIndents column s.indent s.indents
    let ends := List.replicate closed (Token.empty .blockEnd s.cursor.mark)
    { s with queue := s.queue ++ ends, indent, indents }

/-- Whether a collection at `column` is nested deeper than the innermost one. -/
def nests (s : ScanState) (column : Nat) : Bool := s.indent < column

/-- Makes `column` the column of the innermost block collection. -/
def openIndent (s : ScanState) (column : Nat) : ScanState :=
  { s with indent := column, indents := s.indent :: s.indents }

/-- Opens a block collection at the cursor, unless one at its column is open already. -/
def openBlock (s : ScanState) (kind : TokenKind) : ScanState :=
  if s.nests s.cursor.column then
    (s.openIndent s.cursor.column).push (.empty kind s.cursor.mark)
  else
    s

end ScanState

end YamlLinter
