import YamlLinter.Scan.Fetch

/-!
# The tokens of a source

A scanner gives tokens one by one and reads ahead only as far as it must. Scanning a whole source
keeps every token given before an error.

## Contents

* `ScanState.weight`: what every fetch and every token given makes smaller;
* `ScanState.fetch`: one fetch with the gap in front of it;
* `ScanState.fill`: reads ahead until the next token can be given;
* `ScanStep`, `ScanState.next`: the next token, an error, or the end;
* `Scan`, `ScanState.drain`, `scan`: everything a source holds.
-/

namespace YamlLinter

/-- The answer of a scanner that is asked for a token. -/
inductive ScanStep where
  | token (t : Token)
  | error (e : ScanError)
  /-- All tokens have been given, or an error has been reported before. -/
  | exhausted
  deriving Repr, DecidableEq, Inhabited

/-- Everything a source holds: the tokens before the first error, the comments, and the error. -/
structure Scan where
  tokens : List Token
  comments : List Comment
  error : Option ScanError
  deriving Repr, DecidableEq, Inhabited

namespace ScanState

/-- A bound on what is left to do. Every character left stands for five units, which is more than
the tokens and indents that one fetch adds. -/
def weight (s : ScanState) : Nat :=
  5 * (if s.done then 0 else s.cursor.rest.length + 1) + s.queue.length + s.indents.length

/-- Whether the next token cannot be given yet: there is none, or it may turn out to be a key. -/
def needsMore (s : ScanState) : Except ScanError (Bool × ScanState) :=
  if s.done then .ok (false, s)
  else if s.queue.isEmpty then .ok (true, s)
  else
    match s.dropStaleKeys with
    | .error e => .error e
    | .ok s' => .ok (s'.awaitsKey, s')

/-- Skips to the next token and fetches it. An error leaves the state in front of the token, with
the comments before it. -/
def fetch (s : ScanState) : Option ScanError × ScanState :=
  let ready := s.skipGap
  match ready.fetchHere with
  | .error e => (some e, ready)
  | .ok s' => (none, s')

/-- Fetches until the next token can be given. -/
def fill (s : ScanState) : Option ScanError × ScanState :=
  match s.needsMore with
  | .error e => (some e, s)
  | .ok (false, s') => (none, s')
  | .ok (true, s') =>
    match s'.fetch with
    | (some e, s'') => (some e, s'')
    | (none, s'') => if s''.weight < s.weight then s''.fill else (none, s'')
termination_by s.weight

/-- The next token, with the state behind it. -/
def next (s : ScanState) : ScanStep × ScanState :=
  if s.failed then (.exhausted, s)
  else
    match s.fill with
    | (some e, s') => (.error e, { s' with failed := true })
    | (none, s') =>
      match s'.queue with
      | [] => (.exhausted, s')
      | t :: queue => (.token t, { s' with queue, taken := s'.taken + 1 })

/-- All further tokens, up to an error. -/
def drain (s : ScanState) : Scan × ScanState :=
  match s.next with
  | (.exhausted, s') => (⟨[], s'.comments, none⟩, s')
  | (.error e, s') => (⟨[], s'.comments, some e⟩, s')
  | (.token t, s') =>
    if s'.weight < s.weight then
      let (rest, final) := s'.drain
      ({ rest with tokens := t :: rest.tokens }, final)
    else
      (⟨[t], s'.comments, none⟩, s')
termination_by s.weight

end ScanState

/-- Scans a list of characters. -/
def scanText (text : List Char) : Scan :=
  (ScanState.ofText text).drain.1

/-- Scans a source. -/
def scan (source : String) : Scan :=
  scanText source.toList

end YamlLinter
