import YamlLinter.Proofs.Lexeme
import YamlLinter.Scan.Tokens

/-!
# What a fetch can do

One fetch skips the gap in front of the next token, forgets the keys that have ended, closes block
collections and reads one lexeme. `Fetched` lists everything the last part can do; what holds of all
states of a scan is shown by going through that list once.

## Contents

* `removeKey`, `saveKey`, `dropStaleKeys`, `openBlockOr`: what each of them does when it succeeds, and
  the error it gives otherwise;
* `fetchStreamEnd_ok` to `fetchPlain_ok`: the state behind each fetch that succeeds;
* `ScanState.Fetched`: everything that reading a lexeme can do to a state;
* `faults_fetchStreamEnd` to `faults_fetchPlain`: the errors of each fetch that fails;
* `fetch_lead`, `fetch_of_readied`: a fetch reads a lexeme in the state made ready for it;
* `fetch_ok`, `fetch_error`: a fetch that succeeds, and one that fails.
-/

namespace YamlLinter

namespace ScanState

variable {s s' s₁ : ScanState} {e : ScanError}

/-! ## What the small steps leave alone -/

section Frame

variable (s : ScanState) (column : Int) (kind : TokenKind) (k : SimpleKey)

@[simp] theorem unwind_cursor : (s.unwind column).cursor = s.cursor := by
  unfold unwind; split <;> rfl

@[simp] theorem unwind_done : (s.unwind column).done = s.done := by
  unfold unwind; split <;> rfl

@[simp] theorem unwind_failed : (s.unwind column).failed = s.failed := by
  unfold unwind; split <;> rfl

@[simp] theorem unwind_flowLevel : (s.unwind column).flowLevel = s.flowLevel := by
  unfold unwind; split <;> rfl

@[simp] theorem unwind_taken : (s.unwind column).taken = s.taken := by
  unfold unwind; split <;> rfl

@[simp] theorem unwind_allowKey : (s.unwind column).allowKey = s.allowKey := by
  unfold unwind; split <;> rfl

@[simp] theorem unwind_keys : (s.unwind column).keys = s.keys := by
  unfold unwind; split <;> rfl

@[simp] theorem unwind_comments : (s.unwind column).comments = s.comments := by
  unfold unwind; split <;> rfl

@[simp] theorem openBlock_cursor : (s.openBlock kind).cursor = s.cursor := by
  unfold openBlock; split <;> rfl

@[simp] theorem openBlock_done : (s.openBlock kind).done = s.done := by
  unfold openBlock; split <;> rfl

@[simp] theorem openBlock_failed : (s.openBlock kind).failed = s.failed := by
  unfold openBlock; split <;> rfl

@[simp] theorem openBlock_flowLevel : (s.openBlock kind).flowLevel = s.flowLevel := by
  unfold openBlock; split <;> rfl

@[simp] theorem openBlock_taken : (s.openBlock kind).taken = s.taken := by
  unfold openBlock; split <;> rfl

@[simp] theorem openBlock_keys : (s.openBlock kind).keys = s.keys := by
  unfold openBlock; split <;> rfl

@[simp] theorem openBlock_comments : (s.openBlock kind).comments = s.comments := by
  unfold openBlock; split <;> rfl

@[simp] theorem insertKey_cursor : (s.insertKey k).cursor = s.cursor := by
  unfold insertKey; simp only; split <;> rfl

@[simp] theorem insertKey_done : (s.insertKey k).done = s.done := by
  unfold insertKey; simp only; split <;> rfl

@[simp] theorem insertKey_failed : (s.insertKey k).failed = s.failed := by
  unfold insertKey; simp only; split <;> rfl

@[simp] theorem insertKey_flowLevel : (s.insertKey k).flowLevel = s.flowLevel := by
  unfold insertKey; simp only; split <;> rfl

@[simp] theorem insertKey_taken : (s.insertKey k).taken = s.taken := by
  unfold insertKey; simp only; split <;> rfl

@[simp] theorem insertKey_keys : (s.insertKey k).keys = s.keys := by
  unfold insertKey; simp only; split <;> rfl

@[simp] theorem insertKey_comments : (s.insertKey k).comments = s.comments := by
  unfold insertKey; simp only; split <;> rfl

end Frame

/-! ## Simple keys -/

/-- The error for a key that had to be one. -/
def missingColon (k : SimpleKey) : ScanError := ⟨.missingColon, k.mark⟩

/-- The key that may start at the cursor. -/
def keyHere (s : ScanState) : SimpleKey :=
  { level := s.flowLevel
    tokenNumber := s.taken + s.queue.length
    required := !s.inFlow && s.indent == s.cursor.column
    pos := s.cursor.pos
    mark := s.cursor.mark }

/-- What saving a key does: nothing where no key is allowed, else the key at the cursor takes the
place of the one at the same flow level. -/
inductive Saved (s : ScanState) : ScanState → Prop where
  | kept : s.allowKey = false → Saved s s
  | saved : s.allowKey = true →
      Saved s { s.forgetKey with keys := s.forgetKey.keys ++ [s.keyHere] }

/-- Saving a key changes neither the cursor nor the queue nor the flow level. -/
theorem Saved.same (h : Saved s s₁) :
    s₁.cursor = s.cursor ∧ s₁.queue = s.queue ∧ s₁.inFlow = s.inFlow := by
  cases h <;> exact ⟨rfl, rfl, rfl⟩

/-- The key at the current flow level is one of the keys remembered. -/
theorem mem_keys_of_currentKey? {k : SimpleKey} (h : s.currentKey? = some k) :
    k ∈ s.keys ∧ k.level = s.flowLevel := by
  unfold currentKey? at h
  exact ⟨List.mem_of_find?_eq_some h, by simpa using List.find?_some h⟩

/-- If the key at the current flow level may be dropped, it is forgotten. -/
theorem removeKey_ok (h : s.removeKey = .ok s') : s' = s.forgetKey := by
  unfold removeKey at h
  split at h
  · split at h
    · cases h
    · cases h; rfl
  · cases h; rfl

/-- Only a key that lacks its colon cannot be dropped. -/
theorem removeKey_error (h : s.removeKey = .error e) : ∃ k ∈ s.keys, e = missingColon k := by
  unfold removeKey at h
  split at h
  · rename_i k hk
    split at h
    · cases h
      exact ⟨k, (mem_keys_of_currentKey? hk).1, rfl⟩
    · cases h
  · cases h

/-- Saving a key that succeeds forgets the one it replaces. -/
theorem saveKey_ok (h : s.saveKey = .ok s') : Saved s s' := by
  unfold saveKey at h
  split at h
  · rename_i ha
    split at h
    · cases h
    · rename_i s₁ hr
      cases h
      rw [removeKey_ok hr]
      exact .saved ha
  · rename_i ha
    cases h
    exact .kept (by simpa using ha)

/-- Saving a key fails only if the one it replaces lacks its colon. -/
theorem saveKey_error (h : s.saveKey = .error e) : ∃ k ∈ s.keys, e = missingColon k := by
  unfold saveKey at h
  split at h
  · split at h
    · rename_i hr
      cases h
      exact removeKey_error hr
    · cases h
  · cases h

/-- Keys that have ended are forgotten, and none of them had to be one. -/
theorem dropStaleKeys_ok (h : s.dropStaleKeys = .ok s') :
    s' = { s with keys := s.keys.filter (!s.staleKey ·) } ∧
      ∀ k ∈ s.keys, s.staleKey k = true → k.required = false := by
  unfold dropStaleKeys at h
  split at h
  · cases h
  · rename_i hk
    cases h
    refine ⟨rfl, fun k hks hst => ?_⟩
    have := List.find?_eq_none.1 hk k hks
    simpa [hst] using this

/-- Keys that have ended can be dropped if none of them had to be one. -/
theorem dropStaleKeys_of_forall (h : ∀ k ∈ s.keys, s.staleKey k = true → k.required = false) :
    s.dropStaleKeys = .ok { s with keys := s.keys.filter (!s.staleKey ·) } := by
  have hnone : s.keys.find? (fun k => s.staleKey k && k.required) = none := by
    rw [List.find?_eq_none]
    intro k hk
    cases hs : s.staleKey k with
    | false => simp
    | true => simp [h k hk hs]
  rw [dropStaleKeys, hnone]

/-- Dropping keys fails only at one that lacks its colon. -/
theorem dropStaleKeys_error (h : s.dropStaleKeys = .error e) :
    ∃ k ∈ s.keys, e = missingColon k := by
  unfold dropStaleKeys at h
  split at h
  · rename_i k hk
    cases h
    exact ⟨k, List.mem_of_find?_eq_some hk, rfl⟩
  · cases h

/-! ## Block collections -/

/-- What comes before an entry, a key or a value: inside flow collections nothing, else the start of
a block collection, unless one is open at the column. -/
inductive Opened (s : ScanState) (kind : TokenKind) : ScanState → Prop where
  | flow : s.inFlow = true → Opened s kind s
  | block : s.inFlow = false → s.allowKey = true → Opened s kind (s.openBlock kind)

theorem opened_keys {kind : TokenKind} (h : Opened s kind s') : s'.keys = s.keys := by
  cases h with
  | flow => rfl
  | block => exact openBlock_keys s kind

theorem opened_cursor {kind : TokenKind} (h : Opened s kind s') : s'.cursor = s.cursor := by
  cases h with
  | flow => rfl
  | block => exact openBlock_cursor s kind

/-- In front of an entry, a key or a value nothing else happens than `Opened` says. -/
theorem openBlockOr_ok {kind : TokenKind} {cause : ScanError.Cause}
    (h : s.openBlockOr kind cause = .ok s') : Opened s kind s' := by
  unfold openBlockOr at h
  split at h
  · cases h
    exact .flow ‹_›
  · split at h
    · cases h
      exact .block (by simpa using ‹¬s.inFlow = true›) ‹_›
    · simp [Cursor.fail] at h

/-- A block collection that may not start here is told of at the cursor. -/
theorem openBlockOr_error {kind : TokenKind} {cause : ScanError.Cause}
    (h : s.openBlockOr kind cause = .error e) : s.cursor.Fails e := by
  unfold openBlockOr at h
  split at h
  · cases h
  · split at h
    · cases h
    · exact .of_fail h

/-! ## Fetches that succeed -/

section Success

variable {kind : TokenKind}

/-- The end of a text closes all block collections and forgets all keys. -/
theorem fetchStreamEnd_ok (h : s.fetchStreamEnd = .ok s') :
    (s.unwind (-1)).removeKey = .ok (s.unwind (-1)).forgetKey ∧
      s' = { s.unwind (-1) with
        allowKey := false
        keys := []
        queue := (s.unwind (-1)).queue ++ [.empty .streamEnd s.cursor.mark]
        done := true } := by
  unfold fetchStreamEnd at h
  split at h
  · cases h
  · rename_i hr
    cases h
    obtain rfl := removeKey_ok hr
    refine ⟨hr, ?_⟩
    simp only [forgetKey, unwind_cursor]

/-- A directive closes all block collections, and may have a comment behind it. -/
theorem fetchDirective_ok (h : s.fetchDirective = .ok s') :
    ∃ t k c, s.cursor.directive = .ok (t, k, c) ∧
      s' = { (s.unwind (-1)).forgetKey with
        allowKey := false
        cursor := c
        comments := s.comments ++ k.toList
        queue := (s.unwind (-1)).queue ++ [t] } := by
  unfold fetchDirective at h
  split at h
  · cases h
  · rename_i hr
    obtain rfl := removeKey_ok hr
    simp only [forgetKey, unwind_cursor, unwind_comments] at h
    split at h
    · cases h
    · rename_i t k c hd
      cases h
      exact ⟨t, k, c, hd, rfl⟩

/-- A document marker closes all block collections. -/
theorem fetchMarker_ok (h : s.fetchMarker kind = .ok s') :
    s' = { (s.unwind (-1)).forgetKey with allowKey := false }.pushMark kind 3 := by
  unfold fetchMarker at h
  split at h
  · cases h
  · rename_i hr
    cases h
    rw [removeKey_ok hr]

/-- An opening bracket may be a key itself, and inside a key may start at once. -/
theorem fetchFlowStart_ok (h : s.fetchFlowStart kind = .ok s') :
    ∃ s₁, Saved s s₁ ∧
      s' = { s₁ with flowLevel := s₁.flowLevel + 1, allowKey := true }.pushMark kind 1 := by
  unfold fetchFlowStart at h
  split at h
  · cases h
  · rename_i s₁ hs
    cases h
    exact ⟨s₁, saveKey_ok hs, rfl⟩

/-- A closing bracket ends what was inside, and its keys with it. -/
theorem fetchFlowEnd_ok (h : s.fetchFlowEnd kind = .ok s') :
    s' = { s.forgetKey with flowLevel := s.flowLevel - 1, allowKey := false }.pushMark kind 1 := by
  unfold fetchFlowEnd at h
  split at h
  · cases h
  · rename_i hr
    cases h
    rw [removeKey_ok hr]
    rfl

/-- Behind a comma a key may start. -/
theorem fetchFlowEntry_ok (h : s.fetchFlowEntry = .ok s') :
    s' = { s.forgetKey with allowKey := true }.pushMark .flowEntry 1 := by
  unfold fetchFlowEntry at h
  split at h
  · cases h
  · rename_i hr
    cases h
    rw [removeKey_ok hr]

/-- A dash may open a sequence, and behind it a key may start. -/
theorem fetchBlockEntry_ok (h : s.fetchBlockEntry = .ok s') :
    ∃ s₁, Opened s .blockSequenceStart s₁ ∧
      s' = { s₁.forgetKey with allowKey := true }.pushMark .blockEntry 1 := by
  unfold fetchBlockEntry at h
  split at h
  · cases h
  · rename_i s₁ ho
    split at h
    · cases h
    · rename_i hr
      cases h
      rw [removeKey_ok hr]
      exact ⟨s₁, openBlockOr_ok ho, rfl⟩

/-- A `?` may open a mapping. -/
theorem fetchKey_ok (h : s.fetchKey = .ok s') :
    ∃ s₁ allowKey, Opened s .blockMappingStart s₁ ∧
      s' = { s₁.forgetKey with allowKey }.pushMark .key 1 := by
  unfold fetchKey at h
  split at h
  · cases h
  · rename_i s₁ ho
    split at h
    · cases h
    · rename_i hr
      cases h
      rw [removeKey_ok hr]
      exact ⟨s₁, _, openBlockOr_ok ho, rfl⟩

/-- A value belongs to the key without `?` that stands before it, if there is one. -/
theorem fetchValue_ok (h : s.fetchValue = .ok s') :
    (∃ k, s.currentKey? = some k ∧
      s' = { s.forgetKey.insertKey k with allowKey := false }.pushMark .value 1) ∨
    s.currentKey? = none ∧ ∃ s₁ allowKey, Opened s .blockMappingStart s₁ ∧
      s' = { s₁.forgetKey with allowKey }.pushMark .value 1 := by
  unfold fetchValue at h
  split at h
  · rename_i k hk
    cases h
    exact .inl ⟨k, hk, rfl⟩
  · rename_i hk
    split at h
    · cases h
    · rename_i s₁ ho
      cases h
      exact .inr ⟨hk, s₁, _, openBlockOr_ok ho, rfl⟩

/-- A lexeme that can be a key is remembered as one where keys are allowed. -/
theorem fetchKeyable_ok {read : Cursor → Except ScanError (Token × Cursor)}
    (h : s.fetchKeyable read = .ok s') :
    ∃ s₁ t c, Saved s s₁ ∧ read s.cursor = .ok (t, c) ∧
      s' = { s₁ with allowKey := false, cursor := c, queue := s₁.queue ++ [t] } := by
  unfold fetchKeyable at h
  split at h
  · cases h
  · rename_i s₁ hs
    have hsaved := saveKey_ok hs
    rw [hsaved.same.1] at h
    split at h
    · cases h
    · rename_i t c ht
      cases h
      exact ⟨s₁, t, c, hsaved, ht, rfl⟩

/-- A block scalar is no key, and behind it a key may start. -/
theorem fetchBlock_ok {folded : Bool} (h : s.fetchBlock folded = .ok s') :
    ∃ t k c, s.cursor.block folded s.indent = .ok (t, k, c) ∧
      s' = { s.forgetKey with
        allowKey := true
        cursor := c
        comments := s.comments ++ k.toList
        queue := s.queue ++ [t] } := by
  unfold fetchBlock at h
  split at h
  · cases h
  · rename_i hr
    obtain rfl := removeKey_ok hr
    split at h
    · cases h
    · rename_i t k c hb
      cases h
      exact ⟨t, k, c, hb, rfl⟩

/-- A plain scalar can be a key, and behind it a key may start if a line break follows it. -/
theorem fetchPlain_ok (h : s.fetchPlain = .ok s') :
    ∃ s₁, Saved s s₁ ∧
      let scalar := s.cursor.plain s.inFlow s.indent
      let kind := TokenKind.scalar (String.ofList scalar.value) .plain
      s' = { s₁ with
        allowKey := scalar.broken
        cursor := scalar.cursor
        queue := s₁.queue ++ [⟨kind, s.cursor.mark, scalar.stop⟩] } := by
  unfold fetchPlain at h
  split at h
  · cases h
  · rename_i s₁ hs
    have hsaved := saveKey_ok hs
    cases h
    refine ⟨s₁, hsaved, ?_⟩
    cases hsaved <;> rfl

end Success

/-! ## One lexeme -/

/-- The kinds of token that can start a key without `?`, collections apart. -/
def startsKey : TokenKind → Bool
  | .aliasRef _ | .anchor _ | .tag _ _ => true
  | .scalar _ style => !style.isBlock
  | _ => false

theorem kind_of_startsKey {kind : TokenKind} (h : startsKey kind = true) :
    (∃ name, kind = .aliasRef name) ∨ (∃ name, kind = .anchor name) ∨
      (∃ handle suffix, kind = .tag handle suffix) ∨ ∃ value style, kind = .scalar value style := by
  cases kind with
  | aliasRef name => exact .inl ⟨name, rfl⟩
  | anchor name => exact .inr (.inl ⟨name, rfl⟩)
  | tag handle suffix => exact .inr (.inr (.inl ⟨handle, suffix, rfl⟩))
  | scalar value style => exact .inr (.inr (.inr ⟨value, style, rfl⟩))
  | _ => cases h

theorem kind_of_isScalar {t : Token} (h : t.isScalar = true) :
    ∃ value style, t.kind = .scalar value style := by
  unfold Token.isScalar Token.scalarStyle? at h
  split at h
  · exact ⟨_, _, ‹_›⟩
  · cases h

/-- The marks `-`, `?` and `:` with their tokens and the collections that they may open. A `:` is
meant only where no key without `?` stands before it. -/
inductive EntryMark (s : ScanState) : TokenKind → TokenKind → Prop where
  | entry : s.cursor.peek = '-' → EntryMark s .blockEntry .blockSequenceStart
  | key : s.cursor.peek = '?' → EntryMark s .key .blockMappingStart
  | value : s.cursor.peek = ':' → s.currentKey? = none → EntryMark s .value .blockMappingStart

/-- Everything that reading the lexeme at the cursor can do to a state. -/
inductive Fetched (s : ScanState) : ScanState → Prop where
  | streamEnd : s.cursor.rest = [] →
      Fetched s { (s.unwind (-1)).forgetKey with
        allowKey := false
        keys := []
        queue := (s.unwind (-1)).queue ++ [.empty .streamEnd s.cursor.mark]
        done := true }
  | directive {t : Token} {k : Option Comment} {c : Cursor} : s.cursor.rest ≠ [] →
      s.cursor.directive = .ok (t, k, c) →
      Fetched s { (s.unwind (-1)).forgetKey with
        allowKey := false
        cursor := c
        comments := s.comments ++ k.toList
        queue := (s.unwind (-1)).queue ++ [t] }
  | marker {kind : TokenKind} {ch : Char} : s.cursor.rest ≠ [] → s.cursor.atMarker ch →
      (ch = '-' ∧ kind = .documentStart ∨ ch = '.' ∧ kind = .documentEnd) →
      Fetched s ({ (s.unwind (-1)).forgetKey with allowKey := false }.pushMark kind 3)
  | flowStart {s₁ : ScanState} {kind : TokenKind} : s.cursor.rest ≠ [] → Saved s s₁ →
      (kind = .flowSequenceStart ∨ kind = .flowMappingStart) →
      Fetched s ({ s₁ with flowLevel := s₁.flowLevel + 1, allowKey := true }.pushMark kind 1)
  | flowEnd {kind : TokenKind} : s.cursor.rest ≠ [] →
      (kind = .flowSequenceEnd ∨ kind = .flowMappingEnd) →
      Fetched s
        ({ s.forgetKey with flowLevel := s.flowLevel - 1, allowKey := false }.pushMark kind 1)
  | flowEntry : s.cursor.rest ≠ [] →
      Fetched s ({ s.forgetKey with allowKey := true }.pushMark .flowEntry 1)
  | entry {s₁ : ScanState} {kind opens : TokenKind} {allowKey : Bool} : s.cursor.rest ≠ [] →
      EntryMark s kind opens → Opened s opens s₁ →
      Fetched s ({ s₁.forgetKey with allowKey }.pushMark kind 1)
  | value {k : SimpleKey} : s.cursor.rest ≠ [] → s.currentKey? = some k →
      Fetched s ({ s.forgetKey.insertKey k with allowKey := false }.pushMark .value 1)
  | keyable {s₁ : ScanState} {t : Token} {c : Cursor} {allowKey : Bool} : Saved s s₁ →
      s.cursor.Reads t c → startsKey t.kind →
      Fetched s { s₁ with allowKey, cursor := c, queue := s₁.queue ++ [t] }
  | block {t : Token} {k : Option Comment} {c : Cursor} : s.inFlow = false → s.cursor.Reads t c →
      Cursor.Notes s.cursor k.toList c → t.isScalar →
      Fetched s { s.forgetKey with
        allowKey := true
        cursor := c
        comments := s.comments ++ k.toList
        queue := s.queue ++ [t] }

/-- What is known of the cursor when a lead stands there. -/
def Fits (s : ScanState) : Lead → Prop
  | .streamEnd => s.cursor.rest = []
  | .documentStart => s.cursor.rest ≠ [] ∧ s.cursor.atMarker '-'
  | .documentEnd => s.cursor.rest ≠ [] ∧ s.cursor.atMarker '.'
  | .flowStart kind =>
    s.cursor.rest ≠ [] ∧ (kind = .flowSequenceStart ∨ kind = .flowMappingStart)
  | .flowEnd kind => s.cursor.rest ≠ [] ∧ (kind = .flowSequenceEnd ∨ kind = .flowMappingEnd)
  | .blockEntry => s.cursor.rest ≠ [] ∧ s.cursor.peek = '-'
  | .key => s.cursor.rest ≠ [] ∧ s.cursor.peek = '?'
  | .value => s.cursor.rest ≠ [] ∧ s.cursor.peek = ':'
  | .block _ => s.cursor.rest ≠ [] ∧ s.inFlow = false
  | .plain => s.cursor.rest ≠ [] ∧ startsPlain s.inFlow s.cursor.peek (s.cursor.peekAt 1)
  | _ => s.cursor.rest ≠ []

/-- The lead at the cursor fits the characters that stand there. -/
theorem fits_lead (s : ScanState) : s.Fits s.lead := by
  unfold lead
  -- one line for each test of `lead`, in its order
  refine iteInduction (fun h => ?_) fun hend => ?_
  · simpa [Fits, Cursor.atEnd] using h
  have hne : s.cursor.rest ≠ [] := by simpa [Cursor.atEnd] using hend
  refine iteInduction (fun _ => hne) fun _ => ?_
  refine iteInduction (fun h => ⟨hne, h⟩) fun _ => ?_
  refine iteInduction (fun h => ⟨hne, h⟩) fun _ => ?_
  refine iteInduction (fun _ => ⟨hne, .inl rfl⟩) fun _ => ?_
  refine iteInduction (fun _ => ⟨hne, .inr rfl⟩) fun _ => ?_
  refine iteInduction (fun _ => ⟨hne, .inl rfl⟩) fun _ => ?_
  refine iteInduction (fun _ => ⟨hne, .inr rfl⟩) fun _ => ?_
  refine iteInduction (fun _ => hne) fun _ => ?_
  refine iteInduction (fun h => ⟨hne, beq_iff_eq.1 (Bool.and_eq_true_iff.1 h).1⟩) fun _ => ?_
  refine iteInduction (fun h => ⟨hne, beq_iff_eq.1 (Bool.and_eq_true_iff.1 h).1⟩) fun _ => ?_
  refine iteInduction (fun h => ⟨hne, beq_iff_eq.1 (Bool.and_eq_true_iff.1 h).1⟩) fun _ => ?_
  refine iteInduction (fun _ => hne) fun _ => ?_
  refine iteInduction (fun _ => hne) fun _ => ?_
  refine iteInduction (fun _ => hne) fun _ => ?_
  refine iteInduction (fun h => ⟨hne, by simpa using (Bool.and_eq_true_iff.1 h).2⟩) fun _ => ?_
  refine iteInduction (fun h => ⟨hne, by simpa using (Bool.and_eq_true_iff.1 h).2⟩) fun _ => ?_
  refine iteInduction (fun _ => hne) fun _ => ?_
  refine iteInduction (fun _ => hne) fun _ => ?_
  exact iteInduction (fun h => ⟨hne, h⟩) fun _ => hne

/-- A lexeme that can be a key is in the list if its reader keeps to its contract. -/
theorem fetched_of_fetchKeyable {read : Cursor → Except ScanError (Token × Cursor)}
    (h : s.fetchKeyable read = .ok s')
    (hread : ∀ c t, read s.cursor = .ok (t, c) → s.cursor.Reads t c ∧ startsKey t.kind) :
    Fetched s s' := by
  obtain ⟨s₁, t, c, hs, ht, rfl⟩ := fetchKeyable_ok h
  obtain ⟨hreads, hkind⟩ := hread c t ht
  exact .keyable hs hreads hkind

/-- Every way to read the lexeme at the cursor is in the list. -/
theorem fetched_of_fetchLead (h : s.fetchLead s.lead = .ok s') : Fetched s s' := by
  have hl := s.fits_lead
  generalize s.lead = lead at h hl
  -- one case a lead: a fetch that succeeds has passed all of its checks, which the constructor keeps
  cases lead with
  | streamEnd =>
    obtain ⟨-, rfl⟩ := fetchStreamEnd_ok h
    exact .streamEnd hl
  | directive =>
    obtain ⟨t, k, c, hd, rfl⟩ := fetchDirective_ok h
    exact .directive hl hd
  | documentStart =>
    obtain rfl := fetchMarker_ok h
    exact .marker hl.1 hl.2 (.inl ⟨rfl, rfl⟩)
  | documentEnd =>
    obtain rfl := fetchMarker_ok h
    exact .marker hl.1 hl.2 (.inr ⟨rfl, rfl⟩)
  | flowStart kind =>
    obtain ⟨s₁, hs, rfl⟩ := fetchFlowStart_ok h
    exact .flowStart hl.1 hs hl.2
  | flowEnd kind =>
    obtain rfl := fetchFlowEnd_ok h
    exact .flowEnd hl.1 hl.2
  | flowEntry =>
    obtain rfl := fetchFlowEntry_ok h
    exact .flowEntry hl
  | blockEntry =>
    obtain ⟨s₁, ho, rfl⟩ := fetchBlockEntry_ok h
    exact .entry hl.1 (.entry hl.2) ho
  | key =>
    obtain ⟨s₁, allowKey, ho, rfl⟩ := fetchKey_ok h
    exact .entry hl.1 (.key hl.2) ho
  | value =>
    obtain ⟨k, hk, rfl⟩ | ⟨hk, s₁, allowKey, ho, rfl⟩ := fetchValue_ok h
    · exact .value hl.1 hk
    · exact .entry hl.1 (.value hl.2 hk) ho
  | aliasRef =>
    refine fetched_of_fetchKeyable h fun c t ht => ?_
    obtain ⟨hr, name, hk⟩ := Cursor.reads_name hl ht
    exact ⟨hr, by rw [hk]; rfl⟩
  | anchor =>
    refine fetched_of_fetchKeyable h fun c t ht => ?_
    obtain ⟨hr, name, hk⟩ := Cursor.reads_name hl ht
    exact ⟨hr, by rw [hk]; rfl⟩
  | tag =>
    simp only [fetchLead] at h
    refine fetched_of_fetchKeyable h fun c t ht => ?_
    obtain ⟨hr, handle, suffix, hk⟩ := Cursor.reads_tag hl ht
    exact ⟨hr, by rw [hk]; rfl⟩
  | quoted double =>
    simp only [fetchLead] at h
    refine fetched_of_fetchKeyable h fun c t ht => ?_
    obtain ⟨hr, value, style, hk, hq⟩ := Cursor.reads_quoted hl ht
    refine ⟨hr, ?_⟩
    rw [hk]
    cases style <;> simp_all [startsKey, ScalarStyle.isQuoted, ScalarStyle.isBlock]
  | block folded =>
    obtain ⟨t, k, c, hb, rfl⟩ := fetchBlock_ok h
    obtain ⟨hreads, hnotes, value, style, hk⟩ := Cursor.reads_block hl.1 hb
    exact .block hl.2 hreads hnotes (by simp [Token.isScalar, Token.scalarStyle?, hk])
  | plain =>
    obtain ⟨s₁, hs, rfl⟩ := fetchPlain_ok h
    exact .keyable hs (Cursor.reads_plain hl.1 hl.2) rfl
  | stray found => cases h

/-! ## Errors -/

/-- What an error can be: a key without its colon, or a lexeme that went wrong at the cursor or
ahead of it. -/
def Faults (s : ScanState) (e : ScanError) : Prop :=
  (∃ k ∈ s.keys, e = missingColon k) ∨ s.cursor.Fails e

section Failure

variable {kind opens : TokenKind}

/-- Closing all block collections forgets no key. -/
theorem faults_unwind (h : (s.unwind (-1)).removeKey = .error e) : s.Faults e :=
  .inl (by simpa using removeKey_error h)

/-- The start of a block collection forgets no key. -/
theorem faults_opened (ho : Opened s opens s₁) (h : s₁.removeKey = .error e) : s.Faults e :=
  .inl (opened_keys ho ▸ removeKey_error h)

/-- The end of a text goes wrong if a key lacks its colon. -/
theorem faults_fetchStreamEnd (h : s.fetchStreamEnd = .error e) : s.Faults e := by
  unfold fetchStreamEnd at h
  split at h
  · rename_i hr
    cases h
    exact faults_unwind hr
  · cases h

/-- A directive goes wrong in what stands behind its `%`, or at a key in front of it. -/
theorem faults_fetchDirective (h : s.fetchDirective = .error e) : s.Faults e := by
  unfold fetchDirective at h
  split at h
  · rename_i hr
    cases h
    exact faults_unwind hr
  · rename_i hr
    rw [removeKey_ok hr] at h
    split at h
    · rename_i hd
      cases h
      exact .inr (by simpa [forgetKey] using Cursor.fails_directive hd)
    · cases h

/-- A document marker goes wrong at a key in front of it. -/
theorem faults_fetchMarker (h : s.fetchMarker kind = .error e) : s.Faults e := by
  unfold fetchMarker at h
  split at h
  · rename_i hr
    cases h
    exact faults_unwind hr
  · cases h

/-- An opening bracket can be a key, and goes wrong where that cannot be remembered. -/
theorem faults_fetchFlowStart (h : s.fetchFlowStart kind = .error e) : s.Faults e := by
  unfold fetchFlowStart at h
  split at h
  · rename_i hs
    cases h
    exact .inl (saveKey_error hs)
  · cases h

/-- A closing bracket goes wrong at a key inside. -/
theorem faults_fetchFlowEnd (h : s.fetchFlowEnd kind = .error e) : s.Faults e := by
  unfold fetchFlowEnd at h
  split at h
  · rename_i hr
    cases h
    exact .inl (removeKey_error hr)
  · cases h

/-- A comma goes wrong at a key in front of it. -/
theorem faults_fetchFlowEntry (h : s.fetchFlowEntry = .error e) : s.Faults e := by
  unfold fetchFlowEntry at h
  split at h
  · rename_i hr
    cases h
    exact .inl (removeKey_error hr)
  · cases h

/-- A dash goes wrong where no sequence may start, or at a key in front of it. -/
theorem faults_fetchBlockEntry (h : s.fetchBlockEntry = .error e) : s.Faults e := by
  unfold fetchBlockEntry at h
  split at h
  · rename_i ho
    cases h
    exact .inr (openBlockOr_error ho)
  · rename_i ho
    split at h
    · rename_i hr
      cases h
      exact faults_opened (openBlockOr_ok ho) hr
    · cases h

/-- A `?` goes wrong where no mapping may start, or at a key in front of it. -/
theorem faults_fetchKey (h : s.fetchKey = .error e) : s.Faults e := by
  unfold fetchKey at h
  split at h
  · rename_i ho
    cases h
    exact .inr (openBlockOr_error ho)
  · rename_i ho
    split at h
    · rename_i hr
      cases h
      exact faults_opened (openBlockOr_ok ho) hr
    · cases h

/-- A `:` goes wrong where no mapping may start. Behind a key it never does. -/
theorem faults_fetchValue (h : s.fetchValue = .error e) : s.Faults e := by
  unfold fetchValue at h
  split at h
  · cases h
  · split at h
    · rename_i ho
      cases h
      exact .inr (openBlockOr_error ho)
    · cases h

/-- A lexeme that can be a key goes wrong where that cannot be remembered, or while it is read. -/
theorem faults_fetchKeyable {read : Cursor → Except ScanError (Token × Cursor)}
    (h : s.fetchKeyable read = .error e)
    (hread : ∀ e, read s.cursor = .error e → s.cursor.Fails e) : s.Faults e := by
  unfold fetchKeyable at h
  split at h
  · rename_i hs
    cases h
    exact .inl (saveKey_error hs)
  · rename_i s₁ hs
    rw [(saveKey_ok hs).same.1] at h
    split at h
    · rename_i he
      cases h
      exact .inr (hread _ he)
    · cases h

/-- A block scalar goes wrong at a key in front of it, or while it is read. -/
theorem faults_fetchBlock {folded : Bool} (h : s.fetchBlock folded = .error e) : s.Faults e := by
  unfold fetchBlock at h
  split at h
  · rename_i hr
    cases h
    exact .inl (removeKey_error hr)
  · rename_i hr
    rw [removeKey_ok hr] at h
    split at h
    · rename_i hb
      cases h
      exact .inr (Cursor.fails_block hb)
    · cases h

/-- A plain scalar goes wrong where it cannot be remembered as a key. -/
theorem faults_fetchPlain (h : s.fetchPlain = .error e) : s.Faults e := by
  unfold fetchPlain at h
  split at h
  · rename_i hs
    cases h
    exact .inl (saveKey_error hs)
  · cases h

end Failure

/-- Every error of a lexeme is in the list. -/
theorem faults_of_fetchLead (lead : Lead) (h : s.fetchLead lead = .error e) : s.Faults e := by
  cases lead with
  | streamEnd => exact faults_fetchStreamEnd h
  | directive => exact faults_fetchDirective h
  | documentStart => exact faults_fetchMarker h
  | documentEnd => exact faults_fetchMarker h
  | flowStart kind => exact faults_fetchFlowStart h
  | flowEnd kind => exact faults_fetchFlowEnd h
  | flowEntry => exact faults_fetchFlowEntry h
  | blockEntry => exact faults_fetchBlockEntry h
  | key => exact faults_fetchKey h
  | value => exact faults_fetchValue h
  | aliasRef => exact faults_fetchKeyable h fun _ he => Cursor.fails_name he
  | anchor => exact faults_fetchKeyable h fun _ he => Cursor.fails_name he
  | tag =>
    simp only [fetchLead] at h
    exact faults_fetchKeyable h fun _ he => Cursor.fails_tag he
  | quoted double =>
    simp only [fetchLead] at h
    exact faults_fetchKeyable h fun _ he => Cursor.fails_quoted he
  | block folded => exact faults_fetchBlock h
  | plain => exact faults_fetchPlain h
  | stray found => exact .inr (.of_fail h)

/-! ## A whole fetch -/

/-- `s₁` is the state in which a fetch from `s` reads its lexeme: behind the gap, without the keys
that have ended, and with the block collections closed that the column has left. -/
structure Readied (s s₁ : ScanState) : Prop where
  ended : ∀ k ∈ s.keys, s.skipGap.staleKey k = true → k.required = false
  eq : s₁ = unwind { s.skipGap with keys := s.keys.filter (!s.skipGap.staleKey ·) }
    s.skipGap.cursor.column

namespace Readied

variable (h : Readied s s₁)
include h

theorem cursor : s₁.cursor = s.skipGap.cursor := by rw [h.eq]; exact unwind_cursor _ _

theorem done : s₁.done = s.done := by rw [h.eq]; exact unwind_done _ _

theorem failed : s₁.failed = s.failed := by rw [h.eq]; exact unwind_failed _ _

theorem flowLevel : s₁.flowLevel = s.flowLevel := by rw [h.eq]; exact unwind_flowLevel _ _

theorem taken : s₁.taken = s.taken := by rw [h.eq]; exact unwind_taken _ _

theorem keys : s₁.keys = s.keys.filter (!s.skipGap.staleKey ·) := by
  rw [h.eq]; exact unwind_keys _ _

theorem comments : s₁.comments = s.skipGap.comments := by rw [h.eq]; exact unwind_comments _ _

end Readied

/-- The comments of the gap lie between the cursors on its two sides. -/
theorem notes_skipGap (s : ScanState) :
    ∃ ks, Cursor.Notes s.cursor ks s.skipGap.cursor ∧ s.skipGap.comments = s.comments ++ ks :=
  ⟨_, .behind (Cursor.ahead_skipByteOrderMark _) (Cursor.notes_gap _ _ _), rfl⟩

/-- The gap in front of a token is passed forwards. -/
theorem ahead_skipGap (s : ScanState) : s.cursor.Ahead s.skipGap.cursor := by
  obtain ⟨ks, hn, -⟩ := s.notes_skipGap
  exact hn.laid.ahead

/-- A fetch that succeeds reads the lexeme at the cursor in the state made ready for it. -/
theorem fetch_lead (h : s.fetch = (none, s')) :
    ∃ s₁, Readied s s₁ ∧ s₁.fetchLead s₁.lead = .ok s' := by
  unfold fetch fetchHere at h
  simp only at h
  split at h
  · cases h
  · rename_i hf
    cases h
    split at hf
    · cases hf
    · rename_i s₀ hd
      obtain ⟨rfl, hreq⟩ := dropStaleKeys_ok hd
      exact ⟨_, ⟨hreq, rfl⟩, hf⟩

/-- The state made ready for a lexeme tells what a fetch does. -/
theorem fetch_of_readied (hr : Readied s s₁) (hf : s₁.fetchLead s₁.lead = .ok s') :
    s.fetch = (none, s') := by
  have hdrop := dropStaleKeys_of_forall (s := s.skipGap) hr.ended
  have heq := hr.eq
  unfold fetch fetchHere
  simp only [hdrop]
  have hf : (unwind { s.skipGap with keys := s.keys.filter (!s.skipGap.staleKey ·) }
      s.skipGap.cursor.column).fetchLead (unwind { s.skipGap with
        keys := s.keys.filter (!s.skipGap.staleKey ·) } s.skipGap.cursor.column).lead = .ok s' := by
    rw [← heq]
    exact hf
  have hkeys : s.skipGap.keys = s.keys := rfl
  simp only [hkeys, hf]

/-- A fetch that succeeds does one of the things in the list, behind the gap. -/
theorem fetch_ok (h : s.fetch = (none, s')) : ∃ s₁, Readied s s₁ ∧ Fetched s₁ s' := by
  obtain ⟨s₁, hr, hf⟩ := fetch_lead h
  exact ⟨s₁, hr, fetched_of_fetchLead hf⟩

/-- A fetch that fails stops behind the gap, at a key without its colon or in the lexeme. -/
theorem fetch_error (h : s.fetch = (some e, s')) : s' = s.skipGap ∧ s.skipGap.Faults e := by
  unfold fetch fetchHere at h
  simp only at h
  split at h
  · rename_i hf
    cases h
    refine ⟨rfl, ?_⟩
    split at hf
    · rename_i hd
      cases hf
      exact .inl (dropStaleKeys_error hd)
    · rename_i s₀ hd
      obtain ⟨rfl, -⟩ := dropStaleKeys_ok hd
      rcases faults_of_fetchLead _ hf with ⟨k, hk, rfl⟩ | hc
      · rw [unwind_keys] at hk
        exact .inl ⟨k, (List.mem_filter.1 hk).1, rfl⟩
      · rw [unwind_cursor] at hc
        exact .inr hc
  · cases h

end ScanState

end YamlLinter
