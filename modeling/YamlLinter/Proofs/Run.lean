import YamlLinter.Proofs.Fetch

/-!
# Runs of the scanner

A run alternates between fetching tokens into the queue and giving the first of them away. Every
state that the scanner is in between two such steps is reached by a run, and scanning a text ends
after finitely many of them.

## Contents

* `ScanState.Grounded`: outside of all block collections the indent is `-1`;
* `weight_fetched`, `weight_fetch_lt`: every fetch leaves less to do;
* `ScanState.Run`: the states and the tokens given on the way to them;
* `Asked`: what a scanner answers that is asked for a token;
* `run_next`, `run_drain`: asking for one token, and for all of them, makes a run;
* `scanText_of_run`, `scanText_of_ends`: a run determines the scan.
-/

namespace YamlLinter

namespace ScanState

variable {s s' s₁ : ScanState} {e : ScanError}

/-! ## Indents -/

/-- The outermost indent is the one outside of all block collections. -/
def Grounded (s : ScanState) : Prop := (s.indent :: s.indents).getLast? = some (-1)

/-- Closing collections never touches the outermost indent, and every collection closed is one
indent less. -/
theorem closeIndents_spec {column : Int} (hc : -1 ≤ column) :
    ∀ {indents : List Int} {indent : Int}, (indent :: indents).getLast? = some (-1) →
      (closeIndents column indent indents).1 + (closeIndents column indent indents).2.2.length =
          indents.length ∧
        ((closeIndents column indent indents).2.1 ::
          (closeIndents column indent indents).2.2).getLast? = some (-1) := by
  intro indents
  induction indents with
  | nil =>
    intro indent h
    obtain rfl : indent = -1 := by simpa using h
    have hlt : ¬column < -1 := by omega
    simp [closeIndents, hlt]
  | cons outer rest ih =>
    intro indent h
    have hr : (outer :: rest).getLast? = some (-1) := by simpa [List.getLast?_cons_cons] using h
    obtain ⟨hlen, hlast⟩ := ih hr
    unfold closeIndents
    split
    · refine ⟨?_, hlast⟩
      simp only [List.length_cons]
      omega
    · exact ⟨by simp, h⟩

/-- Nothing is closed at or beyond the column of the innermost collection. -/
theorem unwind_of_le {column : Int} (hc : s.indent ≤ column) : s.unwind column = s := by
  have hclose : closeIndents column s.indent s.indents = (0, s.indent, s.indents) := by
    cases hs : s.indents with
    | nil => rw [closeIndents, if_neg (by omega)]
    | cons outer rest => rw [closeIndents, if_neg (by omega)]
  unfold unwind
  rw [hclose]
  split
  · rfl
  · simp

theorem grounded_unwind {column : Int} (h : s.Grounded) (hc : -1 ≤ column) :
    (s.unwind column).Grounded ∧
      (s.unwind column).queue.length + (s.unwind column).indents.length =
        s.queue.length + s.indents.length := by
  unfold unwind
  split
  · exact ⟨h, rfl⟩
  · have hcl := closeIndents_spec hc h
    generalize closeIndents column s.indent s.indents = closing at hcl ⊢
    obtain ⟨closed, indent, indents⟩ := closing
    obtain ⟨hlen, hlast⟩ := hcl
    refine ⟨hlast, ?_⟩
    simp only [List.length_append, List.length_replicate] at hlen ⊢
    omega

theorem grounded_openIndent {column : Nat} (h : s.Grounded) : (s.openIndent column).Grounded := by
  simpa [Grounded, openIndent, List.getLast?_cons_cons] using h

theorem grounded_openBlock {kind : TokenKind} (h : s.Grounded) : (s.openBlock kind).Grounded := by
  unfold openBlock
  split
  · exact grounded_openIndent h
  · exact h

theorem grounded_opened {kind : TokenKind} (h : s.Grounded) (ho : Opened s kind s') :
    s'.Grounded := by
  cases ho with
  | flow => exact h
  | block => exact grounded_openBlock h

theorem grounded_insertKey {k : SimpleKey} (h : s.Grounded) : (s.insertKey k).Grounded := by
  unfold insertKey
  simp only
  split
  · exact grounded_openIndent h
  · exact h

theorem grounded_saved (h : s.Grounded) (hs : Saved s s') : s'.Grounded := by
  cases hs <;> exact h

/-- Reading a lexeme keeps the outermost indent. -/
theorem grounded_fetched (h : s.Grounded) (hf : Fetched s s') : s'.Grounded := by
  have hu := (grounded_unwind h (Int.le_refl (-1))).1
  cases hf with
  | streamEnd => exact hu
  | directive => exact hu
  | marker => exact hu
  | flowStart _ hs =>
    have hs := grounded_saved h hs
    exact hs
  | flowEnd => exact h
  | flowEntry => exact h
  | entry _ _ ho =>
    have ho := grounded_opened h ho
    exact ho
  | value => exact grounded_insertKey (s := s.forgetKey) h
  | keyable hs =>
    have hs := grounded_saved h hs
    exact hs
  | block => exact h

/-- Skipping, forgetting keys and closing collections keep the outermost indent, and add nothing to
what is left to do. -/
theorem grounded_readied (h : s.Grounded) (hr : Readied s s₁) :
    s₁.Grounded ∧ s₁.queue.length + s₁.indents.length = s.queue.length + s.indents.length := by
  rw [hr.eq]
  exact grounded_unwind (s := { s.skipGap with keys := _ }) h (by omega)

theorem grounded_fetch (h : s.Grounded) (hf : s.fetch = (none, s')) : s'.Grounded := by
  obtain ⟨s₁, hr, hf⟩ := fetch_ok hf
  exact grounded_fetched (grounded_readied h hr).1 hf

/-! ## Less to do -/

theorem length_queue_openBlock (s : ScanState) (kind : TokenKind) :
    (s.openBlock kind).queue.length + (s.openBlock kind).indents.length ≤
      s.queue.length + s.indents.length + 2 := by
  unfold openBlock openIndent push
  split
  · simp only [List.length_append, List.length_cons, List.length_nil]
    omega
  · omega

theorem length_queue_insertKey (s : ScanState) (k : SimpleKey) :
    (s.insertKey k).queue.length + (s.insertKey k).indents.length ≤
      s.queue.length + s.indents.length + 3 := by
  unfold insertKey openIndent insertAt
  simp only
  split
  · simp only [List.length_append, List.length_take, List.length_drop, List.length_cons,
      List.length_nil]
    omega
  · simp only [List.length_append, List.length_take, List.length_drop, List.length_cons,
      List.length_nil]
    omega

/-- What is left of the text and of the queue and the indents, the two parts of the weight. -/
theorem weight_lt {a b : ScanState} (hd : a.done = false) (hb : b.done = false)
    (hr : b.cursor.rest.length < a.cursor.rest.length)
    (hq : b.queue.length + b.indents.length ≤ a.queue.length + a.indents.length + 4) :
    b.weight < a.weight := by
  simp only [weight, hd, hb]
  simp only [Bool.false_eq_true, if_false]
  omega

/-- A mark of at least one character, behind at most three new tokens and indents. -/
theorem weight_pushMark_lt {a b : ScanState} {kind : TokenKind} {n : Nat} (hd : a.done = false)
    (hb : b.done = false) (hc : a.cursor.rest ≠ []) (hn : 0 < n) (hcursor : b.cursor = a.cursor)
    (hq : b.queue.length + b.indents.length ≤ a.queue.length + a.indents.length + 3) :
    (b.pushMark kind n).weight < a.weight := by
  have hdone : (b.pushMark kind n).done = false := hb
  apply weight_lt hd hdone
  · show (b.cursor.forward n).rest.length < a.cursor.rest.length
    rw [hcursor]
    exact Cursor.length_rest_lt_of_ahead hc hn (.refl _)
  · simp only [pushMark, List.length_append, List.length_cons, List.length_nil]
    omega

/-- Reading a lexeme takes a character or ends the stream, and adds at most four tokens and
indents. -/
theorem weight_fetched (h : s.Grounded) (hd : s.done = false) (hf : Fetched s s') :
    s'.weight < s.weight := by
  -- closing all collections moves indents to the queue
  have hu := (grounded_unwind h (Int.le_refl (-1))).2
  cases hf with
  | streamEnd hc =>
    simp only [weight, forgetKey, hd, Bool.false_eq_true, if_true, if_false, List.length_append,
      List.length_cons, List.length_nil]
    omega
  | directive hc hr =>
    refine weight_lt hd (by simpa [forgetKey] using hd) (Cursor.reads_directive hc hr).1.shorter ?_
    simp only [forgetKey, List.length_append, List.length_cons, List.length_nil]
    omega
  | marker hc =>
    refine weight_pushMark_lt hd (by simpa [forgetKey] using hd) hc (by omega)
      (by simp [forgetKey]) ?_
    simp only [forgetKey]
    omega
  | flowStart hc hs =>
    cases hs with
    | kept => exact weight_pushMark_lt hd hd hc Nat.one_pos rfl (Nat.le_add_right _ _)
    | saved => exact weight_pushMark_lt hd hd hc Nat.one_pos rfl (Nat.le_add_right _ _)
  | flowEnd hc => exact weight_pushMark_lt hd hd hc Nat.one_pos rfl (Nat.le_add_right _ _)
  | flowEntry hc => exact weight_pushMark_lt hd hd hc Nat.one_pos rfl (Nat.le_add_right _ _)
  | @entry s₁ kind opens allowKey hc _ ho =>
    cases ho with
    | flow => exact weight_pushMark_lt hd hd hc Nat.one_pos rfl (Nat.le_add_right _ _)
    | block =>
      have ho := s.length_queue_openBlock opens
      refine weight_pushMark_lt hd (by simpa [forgetKey] using hd) hc Nat.one_pos
        (by simp [forgetKey]) ?_
      simp only [forgetKey]
      omega
  | @value k hc hk =>
    have hi := s.forgetKey.length_queue_insertKey k
    refine weight_pushMark_lt hd (by simpa [forgetKey] using hd) hc Nat.one_pos
      (by simp [forgetKey]) ?_
    simp only [forgetKey] at hi ⊢
    omega
  | keyable hs hr =>
    cases hs with
    | kept =>
      refine weight_lt hd hd hr.shorter ?_
      simp only [List.length_append, List.length_cons, List.length_nil]
      omega
    | saved =>
      refine weight_lt hd hd hr.shorter ?_
      simp only [forgetKey, List.length_append, List.length_cons, List.length_nil]
      omega
  | block _ hr =>
    refine weight_lt hd hd hr.shorter ?_
    simp only [forgetKey, List.length_append, List.length_cons, List.length_nil]
    omega

/-- A whole fetch leaves less to do. -/
theorem weight_fetch_lt (h : s.Grounded) (hd : s.done = false) (hf : s.fetch = (none, s')) :
    s'.weight < s.weight := by
  obtain ⟨s₁, hr, hf⟩ := fetch_ok hf
  obtain ⟨hg, hlen⟩ := grounded_readied h hr
  have hd₁ : s₁.done = false := by rw [hr.done, hd]
  have hrest := s.ahead_skipGap.length_rest_le
  have hw : s₁.weight ≤ s.weight := by
    simp only [weight, hd, hd₁, hr.cursor, Bool.false_eq_true, if_false]
    omega
  exact Nat.lt_of_lt_of_le (weight_fetched hg hd₁ hf) hw

/-! ## Runs -/

/-- What the answer to the question for more tokens rests on. -/
inductive Needs (s : ScanState) : Bool → ScanState → Prop where
  | done : s.done = true → Needs s false s
  | empty : s.done = false → s.queue = [] → Needs s true s
  | keys {s₁ : ScanState} : s.done = false → s.queue ≠ [] → s.dropStaleKeys = .ok s₁ →
      Needs s s₁.awaitsKey s₁

theorem needsMore_ok {b : Bool} (h : s.needsMore = .ok (b, s₁)) : Needs s b s₁ := by
  unfold needsMore at h
  split at h
  · cases h
    exact .done ‹_›
  · rename_i hd
    have hd : s.done = false := by simpa using hd
    split at h
    · rename_i hq
      cases h
      exact .empty hd (by simpa using hq)
    · rename_i hq
      split at h
      · cases h
      · rename_i hk
        cases h
        exact .keys hd (by simpa using hq) hk

theorem needsMore_error (h : s.needsMore = .error e) : s.Faults e := by
  unfold needsMore at h
  split at h
  · cases h
  · split at h
    · cases h
    · split at h
      · rename_i hk
        cases h
        exact .inl (dropStaleKeys_error hk)
      · cases h

/-- While no key has ended, a key that may start at the next token asks for more of them. -/
theorem needsMore_of_awaitsKey (hd : s.done = false) (hq : s.queue ≠ [])
    (hk : s.keys.all (!s.staleKey ·) = true) (ha : s.awaitsKey = true) :
    s.needsMore = .ok (true, s) := by
  have hstale : s.dropStaleKeys = .ok s := by
    have hnone : s.keys.find? (fun k => s.staleKey k && k.required) = none := by
      rw [List.find?_eq_none]
      intro k hmem
      have := List.all_eq_true.1 hk k hmem
      simp_all
    rw [dropStaleKeys, hnone, List.filter_eq_self.2 (List.all_eq_true.1 hk)]
  have hempty : s.queue.isEmpty = false := by simpa using hq
  simp [needsMore, hd, hempty, hstale, ha]

/-- Asking for more tokens at most forgets keys. -/
theorem Needs.eq_keys {b : Bool} (h : Needs s b s₁) :
    ∃ keys, List.Sublist keys s.keys ∧ s₁ = { s with keys } := by
  cases h with
  | done => exact ⟨s.keys, .refl _, rfl⟩
  | empty => exact ⟨s.keys, .refl _, rfl⟩
  | keys _ _ hk => exact ⟨_, List.filter_sublist, (dropStaleKeys_ok hk).1⟩

theorem Needs.not_done {b : Bool} (h : Needs s b s₁) (hb : b = true) : s₁.done = false := by
  cases h with
  | done => cases hb
  | empty hd => exact hd
  | keys hd _ hk =>
    rw [(dropStaleKeys_ok hk).1]
    exact hd

/-- A token is given only if no key can still be put in front of it. -/
theorem Needs.not_awaitsKey {b : Bool} (h : Needs s b s₁) (hb : b = false)
    (hd : s₁.done = false) : s₁.awaitsKey = false := by
  cases h with
  | done hd' =>
    rw [hd] at hd'
    cases hd'
  | empty => cases hb
  | keys => exact hb

theorem Needs.done_of_empty {b : Bool} (h : Needs s b s₁) (hb : b = false) (hq : s₁.queue = []) :
    s₁.done = true := by
  cases h with
  | done hd => exact hd
  | empty => cases hb
  | keys _ hne hk =>
    rw [(dropStaleKeys_ok hk).1] at hq
    exact absurd hq hne

/-- The states of a scanner that reads `text`, each with the tokens given on the way to it. Between
two tokens given, a state is reached by each fetch. -/
inductive Run (text : List Char) : List Token → ScanState → Prop where
  | start : Run text [] (ofText text)
  | fetch {out : List Token} {s s₁ s' : ScanState} : Run text out s →
      s.needsMore = .ok (true, s₁) → s₁.fetch = (none, s') → Run text out s'
  | give {out queue : List Token} {t : Token} {s s₁ : ScanState} : Run text out s →
      s.needsMore = .ok (false, s₁) → s₁.queue = t :: queue →
      Run text (out ++ [t]) { s₁ with queue, taken := s₁.taken + 1 }

variable {text : List Char} {out : List Token}

/-- What the three steps of a run keep, all its states have. -/
theorem Run.induct {P : List Token → ScanState → Prop} (start : P [] (ofText text))
    (need : ∀ {out s b s₁}, P out s → Needs s b s₁ → P out s₁)
    (fetch : ∀ {out s s'}, P out s → s.done = false → s.fetch = (none, s') → P out s')
    (give : ∀ {out s t queue}, P out s → s.queue = t :: queue →
      (s.done = false → s.awaitsKey = false) →
      P (out ++ [t]) { s with queue, taken := s.taken + 1 })
    (h : Run text out s) : P out s := by
  induction h with
  | start => exact start
  | fetch _ hn hf ih =>
    have hn := needsMore_ok hn
    exact fetch (need ih hn) (hn.not_done rfl) hf
  | give _ hn hq ih =>
    have hn := needsMore_ok hn
    exact give (need ih hn) hq (hn.not_awaitsKey rfl)

theorem Run.grounded (h : Run text out s) : s.Grounded := by
  refine Run.induct (P := fun _ s => s.Grounded) rfl ?_ ?_ ?_ h
  · intro out s b s₁ h hn
    obtain ⟨keys, -, rfl⟩ := hn.eq_keys
    exact h
  · intro out s s' h _ hf
    exact grounded_fetch h hf
  · intro out s t queue h _ _
    exact h

theorem failed_fetch (hf : s.fetch = (none, s')) : s'.failed = s.failed := by
  obtain ⟨s₁, hr, hf⟩ := fetch_ok hf
  rw [← hr.failed]
  cases hf with
  | flowStart _ hs => cases hs <;> rfl
  | entry _ _ ho => cases ho <;> simp [forgetKey, pushMark]
  | keyable hs => cases hs <;> rfl
  | _ => simp [forgetKey, pushMark]

theorem taken_fetch (hf : s.fetch = (none, s')) : s'.taken = s.taken := by
  obtain ⟨s₁, hr, hf⟩ := fetch_ok hf
  rw [← hr.taken]
  cases hf with
  | flowStart _ hs => cases hs <;> rfl
  | entry _ _ ho => cases ho <;> simp [forgetKey, pushMark]
  | keyable hs => cases hs <;> rfl
  | _ => simp [forgetKey, pushMark]

theorem Run.not_failed (h : Run text out s) : s.failed = false := by
  refine Run.induct (P := fun _ s => s.failed = false) rfl ?_ ?_ ?_ h
  · intro out s b s₁ h hn
    obtain ⟨keys, -, rfl⟩ := hn.eq_keys
    exact h
  · intro out s s' h _ hf
    rw [failed_fetch hf, h]
  · intro out s t queue h _ _
    exact h

/-! ## Asking for tokens -/

/-- A step that fails, with the state that it leaves: the question for more tokens or a fetch. -/
def Fault (s : ScanState) (e : ScanError) (s' : ScanState) : Prop :=
  s.needsMore = .error e ∧ s' = s ∨ ∃ s₁, s.needsMore = .ok (true, s₁) ∧ s₁.fetch = (some e, s')

theorem weight_needs {b : Bool} (h : Needs s b s₁) : s₁.weight = s.weight := by
  obtain ⟨keys, -, rfl⟩ := h.eq_keys
  rfl

/-- A fetch that is asked for leaves less to do. -/
theorem Run.weight_lt (h : Run text out s) (hn : s.needsMore = .ok (true, s₁))
    (hf : s₁.fetch = (none, s')) : s'.weight < s.weight := by
  have hneeds := needsMore_ok hn
  have hg : s₁.Grounded := by
    obtain ⟨keys, -, rfl⟩ := hneeds.eq_keys
    exact h.grounded
  rw [← weight_needs hneeds]
  exact weight_fetch_lt hg (hneeds.not_done rfl) hf

/-- Reading ahead makes fetches only, and stops when a token can be given or at an error. -/
theorem run_fill (h : Run text out s) :
    ∃ s₀, Run text out s₀ ∧ s₀.weight ≤ s.weight ∧
      match s.fill with
      | (none, s') => s₀.needsMore = .ok (false, s')
      | (some e, s') => s₀.Fault e s' := by
  fun_induction fill s with
  | case1 s e he => exact ⟨s, h, Nat.le_refl _, .inl ⟨he, rfl⟩⟩
  | case2 s s' hn => exact ⟨s, h, Nat.le_refl _, hn⟩
  | case3 s s' hn e s'' hf => exact ⟨s, h, Nat.le_refl _, .inr ⟨s', hn, hf⟩⟩
  | case4 s s' hn s'' hf hlt ih =>
    obtain ⟨s₀, h₀, hw, hm⟩ := ih (h.fetch hn hf)
    exact ⟨s₀, h₀, Nat.le_trans hw (Nat.le_of_lt hlt), hm⟩
  | case5 s s' hn s'' hf hlt => exact absurd (h.weight_lt hn hf) hlt

/-- Giving a token leaves less to do. -/
theorem weight_give {t : Token} {queue : List Token} (hq : s.queue = t :: queue) :
    weight { s with queue, taken := s.taken + 1 } < s.weight := by
  simp only [weight, hq, List.length_cons]
  omega

/-- What a scanner that has not failed answers, by where its reading ahead stops. -/
inductive Asked (s : ScanState) : ScanStep → ScanState → Prop where
  | token {s' : ScanState} {t : Token} {queue : List Token} : s.fill = (none, s') →
      s'.queue = t :: queue → Asked s (.token t) { s' with queue, taken := s'.taken + 1 }
  | exhausted {s' : ScanState} : s.fill = (none, s') → s'.queue = [] → Asked s .exhausted s'
  | error {e : ScanError} {s' : ScanState} : s.fill = (some e, s') →
      Asked s (.error e) { s' with failed := true }

theorem asked_next {answer : ScanStep} (hfailed : s.failed = false)
    (hn : s.next = (answer, s')) : Asked s answer s' := by
  unfold next at hn
  simp only [hfailed, Bool.false_eq_true, if_false] at hn
  split at hn
  · rename_i hfill
    cases hn
    exact .error hfill
  · rename_i hfill
    split at hn
    · rename_i hq
      cases hn
      exact .exhausted hfill hq
    · rename_i hq
      cases hn
      exact .token hfill hq

/-- A token asked for continues the run. -/
theorem run_next {t : Token} (h : Run text out s) (hn : s.next = (.token t, s')) :
    Run text (out ++ [t]) s' ∧ s'.weight < s.weight := by
  obtain ⟨s₀, h₀, hw, hm⟩ := run_fill h
  cases asked_next h.not_failed hn with
  | token hfill hq =>
    rw [hfill] at hm
    refine ⟨h₀.give hm hq, Nat.lt_of_lt_of_le (weight_give hq) ?_⟩
    rw [weight_needs (needsMore_ok hm)]
    exact hw

/-- The scanner answers with an error only where a step of the run fails. -/
theorem run_next_error (h : Run text out s) (hn : s.next = (.error e, s')) :
    ∃ s₀ s₁, Run text out s₀ ∧ s₀.Fault e s₁ ∧ s' = { s₁ with failed := true } := by
  obtain ⟨s₀, h₀, -, hm⟩ := run_fill h
  cases asked_next h.not_failed hn with
  | error hfill =>
    rw [hfill] at hm
    exact ⟨s₀, _, h₀, hm, rfl⟩

/-- The scanner has nothing more to give only at the end of the stream. -/
theorem run_next_exhausted (h : Run text out s) (hn : s.next = (.exhausted, s')) :
    ∃ s₀, Run text out s₀ ∧ s₀.done = true ∧ s₀.queue = [] ∧ ∃ keys, s' = { s₀ with keys } := by
  obtain ⟨s₀, h₀, -, hm⟩ := run_fill h
  cases asked_next h.not_failed hn with
  | exhausted hfill hq =>
    rw [hfill] at hm
    have hneeds := needsMore_ok hm
    have hdone := hneeds.done_of_empty rfl hq
    obtain ⟨keys, -, rfl⟩ := hneeds.eq_keys
    exact ⟨s₀, h₀, hdone, hq, keys, rfl⟩

/-- How a scan ends: with the end of the stream, or at a step that fails. -/
def Ends (s : ScanState) (r : Scan) : Prop :=
  match r.error with
  | none => s.done = true ∧ s.queue = [] ∧ r.comments = s.comments
  | some e => ∃ s', s.Fault e s' ∧ r.comments = s'.comments

/-- All further tokens make a run to the end of the scan. -/
theorem run_drain (h : Run text out s) :
    ∃ s', Run text (out ++ s.drain.1.tokens) s' ∧ s'.Ends s.drain.1 := by
  fun_induction drain s generalizing out with
  | case1 s s' hn =>
    obtain ⟨s₀, h₀, hd, hq, keys, rfl⟩ := run_next_exhausted h hn
    exact ⟨s₀, by simpa using h₀, hd, hq, rfl⟩
  | case2 s e s' hn =>
    obtain ⟨s₀, s₁, h₀, hf, rfl⟩ := run_next_error h hn
    exact ⟨s₀, by simpa using h₀, s₁, hf, rfl⟩
  | case3 s t s' hn hlt rest final heq ih =>
    obtain ⟨s₀, h₀, he⟩ := ih (run_next h hn).1
    rw [heq] at h₀ he
    exact ⟨s₀, by simpa using h₀, he⟩
  | case4 s t s' hn hlt => exact absurd (run_next h hn).2 hlt

/-- Scanning a text makes a run to the end of the scan. -/
theorem run_scanText (text : List Char) :
    ∃ s, Run text (scanText text).tokens s ∧ s.Ends (scanText text) := by
  have h := run_drain (Run.start : Run text [] _)
  rwa [List.nil_append] at h

/-! ## A run determines the scan -/

theorem fill_of_fetch (h : Run text out s) (hn : s.needsMore = .ok (true, s₁))
    (hf : s₁.fetch = (none, s')) : s.fill = s'.fill := by
  have hlt := h.weight_lt hn hf
  rw [fill, hn]
  simp only [hf, if_pos hlt]

/-- A fetch on the way to the next token changes nothing about what is left of the scan. -/
theorem drain_of_fetch (h : Run text out s) (hn : s.needsMore = .ok (true, s₁))
    (hf : s₁.fetch = (none, s')) : s.drain.1 = s'.drain.1 := by
  have h' : Run text out s' := h.fetch hn hf
  have hnext : s.next = s'.next := by
    rw [next, next, h.not_failed, h'.not_failed, fill_of_fetch h hn hf]
    rfl
  rw [drain, drain, hnext]
  cases ha : s'.next with
  | mk answer s₂ =>
    cases answer with
    | token t =>
      have hlt := (run_next h (hnext.trans ha)).2
      have hlt' := (run_next h' ha).2
      simp only [if_pos hlt, if_pos hlt']
    | error e => rfl
    | exhausted => rfl

/-- The token that is given comes first in what is left of the scan. -/
theorem drain_of_give {t : Token} {queue : List Token} (h : Run text out s)
    (hn : s.needsMore = .ok (false, s₁)) (hq : s₁.queue = t :: queue) :
    s.drain.1 = { (drain { s₁ with queue, taken := s₁.taken + 1 }).1 with
      tokens := t :: (drain { s₁ with queue, taken := s₁.taken + 1 }).1.tokens } := by
  have hnext : s.next = (.token t, { s₁ with queue, taken := s₁.taken + 1 }) := by
    have hfill : s.fill = (none, s₁) := by rw [fill, hn]
    simp [next, h.not_failed, hfill, hq]
  rw [drain, hnext]
  simp only [if_pos (run_next h hnext).2]

/-- The tokens given so far are the first ones of the scan. -/
theorem scanText_of_run (h : Run text out s) :
    scanText text = { s.drain.1 with tokens := out ++ s.drain.1.tokens } := by
  induction h with
  | start => rfl
  | fetch h hn hf ih => rw [ih, drain_of_fetch h hn hf]
  | give h hn hq ih =>
    rw [ih, drain_of_give h hn hq]
    simp

/-- Nothing is left of a scan where it ends. -/
theorem drain_of_ends {r : Scan} (h : Run text out s) (he : s.Ends r) :
    s.drain.1 = { r with tokens := [] } := by
  unfold Ends at he
  split at he
  · rename_i hr
    obtain ⟨hd, hq, hc⟩ := he
    have hfill : s.fill = (none, s) := by
      rw [fill]
      simp [needsMore, hd]
    have hnext : s.next = (.exhausted, s) := by simp [next, h.not_failed, hfill, hq]
    rw [drain, hnext]
    simp [hr, hc]
  · rename_i e hr
    obtain ⟨s', hf, hc⟩ := he
    have hfill : s.fill = (some e, s') := by
      rw [fill]
      rcases hf with ⟨hn, rfl⟩ | ⟨s₁, hn, hf⟩
      · simp [hn]
      · simp [hn, hf]
    have hnext : s.next = (.error e, { s' with failed := true }) := by
      simp [next, h.not_failed, hfill]
    rw [drain, hnext]
    simp [hr, hc]

/-- A run to the end is the scan. -/
theorem scanText_of_ends {r : Scan} (h : Run text r.tokens s) (he : s.Ends r) :
    scanText text = r := by
  rw [scanText_of_run h, drain_of_ends h he]
  simp

end ScanState

end YamlLinter
