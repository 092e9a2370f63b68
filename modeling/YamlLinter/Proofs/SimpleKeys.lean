import YamlLinter.Proofs.Run

/-!
# Keys without `?` are kept in place

The scanner remembers one possible key for each flow level, by the number of its first token. The
token with that number is still in the queue, starts where the key does, and keeps its number until
the key is forgotten, so that a `KEY` token can be put in front of it.

## Contents

* `InPlace`: what holds of the possible keys between two steps of the scanner;
* one lemma for each thing that happens to keys and queue;
* `inPlace_fetched`, `inPlace_run`: reading a lexeme keeps the keys in place, and so does a run;
* `simple_keys_in_place`: the bookkeeping in all states of a scan;
* `Fronted`, `fronted_fetched`: the tokens in front of a key stay as they were when it was saved.
-/

namespace YamlLinter

namespace ScanState

/-- The possible keys of a scanner in flow level `level` that has given `taken` tokens, has read
`pos` characters and holds `queue`. -/
structure InPlace (level taken pos : Nat) (queue : List Token) (keys : List SimpleKey) :
    Prop where
  /-- There is one key for a flow level. -/
  distinct : (keys.map SimpleKey.level).Nodup
  /-- No key belongs to a flow collection that has been closed. -/
  level_le : ∀ k ∈ keys, k.level ≤ level
  /-- Keys of inner levels start later. -/
  ordered : ∀ k ∈ keys, ∀ l ∈ keys, k.level < l.level → k.tokenNumber < l.tokenNumber
  /-- The first token of a key has not been given. -/
  taken_le : ∀ k ∈ keys, taken ≤ k.tokenNumber
  /-- The token with the number of a key starts where the key does. -/
  starts : ∀ k ∈ keys, ∃ t, queue[k.tokenNumber - taken]? = some t ∧ t.start = k.mark
  pos_le : ∀ k ∈ keys, k.pos ≤ pos

namespace InPlace

variable {level taken pos : Nat} {queue : List Token} {keys : List SimpleKey}

/-- The token of a key is in the queue. -/
theorem lt (h : InPlace level taken pos queue keys) {k : SimpleKey} (hk : k ∈ keys) :
    k.tokenNumber < taken + queue.length := by
  obtain ⟨t, ht, -⟩ := h.starts k hk
  have hlt := (List.getElem?_eq_some_iff.1 ht).1
  have hle := h.taken_le k hk
  omega

theorem empty : InPlace level taken pos queue [] where
  distinct := List.nodup_nil
  level_le := by simp
  ordered := by simp
  taken_le := by simp
  starts := by simp
  pos_le := by simp

/-- Keys may be forgotten. -/
theorem sublist {keys' : List SimpleKey} (h : InPlace level taken pos queue keys)
    (hs : keys'.Sublist keys) : InPlace level taken pos queue keys' where
  distinct := h.distinct.sublist (hs.map _)
  level_le k hk := h.level_le k (hs.mem hk)
  ordered k hk l hl := h.ordered k (hs.mem hk) l (hs.mem hl)
  taken_le k hk := h.taken_le k (hs.mem hk)
  starts k hk := h.starts k (hs.mem hk)
  pos_le k hk := h.pos_le k (hs.mem hk)

/-- The scanner may read on. -/
theorem read {pos' : Nat} (h : InPlace level taken pos queue keys) (hp : pos ≤ pos') :
    InPlace level taken pos' queue keys where
  distinct := h.distinct
  level_le := h.level_le
  ordered := h.ordered
  taken_le := h.taken_le
  starts := h.starts
  pos_le k hk := Nat.le_trans (h.pos_le k hk) hp

/-- Tokens may come at the end of the queue. -/
theorem append (h : InPlace level taken pos queue keys) (ts : List Token) :
    InPlace level taken pos (queue ++ ts) keys where
  distinct := h.distinct
  level_le := h.level_le
  ordered := h.ordered
  taken_le := h.taken_le
  starts k hk := by
    obtain ⟨t, ht, hm⟩ := h.starts k hk
    have hlt := (List.getElem?_eq_some_iff.1 ht).1
    exact ⟨t, by rw [List.getElem?_append_left hlt, ht], hm⟩
  pos_le := h.pos_le

/-- A flow collection may be opened. -/
theorem raise (h : InPlace level taken pos queue keys) :
    InPlace (level + 1) taken pos queue keys where
  distinct := h.distinct
  level_le k hk := Nat.le_succ_of_le (h.level_le k hk)
  ordered := h.ordered
  taken_le := h.taken_le
  starts := h.starts
  pos_le := h.pos_le

/-- The key of the current level may be forgotten. -/
theorem forget (h : InPlace level taken pos queue keys) :
    InPlace level taken pos queue (keys.filter (·.level != level)) :=
  h.sublist List.filter_sublist

/-- A flow collection may be closed once its key is forgotten. -/
theorem lower (h : InPlace level taken pos queue keys) :
    InPlace (level - 1) taken pos queue (keys.filter (·.level != level)) :=
  { h.forget with
    level_le := by
      intro k hk
      obtain ⟨hk, hne⟩ := List.mem_filter.1 hk
      have hle := h.level_le k hk
      have hne : k.level ≠ level := by simpa using hne
      omega }

/-- The first token may be given if no key starts at it. -/
theorem give {t : Token} (h : InPlace level taken pos (t :: queue) keys)
    (hk : ∀ k ∈ keys, k.tokenNumber ≠ taken) : InPlace level (taken + 1) pos queue keys where
  distinct := h.distinct
  level_le := h.level_le
  ordered := h.ordered
  taken_le k hmem := by
    have := h.taken_le k hmem
    have := hk k hmem
    omega
  starts k hmem := by
    obtain ⟨u, hu, hm⟩ := h.starts k hmem
    have := h.taken_le k hmem
    have := hk k hmem
    obtain ⟨i, hi⟩ : ∃ i, k.tokenNumber - taken = i + 1 := ⟨k.tokenNumber - taken - 1, by omega⟩
    rw [hi, List.getElem?_cons_succ] at hu
    exact ⟨u, by rw [show k.tokenNumber - (taken + 1) = i by omega, hu], hm⟩
  pos_le := h.pos_le

/-- A key may be saved together with its first token. -/
theorem save {t : Token} {key : SimpleKey} (h : InPlace level taken pos queue keys)
    (hlevel : key.level = level) (hnumber : key.tokenNumber = taken + queue.length)
    (hpos : key.pos = pos) (hmark : t.start = key.mark) :
    InPlace level taken pos (queue ++ [t]) (keys.filter (·.level != level) ++ [key]) := by
  have hf := h.forget
  have hmem : ∀ k ∈ keys.filter (·.level != level) ++ [key],
      k ∈ keys.filter (·.level != level) ∨ k = key := by simp
  -- the keys that stay belong to outer levels, so that the new one is the last in every order
  have hlt : ∀ k ∈ keys.filter (·.level != level), k.level < level := by
    intro k hk
    obtain ⟨hk, hne⟩ := List.mem_filter.1 hk
    have hle := h.level_le k hk
    have hne : k.level ≠ level := by simpa using hne
    omega
  constructor
  · rw [List.map_append, List.nodup_append]
    refine ⟨hf.distinct, by simp, ?_⟩
    intro a ha b hb
    obtain ⟨k, hk, rfl⟩ := List.mem_map.1 ha
    obtain rfl : b = key.level := by simpa using hb
    have := hlt k hk
    omega
  · intro k hk
    rcases hmem k hk with hk | rfl
    · exact hf.level_le k hk
    · exact Nat.le_of_eq hlevel
  · intro k hk l hl hkl
    rcases hmem k hk with hk' | rfl
    · rcases hmem l hl with hl' | rfl
      · exact hf.ordered k hk' l hl' hkl
      · have := hf.lt hk'
        omega
    · rcases hmem l hl with hl' | rfl
      · have := hlt l hl'
        omega
      · omega
  · intro k hk
    rcases hmem k hk with hk | rfl
    · exact hf.taken_le k hk
    · omega
  · intro k hk
    rcases hmem k hk with hk | rfl
    · exact (hf.append [t]).starts k hk
    · refine ⟨t, ?_, hmark⟩
      rw [show k.tokenNumber - taken = queue.length by omega]
      simp
  · intro k hk
    rcases hmem k hk with hk | rfl
    · exact hf.pos_le k hk
    · exact Nat.le_of_eq hpos

/-- Tokens may be put in front of the token of the current key, once that key is forgotten: the
tokens of the other keys stand before it. -/
theorem insert {k : SimpleKey} (h : InPlace level taken pos queue keys) (hk : k ∈ keys)
    (hlevel : k.level = level) (ts : List Token) :
    InPlace level taken pos
      (queue.take (k.tokenNumber - taken) ++ ts ++ queue.drop (k.tokenNumber - taken))
      (keys.filter (·.level != level)) :=
  { h.forget with
    starts := by
      intro l hl
      obtain ⟨t, ht, hm⟩ := h.forget.starts l hl
      obtain ⟨hl, hne⟩ := List.mem_filter.1 hl
      have hle := h.level_le l hl
      have hne : l.level ≠ level := by simpa using hne
      have hlt := h.ordered l hl k hk (by omega)
      have htk := h.taken_le l hl
      have hin := h.lt hk
      have hlen : l.tokenNumber - taken < (queue.take (k.tokenNumber - taken)).length := by
        rw [List.length_take]
        omega
      refine ⟨t, ?_, hm⟩
      rw [List.append_assoc, List.getElem?_append_left hlen, List.getElem?_take,
        if_pos (by omega), ht] }

end InPlace

/-! ## Along a run -/

variable {s s' s₁ : ScanState} {text : List Char} {out : List Token}

/-- The possible keys of a state are in place. -/
def KeysInPlace (s : ScanState) : Prop :=
  InPlace s.flowLevel s.taken s.cursor.pos s.queue s.keys

theorem queue_unwind (s : ScanState) (column : Int) :
    ∃ n, (s.unwind column).queue =
      s.queue ++ List.replicate n (.empty .blockEnd s.cursor.mark) := by
  unfold unwind
  split
  · exact ⟨0, by simp⟩
  · exact ⟨_, rfl⟩

/-- In front of a lexeme only ends of block collections are put into the queue. -/
theorem queue_readied (hr : Readied s s₁) :
    ∃ n, s₁.queue = s.queue ++ List.replicate n (.empty .blockEnd s₁.cursor.mark) := by
  rw [hr.eq, unwind_cursor]
  exact queue_unwind { s.skipGap with keys := _ } _

theorem queue_openBlock (s : ScanState) (kind : TokenKind) :
    (s.openBlock kind).queue = s.queue ∨
      (s.openBlock kind).queue = s.queue ++ [.empty kind s.cursor.mark] := by
  unfold openBlock
  split
  · exact .inr rfl
  · exact .inl rfl

/-- The tokens put in front of a key: `KEY`, and in front of that the start of a mapping if the key
opens one. -/
theorem queue_insertKey (s : ScanState) (k : SimpleKey) :
    ∃ ts, (s.insertKey k).queue = s.queue.take (k.tokenNumber - s.taken) ++ ts ++
        s.queue.drop (k.tokenNumber - s.taken) ∧
      (ts = [.empty .key k.mark] ∨
        ts = [.empty .blockMappingStart k.mark, .empty .key k.mark]) := by
  unfold insertKey
  simp only
  split
  · exact ⟨_, rfl, .inr rfl⟩
  · exact ⟨_, rfl, .inl rfl⟩

/-- All tokens are split in front of the first token of a key. -/
theorem exists_split_of_mem_keys {k : SimpleKey} (h : s.KeysInPlace) (ht : s.taken = out.length)
    (hk : k ∈ s.keys) : ∃ xs vs, out ++ s.queue = xs ++ vs ∧ xs.length = k.tokenNumber := by
  refine ⟨_, _, (List.take_append_drop k.tokenNumber _).symm, List.length_take_of_le ?_⟩
  have hlt := h.lt hk
  rw [List.length_append, ← ht]
  exact Nat.le_of_lt hlt

/-- Tokens put into the queue in front of a number that has not been given stand there among all
tokens. -/
theorem tokens_insertAt {number : Nat} {xs vs : List Token} (ht : s.taken = out.length)
    (hle : s.taken ≤ number) (hsplit : out ++ s.queue = xs ++ vs) (hlen : xs.length = number)
    (us : List Token) : out ++ (s.insertAt number us).queue = xs ++ us ++ vs := by
  have hfront : out ++ s.queue.take (number - s.taken) = xs := by
    have htake := congrArg (List.take number) hsplit
    rw [List.take_append, List.take_of_length_le (by omega), ← ht, ← hlen, List.take_left] at htake
    rwa [hlen] at htake
  have hback : s.queue.drop (number - s.taken) = vs := by
    have hdrop := congrArg (List.drop number) hsplit
    rw [List.drop_append, List.drop_of_length_le (by omega), ← ht, ← hlen, List.drop_left] at hdrop
    rwa [hlen] at hdrop
  simp only [insertAt, hback]
  rw [← List.append_assoc, ← List.append_assoc, hfront]

theorem tokens_insertKey {k : SimpleKey} {xs vs : List Token} (ht : s.taken = out.length)
    (hle : s.taken ≤ k.tokenNumber) (hsplit : out ++ s.queue = xs ++ vs)
    (hlen : xs.length = k.tokenNumber) :
    ∃ us, out ++ (s.insertKey k).queue = xs ++ us ++ vs ∧
      (us = [.empty .key k.mark] ∨
        us = [.empty .blockMappingStart k.mark, .empty .key k.mark]) := by
  unfold insertKey
  simp only
  split
  · exact ⟨_, tokens_insertAt ht hle hsplit hlen _, .inr rfl⟩
  · exact ⟨_, tokens_insertAt ht hle hsplit hlen _, .inl rfl⟩

theorem inPlace_unwind {column : Int} (h : s.KeysInPlace) : (s.unwind column).KeysInPlace := by
  obtain ⟨n, hq⟩ := s.queue_unwind column
  simp only [KeysInPlace, unwind_flowLevel, unwind_taken, unwind_cursor, unwind_keys, hq]
  exact h.append _

theorem inPlace_needs {b : Bool} (h : s.KeysInPlace) (hn : Needs s b s₁) : s₁.KeysInPlace := by
  obtain ⟨keys, hs, rfl⟩ := hn.eq_keys
  exact h.sublist hs

theorem inPlace_readied (h : s.KeysInPlace) (hr : Readied s s₁) : s₁.KeysInPlace := by
  rw [hr.eq]
  apply inPlace_unwind
  exact (h.sublist List.filter_sublist).read s.ahead_skipGap.pos_le

/-- The keys that are left when a lexeme is read started on its line, and not too far before it. -/
theorem fresh_readied (hr : Readied s s₁) {k : SimpleKey} (hk : k ∈ s₁.keys) :
    k.mark.line = s₁.cursor.line ∧ s₁.cursor.pos - k.pos ≤ longestSimpleKey := by
  rw [hr.keys] at hk
  have hfresh := (List.mem_filter.1 hk).2
  rw [hr.cursor]
  simpa [staleKey] using hfresh

/-- Saving a key and putting the token at the cursor into the queue keeps the keys in place. -/
theorem inPlace_saved {t : Token} (h : s.KeysInPlace) (hs : Saved s s₁)
    (ht : t.start = s.cursor.mark) :
    InPlace s.flowLevel s.taken s.cursor.pos (s.queue ++ [t]) s₁.keys := by
  cases hs with
  | kept => exact h.append [t]
  | saved => exact h.save rfl rfl rfl ht

/-- Reading a lexeme keeps the keys in place. -/
theorem inPlace_fetched (h : s.KeysInPlace) (hf : Fetched s s') : s'.KeysInPlace := by
  have hu : (s.unwind (-1)).KeysInPlace := inPlace_unwind h
  have hpos : ∀ n, s.cursor.pos ≤ (s.cursor.forward n).pos := fun n =>
    (Cursor.Ahead.forward s.cursor n).pos_le
  cases hf with
  | streamEnd => exact .empty
  | directive hc hd =>
    have hr := (Cursor.reads_directive hc hd).1
    exact (hu.forget.append _).read (by simpa [forgetKey] using hr.ahead.pos_le)
  | marker => exact (hu.forget.append _).read (by simpa [forgetKey, pushMark] using hpos 3)
  | flowStart _ hs =>
    cases hs with
    | kept => exact ((h.append _).raise).read (hpos 1)
    | saved => exact ((h.save rfl rfl rfl rfl).raise).read (hpos 1)
  | flowEnd => exact (h.lower.append _).read (hpos 1)
  | flowEntry => exact (h.forget.append _).read (hpos 1)
  | @entry s₁ kind opens allowKey _ _ ho =>
    cases ho with
    | flow => exact (h.forget.append _).read (hpos 1)
    | block =>
      have ho : (s.openBlock opens).KeysInPlace := by
        simp only [KeysInPlace, openBlock_flowLevel, openBlock_taken, openBlock_cursor,
          openBlock_keys]
        rcases s.queue_openBlock opens with hq | hq
        · rw [hq]; exact h
        · rw [hq]; exact h.append _
      exact (ho.forget.append _).read (by simpa [forgetKey, pushMark] using hpos 1)
  | @value k _ hk =>
    obtain ⟨hk, hlevel⟩ := mem_keys_of_currentKey? hk
    -- the key is forgotten before its tokens go in front of the token that it names
    obtain ⟨ts, hq, -⟩ := s.forgetKey.queue_insertKey k
    have hi := h.insert hk hlevel ts
    have hi' : (s.forgetKey.insertKey k).KeysInPlace := by
      simp only [KeysInPlace, insertKey_flowLevel, insertKey_taken, insertKey_cursor,
        insertKey_keys, hq]
      exact hi
    exact (hi'.append _).read (by simpa [forgetKey, pushMark] using hpos 1)
  | keyable hs hr =>
    have hk := inPlace_saved h hs hr.start
    cases hs with
    | kept => exact hk.read hr.ahead.pos_le
    | saved => exact hk.read hr.ahead.pos_le
  | block _ hr => exact (h.forget.append _).read hr.ahead.pos_le

theorem inPlace_fetch (h : s.KeysInPlace) (hf : s.fetch = (none, s')) : s'.KeysInPlace := by
  obtain ⟨s₁, hr, hf⟩ := fetch_ok hf
  exact inPlace_fetched (inPlace_readied h hr) hf

/-- The end of the stream is fetched only once, and leaves no keys. -/
theorem keys_of_done_fetched (hf : Fetched s s') (hd : s.done = false) (hd' : s'.done = true) :
    s'.keys = [] := by
  have hne : s'.done ≠ s.done := by simp [hd, hd']
  cases hf with
  | streamEnd => rfl
  | flowStart _ hs => cases hs <;> exact absurd rfl hne
  | entry _ _ ho => cases ho <;> simp [forgetKey, pushMark] at hne
  | keyable hs => cases hs <;> exact absurd rfl hne
  | _ => simp [forgetKey, pushMark] at hne

/-- All states of a run have their keys in place, at the end of the stream there are none, and the
tokens given are counted. -/
theorem inPlace_run (h : Run text out s) :
    s.KeysInPlace ∧ (s.done = true → s.keys = []) ∧ s.taken = out.length := by
  refine Run.induct (P := fun out s => s.KeysInPlace ∧ (s.done = true → s.keys = []) ∧
    s.taken = out.length) ⟨.empty, fun _ => rfl, rfl⟩ ?_ ?_ ?_ h
  · rintro out s b s₁ ⟨hk, hd, ht⟩ hn
    refine ⟨inPlace_needs hk hn, ?_, ?_⟩
    · obtain ⟨keys, hs, rfl⟩ := hn.eq_keys
      intro hdone
      rw [hd hdone] at hs
      exact List.sublist_nil.1 hs
    · obtain ⟨keys, -, rfl⟩ := hn.eq_keys
      exact ht
  · rintro out s s' ⟨hk, -, ht⟩ hdone hf
    refine ⟨inPlace_fetch hk hf, ?_, ?_⟩
    · obtain ⟨s₁, hr, hf⟩ := fetch_ok hf
      exact keys_of_done_fetched hf (by rw [hr.done, hdone])
    · rw [taken_fetch hf, ht]
  · rintro out s t queue ⟨hk, hd, ht⟩ hq hawait
    refine ⟨?_, hd, by simp [ht]⟩
    have hk' : InPlace s.flowLevel s.taken s.cursor.pos (t :: queue) s.keys := hq ▸ hk
    -- no key waits for the token that is given: the scanner would have fetched more
    refine hk'.give fun k hmem heq => ?_
    cases hdone : s.done with
    | true => simp [hd hdone] at hmem
    | false =>
      have := hawait hdone
      simp only [awaitsKey, List.any_eq_false] at this
      exact this k hmem (by simpa using heq)

/-- In every state of a scan, the possible keys are in place: there is one for a flow level, of a
level that is open, the later the deeper the level; its first token is still in the queue, under its
number, and starts where the key does. So in the state in which a fetch reads its lexeme, the places
computed from the numbers are places of the queue, and nothing is ever put in front of a token that
has been given. Asking for a token leads to a state of the scan again. -/
theorem simple_keys_in_place (h : Run text out s) :
    s.taken = out.length ∧
      (s.keys.map SimpleKey.level).Nodup ∧
      (∀ k ∈ s.keys, k.level ≤ s.flowLevel ∧ k.pos ≤ s.cursor.pos ∧ s.taken ≤ k.tokenNumber ∧
        k.tokenNumber < s.taken + s.queue.length ∧
        ∃ t, s.queue[k.tokenNumber - s.taken]? = some t ∧ t.start = k.mark) ∧
      (∀ k ∈ s.keys, ∀ l ∈ s.keys, k.level < l.level → k.tokenNumber < l.tokenNumber) ∧
      (∀ k ∈ s.keys, k.pos ≤ s.skipGap.cursor.pos) ∧
      (∀ s₁, Readied s s₁ → ∀ k, s₁.currentKey? = some k →
        out.length ≤ k.tokenNumber ∧ s₁.taken ≤ k.tokenNumber ∧
          k.tokenNumber - s₁.taken < s₁.queue.length) ∧
      ∀ t s', s.next = (.token t, s') → Run text (out ++ [t]) s' := by
  obtain ⟨hk, -, ht⟩ := inPlace_run h
  refine ⟨ht, hk.distinct, ?_, hk.ordered, ?_, ?_, ?_⟩
  · intro k hmem
    exact ⟨hk.level_le k hmem, hk.pos_le k hmem, hk.taken_le k hmem, hk.lt hmem,
      hk.starts k hmem⟩
  · intro k hmem
    exact Nat.le_trans (hk.pos_le k hmem) s.ahead_skipGap.pos_le
  · intro s₁ hr k hcur
    have hk₁ := inPlace_readied hk hr
    obtain ⟨hmem, -⟩ := mem_keys_of_currentKey? hcur
    have hle := hk₁.taken_le k hmem
    have hlt := hk₁.lt hmem
    have htaken := hr.taken
    omega
  · intro t s' hn
    exact (run_next h hn).1

/-- The state behind `{a`, of which only the start of the stream has been given. -/
def behindFlowKey : ScanState :=
  let given := { ofText ['{', 'a'] with queue := [], taken := 1 }
  given.fetch.2.fetch.2

theorem run_behindFlowKey :
    Run ['{', 'a'] [.empty .streamStart .origin] behindFlowKey := by
  have given : Run ['{', 'a'] [.empty .streamStart .origin]
      { ofText ['{', 'a'] with queue := [], taken := 1 } := .give .start rfl rfl
  have bracket := given.fetch rfl (Prod.ext (by decide +kernel) rfl)
  have more := needsMore_of_awaitsKey (s := { ofText ['{', 'a'] with queue := [], taken := 1 }.fetch.2)
    (by decide +kernel) (by decide +kernel) (by decide +kernel) (by decide +kernel)
  exact bracket.fetch more (Prod.ext (by decide +kernel) rfl)

/-- Both the bracket and the scalar may still be keys, and both are found in the queue. -/
theorem simple_keys_in_place_behindFlowKey :
    Run ['{', 'a'] [.empty .streamStart .origin] behindFlowKey ∧
      behindFlowKey.keys.map (fun k => (k.level, k.tokenNumber)) = [(0, 1), (1, 2)] ∧
      ∀ k ∈ behindFlowKey.keys,
        ∃ t, behindFlowKey.queue[k.tokenNumber - behindFlowKey.taken]? = some t ∧
          t.start = k.mark := by
  refine ⟨run_behindFlowKey, by decide +kernel, fun k hk => ?_⟩
  exact ((simple_keys_in_place run_behindFlowKey).2.2.1 k hk).2.2.2.2

/-! ## In front of a key -/

/-- The kinds of token with which a key without `?` can start. -/
def opensKey : TokenKind → Bool
  | .flowSequenceStart | .flowMappingStart => true
  | kind => startsKey kind

/-- `P` holds of the tokens in front of a possible key, of its first token and of the key. -/
def Fronted (P : List Token → Token → SimpleKey → Prop) (ts : List Token) (k : SimpleKey) : Prop :=
  ∃ xs u, xs ++ [u] <+: ts ∧ xs.length = k.tokenNumber ∧ P xs u k

section Fronted

variable {P : List Token → Token → SimpleKey → Prop} {ts vs : List Token} {k : SimpleKey}

theorem Fronted.append (h : Fronted P ts k) (us : List Token) : Fronted P (ts ++ us) k := by
  obtain ⟨xs, u, hx, hk⟩ := h
  exact ⟨xs, u, hx.trans (List.prefix_append ts us), hk⟩

/-- Tokens may be put behind the first token of a key. -/
theorem Fronted.insert (h : Fronted P (ts ++ vs) k) (hk : k.tokenNumber < ts.length)
    (us : List Token) : Fronted P (ts ++ us ++ vs) k := by
  obtain ⟨xs, u, hx, hlen, hP⟩ := h
  have hshort : (xs ++ [u]).length ≤ ts.length := by
    rw [List.length_append, List.length_singleton]
    omega
  have hfront := List.prefix_of_prefix_length_le hx (List.prefix_append ts vs) hshort
  refine ⟨xs, u, hfront.trans ?_, hlen, hP⟩
  rw [List.append_assoc]
  exact List.prefix_append ts (us ++ vs)

theorem fronted_readied (h : ∀ k ∈ s.keys, Fronted P (out ++ s.queue) k) (hr : Readied s s₁) :
    ∀ k ∈ s₁.keys, Fronted P (out ++ s₁.queue) k := by
  intro k hk
  obtain ⟨n, hq⟩ := queue_readied hr
  rw [hr.keys] at hk
  rw [hq, ← List.append_assoc]
  exact (h k (List.mem_filter.1 hk).1).append _

/-- The token at the cursor stands behind all others when a key is saved with it. -/
theorem fronted_saved {t : Token} (h : ∀ k ∈ s.keys, Fronted P (out ++ s.queue) k)
    (ht : s.taken = out.length) (hs : Saved s s₁) (hnew : P (out ++ s.queue) t s.keyHere) :
    ∀ k ∈ s₁.keys, Fronted P (out ++ (s₁.queue ++ [t])) k := by
  rw [← List.append_assoc]
  cases hs with
  | kept => exact fun k hk => (h k hk).append [t]
  | saved =>
    intro k hk
    rcases List.mem_append.1 hk with hk | hk
    · exact (h k (List.mem_filter.1 hk).1).append [t]
    · obtain rfl : k = s.keyHere := by simpa using hk
      refine ⟨out ++ s.queue, t, List.prefix_refl _, ?_, hnew⟩
      rw [List.length_append, ← ht]
      rfl

/-- The tokens in front of a possible key, and its first one, stay as they were when it was saved. -/
theorem fronted_fetched (h : ∀ k ∈ s.keys, Fronted P (out ++ s.queue) k) (hp : s.KeysInPlace)
    (ht : s.taken = out.length)
    (hnew : ∀ t, t.start = s.cursor.mark → opensKey t.kind = true → P (out ++ s.queue) t s.keyHere)
    (hf : Fetched s s') : ∀ k ∈ s'.keys, Fronted P (out ++ s'.queue) k := by
  have hpush : ∀ {keys : List SimpleKey} {us : List Token}, keys.Sublist s.keys →
      ∀ k ∈ keys, Fronted P (out ++ (s.queue ++ us)) k := by
    intro keys us hkeys k hk
    rw [← List.append_assoc]
    exact (h k (hkeys.mem hk)).append us
  obtain ⟨n, hq⟩ := s.queue_unwind (-1)
  have hclosed : ∀ t, ∀ k ∈ (s.unwind (-1)).forgetKey.keys,
      Fronted P (out ++ ((s.unwind (-1)).queue ++ [t])) k := by
    intro t
    rw [hq, List.append_assoc]
    refine hpush ?_
    rw [← s.unwind_keys (-1)]
    exact List.filter_sublist
  cases hf with
  | streamEnd => simp
  | directive => exact hclosed _
  | marker => exact hclosed _
  | @flowStart s₁ kind _ hs hk =>
    have hc : s₁.cursor = s.cursor := by cases hs <;> rfl
    have hopens : opensKey kind = true := by rcases hk with rfl | rfl <;> rfl
    exact fronted_saved h ht hs (hnew ⟨kind, s₁.cursor.mark, _⟩ (by rw [hc]) hopens)
  | flowEnd => exact hpush List.filter_sublist
  | flowEntry => exact hpush List.filter_sublist
  | @entry s₁ kind opens allowKey _ _ ho =>
    have hkeys : s₁.forgetKey.keys.Sublist s.keys := by
      rw [← opened_keys ho]
      exact List.filter_sublist
    have hqueue : ∃ us, s₁.queue = s.queue ++ us := by
      cases ho with
      | flow => exact ⟨[], by simp⟩
      | block =>
        rcases s.queue_openBlock opens with hq | hq
        · exact ⟨[], by simp [hq]⟩
        · exact ⟨_, hq⟩
    obtain ⟨us, hus⟩ := hqueue
    simp only [pushMark, forgetKey, hus, List.append_assoc s.queue]
    exact hpush hkeys
  | @value k _ hcur =>
    obtain ⟨hmem, hlevel⟩ := mem_keys_of_currentKey? hcur
    obtain ⟨us, hq, -⟩ := s.forgetKey.queue_insertKey k
    have htaken := hp.taken_le k hmem
    have hin := hp.lt hmem
    intro l hl
    simp only [pushMark, insertKey_keys] at hl
    obtain ⟨hl, hne⟩ := List.mem_filter.1 hl
    -- the keys that are left belong to outer levels, and start further in front
    have hne : l.level ≠ s.flowLevel := by simpa using hne
    have hle := hp.level_le l hl
    have hbefore := hp.ordered l hl k hmem (by omega)
    have hsplit : Fronted P (out ++ s.queue.take (k.tokenNumber - s.taken) ++
        s.queue.drop (k.tokenNumber - s.taken)) l := by simpa using h l hl
    have hlen : l.tokenNumber < (out ++ s.queue.take (k.tokenNumber - s.taken)).length := by
      rw [List.length_append, List.length_take]
      omega
    have hinserted := (hsplit.insert hlen us).append
      [⟨.value, s.cursor.mark, (s.cursor.forward 1).mark⟩]
    simp only [pushMark, hq, insertKey_cursor]
    simpa [forgetKey] using hinserted
  | @keyable s₁ t c allowKey hs hr hkind =>
    refine fronted_saved h ht hs (hnew t hr.start ?_)
    unfold opensKey
    split
    · rfl
    · rfl
    · exact hkind
  | block => exact hpush List.filter_sublist

end Fronted

end ScanState

end YamlLinter
