import YamlLinter.Proofs.Adjacency
import YamlLinter.Proofs.Coverage

/-!
# Block collections are well nested

Block collections are opened and closed by their columns alone, the start of a mapping often long
after the tokens of its first key. Still the tokens nest: outside flow collections every collection
starts to the right of all that are open, nothing starts to the left of the innermost one, and at the
end of a document all are closed.

The start of a mapping that goes in front of a possible key must fit the tokens behind it. It does
because these tokens open and close no collections and stand on the line of the key, to its right.

## Contents

* `openBlocks`: the columns of the block collections that are open behind some tokens;
* `Nests`, `Nested`: what a token asks of the collections around it, and a list all of whose tokens
  have that;
* `Quiet`: tokens in front of which a block mapping may still be opened;
* `NestedWith`: the indents of a state are the columns of the open collections;
* `nestedWith_fetched`, `quietKeys_fetched`, `nestedWith_run`: reading a lexeme keeps the tokens
  nested, and so does a run;
* `blocks_well_nested`: the block collections of a scan.
-/

namespace YamlLinter

open Indentation

variable {depth n : Nat} {opened : List Nat} {t : Token} {ts us vs xs : List Token}

/-! ## Open collections -/

/-- The tokens that open or close block collections. -/
def isBlockMark : TokenKind → Bool
  | .blockEnd => true
  | kind => isBlockStart kind

/-- The tokens in front of which all block collections are closed. -/
def isBoundary : TokenKind → Bool
  | .streamEnd | .directive _ _ | .documentStart | .documentEnd => true
  | _ => false

/-- The columns of the block collections that are open behind some tokens, innermost first, if those
at the columns `opened` were open before. -/
def openBlocks (opened : List Nat) : List Token → List Nat
  | [] => opened
  | t :: ts =>
    match t.kind with
    | .blockSequenceStart | .blockMappingStart => openBlocks (t.start.column :: opened) ts
    | .blockEnd => openBlocks opened.tail ts
    | _ => openBlocks opened ts

theorem openBlocks_append (opened : List Nat) (ts us : List Token) :
    openBlocks opened (ts ++ us) = openBlocks (openBlocks opened ts) us := by
  induction ts generalizing opened with
  | nil => rfl
  | cons t ts ih =>
    simp only [List.cons_append, openBlocks]
    split <;> exact ih _

theorem openBlocks_start (ht : isBlockStart t.kind = true) :
    openBlocks opened [t] = t.start.column :: opened := by
  unfold isBlockStart at ht
  split at ht <;> simp_all [openBlocks]

theorem openBlocks_of_not_isBlockMark (ht : isBlockMark t.kind = false) :
    openBlocks opened [t] = opened := by
  simp only [openBlocks]
  split <;> simp_all [isBlockMark, isBlockStart]

/-! ## Nested tokens -/

/-- What a token asks of the block collections at the columns `opened` and of the `depth` flow
collections around it. -/
structure Nests (depth : Nat) (opened : List Nat) (t : Token) : Prop where
  flat : isBlockMark t.kind = true → depth = 0
  deeper : isBlockStart t.kind = true → ∀ c ∈ opened, c < t.start.column
  closes : t.kind = .blockEnd → opened ≠ []
  within : t.kind ≠ .blockEnd → depth = 0 → ∀ c ∈ opened, c ≤ t.start.column
  bare : isBoundary t.kind = true → depth = 0 → opened = []

/-- Every token has around it what it asks for. -/
def Nested (depth : Nat) (opened : List Nat) : List Token → Prop
  | [] => True
  | t :: ts => Nests depth opened t ∧ Nested (flowDepth depth [t]) (openBlocks opened [t]) ts

theorem nested_append :
    Nested depth opened (ts ++ us) ↔
      Nested depth opened ts ∧ Nested (flowDepth depth ts) (openBlocks opened ts) us := by
  induction ts generalizing depth opened with
  | nil => exact (and_iff_right trivial).symm
  | cons t ts ih =>
    rw [← List.singleton_append, flowDepth_append, openBlocks_append]
    simp only [List.cons_append, List.nil_append, Nested, ih, and_assoc]

/-- A token that neither opens nor closes a collection asks for little. -/
theorem Nests.of_not_isBlockMark (hmark : isBlockMark t.kind = false)
    (hc : depth = 0 → ∀ c ∈ opened, c ≤ t.start.column)
    (hbare : isBoundary t.kind = true → depth = 0 → opened = []) : Nests depth opened t := by
  constructor
  · simp [hmark]
  · intro hstart
    unfold isBlockMark at hmark
    split at hmark <;> simp_all
  · intro hend
    simp [hend, isBlockMark] at hmark
  · exact fun _ => hc
  · exact hbare

theorem Nests.key {m : Mark} (hc : depth = 0 → ∀ c ∈ opened, c ≤ m.column) :
    Nests depth opened (.empty .key m) :=
  .of_not_isBlockMark rfl hc (by simp [Token.empty, isBoundary])

/-- The open collections stand one to the right of the other. -/
theorem Nested.pairwise (h : Nested depth opened ts) (ho : opened.Pairwise (· > ·)) :
    (openBlocks opened ts).Pairwise (· > ·) := by
  induction ts generalizing depth opened with
  | nil => exact ho
  | cons t ts ih =>
    rw [← List.singleton_append, openBlocks_append]
    refine ih h.2 ?_
    simp only [openBlocks]
    split
    · exact .cons (h.1.deeper (by simp [*, isBlockStart])) ho
    · exact .cons (h.1.deeper (by simp [*, isBlockStart])) ho
    · exact ho.tail
    · exact ho

/-- Every start and every end of a collection is counted by those that are open. -/
theorem Nested.countP (h : Nested depth opened ts) :
    ts.countP (·.kind == .blockEnd) + (openBlocks opened ts).length =
      ts.countP (isBlockStart ·.kind) + opened.length := by
  induction ts generalizing depth opened with
  | nil => simp [openBlocks]
  | cons t ts ih =>
    have hrest := ih h.2
    rw [← List.singleton_append, openBlocks_append, List.countP_append, List.countP_append]
    have hone : [t].countP (·.kind == .blockEnd) + (openBlocks opened [t]).length =
        [t].countP (isBlockStart ·.kind) + opened.length := by
      simp only [openBlocks]
      split
      · simp [*, isBlockStart]; omega
      · simp [*, isBlockStart]; omega
      · have hne := List.length_pos_iff.2 (h.1.closes ‹_›)
        simp [*, isBlockStart]; omega
      · simp_all [isBlockStart]
    omega

/-! ## Tokens behind a possible key -/

/-- Tokens that neither open nor close block collections, and bound no document where no flow
collection is open. -/
def Quiet (depth : Nat) : List Token → Prop
  | [] => True
  | t :: ts =>
    isBlockMark t.kind = false ∧ (isBoundary t.kind = true → depth ≠ 0) ∧
      Quiet (flowDepth depth [t]) ts

theorem quiet_append :
    Quiet depth (ts ++ us) ↔ Quiet depth ts ∧ Quiet (flowDepth depth ts) us := by
  induction ts generalizing depth with
  | nil => exact (and_iff_right trivial).symm
  | cons t ts ih =>
    rw [← List.singleton_append, flowDepth_append]
    simp only [List.cons_append, List.nil_append, Quiet, ih, and_assoc]

theorem Quiet.openBlocks_eq (h : Quiet depth ts) : openBlocks opened ts = opened := by
  induction ts generalizing depth with
  | nil => rfl
  | cons t ts ih =>
    rw [← List.singleton_append, openBlocks_append, openBlocks_of_not_isBlockMark h.1]
    exact ih h.2.2

/-- Quiet tokens nest in all collections that do not start to the right of them. -/
theorem Quiet.nested (h : Quiet depth ts) (hc : ∀ t ∈ ts, ∀ c ∈ opened, c ≤ t.start.column) :
    Nested depth opened ts := by
  induction ts generalizing depth with
  | nil => exact trivial
  | cons t ts ih =>
    obtain ⟨hmark, hbound, hrest⟩ := h
    refine ⟨.of_not_isBlockMark hmark (fun _ => hc t List.mem_cons_self) ?_, ?_⟩
    · exact fun hb hd => absurd hd (hbound hb)
    · rw [openBlocks_of_not_isBlockMark hmark]
      exact ih hrest fun u hu => hc u (List.mem_cons_of_mem t hu)

/-- A key may be put between tokens, to the right of the collections that are open there. -/
theorem Nested.insertKey {m : Mark} (h : Nested depth opened (xs ++ vs))
    (hc : flowDepth depth xs = 0 → ∀ c ∈ openBlocks opened xs, c ≤ m.column) :
    Nested depth opened (xs ++ [.empty .key m] ++ vs) := by
  obtain ⟨hxs, hvs⟩ := nested_append.1 h
  rw [List.append_assoc, nested_append]
  exact ⟨hxs, .key hc, hvs⟩

/-- A mapping may be opened in front of quiet tokens, with its first key. -/
theorem Nested.insertMapping {m : Mark} (h : Nested depth opened (xs ++ vs)) (hv : Quiet 0 vs)
    (hdepth : flowDepth depth xs = 0) (hc : ∀ c ∈ openBlocks opened xs, c < m.column)
    (hright : ∀ t ∈ vs, m.column ≤ t.start.column) :
    Nested depth opened (xs ++ [.empty .blockMappingStart m, .empty .key m] ++ vs) := by
  have hxs := (nested_append.1 h).1
  have hall : ∀ c ∈ m.column :: openBlocks opened xs, c ≤ m.column := by
    intro c hmem
    rcases List.mem_cons.1 hmem with rfl | hmem
    · exact Nat.le_refl _
    · exact Nat.le_of_lt (hc c hmem)
  rw [List.append_assoc, nested_append, hdepth]
  refine ⟨hxs, ?_, .key fun _ => hall, ?_⟩
  · exact ⟨fun _ => rfl, fun _ => hc, by simp [Token.empty],
      fun _ _ c hmem => Nat.le_of_lt (hc c hmem), by simp [Token.empty, isBoundary]⟩
  · exact hv.nested fun t ht c hmem => Nat.le_trans (hall c hmem) (hright t ht)

/-! ## Indents -/

namespace ScanState

variable {s s' s₁ : ScanState} {text : List Char} {out : List Token} {k : SimpleKey} {column : Int}

/-- The tokens given and queued are nested, and the indents are the columns of the collections that
they leave open. -/
structure NestedWith (out : List Token) (s : ScanState) : Prop where
  nested : Nested 0 [] (out ++ s.queue)
  level : flowDepth 0 (out ++ s.queue) = s.flowLevel
  stack : (openBlocks [] (out ++ s.queue)).map Int.ofNat ++ [-1] = s.indent :: s.indents

/-- No open collection starts to the right of the indent. -/
theorem NestedWith.le_indent (h : NestedWith out s) :
    ∀ c ∈ openBlocks [] (out ++ s.queue), (c : Int) ≤ s.indent := by
  have hpair := h.nested.pairwise .nil
  have hstack := h.stack
  cases ho : openBlocks [] (out ++ s.queue) with
  | nil => simp
  | cons c₀ rest =>
    rw [ho] at hpair hstack
    obtain ⟨hindent, -⟩ := List.cons.inj hstack
    intro c hc
    rw [← hindent]
    rcases List.mem_cons.1 hc with rfl | hc
    · exact Int.le_refl _
    · exact Int.le_of_lt (Int.ofNat_lt.2 (List.rel_of_pairwise_cons hpair hc))

/-- Where the indent is that outside of all collections, none is open. -/
theorem NestedWith.none_open (h : NestedWith out s) (hi : s.indent < 0) :
    openBlocks [] (out ++ s.queue) = [] := by
  cases ho : openBlocks [] (out ++ s.queue) with
  | nil => rfl
  | cons c rest =>
    have hle := h.le_indent c (by simp [ho])
    omega

/-- Tokens behind all others that neither open nor close collections. -/
theorem NestedWith.push (h : NestedWith out s) (hmark : isBlockMark t.kind = false)
    (hcol : s.flowLevel = 0 → s.indent ≤ t.start.column)
    (hbound : isBoundary t.kind = true → s.flowLevel = 0 → s.indent < 0)
    (hs : s'.queue = s.queue ++ [t] ∧ s'.flowLevel = flowDepth s.flowLevel [t] ∧
      s'.indent = s.indent ∧ s'.indents = s.indents) : NestedWith out s' := by
  obtain ⟨hqueue, hlevel, hindent, hindents⟩ := hs
  have htokens : out ++ s'.queue = out ++ s.queue ++ [t] := by rw [hqueue, List.append_assoc]
  constructor
  · rw [htokens, nested_append, h.level]
    refine ⟨h.nested, .of_not_isBlockMark hmark (fun hzero c hc => ?_) ?_, trivial⟩
    · have hle := h.le_indent c hc
      have hright := hcol hzero
      omega
    · exact fun hb hzero => h.none_open (hbound hb hzero)
  · rw [htokens, flowDepth_append, h.level, hlevel]
  · rw [htokens, openBlocks_append, openBlocks_of_not_isBlockMark hmark, hindent, hindents]
    exact h.stack

/-- As many ends close as many collections. -/
theorem nested_replicate {m : Mark} (hn : n ≤ opened.length) :
    Nested 0 opened (List.replicate n (.empty .blockEnd m)) ∧
      openBlocks opened (List.replicate n (.empty .blockEnd m)) = opened.drop n := by
  induction n generalizing opened with
  | zero => exact ⟨trivial, rfl⟩
  | succ n ih =>
    cases opened with
    | nil => simp at hn
    | cons c opened =>
      obtain ⟨hnested, hopen⟩ := @ih opened (by simpa using hn)
      refine ⟨⟨⟨fun _ => rfl, ?_, by simp, ?_, ?_⟩, hnested⟩, hopen⟩
      · simp [Token.empty, isBlockStart]
      · exact fun hne => absurd rfl hne
      · simp [Token.empty, isBoundary]

/-- The indents closed are the innermost columns, and those that stay are not beyond the column. -/
theorem closeIndents_opened (hc : -1 ≤ column) {indent : Int} {indents : List Int}
    (h : opened.map Int.ofNat ++ [-1] = indent :: indents) :
    (closeIndents column indent indents).1 ≤ opened.length ∧
      (closeIndents column indent indents).2.1 ≤ column ∧
      (opened.drop (closeIndents column indent indents).1).map Int.ofNat ++ [-1] =
        (closeIndents column indent indents).2.1 :: (closeIndents column indent indents).2.2 := by
  induction opened generalizing indent indents with
  | nil =>
    obtain ⟨rfl, rfl⟩ := List.cons.inj h
    rw [closeIndents, if_neg (by omega)]
    exact ⟨Nat.le_refl _, hc, rfl⟩
  | cons c opened ih =>
    obtain ⟨rfl, hrest⟩ := List.cons.inj h
    cases indents with
    | nil => simp at hrest
    | cons outer rest =>
      obtain ⟨hlen, hle, hstack⟩ := ih hrest
      unfold closeIndents
      split
      · exact ⟨Nat.succ_le_succ hlen, hle, hstack⟩
      · rename_i hle
        exact ⟨Nat.zero_le _, by simpa using hle, h⟩

theorem nestedWith_unwind (h : NestedWith out s) (hc : -1 ≤ column) :
    NestedWith out (s.unwind column) ∧
      (s.flowLevel = 0 → (s.unwind column).indent ≤ column) := by
  unfold unwind
  split
  · rename_i hflow
    exact ⟨h, fun hzero => by simp [inFlow, hzero] at hflow⟩
  · rename_i hflow
    have hzero : s.flowLevel = 0 := by simpa [inFlow] using hflow
    obtain ⟨hlen, hle, hstack⟩ := closeIndents_opened hc h.stack
    generalize closeIndents column s.indent s.indents = closing at hlen hle hstack ⊢
    obtain ⟨closed, indent, indents⟩ := closing
    obtain ⟨hnested, hopen⟩ := nested_replicate (m := s.cursor.mark) hlen
    refine ⟨⟨?_, ?_, ?_⟩, fun _ => hle⟩
    · rw [← List.append_assoc, nested_append, h.level, hzero]
      exact ⟨h.nested, hnested⟩
    · rw [← List.append_assoc, flowDepth_append, h.level]
      refine flowDepth_of_forall fun u hu => ?_
      rw [List.eq_of_mem_replicate hu]
      rfl
    · rw [← List.append_assoc, openBlocks_append, hopen]
      exact hstack

/-- A collection may be opened at the cursor, if it is deeper than the innermost one. -/
theorem nestedWith_opened {kind : TokenKind} (h : NestedWith out s) (ho : Opened s kind s₁)
    (hkind : isBlockStart kind = true) (hcol : s.flowLevel = 0 → s.indent ≤ s.cursor.column) :
    NestedWith out s₁ ∧ (s₁.flowLevel = 0 → s₁.indent ≤ s.cursor.column) := by
  cases ho with
  | flow => exact ⟨h, hcol⟩
  | block hflow =>
    have hzero : s.flowLevel = 0 := by simpa [inFlow] using hflow
    unfold openBlock
    split
    · rename_i hnests
      have hlt : s.indent < s.cursor.column := by simpa [nests] using hnests
      -- the innermost collection is the deepest, so the new one is deeper than all
      have hdeeper : ∀ c ∈ openBlocks [] (out ++ s.queue), c < s.cursor.column := by
        intro c hc
        have hle := h.le_indent c hc
        omega
      refine ⟨⟨?_, ?_, ?_⟩, fun _ => Int.le_refl _⟩
      · simp only [push, openIndent]
        rw [← List.append_assoc, nested_append, h.level, hzero]
        refine ⟨h.nested, ⟨fun _ => rfl, fun _ => hdeeper, ?_, ?_, ?_⟩, trivial⟩
        · intro hend
          simp [Token.empty] at hend
          simp [hend, isBlockStart] at hkind
        · exact fun _ _ c hc => Nat.le_of_lt (hdeeper c hc)
        · intro hb
          simp only [Token.empty] at hb
          unfold isBlockStart at hkind
          split at hkind <;> simp_all [isBoundary]
      · simp only [push, openIndent]
        rw [← List.append_assoc, flowDepth_append, h.level]
        refine flowDepth_of_forall fun u hu => ?_
        rw [List.mem_singleton.1 hu]
        unfold isBlockStart at hkind
        split at hkind <;> simp_all [Token.empty, isUnbracketed]
      · simp only [push, openIndent]
        rw [← List.append_assoc, openBlocks_append, openBlocks_start hkind, ← h.stack]
        rfl
    · exact ⟨h, hcol⟩

/-! ## Possible keys -/

/-- The tokens from the number `n` on are quiet. -/
def QuietFrom (ts : List Token) (n : Nat) : Prop := Quiet (flowDepth 0 (ts.take n)) (ts.drop n)

theorem QuietFrom.push (h : QuietFrom ts n) (hn : n ≤ ts.length) (hmark : isBlockMark t.kind = false)
    (hbound : isBoundary t.kind = true → flowDepth 0 ts ≠ 0) : QuietFrom (ts ++ [t]) n := by
  unfold QuietFrom at h ⊢
  rw [List.take_append_of_le_length hn, List.drop_append_of_le_length hn, quiet_append,
    ← flowDepth_append, List.take_append_drop]
  exact ⟨h, hmark, hbound, trivial⟩

theorem QuietFrom.insert {m : Mark} (h : QuietFrom (xs ++ vs) n) (hn : n ≤ xs.length) :
    QuietFrom (xs ++ [.empty .key m] ++ vs) n := by
  unfold QuietFrom at h ⊢
  rw [List.append_assoc]
  rw [List.take_append_of_le_length hn, List.drop_append_of_le_length hn] at h ⊢
  rw [quiet_append] at h ⊢
  exact ⟨h.1, rfl, by simp [Token.empty, isBoundary], h.2⟩

/-- Behind the possible keys outside flow collections the tokens are quiet, and the keys are not to
the left of the innermost block collection. -/
def QuietKeys (out : List Token) (s : ScanState) : Prop :=
  ∀ k ∈ s.keys, k.level = 0 →
    QuietFrom (out ++ s.queue) k.tokenNumber ∧ s.indent ≤ k.mark.column

/-- The tokens behind a key that has not ended stand on its line, to its right. -/
theorem column_le_of_laid {c d : Cursor} {u : Token} {ys : List Token}
    (h : Laid Token.start Token.stop c (xs ++ u :: ys) d) (hstart : u.start = k.mark)
    (hline : k.mark.line = d.line) :
    (∀ t ∈ u :: ys, k.mark.column ≤ t.start.column) ∧ k.mark.column ≤ d.column := by
  have hright : ∀ t ∈ u :: ys, k.mark.column ≤ t.start.column ∧ k.mark.column ≤ d.column := by
    intro t ht
    obtain ⟨p, q, hp, hq, hpq, hqd⟩ := h.behind_start ht
    have hp : k.mark = p.mark := hstart.symm.trans hp
    have hline : p.line = d.line := (congrArg Mark.line hp).symm.trans hline
    have hle := hpq.line_le
    have hle' := hqd.line_le
    rw [hp, hq]
    exact ⟨hpq.column_le (by omega), (hpq.trans hqd).column_le hline.symm⟩
  exact ⟨fun t ht => (hright t ht).1, (hright u List.mem_cons_self).2⟩

/-- A value makes a key of the tokens from a possible key on, and maybe opens a mapping there. -/
theorem nestedWith_insertKey (h : NestedWith out s) (hquiet : QuietKeys out s)
    (hplaced : Placed text out s) (hp : s.KeysInPlace) (ht : s.taken = out.length)
    (hcur : s.currentKey? = some k) (hfront : Fronted (Front text) (out ++ s.queue) k)
    (hline : k.mark.line = s.cursor.line) (hcol : s.flowLevel = 0 → s.indent ≤ s.cursor.column) :
    NestedWith out (s.forgetKey.insertKey k) ∧
      (s.flowLevel = 0 → (s.forgetKey.insertKey k).indent ≤ s.cursor.column) := by
  obtain ⟨hmem, hkey⟩ := mem_keys_of_currentKey? hcur
  have htaken := hp.taken_le k hmem
  obtain ⟨xs, u, ⟨ys, hys⟩, hlen, hfront⟩ := hfront
  have hsplit : out ++ s.queue = xs ++ u :: ys := by simpa using hys.symm
  have hdepth : flowDepth 0 xs = s.flowLevel := hfront.level.trans hkey
  have hnested := h.nested
  have hlevel := h.level
  rw [hsplit] at hnested hlevel
  rw [flowDepth_append] at hlevel
  -- where no flow collection is open, those in front of the key are all that are open
  have hpending : s.flowLevel = 0 → Quiet 0 (u :: ys) ∧
      openBlocks [] xs = openBlocks [] (out ++ s.queue) ∧ s.indent ≤ k.mark.column := by
    intro hzero
    obtain ⟨hfrom, hright⟩ := hquiet k hmem (hkey.trans hzero)
    rw [QuietFrom, hsplit, ← hlen, List.take_left, List.drop_left, hdepth, hzero] at hfrom
    refine ⟨hfrom, ?_, hright⟩
    rw [hsplit, openBlocks_append, hfrom.openBlocks_eq]
  have hright := column_le_of_laid (hsplit ▸ hplaced.tokens) hfront.start hline
  unfold insertKey
  simp only
  split
  · rename_i hnests
    obtain ⟨hflow, hlt⟩ := Bool.and_eq_true_iff.1 hnests
    have hflow : s.flowLevel = 0 := by simpa [forgetKey, inFlow] using hflow
    have hlt : s.indent < k.mark.column := of_decide_eq_true hlt
    obtain ⟨hfrom, hopen, -⟩ := hpending hflow
    have hdeeper : ∀ c ∈ openBlocks [] xs, c < k.mark.column := by
      intro c hc
      rw [hopen] at hc
      have hle := h.le_indent c hc
      omega
    have htokens := tokens_insertAt (s := s.forgetKey.openIndent k.mark.column) ht htaken hsplit hlen
      [.empty .blockMappingStart k.mark, .empty .key k.mark]
    refine ⟨⟨?_, ?_, ?_⟩, fun _ => Int.ofNat_le.2 hright.2⟩
    · rw [htokens]
      exact hnested.insertMapping hfrom (hdepth.trans hflow) hdeeper hright.1
    · rw [htokens, flowDepth_append, flowDepth_append]
      exact hlevel
    · rw [htokens, openBlocks_append, hfrom.openBlocks_eq, openBlocks_append, hopen]
      exact congrArg (Int.ofNat k.mark.column :: ·) h.stack
  · have htokens := tokens_insertAt (s := s.forgetKey) ht htaken hsplit hlen
      [.empty .key k.mark]
    refine ⟨⟨?_, ?_, ?_⟩, hcol⟩
    · rw [htokens]
      refine hnested.insertKey fun hzero c hc => ?_
      obtain ⟨-, hopen, hright⟩ := hpending (hdepth.symm.trans hzero)
      rw [hopen] at hc
      have hle := h.le_indent c hc
      omega
    · rw [htokens, flowDepth_append, flowDepth_append]
      exact hlevel
    · rw [htokens, openBlocks_append, openBlocks_append]
      have hstack := h.stack
      rw [hsplit, openBlocks_append] at hstack
      exact hstack

/-- Reading a lexeme keeps the tokens nested. -/
theorem nestedWith_fetched (h : NestedWith out s) (hquiet : QuietKeys out s)
    (hplaced : Placed text out s) (hp : s.KeysInPlace) (ht : s.taken = out.length)
    (hfront : ∀ k ∈ s.keys, Fronted (Front text) (out ++ s.queue) k)
    (hline : ∀ k ∈ s.keys, k.mark.line = s.cursor.line)
    (hcol : s.flowLevel = 0 → s.indent ≤ s.cursor.column) (hf : Fetched s s') :
    NestedWith out s' := by
  obtain ⟨hu, hbare⟩ := nestedWith_unwind h (Int.le_refl (-1))
  -- in front of a boundary everything is closed
  have hclose : ∀ {s' : ScanState} {t : Token}, isBlockMark t.kind = false →
      isUnbracketed t.kind = true →
      s'.queue = (s.unwind (-1)).queue ++ [t] ∧ s'.flowLevel = (s.unwind (-1)).flowLevel ∧
        s'.indent = (s.unwind (-1)).indent ∧ s'.indents = (s.unwind (-1)).indents →
      NestedWith out s' := by
    intro s' t hmark hbracket hs
    have hzero : (s.unwind (-1)).flowLevel = 0 → (s.unwind (-1)).indent < 0 := by
      intro hzero
      rw [unwind_flowLevel] at hzero
      have hle := hbare hzero
      omega
    refine hu.push hmark (fun h => ?_) (fun _ => hzero) ⟨hs.1, ?_, hs.2.2⟩
    · have hlt := hzero h
      omega
    · rw [flowDepth_cons hbracket]
      exact hs.2.1
  cases hf with
  | streamEnd => exact hclose rfl rfl ⟨rfl, rfl, rfl, rfl⟩
  | directive hne hd =>
    obtain ⟨-, -, name, value, hk⟩ := Cursor.reads_directive hne hd
    exact hclose (by rw [hk]; rfl) (by rw [hk]; rfl) ⟨rfl, rfl, rfl, rfl⟩
  | marker _ _ hk =>
    rcases hk with ⟨-, rfl⟩ | ⟨-, rfl⟩ <;> exact hclose rfl rfl ⟨rfl, rfl, rfl, rfl⟩
  | flowStart _ hs hk =>
    rcases hk with rfl | rfl <;> cases hs <;>
      exact h.push rfl hcol (by simp [isBoundary]) ⟨rfl, rfl, rfl, rfl⟩
  | flowEnd _ hk =>
    rcases hk with rfl | rfl <;>
      exact h.push rfl hcol (by simp [isBoundary]) ⟨rfl, rfl, rfl, rfl⟩
  | flowEntry => exact h.push rfl hcol (by simp [isBoundary]) ⟨rfl, rfl, rfl, rfl⟩
  | @entry s₁ kind opens allowKey _ hm ho =>
    have hopens : isBlockStart opens = true := by cases hm <;> rfl
    obtain ⟨hopened, hcol⟩ := nestedWith_opened h ho hopens hcol
    rw [← opened_cursor ho] at hcol
    cases hm <;> exact hopened.push rfl hcol (by simp [isBoundary]) ⟨rfl, rfl, rfl, rfl⟩
  | @value k _ hcur =>
    have hmem := (mem_keys_of_currentKey? hcur).1
    obtain ⟨hinserted, hcol⟩ := nestedWith_insertKey h hquiet hplaced hp ht hcur (hfront k hmem)
      (hline k hmem) hcol
    refine hinserted.push (t := ⟨.value, _, _⟩) rfl ?_ (by simp [isBoundary]) ⟨rfl, rfl, rfl, rfl⟩
    simp only [insertKey_flowLevel, insertKey_cursor]
    exact hcol
  | @keyable s₁ t c allowKey hs hr hk =>
    have hkind : isBlockMark t.kind = false ∧ isBoundary t.kind = false ∧
        isUnbracketed t.kind = true := by
      obtain ⟨_, hk⟩ | ⟨_, hk⟩ | ⟨_, _, hk⟩ | ⟨_, _, hk⟩ := kind_of_startsKey hk <;>
        simp [hk, isBlockMark, isBlockStart, isBoundary, isUnbracketed]
    obtain ⟨hmark, hbound, hbracket⟩ := hkind
    refine h.push hmark (hr.start ▸ hcol) (by simp [hbound]) ⟨?_, ?_, ?_, ?_⟩
    · cases hs <;> rfl
    · rw [flowDepth_cons hbracket]
      cases hs <;> rfl
    · cases hs <;> rfl
    · cases hs <;> rfl
  | @block t _ _ _ hr _ hscalar =>
    obtain ⟨value, style, hk⟩ := kind_of_isScalar hscalar
    refine h.push (by rw [hk]; rfl) (hr.start ▸ hcol) (by simp [hk, isBoundary]) ⟨rfl, ?_, rfl, rfl⟩
    rw [flowDepth_cons (by rw [hk]; rfl)]
    rfl

namespace QuietKeys

variable (h : QuietKeys out s) (hlevel : flowDepth 0 (out ++ s.queue) = s.flowLevel)
  (hp : s.KeysInPlace) (ht : s.taken = out.length)
include h hlevel hp ht

/-- A token behind all others is quiet, unless it bounds a document outside flow collections. -/
theorem push {t : Token} (hmark : isBlockMark t.kind = false)
    (hbound : isBoundary t.kind = true → s.flowLevel ≠ 0) (hk : k ∈ s.keys) (hzero : k.level = 0) :
    QuietFrom (out ++ (s.queue ++ [t])) k.tokenNumber ∧ s.indent ≤ k.mark.column := by
  obtain ⟨hquiet, hright⟩ := h k hk hzero
  have hlt := hp.lt hk
  have hshort : k.tokenNumber ≤ (out ++ s.queue).length := by
    rw [List.length_append, ← ht]
    exact Nat.le_of_lt hlt
  refine ⟨?_, hright⟩
  rw [← List.append_assoc]
  exact hquiet.push hshort hmark (by rwa [hlevel])

/-- A key outside flow collections outlives the one of the current level only inside of some. -/
theorem forget (hkeys : s'.keys = s.keys.filter (·.level != s.flowLevel))
    (hs : s.flowLevel ≠ 0 → ∃ t : Token, isBlockMark t.kind = false ∧ s'.queue = s.queue ++ [t] ∧
      s'.indent = s.indent) : QuietKeys out s' := by
  intro k hk hzero
  rw [hkeys] at hk
  obtain ⟨hk, hne⟩ := List.mem_filter.1 hk
  have hne : k.level ≠ s.flowLevel := by simpa using hne
  have hflow : s.flowLevel ≠ 0 := by omega
  obtain ⟨t, hmark, hqueue, hindent⟩ := hs hflow
  rw [hqueue, hindent]
  exact h.push hlevel hp ht hmark (fun _ => hflow) hk hzero

/-- The key that is saved starts at the token behind it. -/
theorem saved {t : Token} (hcol : s.flowLevel = 0 → s.indent ≤ s.cursor.column) (hs : Saved s s₁)
    (hmark : isBlockMark t.kind = false) (hbound : isBoundary t.kind = false) (hk : k ∈ s₁.keys)
    (hzero : k.level = 0) :
    QuietFrom (out ++ (s.queue ++ [t])) k.tokenNumber ∧ s.indent ≤ k.mark.column := by
  cases hs with
  | kept => exact h.push hlevel hp ht hmark (by simp [hbound]) hk hzero
  | saved =>
    rcases List.mem_append.1 hk with hk | hk
    · exact h.push hlevel hp ht hmark (by simp [hbound]) (List.mem_filter.1 hk).1 hzero
    · obtain rfl : k = s.keyHere := by simpa using hk
      have hnumber : s.keyHere.tokenNumber = (out ++ s.queue).length := by
        rw [List.length_append, ← ht]
        rfl
      refine ⟨?_, hcol hzero⟩
      rw [QuietFrom, hnumber, ← List.append_assoc, List.take_left, List.drop_left]
      exact ⟨hmark, by simp [hbound], trivial⟩

omit hlevel

/-- Inside flow collections a value makes a key of earlier tokens, behind those of the keys outside. -/
theorem insertKey {allowKey : Bool} (hcur : s.currentKey? = some k) :
    QuietKeys out ({ s.forgetKey.insertKey k with allowKey }.pushMark .value 1) := by
  obtain ⟨hmem, hkey⟩ := mem_keys_of_currentKey? hcur
  intro l hl hzero
  simp only [pushMark, insertKey_keys] at hl
  obtain ⟨hl, hne⟩ := List.mem_filter.1 hl
  have hne : l.level ≠ s.flowLevel := by simpa using hne
  have hflow : s.flowLevel ≠ 0 := by omega
  have hbefore := hp.ordered l hl k hmem (by omega)
  obtain ⟨xs, vs, hsplit, hlen⟩ := exists_split_of_mem_keys hp ht hmem
  -- inside flow collections a key opens no mapping
  have hinsert : s.forgetKey.insertKey k =
      s.forgetKey.insertAt k.tokenNumber [.empty .key k.mark] := by
    simp [ScanState.insertKey, forgetKey, inFlow, hflow]
  have htokens := tokens_insertAt (s := s.forgetKey) ht (hp.taken_le k hmem) hsplit hlen
    [.empty .key k.mark]
  obtain ⟨hquiet, hright⟩ := h l hl hzero
  rw [hsplit] at hquiet
  have hquiet := hquiet.insert (m := k.mark) (by omega)
  simp only [pushMark, hinsert]
  refine ⟨?_, hright⟩
  rw [← List.append_assoc, htokens]
  refine hquiet.push ?_ rfl (by simp [isBoundary])
  simp only [List.length_append]
  omega

end QuietKeys

/-- Reading a lexeme keeps the tokens behind possible keys quiet. -/
theorem quietKeys_fetched (h : QuietKeys out s) (hlevel : flowDepth 0 (out ++ s.queue) = s.flowLevel)
    (hp : s.KeysInPlace) (ht : s.taken = out.length)
    (hcol : s.flowLevel = 0 → s.indent ≤ s.cursor.column) (hf : Fetched s s') :
    QuietKeys out s' := by
  -- inside flow collections nothing is closed
  have hunwind : s.flowLevel ≠ 0 → s.unwind (-1) = s := by
    intro hflow
    simp [unwind, inFlow, hflow]
  cases hf with
  | streamEnd => simp [QuietKeys]
  | directive hne hd =>
    obtain ⟨-, -, name, value, hkind⟩ := Cursor.reads_directive hne hd
    refine h.forget hlevel hp ht (by simp [forgetKey]) fun hflow => ?_
    exact ⟨_, by rw [hkind]; rfl, by simp [forgetKey, hunwind hflow]⟩
  | @marker kind _ _ _ hkind =>
    refine h.forget hlevel hp ht (by simp [forgetKey, pushMark]) fun hflow => ?_
    refine ⟨⟨kind, s.cursor.mark, (s.cursor.forward 3).mark⟩, ?_, ?_⟩
    · rcases hkind with ⟨-, rfl⟩ | ⟨-, rfl⟩ <;> rfl
    · simp [forgetKey, pushMark, hunwind hflow]
  | @flowStart s₁ kind _ hs hkind =>
    have hmark : isBlockMark kind = false ∧ isBoundary kind = false := by
      rcases hkind with rfl | rfl <;> exact ⟨rfl, rfl⟩
    intro k hk hzero
    have hquiet := h.saved hlevel hp ht (t := ⟨kind, s.cursor.mark, (s.cursor.forward 1).mark⟩) hcol
      hs hmark.1 hmark.2 hk hzero
    cases hs <;> exact hquiet
  | flowEnd _ hkind =>
    refine h.forget hlevel hp ht rfl fun _ => ⟨_, ?_, rfl, rfl⟩
    rcases hkind with rfl | rfl <;> rfl
  | flowEntry => exact h.forget hlevel hp ht rfl fun _ => ⟨_, rfl, rfl, rfl⟩
  | @entry s₁ kind opens allowKey _ hm ho =>
    cases ho with
    | flow =>
      refine h.forget hlevel hp ht rfl fun _ => ⟨_, ?_, rfl, rfl⟩
      cases hm <;> rfl
    | block hflow =>
      refine h.forget hlevel hp ht (by simp [forgetKey, pushMark]) fun hne => absurd ?_ hne
      simpa [inFlow] using hflow
  | value _ hcur => exact h.insertKey hp ht hcur
  | @keyable s₁ t c allowKey hs hr hkind =>
    have hmark : isBlockMark t.kind = false ∧ isBoundary t.kind = false := by
      obtain ⟨_, hk⟩ | ⟨_, hk⟩ | ⟨_, _, hk⟩ | ⟨_, _, hk⟩ := kind_of_startsKey hkind <;>
        simp [hk, isBlockMark, isBlockStart, isBoundary]
    intro k hk hzero
    have hquiet := h.saved hlevel hp ht hcol hs hmark.1 hmark.2 hk hzero
    cases hs <;> exact hquiet
  | block hflow =>
    refine h.forget hlevel hp ht rfl fun hne => absurd ?_ hne
    simpa [inFlow] using hflow

/-- Before a lexeme is read the collections that its column has left are closed. A key outside flow
collections that has not ended keeps that from closing any. -/
theorem nestedWith_readied (h : NestedWith out s) (hquiet : QuietKeys out s)
    (hplaced : Placed text out s) (hfront : ∀ k ∈ s.keys, Fronted (Front text) (out ++ s.queue) k)
    (hr : Readied s s₁) :
    NestedWith out s₁ ∧ QuietKeys out s₁ ∧ (s₁.flowLevel = 0 → s₁.indent ≤ s₁.cursor.column) := by
  have hskip : NestedWith out { s.skipGap with keys := s.keys.filter (!s.skipGap.staleKey ·) } :=
    ⟨h.nested, h.level, h.stack⟩
  obtain ⟨hnested, hcol⟩ :=
    nestedWith_unwind hskip (show (-1 : Int) ≤ s.skipGap.cursor.column by omega)
  rw [← hr.eq] at hnested hcol
  refine ⟨hnested, fun k hk hzero => ?_, ?_⟩
  · have hline := (fresh_readied hr hk).1
    rw [hr.cursor] at hline
    rw [hr.keys] at hk
    have hmem := (List.mem_filter.1 hk).1
    obtain ⟨hfrom, hright⟩ := hquiet k hmem hzero
    obtain ⟨xs, u, ⟨ys, hys⟩, -, hfront⟩ := hfront k hmem
    have hsplit : out ++ s.queue = xs ++ u :: ys := by simpa using hys.symm
    have hlaid := (placed_skipGap hplaced).tokens
    rw [show s.skipGap.queue = s.queue from rfl, hsplit] at hlaid
    have hbeyond := (column_le_of_laid hlaid hfront.start hline).2
    have hindent : s.indent ≤ s.skipGap.cursor.column := by omega
    have hstay := hr.eq.trans (unwind_of_le (s := { s.skipGap with keys := _ }) hindent)
    rw [hstay]
    exact ⟨hfrom, hright⟩
  · rw [hr.flowLevel, hr.cursor]
    exact hcol

/-- In all states of a run the tokens are nested, and quiet behind possible keys. -/
theorem nestedWith_run (h : Run text out s) : NestedWith out s ∧ QuietKeys out s := by
  induction h with
  | start =>
    refine ⟨⟨⟨?_, trivial⟩, rfl, rfl⟩, by simp [QuietKeys, ofText]⟩
    exact .of_not_isBlockMark rfl (by simp) (by simp [Token.empty, isBoundary])
  | @fetch out s s₁ s' hrun hn hf ih =>
    obtain ⟨s₂, hpoised, hf⟩ := hrun.poised hn hf
    obtain ⟨keys, hkeys, hr⟩ := hpoised.ready
    obtain ⟨-, hfront⟩ := joined_run hrun
    have hfront : ∀ k ∈ keys, Fronted (Front text) (out ++ s.queue) k := fun k hk =>
      hfront k (hkeys.mem hk)
    have hneeds : NestedWith out { s with keys } ∧ QuietKeys out { s with keys } :=
      ⟨⟨ih.1.nested, ih.1.level, ih.1.stack⟩, fun k hk => ih.2 k (hkeys.mem hk)⟩
    have hplaced : Placed text out { s with keys } :=
      ⟨(placed_run hrun).tokens, (placed_run hrun).comments⟩
    obtain ⟨hnested, hquiet, hcol⟩ := nestedWith_readied hneeds.1 hneeds.2 hplaced hfront hr
    exact ⟨nestedWith_fetched hnested hquiet hpoised.placed hpoised.inPlace hpoised.taken
        (fronted_readied hfront hr) (fun k hk => (fresh_readied hr hk).1) hcol hf,
      quietKeys_fetched hquiet hnested.level hpoised.inPlace hpoised.taken hcol hf⟩
  | @give out queue t s s₁ _ hn hq ih =>
    obtain ⟨keys, hkeys, rfl⟩ := (needsMore_ok hn).eq_keys
    have hsame : out ++ [t] ++ queue = out ++ s.queue := by
      simp only at hq
      simp [hq]
    refine ⟨⟨?_, ?_, ?_⟩, fun k hk hzero => ?_⟩
    · rw [hsame]; exact ih.1.nested
    · rw [hsame]; exact ih.1.level
    · rw [hsame]; exact ih.1.stack
    · rw [hsame]; exact ih.2 k (hkeys.mem hk) hzero

end ScanState

/-- The block collections of a scan are well nested. Their starts and ends stand outside flow
collections. A collection starts to the right of all that are open, where an end closes the one that
was opened last, and outside flow collections no other token starts to the left of the innermost one.
No prefix has more ends than starts. The two numbers agree in front of every document mark and
directive outside flow collections, and at the end of a scan without an error, unless it ends inside a
flow collection. -/
theorem blocks_well_nested (text : List Char) :
    (∀ xs t ts, (scanText text).tokens = xs ++ t :: ts →
        (isBlockMark t.kind = true → flowDepth 0 xs = 0) ∧
        (isBlockStart t.kind = true → ∀ c ∈ openBlocks [] xs, c < t.start.column) ∧
        (t.kind ≠ .blockEnd → flowDepth 0 xs = 0 → ∀ c ∈ openBlocks [] xs, c ≤ t.start.column) ∧
        (isBoundary t.kind = true → flowDepth 0 xs = 0 →
          xs.countP (isBlockStart ·.kind) = xs.countP (·.kind == .blockEnd))) ∧
      (∀ xs, xs <+: (scanText text).tokens →
        xs.countP (·.kind == .blockEnd) ≤ xs.countP (isBlockStart ·.kind)) ∧
      ((scanText text).error = none → flowDepth 0 (scanText text).tokens = 0 →
        (scanText text).tokens.countP (isBlockStart ·.kind) =
          (scanText text).tokens.countP (·.kind == .blockEnd)) := by
  obtain ⟨s, hrun, hends⟩ := ScanState.run_scanText text
  have hnested := (nested_append.1 (ScanState.nestedWith_run hrun).1.nested).1
  -- the starts that no end has met yet are those of the open collections
  have hbalance : ∀ {xs ts : List Token}, (scanText text).tokens = xs ++ ts →
      xs.countP (·.kind == .blockEnd) + (openBlocks [] xs).length =
        xs.countP (isBlockStart ·.kind) := by
    intro xs ts he
    rw [he] at hnested
    exact (nested_append.1 hnested).1.countP
  have hbound : ∀ {xs ts : List Token} {t : Token}, (scanText text).tokens = xs ++ t :: ts →
      isBoundary t.kind = true → flowDepth 0 xs = 0 →
      xs.countP (isBlockStart ·.kind) = xs.countP (·.kind == .blockEnd) := by
    intro xs ts t he hb hzero
    have hcount := hbalance he
    rw [he] at hnested
    rw [(nested_append.1 hnested).2.1.bare hb hzero] at hcount
    exact hcount.symm
  refine ⟨fun xs t ts he => ?_, fun xs hxs => ?_, fun hnone hzero => ?_⟩
  · rw [he] at hnested
    have hnests := (nested_append.1 hnested).2.1
    exact ⟨hnests.flat, hnests.deeper, hnests.within, hbound he⟩
  · obtain ⟨ts, hts⟩ := hxs
    have hcount := hbalance hts.symm
    omega
  · -- the last token is the end of the stream, in front of which everything is closed
    unfold ScanState.Ends at hends
    rw [hnone] at hends
    obtain ⟨hdone, hqueue, -⟩ := hends
    obtain ⟨ts, last, he, -, hlast⟩ := (ScanState.framed_run hrun).1.ended hdone
    rw [hqueue, List.append_nil] at he
    rw [he, flowDepth_append, flowDepth_cons (by rw [hlast]; rfl)] at hzero
    have hcount := hbound he (by rw [hlast]; rfl) hzero
    rw [he, List.countP_append, List.countP_append, hcount]
    simp [hlast, isBlockStart]

/-- In `x:`, with an indented sequence on the next line, the sequence is opened to the right of the
mapping, and both are closed at the end. -/
theorem blocks_well_nested_sequence :
    (scanText "x:\n  - y".toList).error = none ∧
      (scanText "x:\n  - y".toList).tokens.countP (isBlockStart ·.kind) =
        (scanText "x:\n  - y".toList).tokens.countP (·.kind == .blockEnd) ∧
      ∃ xs t ts, (scanText "x:\n  - y".toList).tokens = xs ++ t :: ts ∧
        t.kind = .blockSequenceStart ∧ openBlocks [] xs = [0] ∧
        ∀ c ∈ openBlocks [] xs, c < t.start.column := by
  have herror : (scanText "x:\n  - y".toList).error = none := by decide +kernel
  have hdepth : flowDepth 0 (scanText "x:\n  - y".toList).tokens = 0 := by decide +kernel
  have hsplit : (scanText "x:\n  - y".toList).tokens =
      (scanText "x:\n  - y".toList).tokens.take 5 ++ .empty .blockSequenceStart ⟨5, 1, 2⟩ ::
        (scanText "x:\n  - y".toList).tokens.drop 6 := by decide +kernel
  obtain ⟨hsplits, -, hcount⟩ := blocks_well_nested "x:\n  - y".toList
  obtain ⟨-, hdeeper, -⟩ := hsplits _ _ _ hsplit
  exact ⟨herror, hcount herror hdepth, _, _, _, hsplit, rfl, by decide +kernel, hdeeper rfl⟩

end YamlLinter
