import YamlLinter.Proofs.Indentation.Neighbours

/-!
# Tokens that belong together

Those who read the tokens of a scan take for granted what stands right behind some of them: the start
of a block collection has its first mark behind it, and a key that no `?` announces has the token that
it was made of, and later its value. A `KEY` token goes into the queue long after the tokens around
it, so this is shown of the tokens in front of a possible key already when the key is saved.

## Contents

* `Adjoins`: what a token asks of the tokens behind it;
* `Joined`: every token of a list has what it asks for;
* `Joined.insert`: a key in front of its first token, and its value behind all others;
* `Front`: what is known of a possible key since it was saved;
* `joined_fetched`, `joined_run`: reading a lexeme keeps the tokens joined, and so does a run;
* `tokens_adjoin`: the neighbours of the tokens of a scan.
-/

namespace YamlLinter

open Indentation

variable {text : List Char} {depth : Nat} {t u v : Token} {ts us xs ys : List Token}

/-! ## Neighbours -/

/-- A key of one character, which is `?`. -/
def Announced (text : List Char) (t : Token) : Prop :=
  ∃ n, t.start.At text n ∧ text[n]? = some '?' ∧ t.stop.At text (n + 1)

/-- Among the tokens behind `t`, with `depth` flow collections open, there is a value at the same
depth, on the same line and at most as far away as a key without `?` may be long. -/
def ValueFollows (text : List Char) (depth : Nat) (t : Token) (ts : List Token) : Prop :=
  ∃ ys v zs, ts = ys ++ v :: zs ∧ v.kind = .value ∧ flowDepth depth ys = depth ∧
    v.start.line = t.start.line ∧
    ∃ m n, t.start.At text m ∧ v.start.At text n ∧ m ≤ n ∧ n ≤ m + longestSimpleKey

/-- What a token asks of the tokens behind it, with `depth` flow collections open. -/
structure Adjoins (text : List Char) (depth : Nat) (t : Token) (ts : List Token) : Prop where
  sequence : t.kind = .blockSequenceStart →
    ∃ u us, ts = u :: us ∧ u.kind = .blockEntry ∧ u.start = t.start
  mapping : t.kind = .blockMappingStart →
    ∃ u us, ts = u :: us ∧ (u.kind = .key ∨ u.kind = .value) ∧ u.start = t.start
  key : t.kind = .key → Announced text t ∨ t.stop = t.start ∧
    (∃ u us, ts = u :: us ∧ ScanState.opensKey u.kind = true ∧ u.start = t.start) ∧
    ValueFollows text depth t ts

theorem Adjoins.append (h : Adjoins text depth t ts) (us : List Token) :
    Adjoins text depth t (ts ++ us) where
  sequence ht := by
    obtain ⟨u, vs, rfl, hu⟩ := h.sequence ht
    exact ⟨u, vs ++ us, rfl, hu⟩
  mapping ht := by
    obtain ⟨u, vs, rfl, hu⟩ := h.mapping ht
    exact ⟨u, vs ++ us, rfl, hu⟩
  key ht := by
    rcases h.key ht with hmark | ⟨hempty, ⟨u, vs, hvs, hu⟩, ys, v, zs, hzs, hv⟩
    · exact .inl hmark
    · exact .inr ⟨hempty, ⟨u, vs ++ us, by rw [hvs]; rfl, hu⟩, ys, v, zs ++ us, by simp [hzs], hv⟩

/-- The kinds of token that ask for nothing. -/
def isSelfContained : TokenKind → Bool
  | .blockSequenceStart | .blockMappingStart | .key => false
  | _ => true

theorem Adjoins.of_isSelfContained (h : isSelfContained t.kind = true) :
    Adjoins text depth t ts := by
  constructor <;> · intro ht; simp [ht, isSelfContained] at h

/-- Every token has what it asks of those behind it. -/
def Joined (text : List Char) (depth : Nat) : List Token → Prop
  | [] => True
  | t :: ts => Adjoins text depth t ts ∧ Joined text (flowDepth depth [t]) ts

namespace Joined

theorem append (h₁ : Joined text depth ts) (h₂ : Joined text (flowDepth depth ts) us) :
    Joined text depth (ts ++ us) := by
  induction ts generalizing depth with
  | nil => exact h₂
  | cons t ts ih =>
    refine ⟨h₁.1.append us, ih h₁.2 ?_⟩
    rw [← flowDepth_append]
    exact h₂

theorem behind (h : Joined text depth (ts ++ us)) : Joined text (flowDepth depth ts) us := by
  induction ts generalizing depth with
  | nil => exact h
  | cons t ts ih =>
    rw [← List.singleton_append, flowDepth_append]
    exact ih h.2

theorem of_forall (h : ∀ t ∈ ts, isSelfContained t.kind = true) : Joined text depth ts := by
  induction ts generalizing depth with
  | nil => exact trivial
  | cons t ts ih =>
    exact ⟨.of_isSelfContained (h t List.mem_cons_self),
      ih fun u hu => h u (List.mem_cons_of_mem t hu)⟩

theorem single (h : isSelfContained t.kind = true) : Joined text depth [t] :=
  of_forall (by simpa using h)

/-- A value makes a key of the tokens behind `xs`: their first token starts where the key does. -/
theorem insert {m : Mark} (hxs : Joined text 0 xs) (hys : Joined text (flowDepth 0 xs) (u :: ys))
    (hu : ScanState.opensKey u.kind = true ∧ u.start = m) (hv : v.kind = .value)
    (hvalue : ValueFollows text (flowDepth 0 xs) (.empty .key m) (u :: ys ++ [v]))
    (hus : us = [.empty .key m] ∨ us = [.empty .blockMappingStart m, .empty .key m]) :
    Joined text 0 (xs ++ us ++ (u :: ys) ++ [v]) := by
  have hback : Joined text (flowDepth 0 xs) (u :: ys ++ [v]) :=
    hys.append (single (by simp [hv, isSelfContained]))
  have hkey : Joined text (flowDepth 0 xs) (.empty .key m :: (u :: ys ++ [v])) := by
    refine ⟨⟨by simp [Token.empty], by simp [Token.empty], fun _ => .inr ⟨rfl, ?_, hvalue⟩⟩, hback⟩
    exact ⟨u, ys ++ [v], rfl, hu⟩
  rw [List.append_assoc, List.append_assoc]
  refine hxs.append ?_
  rcases hus with rfl | rfl
  · exact hkey
  · refine ⟨⟨by simp [Token.empty], fun _ => ?_, by simp [Token.empty]⟩, hkey⟩
    exact ⟨.empty .key m, u :: ys ++ [v], rfl, .inl rfl, rfl⟩

end Joined

/-! ## Along a scan -/

namespace ScanState

variable {s s' s₁ : ScanState} {out : List Token} {k : SimpleKey}

/-- What is known of a possible key since it was saved: the tokens in front of it are joined without
those behind them, and open as many flow collections as its level says. -/
structure Front (text : List Char) (xs : List Token) (u : Token) (k : SimpleKey) : Prop where
  joined : Joined text 0 xs
  level : flowDepth 0 xs = k.level
  opens : opensKey u.kind = true
  start : u.start = k.mark
  place : k.mark.At text k.pos

/-- A `?` at the cursor makes a key that is announced. -/
theorem announced_of_peek (hc : (Cursor.ofText text).Ahead s.cursor) (hne : s.cursor.rest ≠ [])
    (hp : s.cursor.peek = '?') :
    Announced text ⟨.key, s.cursor.mark, (s.cursor.forward 1).mark⟩ := by
  obtain ⟨ch, rest, hr⟩ := List.exists_cons_of_ne_nil hne
  have hmark : ch = '?' := by simpa [Cursor.peek, Cursor.peekAt, hr] using hp
  have hpos : (s.cursor.forward 1).pos = s.cursor.pos + 1 := s.cursor.pos_forward (by simp [hr])
  have hstop : (s.cursor.forward 1).mark.At text (s.cursor.pos + 1) :=
    hpos ▸ (hc.then_forward 1).at_pos
  exact ⟨s.cursor.pos, hc.at_pos, hmark ▸ hc.getElem?_pos hr, hstop⟩

/-- The mark of an entry, a key or a value, behind the collection that it opens. -/
theorem joined_entry {kind opens : TokenKind} (h : Joined text 0 (out ++ s.queue))
    (hc : (Cursor.ofText text).Ahead s.cursor) (hne : s.cursor.rest ≠ [])
    (hm : EntryMark s kind opens) (ho : Opened s opens s₁) :
    Joined text 0 (out ++ (s₁.queue ++ [⟨kind, s.cursor.mark, (s.cursor.forward 1).mark⟩])) := by
  let mark : Token := ⟨kind, s.cursor.mark, (s.cursor.forward 1).mark⟩
  have hmark : ∀ {depth}, Joined text depth [mark] := by
    intro depth
    cases hm with
    | entry => exact .single rfl
    | key hp =>
      have hkey := announced_of_peek hc hne hp
      exact ⟨⟨by simp [mark], by simp [mark], fun _ => .inl hkey⟩, trivial⟩
    | value => exact .single rfl
  have hopened : ∀ {depth}, Joined text depth [.empty opens s.cursor.mark, mark] := by
    intro depth
    refine ⟨?_, hmark⟩
    cases hm with
    | entry => exact ⟨fun _ => ⟨mark, [], rfl, rfl, rfl⟩, by simp [Token.empty], by simp [Token.empty]⟩
    | key =>
      exact ⟨by simp [Token.empty], fun _ => ⟨mark, [], rfl, .inl rfl, rfl⟩, by simp [Token.empty]⟩
    | value =>
      exact ⟨by simp [Token.empty], fun _ => ⟨mark, [], rfl, .inr rfl, rfl⟩, by simp [Token.empty]⟩
  cases ho with
  | flow =>
    rw [← List.append_assoc]
    exact h.append hmark
  | block =>
    rcases s.queue_openBlock opens with hq | hq
    · rw [hq, ← List.append_assoc]
      exact h.append hmark
    · rw [hq, List.append_assoc s.queue, ← List.append_assoc]
      exact h.append hopened

/-- A value behind a possible key. -/
theorem joined_value (h : Joined text 0 (out ++ s.queue))
    (hlevel : flowDepth 0 (out ++ s.queue) = s.flowLevel)
    (hc : (Cursor.ofText text).Ahead s.cursor) (hp : s.KeysInPlace) (ht : s.taken = out.length)
    (hk : s.currentKey? = some k) (hfront : Fronted (Front text) (out ++ s.queue) k)
    (hfresh : k.mark.line = s.cursor.line ∧ s.cursor.pos - k.pos ≤ longestSimpleKey) :
    Joined text 0 (out ++ ((s.forgetKey.insertKey k).queue ++
      [⟨.value, s.cursor.mark, (s.cursor.forward 1).mark⟩])) := by
  obtain ⟨hmem, hkey⟩ := mem_keys_of_currentKey? hk
  obtain ⟨xs, u, ⟨ys, hys⟩, hlen, hfront⟩ := hfront
  have hsplit : out ++ s.queue = xs ++ u :: ys := by simpa using hys.symm
  obtain ⟨us, hinsert, hus⟩ := tokens_insertKey (s := s.forgetKey) ht (hp.taken_le k hmem) hsplit hlen
  rw [← List.append_assoc, hinsert]
  rw [hsplit] at h hlevel
  have hpos := hp.pos_le k hmem
  -- since the key was saved, as many flow collections have been closed as opened
  have hdepth : flowDepth (flowDepth 0 xs) (u :: ys) = flowDepth 0 xs := by
    rw [← flowDepth_append, hlevel, hfront.level, hkey]
  refine hfront.joined.insert h.behind ⟨hfront.opens, hfront.start⟩ rfl ?_ hus
  refine ⟨u :: ys, _, [], rfl, rfl, hdepth, hfresh.1.symm, ?_⟩
  exact ⟨k.pos, s.cursor.pos, hfront.place, hc.at_pos, hpos, by omega⟩

/-- Reading a lexeme keeps the tokens joined. -/
theorem joined_fetched (h : Joined text 0 (out ++ s.queue))
    (hlevel : flowDepth 0 (out ++ s.queue) = s.flowLevel)
    (hc : (Cursor.ofText text).Ahead s.cursor) (hp : s.KeysInPlace) (ht : s.taken = out.length)
    (hfront : ∀ k ∈ s.keys, Fronted (Front text) (out ++ s.queue) k)
    (hfresh : ∀ k ∈ s.keys, k.mark.line = s.cursor.line ∧ s.cursor.pos - k.pos ≤ longestSimpleKey)
    (hf : Fetched s s') : Joined text 0 (out ++ s'.queue) := by
  -- most lexemes push one token that asks nothing of its neighbours
  have hpush : ∀ {t : Token}, isSelfContained t.kind = true →
      Joined text 0 (out ++ (s.queue ++ [t])) := by
    intro t ht
    rw [← List.append_assoc]
    exact h.append (.single ht)
  have hclose : ∀ {t : Token}, isSelfContained t.kind = true →
      Joined text 0 (out ++ ((s.unwind (-1)).queue ++ [t])) := by
    intro t ht
    obtain ⟨n, hq⟩ := s.queue_unwind (-1)
    rw [hq, List.append_assoc s.queue, ← List.append_assoc]
    refine h.append (.append (.of_forall fun u hu => ?_) (.single ht))
    rw [List.eq_of_mem_replicate hu]
    rfl
  cases hf with
  | streamEnd => exact hclose rfl
  | directive hne hd =>
    obtain ⟨-, -, name, value, hk⟩ := Cursor.reads_directive hne hd
    exact hclose (by simp [hk, isSelfContained])
  | marker _ _ hk => exact hclose (by rcases hk with ⟨-, rfl⟩ | ⟨-, rfl⟩ <;> rfl)
  | @flowStart s₁ kind _ hs hk =>
    have hq : s₁.queue = s.queue := by cases hs <;> rfl
    simp only [pushMark, hq]
    exact hpush (by rcases hk with rfl | rfl <;> rfl)
  | flowEnd _ hk => exact hpush (by rcases hk with rfl | rfl <;> rfl)
  | flowEntry => exact hpush rfl
  | entry hne hm ho =>
    simp only [pushMark, forgetKey, opened_cursor ho]
    exact joined_entry h hc hne hm ho
  | @value k _ hk =>
    have hmem := (mem_keys_of_currentKey? hk).1
    simp only [pushMark, insertKey_cursor]
    exact joined_value h hlevel hc hp ht hk (hfront k hmem) (hfresh k hmem)
  | @keyable s₁ t c allowKey hs hr hk =>
    have hq : s₁.queue = s.queue := by cases hs <;> rfl
    simp only [hq]
    refine hpush ?_
    obtain ⟨_, hk⟩ | ⟨_, hk⟩ | ⟨_, _, hk⟩ | ⟨_, _, hk⟩ := kind_of_startsKey hk <;>
      simp [hk, isSelfContained]
  | block _ _ _ hscalar =>
    obtain ⟨value, style, hk⟩ := kind_of_isScalar hscalar
    exact hpush (by simp [hk, isSelfContained])

/-- In all states of a run the tokens given and queued are joined, and the possible keys are where
they were saved. -/
theorem joined_run (h : Run text out s) :
    Joined text 0 (out ++ s.queue) ∧
      ∀ k ∈ s.keys, Fronted (Front text) (out ++ s.queue) k := by
  induction h with
  | start => exact ⟨.single rfl, by simp [ofText]⟩
  | @fetch out s s₁ s' hrun hn hf ih =>
    obtain ⟨s₂, hpoised, hf⟩ := hrun.poised hn hf
    obtain ⟨keys, hkeys, hr⟩ := hpoised.ready
    obtain ⟨n, hq⟩ := queue_readied hr
    have hc := hpoised.placed.tokens.ahead
    have hlevel : flowDepth 0 (out ++ s₂.queue) = s₂.flowLevel := by
      have hsane : SaneWith (Text.bytes text) out { s with keys } := (sane_run hrun).sublist hkeys
      exact (sane_readied hsane hr).level
    have hjoined : Joined text 0 (out ++ s₂.queue) := by
      rw [hq, ← List.append_assoc]
      refine ih.1.append (.of_forall fun u hu => ?_)
      rw [List.eq_of_mem_replicate hu]
      rfl
    have hfront : ∀ k ∈ s₂.keys, Fronted (Front text) (out ++ s₂.queue) k :=
      fronted_readied (s := { s with keys }) (fun k hk => ih.2 k (hkeys.mem hk)) hr
    refine ⟨joined_fetched hjoined hlevel hc hpoised.inPlace hpoised.taken hfront
      (fun k => fresh_readied hr) hf, ?_⟩
    refine fronted_fetched hfront hpoised.inPlace hpoised.taken (fun t hstart hopens => ?_) hf
    exact ⟨hjoined, hlevel, hopens, hstart, hc.at_pos⟩
  | @give out queue t s s₁ _ hn hq ih =>
    obtain ⟨keys, hkeys, rfl⟩ := (needsMore_ok hn).eq_keys
    have hsame : out ++ [t] ++ queue = out ++ s.queue := by
      simp only at hq
      simp [hq]
    simp only [hsame]
    exact ⟨ih.1, fun k hk => ih.2 k (hkeys.mem hk)⟩

end ScanState

/-- A token of one character is not empty. -/
theorem Announced.index_lt (h : Announced text t) : t.start.index < t.stop.index := by
  obtain ⟨n, hstart, hch, hstop⟩ := h
  rw [hstart.index, hstop.index, List.take_add_one, hch, Text.byteCount_append]
  simp [Text.byteCount, Char.utf8Size_pos]

/-- The neighbours of the tokens of a scan without an error. The start of a block sequence has its
first `-` right behind it and at the same place, the start of a block mapping its first key or value.
A key is a `?` or has no extent. One without extent has the token it was made of right behind it and
at the same place, and later a value at the same flow depth, on the same line and at most 1024
characters away. -/
theorem tokens_adjoin (h : (scanText text).error = none)
    (he : (scanText text).tokens = xs ++ t :: ts) :
    (t.kind = .blockSequenceStart →
        ∃ u us, ts = u :: us ∧ u.kind = .blockEntry ∧ u.start = t.start) ∧
      (t.kind = .blockMappingStart →
        ∃ u us, ts = u :: us ∧ (u.kind = .key ∨ u.kind = .value) ∧ u.start = t.start) ∧
      (t.kind = .key →
        (∃ n, t.start.At text n ∧ text[n]? = some '?' ∧ t.stop.At text (n + 1)) ∨
          t.stop = t.start) ∧
      (t.kind = .key → t.stop.index = t.start.index →
        (∃ u us, ts = u :: us ∧ ScanState.opensKey u.kind = true ∧ u.start = t.start) ∧
          ∃ ys v zs, ts = ys ++ v :: zs ∧ v.kind = .value ∧
            flowDepth 0 (xs ++ t :: ys) = flowDepth 0 xs ∧ v.start.line = t.start.line ∧
            ∃ m n, t.start.At text m ∧ v.start.At text n ∧ m ≤ n ∧ n ≤ m + 1024) := by
  obtain ⟨s, hrun, hends⟩ := ScanState.run_scanText text
  unfold ScanState.Ends at hends
  rw [h] at hends
  obtain ⟨-, hqueue, -⟩ := hends
  have hjoined := (ScanState.joined_run hrun).1
  rw [hqueue, List.append_nil, he] at hjoined
  have hadjoins := hjoined.behind.1
  refine ⟨hadjoins.sequence, hadjoins.mapping, fun hkey => ?_, fun hkey hempty => ?_⟩
  · exact (hadjoins.key hkey).imp id And.left
  · rcases hadjoins.key hkey with hmark | ⟨-, hfirst, ys, v, zs, hts, hv, hdepth, hnear⟩
    · have hlt := hmark.index_lt
      omega
    · refine ⟨hfirst, ys, v, zs, hts, hv, ?_, hnear⟩
      rw [flowDepth_append, flowDepth_cons (by rw [hkey]; rfl), hdepth]

/-- The key in front of the outer mapping of `{a: b}: c` has its value behind that mapping, not inside
it. -/
theorem tokens_adjoin_flowKey :
    (scanText "{a: b}: c".toList).error = none ∧
      ∃ xs t ts, (scanText "{a: b}: c".toList).tokens = xs ++ t :: ts ∧ t.kind = .key ∧
        xs.length = 2 ∧ t.stop = t.start ∧
        (∃ u us, ts = u :: us ∧ ScanState.opensKey u.kind = true ∧ u.start = t.start) ∧
        ∃ ys v zs, ts = ys ++ v :: zs ∧ v.kind = .value ∧
          flowDepth 0 (xs ++ t :: ys) = flowDepth 0 xs ∧ v.start.line = t.start.line := by
  have herror : (scanText "{a: b}: c".toList).error = none := by decide +kernel
  have hsplit : (scanText "{a: b}: c".toList).tokens =
      (scanText "{a: b}: c".toList).tokens.take 2 ++ .empty .key .origin ::
        (scanText "{a: b}: c".toList).tokens.drop 3 := by decide +kernel
  obtain ⟨-, -, -, hvalue⟩ := tokens_adjoin herror hsplit
  obtain ⟨hfirst, ys, v, zs, hts, hv, hdepth, hline, -⟩ := hvalue rfl rfl
  exact ⟨herror, _, _, _, hsplit, rfl, by decide +kernel, rfl, hfirst, ys, v, zs, hts, hv, hdepth,
    hline⟩

end YamlLinter
