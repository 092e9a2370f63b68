import YamlLinter.Proofs.Run
import YamlLinter.Proofs.Tandem.Lexeme

/-!
# Scans in tandem

Two scanners over texts that say the same stay in step: they hold the same tokens and keys at places
that belong together, ask for more at the same time, and fetch the same lexemes. So every run over
the left text is followed by one over the right text, and the two scans end alike.

## Contents

* `KeyPair`, `InStep`: possible keys and states that belong together;
* keys, indents and the queue in step;
* `InStep.fetchLead`, `InStep.fetch`, `InStep.needsMore`: one step of both scanners;
* `Follows`, `ScanPair`, `Follows.ends`: whole scans;
* `started`, `scanPair_started`: scans that are in step from the start of the left stream on.
-/

namespace YamlLinter

open Text ScanState

namespace Tandem

variable {w : Tandem} {s t : ScanState}

/-! ## States -/

/-- Possible keys at two cursors that are passed at the same time. -/
structure KeyPair (w : Tandem) (k l : SimpleKey) : Prop where
  level : l.level = k.level
  tokenNumber : l.tokenNumber = k.tokenNumber + w.given
  required : l.required = k.required
  place : ∃ c d : Cursor, w.Passes c d ∧ k.pos = c.pos ∧ k.mark = c.mark ∧ l.pos = d.pos ∧
    l.mark = d.mark

/-- States of two scanners that belong together. -/
structure InStep (w : Tandem) (s t : ScanState) : Prop where
  cursor : w.Passes s.cursor t.cursor
  done : t.done = s.done
  flowLevel : t.flowLevel = s.flowLevel
  queue : List.Forall₂ w.TokenPair s.queue t.queue
  taken : t.taken = s.taken + w.given
  indent : t.indent = s.indent
  indents : t.indents = s.indents
  allowKey : t.allowKey = s.allowKey
  keys : List.Forall₂ w.KeyPair s.keys t.keys
  comments : ∃ ks, t.comments = w.noted ++ ks ∧ List.Forall₂ w.CommentPair s.comments ks

/-- Keys that belong together stand at marks that do. -/
theorem KeyPair.markPair {k l : SimpleKey} (h : w.KeyPair k l) : w.MarkPair k.mark l.mark := by
  obtain ⟨c, d, hp, -, hm, -, hm'⟩ := h.place
  exact ⟨c, d, hp, hm, hm'⟩

/-- Marks that belong together are in one column. -/
theorem MarkPair.column {m m' : Mark} (h : w.MarkPair m m') : m'.column = m.column := by
  obtain ⟨c, d, hp, rfl, rfl⟩ := h
  exact hp.column

/-- Tokens without text belong together where their marks do. -/
theorem MarkPair.empty {m m' : Mark} (h : w.MarkPair m m') (kind : TokenKind) :
    w.TokenPair (.empty kind m) (.empty kind m') :=
  ⟨rfl, h, h⟩

/-- A missing colon is told of on both sides. -/
theorem KeyPair.missingColon {k l : SimpleKey} (h : w.KeyPair k l) :
    w.ErrorPair ⟨.missingColon, k.mark⟩ ⟨.missingColon, l.mark⟩ :=
  ⟨h.markPair, fun _ => rfl⟩

/-- The first of the things with a property, where both sides have it together. -/
theorem forall₂_find? {α : Type} {R : α → α → Prop} {p q : α → Bool} {xs ys : List α}
    (h : List.Forall₂ R xs ys) (hpq : ∀ {a b}, R a b → q b = p a) :
    Option.Rel R (xs.find? p) (ys.find? q) := by
  induction h with
  | nil => exact .none
  | @cons a b xs ys hab _ ih =>
    rw [List.find?_cons, List.find?_cons, hpq hab]
    cases p a with
    | true => exact .some hab
    | false => exact ih

theorem forall₂_filter {α : Type} {R : α → α → Prop} {p q : α → Bool} {xs ys : List α}
    (h : List.Forall₂ R xs ys) (hpq : ∀ {a b}, R a b → q b = p a) :
    List.Forall₂ R (xs.filter p) (ys.filter q) := by
  refine List.rel_filter (fun a b hab => ?_) h
  simp only [hpq hab]

theorem forall₂_any {α : Type} {R : α → α → Prop} {p q : α → Bool} {xs ys : List α}
    (h : List.Forall₂ R xs ys) (hpq : ∀ {a b}, R a b → q b = p a) : ys.any q = xs.any p := by
  induction h with
  | nil => rfl
  | cons hab _ ih => rw [List.any_cons, List.any_cons, hpq hab, ih]

theorem forall₂_replicate {α : Type} {R : α → α → Prop} {a b : α} (h : R a b) (n : Nat) :
    List.Forall₂ R (List.replicate n a) (List.replicate n b) := by
  induction n with
  | zero => exact .nil
  | succ n ih => exact .cons h ih

namespace InStep

/-- Both scanners are inside flow collections, or none is. -/
theorem inFlow (h : w.InStep s t) : t.inFlow = s.inFlow := by
  rw [ScanState.inFlow, ScanState.inFlow, h.flowLevel]

/-- Whether a key may start can be set on both sides. -/
theorem allow (h : w.InStep s t) (allowKey : Bool) :
    w.InStep { s with allowKey } { t with allowKey } :=
  { h with allowKey := rfl }

/-- Comments that belong together, behind those seen so far. -/
theorem addComments {ks ls : List Comment} (h : w.InStep s t)
    (hk : List.Forall₂ w.CommentPair ks ls) :
    ∃ ms, t.comments ++ ls = w.noted ++ ms ∧ List.Forall₂ w.CommentPair (s.comments ++ ks) ms := by
  obtain ⟨ms, heq, hms⟩ := h.comments
  exact ⟨ms ++ ls, by rw [heq, List.append_assoc], List.rel_append hms hk⟩

/-- Tokens that belong together, behind those in the queue. -/
theorem addToken {a b : Token} (h : w.InStep s t) (hab : w.TokenPair a b) :
    List.Forall₂ w.TokenPair (s.queue ++ [a]) (t.queue ++ [b]) :=
  List.rel_append h.queue (.cons hab .nil)

/-- Both read a text without line feeds as a token. -/
theorem pushMark {u : List Char} (h : w.InStep s t) (kind : TokenKind) (hu : u <+: s.cursor.rest)
    (hn : '\n' ∉ u) : w.InStep (s.pushMark kind u.length) (t.pushMark kind u.length) :=
  have hread := h.cursor.forward hu hn
  { h with
    cursor := hread
    queue := h.addToken ⟨rfl, h.cursor.markPair, hread.markPair⟩ }

/-- A token of one character is passed in step, if it ends no line. -/
theorem pushOne (h : w.InStep s t) (kind : TokenKind) (hc : s.cursor.peek ≠ '\n') :
    w.InStep (s.pushMark kind 1) (t.pushMark kind 1) :=
  have hread := h.cursor.forward_one hc
  { h with
    cursor := hread
    queue := h.addToken ⟨rfl, h.cursor.markPair, hread.markPair⟩ }

/-! ## Keys -/

/-- A key has ended on both sides or on none. -/
theorem staleKey {k l : SimpleKey} (h : w.InStep s t) (hk : w.KeyPair k l) :
    t.staleKey l = s.staleKey k := by
  obtain ⟨c, d, hp, hpos, hm, hpos', hm'⟩ := hk.place
  rw [ScanState.staleKey, ScanState.staleKey, hpos, hm, hpos', hm']
  exact h.cursor.stale hp

/-- Keys that have ended are dropped in step. -/
theorem dropStaleKeys (h : w.InStep s t) :
    w.Agree w.InStep s.dropStaleKeys t.dropStaleKeys := by
  have hfind := forall₂_find? (p := fun k => s.staleKey k && k.required)
    (q := fun k => t.staleKey k && k.required) h.keys fun hk => by rw [h.staleKey hk, hk.required]
  unfold ScanState.dropStaleKeys
  generalize s.keys.find? _ = x at hfind ⊢
  generalize t.keys.find? _ = y at hfind ⊢
  cases hfind with
  | some hk => exact .error hk.missingColon
  | none =>
    refine .ok { h with keys := forall₂_filter h.keys fun hk => ?_ }
    rw [h.staleKey hk]

theorem currentKey? (h : w.InStep s t) : Option.Rel w.KeyPair s.currentKey? t.currentKey? :=
  forall₂_find? h.keys fun hk => by rw [hk.level, h.flowLevel]

theorem forgetKey (h : w.InStep s t) : w.InStep s.forgetKey t.forgetKey :=
  { h with keys := forall₂_filter h.keys fun hk => by rw [hk.level, h.flowLevel] }

/-- Keys are dropped in step, and nobody moves. -/
theorem removeKey (h : w.InStep s t) :
    w.Agree (fun s' t' => w.InStep s' t' ∧ s'.cursor = s.cursor) s.removeKey t.removeKey := by
  have hkey := h.currentKey?
  unfold ScanState.removeKey
  generalize s.currentKey? = x at hkey ⊢
  generalize t.currentKey? = y at hkey ⊢
  cases hkey with
  | none => exact .ok ⟨h.forgetKey, rfl⟩
  | some hk =>
    simp only [hk.required]
    split
    · exact .error hk.missingColon
    · exact .ok ⟨h.forgetKey, rfl⟩

/-- Keys that start at cursors in step belong together. -/
theorem keyHere (h : w.InStep s t) : w.KeyPair s.keyHere t.keyHere where
  level := h.flowLevel
  tokenNumber := by
    simp only [ScanState.keyHere, h.taken, h.queue.length_eq]
    omega
  required := by simp only [ScanState.keyHere, h.inFlow, h.indent, h.cursor.column]
  place := ⟨s.cursor, t.cursor, h.cursor, rfl, rfl, rfl, rfl⟩

/-- Keys are saved in step, and nobody moves. -/
theorem saveKey (h : w.InStep s t) :
    w.Agree (fun s' t' => w.InStep s' t' ∧ s'.cursor = s.cursor) s.saveKey t.saveKey := by
  unfold ScanState.saveKey
  rw [h.allowKey]
  split
  · rcases h.removeKey with ⟨e, f, hx, hy, he⟩ | ⟨s', t', hx, hy, h', hs⟩
    · rw [hx, hy]
      exact .error he
    · rw [hx, hy]
      exact .ok ⟨{ h' with keys := List.rel_append h'.keys (.cons h.keyHere .nil) }, hs⟩
  · exact .ok ⟨h, rfl⟩

/-- Both scanners wait for a colon, or none does. -/
theorem awaitsKey (h : w.InStep s t) : t.awaitsKey = s.awaitsKey := by
  refine forall₂_any h.keys fun hk => ?_
  rw [hk.tokenNumber, h.taken, Bool.eq_iff_iff, beq_iff_eq, beq_iff_eq, Nat.add_right_cancel_iff]

/-- Both scanners ask for more tokens at the same time. -/
theorem needsMore (h : w.InStep s t) :
    w.Agree (fun a b => b.1 = a.1 ∧ w.InStep a.2 b.2) s.needsMore t.needsMore := by
  have hempty : t.queue.isEmpty = s.queue.isEmpty := by
    have hq := h.queue
    generalize s.queue = xs at hq ⊢
    generalize t.queue = ys at hq ⊢
    cases hq <;> rfl
  unfold ScanState.needsMore
  rw [h.done, hempty]
  split
  · exact .ok ⟨rfl, h⟩
  · split
    · exact .ok ⟨rfl, h⟩
    · rcases h.dropStaleKeys with ⟨e, f, hx, hy, he⟩ | ⟨s', t', hx, hy, h'⟩
      · rw [hx, hy]
        exact .error he
      · rw [hx, hy]
        exact .ok ⟨h'.awaitsKey, h'⟩

/-! ## Indents -/

theorem unwind (h : w.InStep s t) (column : Int) :
    w.InStep (s.unwind column) (t.unwind column) := by
  unfold ScanState.unwind
  rw [h.inFlow, h.indent, h.indents]
  split
  · exact h
  · have hends := forall₂_replicate (h.cursor.markPair.empty .blockEnd)
      (closeIndents column s.indent s.indents).1
    exact { h with queue := List.rel_append h.queue hends, indent := rfl, indents := rfl }

theorem openBlock (h : w.InStep s t) (kind : TokenKind) :
    w.InStep (s.openBlock kind) (t.openBlock kind) := by
  unfold ScanState.openBlock ScanState.nests
  rw [h.indent, h.cursor.column]
  split
  · exact { h with
      queue := h.addToken (h.cursor.markPair.empty kind)
      indent := rfl
      indents := by simp only [push, openIndent, h.indent, h.indents] }
  · exact h

/-- Block collections may start on both sides or on none. -/
theorem openBlockOr (h : w.InStep s t) (kind : TokenKind) (cause : ScanError.Cause) :
    w.Agree (fun s' t' => w.InStep s' t' ∧ s'.cursor = s.cursor) (s.openBlockOr kind cause)
      (t.openBlockOr kind cause) := by
  unfold ScanState.openBlockOr
  rw [h.inFlow, h.allowKey]
  split
  · exact .ok ⟨h, rfl⟩
  · split
    · exact .ok ⟨h.openBlock kind, openBlock_cursor s kind⟩
    · exact h.cursor.fail fun _ => rfl

/-- Tokens are put in front of others in step. The right side counts those given before the left
stream. -/
theorem insertAt {ks ls : List Token} {n : Nat} (h : w.InStep s t)
    (hk : List.Forall₂ w.TokenPair ks ls) :
    w.InStep (s.insertAt n ks) (t.insertAt (n + w.given) ls) := by
  have hplace : n + w.given - t.taken = n - s.taken := by
    rw [h.taken]
    omega
  unfold ScanState.insertAt
  rw [hplace]
  exact { h with
    queue := List.rel_append (List.rel_append (List.forall₂_take _ h.queue) hk)
      (List.forall₂_drop _ h.queue) }

/-- Keys get their tokens in step. -/
theorem insertKey {k l : SimpleKey} (h : w.InStep s t) (hk : w.KeyPair k l) :
    w.InStep (s.insertKey k) (t.insertKey l) := by
  have hm := hk.markPair
  unfold ScanState.insertKey ScanState.nests
  simp only [h.inFlow, h.indent, hm.column, hk.tokenNumber]
  split
  · have hopen : w.InStep (s.openIndent k.mark.column) (t.openIndent k.mark.column) :=
      { h with indent := rfl, indents := by simp only [openIndent, h.indent, h.indents] }
    exact hopen.insertAt (.cons (hm.empty _) (.cons (hm.empty _) .nil))
  · exact h.insertAt (.cons (hm.empty _) .nil)

/-! ## Fetching -/

/-- The two texts end at the same time. -/
theorem fetchStreamEnd (h : w.InStep s t) :
    w.Agree w.InStep s.fetchStreamEnd t.fetchStreamEnd := by
  unfold ScanState.fetchStreamEnd
  rcases (h.unwind (-1)).removeKey with ⟨e, f, hx, hy, he⟩ | ⟨s', t', hx, hy, h', -⟩
  · rw [hx, hy]
    exact .error he
  · rw [hx, hy]
    exact .ok { h' with
      allowKey := rfl
      keys := .nil
      queue := h'.addToken (h'.cursor.markPair.empty _)
      done := rfl }

theorem fetchDirective (h : w.InStep s t) (hc : s.cursor.peek ≠ '\n') :
    w.Agree w.InStep s.fetchDirective t.fetchDirective := by
  unfold ScanState.fetchDirective
  rcases (h.unwind (-1)).removeKey with ⟨e, f, hx, hy, he⟩ | ⟨s', t', hx, hy, h', hs⟩
  · rw [hx, hy]
    exact .error he
  · rw [unwind_cursor] at hs
    simp only [hx, hy]
    rcases h'.cursor.directive (by rwa [hs]) with
      ⟨e, f, hx, hy, he⟩ | ⟨⟨a, k, c⟩, ⟨b, l, d⟩, hx, hy, hab, hk, hcd⟩
    · rw [hx, hy]
      exact .error he
    · rw [hx, hy]
      exact .ok { h' with
        allowKey := rfl
        cursor := hcd
        comments := h'.addComments hk
        queue := h'.addToken hab }

/-- Document markers are fetched in step. Their three characters stand on one line. -/
theorem fetchMarker {ch : Char} (h : w.InStep s t) (kind : TokenKind) (hch : ch ≠ '\n')
    (hc : s.cursor.atMarker ch = true) :
    w.Agree w.InStep (s.fetchMarker kind) (t.fetchMarker kind) := by
  have hfront : [ch, ch, ch] <+: s.cursor.rest := by
    simp only [Cursor.atMarker, Bool.and_eq_true, beq_iff_eq] at hc
    exact List.prefix_iff_eq_take.2 hc.1.2.symm
  unfold ScanState.fetchMarker
  rcases (h.unwind (-1)).removeKey with ⟨e, f, hx, hy, he⟩ | ⟨s', t', hx, hy, h', hs⟩
  · rw [hx, hy]
    exact .error he
  · rw [unwind_cursor] at hs
    rw [hx, hy]
    exact .ok ((h'.allow false).pushMark kind (u := [ch, ch, ch]) (by simpa only [hs] using hfront)
      (by simp [Ne.symm hch]))

theorem fetchFlowStart (h : w.InStep s t) (kind : TokenKind) (hc : s.cursor.peek ≠ '\n') :
    w.Agree w.InStep (s.fetchFlowStart kind) (t.fetchFlowStart kind) := by
  unfold ScanState.fetchFlowStart
  rcases h.saveKey with ⟨e, f, hx, hy, he⟩ | ⟨s', t', hx, hy, h', hs⟩
  · rw [hx, hy]
    exact .error he
  · rw [hx, hy]
    have hopen : w.InStep { s' with flowLevel := s'.flowLevel + 1, allowKey := true }
        { t' with flowLevel := t'.flowLevel + 1, allowKey := true } :=
      { h' with flowLevel := by rw [h'.flowLevel], allowKey := rfl }
    exact .ok (hopen.pushOne kind (by simpa only [hs] using hc))

theorem fetchFlowEnd (h : w.InStep s t) (kind : TokenKind) (hc : s.cursor.peek ≠ '\n') :
    w.Agree w.InStep (s.fetchFlowEnd kind) (t.fetchFlowEnd kind) := by
  unfold ScanState.fetchFlowEnd
  rcases h.removeKey with ⟨e, f, hx, hy, he⟩ | ⟨s', t', hx, hy, h', hs⟩
  · rw [hx, hy]
    exact .error he
  · rw [hx, hy]
    have hclose : w.InStep { s' with flowLevel := s'.flowLevel - 1, allowKey := false }
        { t' with flowLevel := t'.flowLevel - 1, allowKey := false } :=
      { h' with flowLevel := by rw [h'.flowLevel], allowKey := rfl }
    exact .ok (hclose.pushOne kind (by simpa only [hs] using hc))

theorem fetchFlowEntry (h : w.InStep s t) (hc : s.cursor.peek ≠ '\n') :
    w.Agree w.InStep s.fetchFlowEntry t.fetchFlowEntry := by
  unfold ScanState.fetchFlowEntry
  rcases h.removeKey with ⟨e, f, hx, hy, he⟩ | ⟨s', t', hx, hy, h', hs⟩
  · rw [hx, hy]
    exact .error he
  · rw [hx, hy]
    exact .ok ((h'.allow true).pushOne _ (by simpa only [hs] using hc))

theorem fetchBlockEntry (h : w.InStep s t) (hc : s.cursor.peek ≠ '\n') :
    w.Agree w.InStep s.fetchBlockEntry t.fetchBlockEntry := by
  unfold ScanState.fetchBlockEntry
  rcases h.openBlockOr .blockSequenceStart .misplacedEntry with
    ⟨e, f, hx, hy, he⟩ | ⟨s₁, t₁, hx, hy, h₁, hs₁⟩
  · rw [hx, hy]
    exact .error he
  · simp only [hx, hy]
    rcases h₁.removeKey with ⟨e, f, hx, hy, he⟩ | ⟨s₂, t₂, hx, hy, h₂, hs₂⟩
    · rw [hx, hy]
      exact .error he
    · rw [hx, hy]
      exact .ok ((h₂.allow true).pushOne _ (by simpa only [hs₂, hs₁] using hc))

theorem fetchKey (h : w.InStep s t) (hc : s.cursor.peek ≠ '\n') :
    w.Agree w.InStep s.fetchKey t.fetchKey := by
  unfold ScanState.fetchKey
  rcases h.openBlockOr .blockMappingStart .misplacedKey with
    ⟨e, f, hx, hy, he⟩ | ⟨s₁, t₁, hx, hy, h₁, hs₁⟩
  · rw [hx, hy]
    exact .error he
  · simp only [hx, hy]
    rcases h₁.removeKey with ⟨e, f, hx, hy, he⟩ | ⟨s₂, t₂, hx, hy, h₂, hs₂⟩
    · rw [hx, hy]
      exact .error he
    · simp only [hx, hy, h₂.inFlow]
      exact .ok ((h₂.allow _).pushOne _ (by simpa only [hs₂, hs₁] using hc))

theorem fetchValue (h : w.InStep s t) (hc : s.cursor.peek ≠ '\n') :
    w.Agree w.InStep s.fetchValue t.fetchValue := by
  have hkey := h.currentKey?
  unfold ScanState.fetchValue
  generalize s.currentKey? = x at hkey ⊢
  generalize t.currentKey? = y at hkey ⊢
  cases hkey with
  | @some k l hk =>
    have hinsert := (h.forgetKey.insertKey hk).allow false
    have hcursor : (s.forgetKey.insertKey k).cursor = s.cursor := insertKey_cursor _ _
    exact .ok (hinsert.pushOne _ (by simpa only [hcursor] using hc))
  | none =>
    rcases h.openBlockOr .blockMappingStart .misplacedValue with
      ⟨e, f, hx, hy, he⟩ | ⟨s₁, t₁, hx, hy, h₁, hs₁⟩
    · rw [hx, hy]
      exact .error he
    · simp only [hx, hy, h₁.inFlow]
      exact .ok ((h₁.forgetKey.allow _).pushOne _ (by simpa only [ScanState.forgetKey, hs₁] using hc))

/-- Lexemes that can be keys are fetched in step if they are read in step. -/
theorem fetchKeyable {f g : Cursor → Except ScanError (Token × Cursor)} (h : w.InStep s t)
    (hread : ∀ {d}, w.Passes s.cursor d → w.Agree (w.Read w.TokenPair) (f s.cursor) (g d)) :
    w.Agree w.InStep (s.fetchKeyable f) (t.fetchKeyable g) := by
  unfold ScanState.fetchKeyable
  rcases h.saveKey with ⟨e, f, hx, hy, he⟩ | ⟨s', t', hx, hy, h', hs⟩
  · rw [hx, hy]
    exact .error he
  · have hcursor := h'.cursor
    rw [hs] at hcursor
    simp only [hx, hy, hs]
    rcases hread hcursor with ⟨e, f, hx, hy, he⟩ | ⟨⟨a, c⟩, ⟨b, d⟩, hx, hy, hab, hcd⟩
    · rw [hx, hy]
      exact .error he
    · rw [hx, hy]
      exact .ok { h' with allowKey := rfl, cursor := hcd, queue := h'.addToken hab }

theorem fetchBlock (h : w.InStep s t) (hc : s.cursor.peek ≠ '\n') (folded : Bool) :
    w.Agree w.InStep (s.fetchBlock folded) (t.fetchBlock folded) := by
  unfold ScanState.fetchBlock
  rcases h.removeKey with ⟨e, f, hx, hy, he⟩ | ⟨s', t', hx, hy, h', hs⟩
  · rw [hx, hy]
    exact .error he
  · simp only [hx, hy, h'.indent]
    rcases h'.cursor.block (by rwa [hs]) folded s'.indent with
      ⟨e, f, hx, hy, he⟩ | ⟨⟨a, k, c⟩, ⟨b, l, d⟩, hx, hy, hab, hk, hcd⟩
    · rw [hx, hy]
      exact .error he
    · rw [hx, hy]
      exact .ok { h' with
        allowKey := rfl
        cursor := hcd
        comments := h'.addComments hk
        indent := rfl
        queue := h'.addToken hab }

theorem fetchPlain (h : w.InStep s t) : w.Agree w.InStep s.fetchPlain t.fetchPlain := by
  unfold ScanState.fetchPlain
  rcases h.saveKey with ⟨e, f, hx, hy, he⟩ | ⟨s', t', hx, hy, h', -⟩
  · rw [hx, hy]
    exact .error he
  · have hplain := h'.cursor.plain s'.inFlow s'.indent
    simp only [hx, hy, h'.inFlow, h'.indent]
    exact .ok { h' with
      allowKey := hplain.broken
      cursor := hplain.cursor
      indent := rfl
      queue := h'.addToken ⟨by rw [hplain.value], h'.cursor.markPair, hplain.stop⟩ }

/-- Both scanners read the lexeme at their cursors. -/
theorem fetchLead (h : w.InStep s t) (hc : s.cursor.peek ≠ '\n') {lead : Lead}
    (hfits : s.Fits lead) : w.Agree w.InStep (s.fetchLead lead) (t.fetchLead lead) := by
  cases lead with
  | streamEnd => exact h.fetchStreamEnd
  | directive => exact h.fetchDirective hc
  | documentStart => exact h.fetchMarker _ (by decide) hfits.2
  | documentEnd => exact h.fetchMarker _ (by decide) hfits.2
  | flowStart kind => exact h.fetchFlowStart kind hc
  | flowEnd kind => exact h.fetchFlowEnd kind hc
  | flowEntry => exact h.fetchFlowEntry hc
  | blockEntry => exact h.fetchBlockEntry hc
  | key => exact h.fetchKey hc
  | value => exact h.fetchValue hc
  | aliasRef => exact h.fetchKeyable fun hcd => hcd.name hc _ _
  | anchor => exact h.fetchKeyable fun hcd => hcd.name hc _ _
  | tag =>
    refine h.fetchKeyable (f := (·.tag s.inFlow)) (g := (·.tag t.inFlow)) fun hcd => ?_
    simp only [h.inFlow]
    exact hcd.tag hc _
  | block folded => exact h.fetchBlock hc folded
  | quoted double =>
    exact h.fetchKeyable (f := (·.quoted double)) fun hcd => hcd.quoted hc double
  | plain => exact h.fetchPlain
  | stray found => exact h.cursor.fail fun _ => rfl

/-- In front of a token both scanners see the same. -/
theorem lead (h : w.InStep s t) (hc : s.cursor.peek ≠ '\n') : t.lead = s.lead := by
  have hend := h.cursor.test_next hc isBlankOrEnd (by decide)
  have hmarker (ch : Char) (hn : ch ≠ '\n') (hr : ch ≠ '\r') :
      t.cursor.atMarker ch = s.cursor.atMarker ch := h.cursor.atMarker hn hr
  unfold ScanState.lead ScanState.startsPlain
  simp only [h.cursor.atEnd, h.cursor.peek_eq hc, h.cursor.column, h.inFlow, hend,
    hmarker '-' (by decide) (by decide), hmarker '.' (by decide) (by decide)]

/-- No break stands behind a gap. -/
theorem peek_gap (c : Cursor) (flow allowKey : Bool) : (c.gap flow allowKey).cursor.peek ≠ '\n' := by
  fun_induction Cursor.gap c flow allowKey with
  | case1 c allowKey hb =>
    intro hn
    simp [Cursor.lineBreak?, hn] at hb
  | case2 c allowKey ch c' hb more ih => exact ih

theorem skipGap (h : w.InStep s t) : w.InStep s.skipGap t.skipGap := by
  have hgap := h.cursor.skipByteOrderMark.gap s.inFlow s.allowKey
  unfold ScanState.skipGap
  simp only [h.inFlow, h.allowKey]
  exact { h with
    cursor := hgap.cursor
    allowKey := hgap.allowKey
    comments := h.addComments hgap.comments }

/-- What stands behind the gap is fetched in step. -/
theorem fetchHere (h : w.InStep s t) (hc : s.cursor.peek ≠ '\n') :
    w.Agree w.InStep s.fetchHere t.fetchHere := by
  unfold ScanState.fetchHere
  rcases h.dropStaleKeys with ⟨e, f, hx, hy, he⟩ | ⟨s', t', hx, hy, h'⟩
  · rw [hx, hy]
    exact .error he
  · have hs : s'.cursor = s.cursor := by rw [(dropStaleKeys_ok hx).1]
    have hunwind := h'.unwind s'.cursor.column
    have hpeek : (s'.unwind s'.cursor.column).cursor.peek ≠ '\n' := by
      rwa [unwind_cursor, hs]
    simp only [hx, hy, h'.cursor.column]
    rw [hunwind.lead hpeek]
    exact hunwind.fetchLead hpeek (fits_lead _)

/-- The right scanner fetches a token where the left one does. -/
theorem fetch {s' : ScanState} (h : w.InStep s t) (hf : s.fetch = (none, s')) :
    ∃ t', t.fetch = (none, t') ∧ w.InStep s' t' := by
  unfold ScanState.fetch at hf ⊢
  simp only at hf
  split at hf
  · cases hf
  · rename_i hx
    cases hf
    obtain ⟨t', hy, h'⟩ := (h.skipGap.fetchHere (peek_gap _ _ _)).of_ok hx
    exact ⟨t', by simp only [hy], h'⟩

/-- The right scanner fails where the left one does. -/
theorem fault {e : ScanError} {s' : ScanState} (h : w.InStep s t) (hf : s.Fault e s') :
    ∃ f t', t.Fault f t' ∧ w.ErrorPair e f ∧ w.InStep s' t' := by
  rcases hf with ⟨hn, rfl⟩ | ⟨s₁, hn, hf⟩
  · obtain ⟨f, hy, hef⟩ := h.needsMore.of_error hn
    exact ⟨f, t, .inl ⟨hy, rfl⟩, hef, h⟩
  · obtain ⟨⟨b, t₁⟩, hy, rfl, h₁⟩ := h.needsMore.of_ok hn
    unfold ScanState.fetch at hf
    simp only at hf
    split at hf
    · rename_i hx
      cases hf
      obtain ⟨f, hy', hef⟩ := (h₁.skipGap.fetchHere (peek_gap _ _ _)).of_error hx
      refine ⟨f, t₁.skipGap, .inr ⟨t₁, hy, ?_⟩, hef, h₁.skipGap⟩
      simp only [ScanState.fetch, hy']
    · cases hf

end InStep

/-! ## Whole scans -/

variable {text' : List Char} {out lead lead' : List Token}

/-- A run over the right text has come as far as the left scan: behind the tokens `lead` on the left
and `lead'` on the right, the two have given tokens that belong together. -/
def Follows (w : Tandem) (text' : List Char) (lead lead' out : List Token) (s : ScanState) : Prop :=
  ∃ xs ys t, out = lead ++ xs ∧ Run text' (lead' ++ ys) t ∧ List.Forall₂ w.TokenPair xs ys ∧
    w.InStep s t

/-- A fetch on the left is followed by one on the right. -/
theorem Follows.fetch {s₁ s' : ScanState} (h : w.Follows text' lead lead' out s)
    (hn : s.needsMore = .ok (true, s₁)) (hf : s₁.fetch = (none, s')) :
    w.Follows text' lead lead' out s' := by
  obtain ⟨xs, ys, t, hout, hrun, hxy, hst⟩ := h
  obtain ⟨⟨b, t₁⟩, hy, rfl, h₁⟩ := hst.needsMore.of_ok hn
  obtain ⟨t', hy', h'⟩ := h₁.fetch hf
  exact ⟨xs, ys, t', hout, hrun.fetch hy hy', hxy, h'⟩

/-- A token given on the left is followed by one that belongs to it. -/
theorem Follows.give {s₁ : ScanState} {a : Token} {queue : List Token}
    (h : w.Follows text' lead lead' out s) (hn : s.needsMore = .ok (false, s₁))
    (hq : s₁.queue = a :: queue) :
    w.Follows text' lead lead' (out ++ [a]) { s₁ with queue, taken := s₁.taken + 1 } := by
  obtain ⟨xs, ys, t, rfl, hrun, hxy, hst⟩ := h
  obtain ⟨⟨b, t₁⟩, hy, rfl, h₁⟩ := hst.needsMore.of_ok hn
  have hqueue := h₁.queue
  rw [hq] at hqueue
  obtain ⟨b, queue', hab, hrest, ht⟩ := List.forall₂_cons_left_iff.1 hqueue
  have hgive := hrun.give hy ht
  rw [List.append_assoc] at hgive
  have htaken : t₁.taken + 1 = s₁.taken + 1 + w.given := by
    have htaken : t₁.taken = s₁.taken + w.given := h₁.taken
    omega
  refine ⟨xs ++ [a], ys ++ [b], _, by simp, hgive, List.rel_append hxy (.cons hab .nil), ?_⟩
  exact { h₁ with queue := hrest, taken := htaken }

/-- Two scans that belong together behind their first tokens. -/
structure ScanPair (w : Tandem) (lead lead' : List Token) (r r' : Scan) : Prop where
  tokens : ∃ xs ys, r.tokens = lead ++ xs ∧ r'.tokens = lead' ++ ys ∧ List.Forall₂ w.TokenPair xs ys
  comments : ∃ ks, r'.comments = w.noted ++ ks ∧ List.Forall₂ w.CommentPair r.comments ks
  error : Option.Rel w.ErrorPair r.error r'.error

/-- Where the left scan ends, the right one does. -/
theorem Follows.ends {r : Scan} (h : w.Follows text' lead lead' r.tokens s) (he : s.Ends r) :
    w.ScanPair lead lead' r (scanText text') := by
  obtain ⟨xs, ys, t, hout, hrun, hxy, hst⟩ := h
  unfold Ends at he
  split at he
  · rename_i hr
    obtain ⟨hd, hq, hc⟩ := he
    have hqueue := hst.queue
    rw [hq, List.forall₂_nil_left_iff] at hqueue
    have hends : t.Ends ⟨lead' ++ ys, t.comments, none⟩ := ⟨hst.done.trans hd, hqueue, rfl⟩
    rw [scanText_of_ends hrun hends]
    exact ⟨⟨xs, ys, hout, rfl, hxy⟩, hc ▸ hst.comments, by rw [hr]; exact .none⟩
  · rename_i e hr
    obtain ⟨s', hf, hc⟩ := he
    obtain ⟨f, t', hf', hef, hst'⟩ := hst.fault hf
    have hends : t.Ends ⟨lead' ++ ys, t'.comments, some f⟩ := ⟨t', hf', rfl⟩
    rw [scanText_of_ends hrun hends]
    exact ⟨⟨xs, ys, hout, rfl, hxy⟩, hc ▸ hst'.comments, by rw [hr]; exact .some hef⟩

end Tandem

/-! ## Behind the start of the stream -/

/-- The state of a scanner that has given the start of the stream. -/
def started (text : List Char) : ScanState := { ofText text with queue := [], taken := 1 }

theorem clean_ofText (text : List Char) : false = true → '\r' ∉ (Cursor.ofText text).rest :=
  nofun

theorem peek_ofText_ne {text : List Char} (h : text.head? ≠ some '\ufeff') :
    (Cursor.ofText text).peek ≠ '\ufeff' := by
  intro hpeek
  cases text with
  | nil => exact absurd hpeek (by decide)
  | cons ch text =>
    obtain rfl : ch = '\ufeff' := hpeek
    exact absurd rfl h

/-- A new scanner has its first token ready. -/
theorem needsMore_ofText (text : List Char) : (ofText text).needsMore = .ok (false, ofText text) :=
  rfl

/-- Behind the start of the stream, it has to fetch. -/
theorem needsMore_started (text : List Char) : (started text).needsMore = .ok (true, started text) :=
  rfl

/-- The first step of every run gives the start of the stream. -/
theorem run_started (text : List Char) :
    Run text [.empty .streamStart .origin] (started text) :=
  .give .start (needsMore_ofText text) rfl

namespace Tandem

variable {w : Tandem} {s t t' : ScanState} {text text' : List Char} {out lead' : List Token}

/-- A run over the left text is at its start, has given the start of the stream, or is followed by the
run over the right text. -/
theorem follows_started (hstep : w.InStep (started text) t') (hfetch : t.fetch = t'.fetch)
    (hn' : t.needsMore = .ok (true, t)) (hrun' : Run text' lead' t) (hrun : Run text out s) :
    out = [] ∧ s = ofText text ∨ out = [.empty .streamStart .origin] ∧ s = started text ∨
      w.Follows text' [.empty .streamStart .origin] lead' out s := by
  induction hrun with
  | start => exact .inl ⟨rfl, rfl⟩
  | fetch _ hn hf ih =>
    rcases ih with ⟨rfl, rfl⟩ | ⟨rfl, rfl⟩ | ih
    · rw [needsMore_ofText] at hn
      cases hn
    · rw [needsMore_started] at hn
      cases hn
      obtain ⟨t₁, ht₁, hstep₁⟩ := hstep.fetch hf
      rw [← hfetch] at ht₁
      refine .inr (.inr ⟨[], [], t₁, rfl, ?_, .nil, hstep₁⟩)
      rw [List.append_nil]
      exact hrun'.fetch hn' ht₁
    · exact .inr (.inr (ih.fetch hn hf))
  | give _ hn hq ih =>
    rcases ih with ⟨rfl, rfl⟩ | ⟨rfl, rfl⟩ | ih
    · rw [needsMore_ofText] at hn
      cases hn
      cases hq
      exact .inr (.inl ⟨rfl, rfl⟩)
    · rw [needsMore_started] at hn
      cases hn
    · exact .inr (.inr (ih.give hn hq))

/-- The scan of the right text goes on from the state `t` as that of the left text does from its start,
if it fetches from `t` what it would fetch in a state in step with that start. -/
theorem scanPair_started (hstep : w.InStep (started text) t') (hfetch : t.fetch = t'.fetch)
    (hn' : t.needsMore = .ok (true, t)) (hrun' : Run text' lead' t) :
    w.ScanPair [.empty .streamStart .origin] lead' (scanText text) (scanText text') := by
  obtain ⟨s, hrun, hends⟩ := run_scanText text
  rcases follows_started hstep hfetch hn' hrun' hrun with ⟨-, rfl⟩ | ⟨hout, rfl⟩ | hfollows
  · -- the scan does not end at its start
    unfold Ends at hends
    split at hends
    · cases hends.1
    · obtain ⟨s', ⟨hn, -⟩ | ⟨s₁, hn, -⟩, -⟩ := hends <;> rw [needsMore_ofText] at hn <;> cases hn
  · unfold Ends at hends
    split at hends
    · cases hends.1
    -- the left scan fails in its first fetch, and so does the right one
    · rename_i e he
      obtain ⟨s', hfault, hcomments⟩ := hends
      obtain ⟨f, t₁, hfault', hef, hstep₁⟩ := hstep.fault hfault
      have hmore : t'.needsMore = .ok (true, t') := by
        have hdone : t'.done = false := hstep.done
        have hqueue : t'.queue = [] := List.forall₂_nil_left_iff.1 hstep.queue
        simp [ScanState.needsMore, hdone, hqueue]
      have hends' : t.Ends ⟨lead', t₁.comments, some f⟩ := by
        rcases hfault' with ⟨hn, -⟩ | ⟨t₂, hn, hf⟩
        · rw [hmore] at hn
          cases hn
        · rw [hmore] at hn
          cases hn
          rw [← hfetch] at hf
          exact ⟨t₁, .inr ⟨_, hn', hf⟩, rfl⟩
      rw [scanText_of_ends hrun' hends']
      refine ⟨⟨[], [], hout, (List.append_nil lead').symm, .nil⟩, hcomments ▸ hstep₁.comments, ?_⟩
      rw [he]
      exact .some hef
  · exact hfollows.ends hends

end Tandem

end YamlLinter
