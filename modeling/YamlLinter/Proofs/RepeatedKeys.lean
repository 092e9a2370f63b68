import YamlLinter.Proofs.Indentation.Pairs
import YamlLinter.Proofs.RuleRun
import YamlLinter.Rule.KeyDuplicates

/-!
# Which keys are told to be repeated

The rule on repeated keys keeps a stack of open collections with the keys seen in each. Here the same
is said of the tokens alone: a collection is open at a place if what was opened behind its start has
not closed it, and a key is repeated if the innermost open collection is a mapping in which that key
has stood before. The rule tells just that, for any tokens.

## Contents

* `OpenAt`, `openStarts`: the collections that are open at a place, and the stack of their starts;
* `getElem?_openStarts`: the two agree;
* `keyAt`, `HoldsKey`, `Repeats`: keys, and when one is repeated;
* `Tracks`: what the rule remembers, by the tokens it has met;
* `tracks_checkKey`, `tracks_check`: one key, and one token;
* `finds_just_repeated_keys`: what the rule finds.
-/

namespace YamlLinter

open Indentation (depth nesting isOpener isEnder nesting_opener nesting_ender nesting_other
  depth_append)

variable {tokens : List Token} {d o i : Nat} {t : Token}

/-! ## Open collections -/

/-- The tokens between two places. -/
def between (tokens : List Token) (o i : Nat) : List Token := (tokens.take i).drop (o + 1)

theorem between_succ (ht : tokens[i]? = some t) (ho : o < i) :
    between tokens o (i + 1) = between tokens o i ++ [t] := by
  have hi := (List.getElem?_eq_some_iff.1 ht).1
  have hlen : o + 1 ≤ (tokens.take i).length := by
    rw [List.length_take]
    omega
  unfold between
  rw [List.take_add_one, ht, List.drop_append_of_le_length hlen]
  rfl

theorem between_self (tokens : List Token) (i : Nat) : between tokens i (i + 1) = [] := by
  unfold between
  rw [List.drop_eq_nil_iff, List.length_take]
  omega

/-- The collection that starts with the token number `o` is open in front of the token number `i`,
and `d` collections are open inside of it: of the tokens in between, no front part closes more
collections than it opens, and all of them leave `d` open. For `d = 0` it is the innermost one. -/
structure OpenAt (tokens : List Token) (d o i : Nat) : Prop where
  lt : o < i
  starts : tokens[o]?.any (isOpener ·.kind) = true
  whole : depth (between tokens o i) = d
  part : ∀ us vs, between tokens o i = us ++ vs → 0 ≤ depth us

/-- A start token opens a collection with nothing inside. -/
theorem openAt_self (ht : tokens[i]? = some t) :
    OpenAt tokens d i (i + 1) ↔ isOpener t.kind = true ∧ d = 0 := by
  constructor
  · intro h
    have hstarts := h.starts
    have hwhole := h.whole
    rw [between_self] at hwhole
    rw [ht] at hstarts
    have hzero : d = 0 := by
      simp only [Indentation.depth_nil] at hwhole
      omega
    exact ⟨hstarts, hzero⟩
  · rintro ⟨hopens, rfl⟩
    refine ⟨Nat.lt_succ_self i, by rw [ht]; exact hopens, by rw [between_self]; rfl, ?_⟩
    intro us vs hsplit
    rw [between_self] at hsplit
    obtain ⟨rfl, -⟩ := List.append_eq_nil_iff.1 hsplit.symm
    exact Int.le_refl 0

/-- One more token opens or closes a collection inside of those that were open, or neither. -/
theorem openAt_succ (ht : tokens[i]? = some t) (ho : o < i) :
    OpenAt tokens d o (i + 1) ↔ ∃ d', OpenAt tokens d' o i ∧ (d' : Int) + nesting t = d := by
  have hbetween := between_succ ht ho
  have hdepth : depth (between tokens o (i + 1)) = depth (between tokens o i) + nesting t := by
    rw [hbetween, depth_append]
    simp
  constructor
  · intro h
    have hfront : 0 ≤ depth (between tokens o i) := h.part _ [t] hbetween
    have hwhole := h.whole
    refine ⟨(depth (between tokens o i)).toNat, ⟨ho, h.starts, by omega, ?_⟩, by omega⟩
    intro us vs hsplit
    refine h.part us (vs ++ [t]) ?_
    rw [hbetween, hsplit, List.append_assoc]
  · rintro ⟨d', h, hd⟩
    have hwhole := h.whole
    refine ⟨Nat.lt_succ_of_lt ho, h.starts, by omega, ?_⟩
    intro us vs hsplit
    rw [hbetween] at hsplit
    rcases List.append_eq_append_iff.1 hsplit with ⟨xs, rfl, hxs⟩ | ⟨xs, hus, -⟩
    · -- the part reaches the new token, or ends just in front of it
      cases xs with
      | nil =>
        rw [List.append_nil]
        omega
      | cons x xs =>
        obtain ⟨rfl, hnil⟩ := List.cons.inj hxs
        obtain ⟨rfl, -⟩ := List.append_eq_nil_iff.1 hnil.symm
        rw [depth_append]
        simp only [Indentation.depth_cons, Indentation.depth_nil]
        omega
    · exact h.part us xs hus

/-- Behind a token with which it does not start, a collection is open if it was in front of it, at the
depth that the token makes of the earlier one. -/
theorem openAt_succ_iff {d' : Nat} (ht : tokens[i]? = some t) (hd : (d' : Int) + nesting t = d)
    (hinner : isOpener t.kind = true → d ≠ 0) :
    OpenAt tokens d o (i + 1) ↔ OpenAt tokens d' o i := by
  constructor
  · intro h
    have hne : o ≠ i := by
      rintro rfl
      obtain ⟨hopens, hzero⟩ := (openAt_self ht).1 h
      exact hinner hopens hzero
    have hlt := h.lt
    obtain ⟨d'', h'', hd''⟩ := (openAt_succ ht (by omega)).1 h
    obtain rfl : d'' = d' := by omega
    exact h''
  · intro h
    exact (openAt_succ ht h.lt).2 ⟨d', h, hd⟩

/-- The starts of the collections that are open in front of the token number `i`, innermost first. A
start token opens a collection, an end token closes the innermost one if there is any. -/
def openStarts (tokens : List Token) : Nat → List Nat
  | 0 => []
  | i + 1 =>
    match tokens[i]? with
    | none => openStarts tokens i
    | some t =>
      if isOpener t.kind then i :: openStarts tokens i
      else if isEnder t.kind then (openStarts tokens i).tail
      else openStarts tokens i

/-- The collections on the stack are those that are open. -/
theorem getElem?_openStarts (hi : i ≤ tokens.length) :
    (openStarts tokens i)[d]? = some o ↔ OpenAt tokens d o i := by
  induction i generalizing d o with
  | zero =>
    constructor
    · intro h
      cases h
    · intro h
      exact absurd h.lt (Nat.not_lt_zero o)
  | succ i ih =>
    have ht : tokens[i]? = some tokens[i] := List.getElem?_eq_getElem hi
    have ih := fun d o => @ih d o (Nat.le_of_succ_le hi)
    generalize tokens[i] = t at ht
    rw [openStarts, ht]
    simp only
    by_cases hopens : isOpener t.kind = true
    · have hnesting : nesting t = 1 := nesting_opener hopens
      rw [if_pos hopens]
      cases d with
      | zero =>
        -- the innermost collection is the one that starts here
        rw [List.getElem?_cons_zero, Option.some_inj]
        constructor
        · rintro rfl
          exact (openAt_self ht).2 ⟨hopens, rfl⟩
        · intro h
          by_contra hne
          have hlt := h.lt
          obtain ⟨d', -, hd⟩ := (openAt_succ ht (by omega)).1 h
          omega
      | succ d =>
        rw [List.getElem?_cons_succ, ih]
        exact (openAt_succ_iff ht (by omega) fun _ => Nat.succ_ne_zero d).symm
    · rw [if_neg hopens]
      by_cases hends : isEnder t.kind = true
      · have hnesting : nesting t = -1 := nesting_ender hends
        rw [if_pos hends, List.getElem?_tail, ih]
        exact (openAt_succ_iff ht (by omega) fun h => absurd h hopens).symm
      · have hnesting : nesting t = 0 :=
          nesting_other (Bool.eq_false_iff.2 hopens) (Bool.eq_false_iff.2 hends)
        rw [if_neg hends, ih]
        exact (openAt_succ_iff ht (by omega) fun h => absurd h hopens).symm

namespace KeyDuplicates

variable {config : Config} {n : Nat} {k : String} {c : Collection} {s : State} {w : Window}
  {buffer : List UInt8}

/-! ## Repeated keys -/

/-- Whether a token of this kind starts a mapping. -/
def startsMapping : TokenKind → Bool
  | .blockMappingStart | .flowMappingStart => true
  | _ => false

/-- The key that the token number `i` announces: the value of the scalar behind a `KEY`. -/
def keyAt (tokens : List Token) (i : Nat) : Option String :=
  if tokens[i]?.any (·.kind == .key) then tokens[i + 1]?.bind Token.scalarValue? else none

/-- The key stands directly in the collection that starts with the token number `o`, in front of the
token number `i`. -/
def HoldsKey (tokens : List Token) (o i : Nat) (k : String) : Prop :=
  ∃ j, o < j ∧ j < i ∧ OpenAt tokens 0 o j ∧ keyAt tokens j = some k

/-- The token number `i` announces a key that has stood before in the same mapping, and that may not
be repeated. -/
structure Repeats (config : Config) (tokens : List Token) (i : Nat) (k : String) : Prop where
  key : keyAt tokens i = some k
  earlier : ∃ o, tokens[o]?.any (startsMapping ·.kind) = true ∧ OpenAt tokens 0 o i ∧
    HoldsKey tokens o i k
  counts : k ≠ mergeKey ∨ config.forbidMergeKeys = true

theorem holdsKey_succ :
    HoldsKey tokens o (n + 1) k ↔
      HoldsKey tokens o n k ∨ OpenAt tokens 0 o n ∧ keyAt tokens n = some k := by
  constructor
  · rintro ⟨j, hoj, hj, hopen, hkey⟩
    rcases Nat.lt_succ_iff_lt_or_eq.1 hj with hj | rfl
    · exact .inl ⟨j, hoj, hj, hopen, hkey⟩
    · exact .inr ⟨hopen, hkey⟩
  · rintro (⟨j, hoj, hj, hopen, hkey⟩ | ⟨hopen, hkey⟩)
    · exact ⟨j, hoj, Nat.lt_succ_of_lt hj, hopen, hkey⟩
    · exact ⟨n, hopen.lt, Nat.lt_succ_self n, hopen, hkey⟩

/-! ## What the rule remembers -/

/-- What the rule remembers of the collection that starts with the token number `o`, in front of the
token number `n`. -/
def Describes (tokens : List Token) (n : Nat) : Collection → Nat → Prop
  | .mapping keys, o =>
    tokens[o]?.any (startsMapping ·.kind) = true ∧ ∀ k, k ∈ keys ↔ HoldsKey tokens o n k
  | .sequence, o => tokens[o]?.any (startsMapping ·.kind) = false

/-- What the rule remembers in front of the token number `n`: all open collections. -/
def Tracks (tokens : List Token) (n : Nat) (s : State) : Prop :=
  List.Forall₂ (Describes tokens n) s (openStarts tokens n)

theorem Describes.succ (h : Describes tokens n c o)
    (hsame : ∀ k, OpenAt tokens 0 o n → keyAt tokens n = some k → HoldsKey tokens o n k) :
    Describes tokens (n + 1) c o := by
  cases c with
  | sequence => exact h
  | mapping keys =>
    refine ⟨h.1, fun k => ?_⟩
    rw [h.2 k, holdsKey_succ]
    constructor
    · exact .inl
    · rintro (hk | ⟨hopen, hkey⟩)
      · exact hk
      · exact hsame k hopen hkey

/-- A token that announces no key changes nothing about the collections that stay open. -/
theorem Tracks.keyless (h : Tracks tokens n s) (hkey : keyAt tokens n = none) :
    List.Forall₂ (Describes tokens (n + 1)) s (openStarts tokens n) :=
  List.Forall₂.imp (fun c o hc => hc.succ fun k _ hk => by rw [hkey] at hk; cases hk) h

/-- A key belongs to the innermost open collection, and to no other. -/
theorem Tracks.outer {outer : State} {os : List Nat} (hn : n ≤ tokens.length)
    (hos : openStarts tokens n = o :: os) (h : List.Forall₂ (Describes tokens n) outer os) :
    List.Forall₂ (Describes tokens (n + 1)) outer os := by
  rw [List.forall₂_iff_get] at h ⊢
  refine ⟨h.1, fun i hi hi' => (h.2 i hi hi').succ fun k hinner _ => ?_⟩
  have hopen : OpenAt tokens (i + 1) (os.get ⟨i, hi'⟩) n := by
    rw [← getElem?_openStarts hn, hos, List.getElem?_cons_succ]
    exact List.getElem?_eq_getElem hi'
  have hdepth := hopen.whole.symm.trans hinner.whole
  omega

theorem keyAt_of_ne (ht : tokens[n]? = some t) (hkind : t.kind ≠ .key) : keyAt tokens n = none := by
  simp [keyAt, ht, hkind]

theorem keyAt_of_key (ht : tokens[n]? = some t) (hkind : t.kind = .key) :
    keyAt tokens n = tokens[n + 1]?.bind Token.scalarValue? := by
  simp [keyAt, ht, hkind]

theorem openStarts_of_key (ht : tokens[n]? = some t) (hkind : t.kind = .key) :
    openStarts tokens (n + 1) = openStarts tokens n := by
  rw [openStarts, ht]
  simp [hkind, isOpener, isEnder]

/-- A key is added to those of its mapping, unless it is one of them. -/
theorem tracks_checkKey (h : Tracks tokens n s) (ht : tokens[n]? = some t) (hkind : t.kind = .key) :
    Tracks tokens (n + 1) (checkKey config tokens[n + 1]? s).2 := by
  have hn : n ≤ tokens.length := Nat.le_of_lt (List.getElem?_eq_some_iff.1 ht).1
  have hkey := keyAt_of_key ht hkind
  have hkept := h.keyless
  unfold Tracks at h ⊢
  rw [openStarts_of_key ht hkind]
  generalize hos : openStarts tokens n = starts at h hkept
  -- only a scalar as the key of a mapping is remembered
  unfold checkKey
  cases hnext : tokens[n + 1]? with
  | none =>
    rw [hnext] at hkey
    exact hkept hkey
  | some next =>
    rw [hnext] at hkey
    cases h with
    | nil => exact .nil
    | @cons c o outer os htop houter =>
      have houter := Tracks.outer hn hos houter
      cases c with
      | sequence => exact .cons htop houter
      | mapping keys =>
        simp only
        cases hvalue : next.scalarValue? with
        | none =>
          rw [Option.bind_some, hvalue] at hkey
          exact hkept hkey
        | some key =>
          rw [Option.bind_some, hvalue] at hkey
          by_cases hmem : keys.contains key = true
          · -- the key is known, so the mapping holds what it held
            have hsame : Describes tokens (n + 1) (.mapping keys) o := by
              refine htop.succ fun k _ hk => ?_
              obtain rfl : key = k := Option.some.inj (hkey.symm.trans hk)
              exact (htop.2 key).1 (List.contains_iff_mem.1 hmem)
            simp only [hmem, if_true]
            split <;> exact .cons hsame houter
          · have hopen : OpenAt tokens 0 o n := by
              rw [← getElem?_openStarts hn, hos]
              rfl
            simp only [hmem, Bool.false_eq_true, if_false]
            refine .cons ⟨htop.1, fun k => ?_⟩ houter
            rw [List.mem_cons, htop.2 k, holdsKey_succ, hkey, Option.some_inj]
            constructor
            · rintro (rfl | hk)
              · exact .inr ⟨hopen, rfl⟩
              · exact .inl hk
            · rintro (hk | ⟨-, rfl⟩)
              · exact .inr hk
              · exact .inl rfl

/-- A start token puts its collection on top of those that are open. -/
theorem Tracks.opens (h : Tracks tokens n s) (ht : tokens[n]? = some t)
    (hopens : isOpener t.kind = true) (hc : Describes tokens (n + 1) c n) :
    Tracks tokens (n + 1) (c :: s) := by
  have hkey : keyAt tokens n = none := by
    refine keyAt_of_ne ht fun hkind => ?_
    rw [hkind] at hopens
    cases hopens
  unfold Tracks
  rw [openStarts, ht]
  simp only [hopens, if_true]
  exact .cons hc (h.keyless hkey)

/-- An end token takes the innermost collection away. -/
theorem Tracks.ends (h : Tracks tokens n s) (ht : tokens[n]? = some t)
    (hends : isEnder t.kind = true) : Tracks tokens (n + 1) s.tail := by
  have hopens : isOpener t.kind = false := by
    cases hkind : t.kind <;> rw [hkind] at hends <;> first | rfl | cases hends
  have hkept : List.Forall₂ (Describes tokens (n + 1)) s (openStarts tokens n) := by
    refine h.keyless (keyAt_of_ne ht fun hkind => ?_)
    rw [hkind] at hends
    cases hends
  unfold Tracks
  rw [openStarts, ht]
  simp only [hopens, hends, Bool.false_eq_true, if_true, if_false]
  generalize openStarts tokens n = starts at hkept
  cases hkept with
  | nil => exact .nil
  | cons _ hrest => exact hrest

/-- Any other token, a key apart, leaves everything as it is. -/
theorem Tracks.passes (h : Tracks tokens n s) (ht : tokens[n]? = some t)
    (hopens : isOpener t.kind = false) (hends : isEnder t.kind = false) (hkind : t.kind ≠ .key) :
    Tracks tokens (n + 1) s := by
  unfold Tracks
  rw [openStarts, ht]
  simp only [hopens, hends, Bool.false_eq_true, if_false]
  exact h.keyless (keyAt_of_ne ht hkind)

/-- One token opens a collection, closes one, adds a key or does nothing. -/
theorem tracks_check (h : Tracks tokens n s) (hw : (windows buffer tokens)[n]? = some w) :
    Tracks tokens (n + 1) (check config w s).2 := by
  obtain ⟨-, ht, hnext⟩ := getElem?_windows hw
  unfold check
  cases hkind : w.token.kind with
  | key =>
    rw [hnext]
    exact tracks_checkKey h ht hkind
  | blockMappingStart | flowMappingStart =>
    -- nothing stands in a mapping when it is opened
    have hfresh : ∀ k, ¬HoldsKey tokens n (n + 1) k := by
      rintro k ⟨j, hlt, hj, -, -⟩
      omega
    refine h.opens ht (by rw [hkind]; rfl) ⟨by simp [ht, hkind, startsMapping], fun k => ?_⟩
    simp [hfresh k]
  | blockSequenceStart | flowSequenceStart =>
    refine h.opens ht (by rw [hkind]; rfl) ?_
    simp [Describes, ht, hkind, startsMapping]
  | blockEnd | flowMappingEnd | flowSequenceEnd => exact h.ends ht (by rw [hkind]; rfl)
  | _ => exact h.passes ht (by rw [hkind]; rfl) (by rw [hkind]; rfl) (by simp [hkind])

theorem tracks_stateBehind (config : Config) (buffer : List UInt8) (hn : n ≤ tokens.length) :
    Tracks tokens n ((rule config).stateBehind (windows buffer tokens) n) := by
  refine TokenRule.stateBehind_induct (r := rule config) (P := fun n s => Tracks tokens n s)
    .nil ?_ ?_
  · intro n w s hw h
    exact tracks_check h hw
  · rw [length_windows]
    exact hn

/-! ## What the rule finds -/

/-- A key is told to be repeated if the innermost collection is a mapping that holds it. -/
theorem checkKey_found {keys : List String} {outer : State} (hvalue : t.scalarValue? = some k)
    (hmem : k ∈ keys) (hcounts : k ≠ mergeKey ∨ config.forbidMergeKeys = true) :
    (checkKey config (some t) (.mapping keys :: outer)).1 = [repeated k t.start] := by
  have hexempt : (k == mergeKey && !config.forbidMergeKeys) = false := by
    rcases hcounts with hne | hforbid
    · simp [hne]
    · simp [hforbid]
  simp [checkKey, hvalue, hmem, hexempt]

/-- In every other case nothing is found at a key. -/
theorem checkKey_quiet {next : Option Token}
    (h : ∀ t k keys outer, next = some t → t.scalarValue? = some k → s = .mapping keys :: outer →
      k ∈ keys → k = mergeKey ∧ config.forbidMergeKeys = false) :
    (checkKey config next s).1 = [] := by
  unfold checkKey
  split
  · rename_i t keys outer
    split
    · rename_i key hvalue
      split
      · rename_i hmem
        obtain ⟨rfl, hforbid⟩ := h t key keys outer rfl hvalue rfl (List.contains_iff_mem.1 hmem)
        simp [hforbid]
      · rfl
    · rfl
  · rfl

/-- The state of the rule tells which keys are repeated. -/
theorem Tracks.repeats_iff (h : Tracks tokens n s) (hn : n ≤ tokens.length)
    (hkey : keyAt tokens n = some k) :
    Repeats config tokens n k ↔
      (∃ keys outer, s = .mapping keys :: outer ∧ k ∈ keys) ∧
        (k ≠ mergeKey ∨ config.forbidMergeKeys = true) := by
  unfold Tracks at h
  generalize hos : openStarts tokens n = starts at h
  constructor
  · rintro ⟨-, ⟨o, hmapping, hopen, hholds⟩, hcounts⟩
    refine ⟨?_, hcounts⟩
    rw [← getElem?_openStarts hn, hos] at hopen
    cases h with
    | nil => cases hopen
    | @cons c o' outer os htop _ =>
      obtain rfl : o' = o := Option.some.inj hopen
      cases c with
      | sequence =>
        rw [Describes, hmapping] at htop
        cases htop
      | mapping keys => exact ⟨keys, outer, rfl, (htop.2 k).2 hholds⟩
  · rintro ⟨⟨keys, outer, rfl, hmem⟩, hcounts⟩
    cases h with
    | @cons _ o _ os htop _ =>
      refine ⟨hkey, ⟨o, htop.1, ?_, (htop.2 k).1 hmem⟩, hcounts⟩
      rw [← getElem?_openStarts hn, hos]
      rfl

/-- The rule on repeated keys, for any tokens and options. It finds something at a token just if that
announces a key which has stood before in the same mapping, not counting the merge key unless that is
forbidden too. It then finds that the key is repeated, once and at the start of the scalar. -/
theorem finds_just_repeated_keys (config : Config) (buffer : List UInt8) (tokens : List Token) :
    ((rule config).run (windows buffer tokens)).length = tokens.length ∧
      ∀ i fs, ((rule config).run (windows buffer tokens))[i]? = some fs →
        (∀ k, Repeats config tokens i k →
          ∃ next, tokens[i + 1]? = some next ∧ next.scalarValue? = some k ∧
            fs = [repeated k next.start]) ∧
        ((∀ k, ¬Repeats config tokens i k) → fs = []) := by
  refine ⟨?_, ?_⟩
  · rw [TokenRule.run, TokenRule.length_runFrom, length_windows]
  · intro i fs hfs
    rw [TokenRule.getElem?_run] at hfs
    obtain ⟨w, hw, rfl⟩ := Option.map_eq_some_iff.1 hfs
    obtain ⟨-, ht, hnext⟩ := getElem?_windows hw
    have hi : i ≤ tokens.length := Nat.le_of_lt (List.getElem?_eq_some_iff.1 ht).1
    -- the stack holds the keys that the open mappings have had before
    have htracks := tracks_stateBehind config buffer hi
    generalize (rule config).stateBehind (windows buffer tokens) i = s at htracks
    have hcheck : w.token.kind = .key → ((rule config).check w s).1 =
        (checkKey config tokens[i + 1]? s).1 := by
      intro hkind
      show (check config w s).1 = _
      unfold check
      rw [hkind, hnext]
    constructor
    · intro k hrepeats
      have hkind : w.token.kind = .key := by
        by_contra hne
        have hnone := hrepeats.key
        rw [keyAt_of_ne ht hne] at hnone
        cases hnone
      have hkey := keyAt_of_key ht hkind
      rw [hrepeats.key] at hkey
      obtain ⟨next, hsome, hvalue⟩ := Option.bind_eq_some_iff.1 hkey.symm
      obtain ⟨⟨keys, outer, rfl, hmem⟩, hcounts⟩ := (htracks.repeats_iff hi hrepeats.key).1 hrepeats
      rw [hcheck hkind, hsome]
      exact ⟨next, rfl, hvalue, checkKey_found hvalue hmem hcounts⟩
    · intro hnone
      by_cases hkind : w.token.kind = .key
      · rw [hcheck hkind]
        refine checkKey_quiet fun next k keys outer hsome hvalue hs hmem => ?_
        have hkey : keyAt tokens i = some k := by
          rw [keyAt_of_key ht hkind, hsome]
          exact hvalue
        have hnot := mt (htracks.repeats_iff hi hkey).2 (hnone k)
        by_contra hcounts
        refine hnot ⟨⟨keys, outer, hs, hmem⟩, ?_⟩
        by_cases hmerge : k = mergeKey
        · exact .inr (Bool.of_not_eq_false fun hforbid => hcounts ⟨hmerge, hforbid⟩)
        · exact .inl hmerge
      · show (check config w s).1 = []
        unfold check
        split <;> first | rfl | contradiction

/-- An end without a start, then a mapping with the key `a`, a mapping as its value, and `a` again:
the second `a` repeats the first. -/
theorem finds_just_repeated_keys_behindNested :
    let kinds : List TokenKind :=
      [.flowMappingEnd, .flowMappingStart, .key, .scalar "a" .plain, .value, .flowMappingStart,
        .key, .scalar "b" .plain, .flowMappingEnd, .flowEntry, .key, .scalar "a" .plain]
    let tokens := kinds.mapIdx fun n kind => Token.empty kind ⟨n, 0, n⟩
    Repeats .default tokens 10 "a" ∧
      ((rule .default).run (windows [] tokens))[10]? = some [repeated "a" ⟨11, 0, 11⟩] := by
  intro kinds tokens
  have hopen : ∀ i ∈ [2, 10], OpenAt tokens 0 1 i := by
    have hstarts : ∀ i ∈ [2, 10], i ≤ tokens.length ∧ (openStarts tokens i)[0]? = some 1 := by
      decide
    intro i hi
    exact (getElem?_openStarts (hstarts i hi).1).1 (hstarts i hi).2
  have hrepeats : Repeats .default tokens 10 "a" :=
    ⟨by decide, ⟨1, by decide, hopen 10 (by simp), 2, by decide, by decide, hopen 2 (by simp),
      by decide⟩, .inl (by decide)⟩
  obtain ⟨hlength, hfinds⟩ := finds_just_repeated_keys .default [] tokens
  have hfound := List.getElem?_eq_getElem (l := (rule .default).run (windows [] tokens)) (i := 10)
    (by rw [hlength]; decide)
  obtain ⟨next, hnext, -, hfs⟩ := (hfinds 10 _ hfound).1 "a" hrepeats
  cases hnext
  exact ⟨hrepeats, hfound.trans (congrArg some hfs)⟩

end KeyDuplicates

end YamlLinter
