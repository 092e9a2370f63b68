import Mathlib.Data.Option.Basic
import YamlLinter.Proofs.Indentation.Reachable
import YamlLinter.Scan.Tokens
import YamlLinter.Text.Utf8

/-!
# Consistent options

A pass that is told to be consistent settles the width, or the policy for sequences, when it first
needs it. It could as well have been told from the start what it settles: until then nothing depends
on it, and what settles it is right by the settled value too. So two passes are run side by side, one
that settles and one that knows, and they stay the same up to what the first has not settled yet.

The width that is assumed for sequences below their key would tell the two apart, since it is used
only while the width is unknown. It is out of reach: a pass that settles on indented sequences settles
the width with them.

## Contents

* `Preset`, `State.preset`, `Preset.Allows`: what the second pass knows;
* `Measured`: where sequences are to be indented, the width is known;
* `Alike`, `Answers`: a state and an answer of the first pass beside those of the second;
* `expect_preset`, `expectSequence_preset`: the two places that settle something;
* `checkStart_preset`, `checkScalar_preset`, `openFrames_preset`: each part of a token;
* `check_preset`, `stateBehind_preset`: one token, and some tokens;
* `consistent_width_is_fixed`, `consistent_policy_is_fixed`: whole passes.
-/

namespace YamlLinter.Indentation

/-- What a pass is told from the start: a width, a policy, or both. -/
structure Preset where
  width : Option Int
  policy : Option Policy

/-- The state of a pass that is told `p`, beside one that has to settle it. -/
def State.preset (p : Preset) (s : State) : State :=
  { s with width := p.width.or s.width, policy := p.policy.getD s.policy }

/-- Nothing has been settled otherwise than `p` says. -/
structure Preset.Allows (p : Preset) (s : State) : Prop where
  width : ∀ width ∈ p.width, s.width = none ∨ s.width = some width
  policy : ∀ policy ∈ p.policy, s.policy = .consistent ∨ s.policy = policy

/-- Where sequences are to be indented, the width is known. -/
def Measured (s : State) : Prop := s.policy = .always → s.width ≠ none

/-- The second state is the first with `p` in place of what is not settled, as long as `p` allows the
first. -/
structure Alike (p : Preset) (s s' : State) : Prop where
  measured : Measured s
  preset : p.Allows s → s' = s.preset p

/-- Two answers are the same, and leave states that are alike. -/
structure Answers {α : Type} (p : Preset) (r r' : α × State) : Prop where
  alike : Alike p r.2 r'.2
  same : p.Allows r.2 → r'.1 = r.1

variable {p : Preset} {s s₁ : State} {w : Window} {config : Config} {f : Frame}

/-- What is allowed in the end has been allowed all the time. -/
theorem Preset.Allows.of_evolves (h : p.Allows s₁) (he : Evolves s s₁) : p.Allows s where
  width width hw := by
    cases hs : s.width with
    | none => exact .inl rfl
    | some v =>
      have hv := he.width v hs
      rcases h.width width hw with h | h
      · rw [h] at hv
        cases hv
      · exact .inr (hv.symm.trans h)
  policy policy hp := by
    rcases he.policy with h' | ⟨h', -⟩
    · rw [← h']
      exact h.policy policy hp
    · exact .inl h'

theorem Preset.Allows.push (h : p.Allows (s.push f)) : p.Allows s := ⟨h.width, h.policy⟩

/-! ## Where something is settled -/

theorem alike_refl (h : Measured s) : Alike p s (s.preset p) := ⟨h, fun _ => rfl⟩

theorem Alike.push {s' : State} (h : Alike p s s') : Alike p (s.push f) (s'.push f) where
  measured := h.measured
  preset hp := by
    rw [h.preset hp.push]
    rfl

/-- Behind nested content the width is known. -/
theorem measured_expect (base column : Int) : Measured (s.expect base column).2 := by
  intro _
  unfold State.expect
  split
  · rename_i hwidth
    simp [hwidth]
  · simp

/-- Two answers are alike if the second is the first with `p` in place of what is not settled. -/
theorem Answers.of_eq {α : Type} {r r' : α × State} (hm : Measured r.2)
    (h : p.Allows r.2 → r' = (r.1, r.2.preset p)) : Answers p r r' where
  alike := ⟨hm, fun hp => by rw [h hp]⟩
  same hp := by rw [h hp]

theorem Answers.eq {α : Type} {r r' : α × State} (h : Answers p r r') (hp : p.Allows r.2) :
    r' = (r.1, r.2.preset p) :=
  Prod.ext (h.same hp) (h.alike.preset hp)

/-- The width that nested content settles is right for that content. -/
theorem expect_preset (s : State) (base column : Int) :
    Answers p (s.expect base column) ((s.preset p).expect base column) := by
  refine .of_eq (measured_expect _ _) fun hp => ?_
  obtain ⟨width, policy⟩ := p
  -- only a width that is preset and not settled yet makes a difference
  cases width with
  | none => cases hs : s.width <;> simp [State.expect, State.preset, hs]
  | some width =>
    have hwidth := hp.width width rfl
    cases hs : s.width with
    | none =>
      have hsettled : column - base = width := by simpa [State.expect, hs] using hwidth
      have hright : base + width = column := by omega
      simp [State.expect, State.preset, hs, hright]
    | some v =>
      obtain rfl : v = width := by simpa [State.expect, hs] using hwidth
      simp [State.expect, State.preset, hs]

/-- A policy that is settled already is the one that is preset. -/
theorem policy_preset {policy : Policy} (h : s.policy = policy) (hne : policy ≠ .consistent)
    (hp : p.Allows s) : (s.preset p).policy = policy := by
  show p.policy.getD s.policy = policy
  cases hq : p.policy with
  | none => exact h
  | some q =>
    rcases hp.policy q hq with hs | hs
    · exact absurd (h.symm.trans hs) hne
    · exact hs.symm.trans h

/-- A policy that is being settled is open in the second pass too, or is preset there. -/
theorem preset_settled {policy : Policy} (h : s.policy = .consistent) (hne : policy ≠ .consistent)
    (hp : p.Allows { s with policy }) :
    (s.preset p).policy = .consistent ∧
        State.preset p { s with policy } = { s.preset p with policy } ∨
      (s.preset p).policy = policy ∧ State.preset p { s with policy } = s.preset p := by
  have hpolicy := policy_preset (s := { s with policy }) rfl hne hp
  cases hq : p.policy with
  | none => exact .inl (by simp [State.preset, hq, h])
  | some q =>
    have hq' : q = policy := by simpa [State.preset, hq] using hpolicy
    exact .inr (by simp [State.preset, hq, hq'])

/-- The policy that a sequence settles is right for that sequence. -/
theorem expectSequence_preset (h : Measured s) (base column : Int) :
    Answers p (s.expectSequence base column) ((s.preset p).expectSequence base column) := by
  have hexpect : ∀ s : State, p.Allows (s.expect base column).2 → p.Allows s := fun s hp =>
    hp.of_evolves ((Evolves.refl s).expect base column)
  cases hpolicy : s.policy with
  | never =>
    rw [show s.expectSequence base column = (base, s) by simp [State.expectSequence, hpolicy]]
    refine .of_eq h fun hp => ?_
    simp [State.expectSequence, policy_preset hpolicy (by simp) hp]
  | whatever =>
    by_cases hcolumn : column = base
    · rw [show s.expectSequence base column = (base, s) by
        simp [State.expectSequence, hpolicy, hcolumn]]
      refine .of_eq h fun hp => ?_
      simp [State.expectSequence, policy_preset hpolicy (by simp) hp, hcolumn]
    · rw [show s.expectSequence base column = s.expect base column by
        simp [State.expectSequence, hpolicy, hcolumn]]
      refine .of_eq (measured_expect _ _) fun hp => ?_
      rw [← (expect_preset s base column).eq hp]
      simp [State.expectSequence, policy_preset hpolicy (by simp) (hexpect s hp), hcolumn]
  | always =>
    -- the width is known, so that none is assumed
    obtain ⟨width, hwidth⟩ := Option.ne_none_iff_exists'.1 (h hpolicy)
    rw [show s.expectSequence base column = s.expect base column by
      simp [State.expectSequence, hpolicy, hwidth]]
    refine .of_eq (measured_expect _ _) fun hp => ?_
    rw [← (expect_preset s base column).eq hp]
    have hknown : (s.preset p).width.isNone = false := by simp [State.preset, hwidth]
    simp [State.expectSequence, policy_preset hpolicy (by simp) (hexpect s hp), hknown]
  | consistent =>
    by_cases hcolumn : column = base
    · rw [show s.expectSequence base column = (base, { s with policy := .never }) by
        simp [State.expectSequence, hpolicy, hcolumn]]
      refine .of_eq (fun hne => by cases hne) fun hp => ?_
      rcases preset_settled hpolicy (by simp) hp with ⟨hsecond, hpreset⟩ | ⟨hsecond, hpreset⟩
      · simp [State.expectSequence, hsecond, hpreset, hcolumn]
      · simp [State.expectSequence, hsecond, hpreset]
    · rw [show s.expectSequence base column = { s with policy := .always }.expect base column by
        simp [State.expectSequence, hpolicy, hcolumn]]
      refine .of_eq (measured_expect _ _) fun hp => ?_
      rw [← (expect_preset _ base column).eq hp]
      rcases preset_settled hpolicy (by simp) (hexpect _ hp) with
        ⟨hsecond, hpreset⟩ | ⟨hsecond, hpreset⟩
      · simp [State.expectSequence, hsecond, hpreset, hcolumn]
      · simp [State.expectSequence, hsecond, hpreset, hcolumn]

theorem expectValue_preset (h : Measured s) (base : Int) (explicit : Bool) (prev content : Token) :
    Answers p (s.expectValue base explicit prev content)
      ((s.preset p).expectValue base explicit prev content) := by
  unfold State.expectValue
  simp only
  split
  · exact expect_preset s _ _
  · split
    · exact ⟨alike_refl h, fun _ => rfl⟩
    · split
      · exact expectSequence_preset h _ _
      · exact expect_preset s _ _

/-! ## The start of a line and the lines of scalars -/

theorem expectStart_preset (h : Measured s) (t : Token) :
    Option.Rel (Answers p) (s.expectStart t) ((s.preset p).expectStart t) := by
  have htop : (s.preset p).top? = s.top? := rfl
  unfold State.expectStart
  rw [htop]
  split
  · exact .none
  · rename_i top _
    split
    · cases top.lineIndent? with
      | none => exact .none
      | some l => exact .some ⟨alike_refl h, fun _ => rfl⟩
    · split
      · exact .some (expect_preset s _ _)
      · exact .some ⟨alike_refl h, fun _ => rfl⟩

theorem checkStart_preset (h : Measured s) (t : Token) :
    Option.Rel (Answers p) (s.checkStart t) ((s.preset p).checkStart t) := by
  have hfirst : (s.preset p).isFirst t = s.isFirst t := rfl
  have hstart := expectStart_preset (p := p) h t
  unfold State.checkStart
  rw [hfirst]
  generalize s.expectStart t = r, (s.preset p).expectStart t = r' at hstart ⊢
  split
  · cases hstart with
    | none => exact .none
    | some hr => exact .some ⟨hr.alike, fun hp => by rw [hr.same hp]⟩
  · exact .some ⟨alike_refl h, fun _ => rfl⟩

theorem expectBlock_preset (s : State) (t : Token) (found : Int) :
    Option.Rel (Answers p) (s.expectBlock t found) ((s.preset p).expectBlock t found) := by
  have htop : (s.preset p).top? = s.top? := rfl
  have hbelow : (s.preset p).below? = s.below? := rfl
  have hline : (s.preset p).line = s.line := rfl
  unfold State.expectBlock
  rw [htop, hbelow, hline]
  split
  · exact .none
  · exact .some (expect_preset s _ _)
  · split
    · exact .some (expect_preset s _ _)
    · exact .none
  · split
    · exact .some (expect_preset s _ _)
    · split
      · exact .none
      · split
        · exact .some (expect_preset s _ _)
        · exact .some (expect_preset s _ _)
  · exact .some (expect_preset s _ _)

theorem expectScalar_preset (h : Measured s) (t : Token) (found : Int) :
    Option.Rel (Answers p) (s.expectScalar t found) ((s.preset p).expectScalar t found) := by
  unfold State.expectScalar
  split
  · exact .none
  · exact .some ⟨alike_refl h, fun _ => rfl⟩
  · exact .some ⟨alike_refl h, fun _ => rfl⟩
  · exact .some ⟨alike_refl h, fun _ => rfl⟩
  · exact expectBlock_preset s t found
  · exact expectBlock_preset s t found

theorem checkScalar_preset (h : Measured s) (config : Config) (buffer : List UInt8) (t : Token) :
    Option.Rel (Answers p) (s.checkScalar config buffer t)
      ((s.preset p).checkScalar config buffer t) := by
  unfold State.checkScalar
  split
  · unfold State.checkLines
    split
    · exact .some ⟨alike_refl h, fun _ => rfl⟩
    · rename_i found _ _
      have hscalar := expectScalar_preset (p := p) h t found
      generalize s.expectScalar t found = r, (s.preset p).expectScalar t found = r' at hscalar ⊢
      cases hscalar with
      | none => exact .none
      | some hr => exact .some ⟨hr.alike, fun hp => by rw [hr.same hp]⟩
  · exact .some ⟨alike_refl h, fun _ => rfl⟩

/-! ## Opening -/

theorem openBlock_preset (h : Measured s) (first : TokenKind) (frame : Int → Frame) :
    Option.Rel (Alike p) (s.openBlock w first frame) ((s.preset p).openBlock w first frame) := by
  unfold State.openBlock
  split
  · exact .none
  · split
    · exact .some (alike_refl h).push
    · exact .none

/-- Behind an answer both passes open the same frame. -/
theorem Answers.push {r r' : Int × State} (h : Answers p r r') (frame : Int → Frame) :
    Alike p (r.2.push (frame r.1)) (r'.2.push (frame r'.1)) where
  measured := h.alike.measured
  preset hp := by
    rw [h.eq hp.push]
    rfl

theorem openFlow_preset (h : Measured s) (frame : Int → Int → Frame) :
    Option.Rel (Alike p) (s.openFlow w frame) ((s.preset p).openFlow w frame) := by
  unfold State.openFlow
  split
  · exact .none
  · split
    · exact .some (alike_refl h).push
    · exact .some ((expect_preset s _ _).push (frame · s.lineIndent))

theorem openEntry_preset (h : Measured s) :
    Option.Rel (Alike p) (s.openEntry w) ((s.preset p).openEntry w) := by
  have htop : (s.preset p).top? = s.top? := rfl
  unfold State.openEntry
  rw [htop]
  split
  · rename_i next top _ _
    split
    · exact .some (alike_refl h)
    · -- the sequence that an item opens is the same in both passes
      have hseq : (if top.isBlockSeq then s.preset p
          else (s.preset p).push (.blockSeq (columnOf w.token) true)) =
          State.preset p (if top.isBlockSeq then s
            else s.push (.blockSeq (columnOf w.token) true)) := by
        split <;> rfl
      have hmeasured : Measured (if top.isBlockSeq then s
          else s.push (.blockSeq (columnOf w.token) true)) := by
        split <;> exact h
      simp only [hseq]
      generalize (if top.isBlockSeq then s
        else s.push (.blockSeq (columnOf w.token) true)) = s₁ at hmeasured ⊢
      split
      · exact .some (alike_refl hmeasured).push
      · exact .some ((expect_preset s₁ _ _).push .blockEntry)
  · exact .none

theorem openKey_preset (h : Measured s) :
    Option.Rel (Alike p) (s.openKey w) ((s.preset p).openKey w) := by
  have htop : (s.preset p).top? = s.top? := rfl
  unfold State.openKey
  rw [htop]
  split
  · exact .none
  · exact .some (alike_refl h).push

theorem openValue_preset (h : Measured s) :
    Option.Rel (Alike p) (s.openValue w) ((s.preset p).openValue w) := by
  have htop : (s.preset p).top? = s.top? := rfl
  unfold State.openValue
  rw [htop]
  split
  · simp only
    split
    · exact .some (alike_refl h)
    · exact .some ((expectValue_preset h _ _ _ _).push .value)
  · exact .none

/-- A token opens the same frames in both passes. -/
theorem openFrames_preset (h : Measured s) (w : Window) :
    Option.Rel (Alike p) (s.openFrames w) ((s.preset p).openFrames w) := by
  unfold State.openFrames
  split
  · exact openBlock_preset h _ _
  · exact openBlock_preset h _ _
  · exact openFlow_preset h _
  · exact openFlow_preset h _
  · exact openEntry_preset h
  · exact openKey_preset h
  · exact openValue_preset h
  · exact .some (alike_refl h)

/-! ## One token -/

theorem shift_preset (h : Measured s) (w : Window) :
    Alike p (s.shift w).1 ((s.preset p).shift w).1 ∧
      (p.Allows (s.shift w).1 → ((s.preset p).shift w).2 = (s.shift w).2) := by
  have hopen := openFrames_preset (p := p) h w
  unfold State.shift
  generalize s.openFrames w = r, (s.preset p).openFrames w = r' at hopen ⊢
  cases hopen with
  | none => exact ⟨alike_refl h, fun _ => rfl⟩
  | @some s₁ s₁' halike =>
    have hallows : ∀ stack, p.Allows { s₁ with stack } → p.Allows s₁ := fun _ hp =>
      ⟨hp.width, hp.policy⟩
    refine ⟨⟨halike.measured, fun hp => ?_⟩, fun hp => ?_⟩
    · rw [halike.preset (hallows _ hp)]
      rfl
    · rw [halike.preset (hallows _ hp)]
      rfl

theorem moveTo_preset (buffer : List UInt8) (t : Token) (first : Bool) :
    (s.preset p).moveTo buffer t first = (s.moveTo buffer t first).preset p := by
  unfold State.moveTo
  split <;> rfl

theorem measured_moveTo (h : Measured s) (buffer : List UInt8) (t : Token) (first : Bool) :
    Measured (s.moveTo buffer t first) := by
  unfold State.moveTo
  split <;> exact h

/-- Both passes find the same at a token. -/
theorem check_preset (h : Measured s) (config : Config) (w : Window) :
    Answers p (check config w s) (check config w (s.preset p)) := by
  have hfirst : (s.preset p).isFirst w.token = s.isFirst w.token := rfl
  have hstart := checkStart_preset (p := p) h w.token
  unfold check State.step
  rw [hfirst]
  generalize hr : s.checkStart w.token = r, (s.preset p).checkStart w.token = r' at hstart ⊢
  cases hstart with
  | none => exact ⟨alike_refl h, fun _ => rfl⟩
  | @some a a' hstart =>
    obtain ⟨starts, s₁⟩ := a
    have hm₁ : Measured s₁ := hstart.alike.measured
    have hscalar := checkScalar_preset (p := p) hm₁ config w.buffer w.token
    -- the second pass goes on from the same state if all is allowed in the end
    have hsecond : p.Allows s₁ → a' = (starts, s₁.preset p) := hstart.eq
    simp only
    cases hq : s₁.checkScalar config w.buffer w.token with
    | none =>
      rw [hq] at hscalar
      generalize hq' : (s₁.preset p).checkScalar config w.buffer w.token = q' at hscalar
      cases hscalar
      refine .of_eq hm₁ fun hp => ?_
      obtain rfl := hsecond hp
      simp only [hq']
    | some b =>
      obtain ⟨lines, s₂⟩ := b
      rw [hq] at hscalar
      generalize hq' : (s₁.preset p).checkScalar config w.buffer w.token = q' at hscalar
      cases hscalar with
      | @some _ b' hscalar =>
        have hm₂ := measured_moveTo hscalar.alike.measured w.buffer w.token (s.isFirst w.token)
        obtain ⟨halike, hfits⟩ := shift_preset (p := p) hm₂ w
        refine .of_eq halike.measured fun hp => ?_
        have h₂ : p.Allows s₂ :=
          hp.of_evolves ((evolves_moveTo _ _ (s.isFirst w.token)).trans (evolves_shift w))
        obtain rfl := hsecond (h₂.of_evolves (State.checkScalar_cases hq).1.evolves)
        obtain rfl := hscalar.eq h₂
        simp only [hq', moveTo_preset, hfits hp, halike.preset hp]

/-! ## Whole passes -/

variable {buffer : List UInt8} {tokens : List Token}

/-- Behind the last token the state stays as it is. -/
theorem stateBehind_of_length_le (config : Config) {n : Nat} (h : tokens.length ≤ n) :
    stateBehind config buffer tokens n = stateBehind config buffer tokens tokens.length := by
  have hlen : (windows buffer tokens).length = tokens.length := length_windows buffer tokens
  unfold stateBehind
  rw [List.take_of_length_le (by omega), List.take_of_length_le (by omega)]

/-- Of the options a step reads only whether the lines of scalars are checked. -/
theorem check_eq_of_checkMultiLine {config' : Config}
    (h : config'.checkMultiLine = config.checkMultiLine) : check config' = check config := by
  have hscalar : ∀ (s : State) (buffer : List UInt8) (t : Token),
      s.checkScalar config' buffer t = s.checkScalar config buffer t := by
    intro s buffer t
    simp only [State.checkScalar, h]
  have hstep : ∀ (s : State) (w : Window), s.step config' w = s.step config w := by
    intro s w
    simp only [State.step, hscalar]
  funext w s
  unfold check
  rw [hstep]

/-- What the last state allows, all states do. -/
theorem allows_stateBehind (hp : p.Allows (stateBehind config buffer tokens tokens.length)) (n : Nat) :
    p.Allows (stateBehind config buffer tokens n) := by
  by_cases hn : n ≤ tokens.length
  · exact hp.of_evolves (evolves_stateBehind hn)
  · rw [stateBehind_of_length_le config (by omega)]
    exact hp

/-- Behind every token a pass that is told `p` has the state of the other one with `p` in it. -/
theorem stateBehind_preset {config' : Config}
    (hmulti : config'.checkMultiLine = config.checkMultiLine)
    (hstart : State.start config' = (State.start config).preset p) (hm : Measured (.start config))
    (hp : p.Allows (stateBehind config buffer tokens tokens.length)) (n : Nat) :
    Measured (stateBehind config buffer tokens n) ∧
      stateBehind config' buffer tokens n = (stateBehind config buffer tokens n).preset p := by
  induction n with
  | zero => exact ⟨hm, hstart⟩
  | succ n ih =>
    cases hw : (windows buffer tokens)[n]? with
    | none =>
      have hlen : tokens.length ≤ n := by
        rw [← length_windows buffer tokens]
        exact List.getElem?_eq_none_iff.1 hw
      rw [stateBehind_of_length_le config (n := n + 1) (by omega),
        stateBehind_of_length_le config' (n := n + 1) (by omega),
        ← stateBehind_of_length_le config hlen, ← stateBehind_of_length_le config' hlen]
      exact ih
    | some w =>
      obtain ⟨hmeasured, hstate⟩ := ih
      have hanswers := check_preset (p := p) hmeasured config w
      have hnext := allows_stateBehind hp (n + 1)
      have hnext' : stateBehind config' buffer tokens (n + 1) =
          (check config' w (stateBehind config' buffer tokens n)).2 := stateBehind_succ hw
      rw [stateBehind_succ hw] at hnext
      rw [hnext', stateBehind_succ hw, check_eq_of_checkMultiLine hmulti, hstate]
      exact ⟨hanswers.alike.measured, hanswers.alike.preset hnext⟩

/-- A pass that is told `p` is the same as one that settles nothing otherwise. -/
theorem run_preset {config' : Config} (hmulti : config'.checkMultiLine = config.checkMultiLine)
    (hstart : State.start config' = (State.start config).preset p) (hm : Measured (.start config))
    (hp : p.Allows (stateBehind config buffer tokens tokens.length)) :
    (rule config').run (windows buffer tokens) = (rule config).run (windows buffer tokens) ∧
      ∀ n, stateBehind config' buffer tokens n = (stateBehind config buffer tokens n).preset p := by
  have hstates := stateBehind_preset hmulti hstart hm hp
  refine ⟨?_, fun n => (hstates n).2⟩
  apply List.ext_getElem?
  intro n
  rw [run_getElem?, run_getElem?]
  cases hw : (windows buffer tokens)[n]? with
  | none => rfl
  | some w =>
    obtain ⟨hmeasured, hstate⟩ := hstates n
    have hnext := allows_stateBehind hp (n + 1)
    rw [stateBehind_succ hw] at hnext
    simp only [Option.map_some, check_eq_of_checkMultiLine hmulti, hstate]
    rw [(check_preset (p := p) hmeasured config w).same hnext]

/-- A pass that finds the width is the same as one that is told it. If sequences need not always be
indented below their key, a pass with consistent width that ends with the width `width` tells the same
at every token as one with that width from the start, and has the same stack and policy behind every
token; a pass that ends without a width does so for every width. -/
theorem consistent_width_is_fixed (config : Config) (buffer : List UInt8) (tokens : List Token)
    (hspaces : config.spaces = .consistent) (hpolicy : config.indentSequences ≠ .always)
    (width : Nat) (hwidth : (stateBehind config buffer tokens tokens.length).width = some ↑width ∨
      (stateBehind config buffer tokens tokens.length).width = none) :
    let fixed := { config with spaces := .fixed width }
    (rule fixed).run (windows buffer tokens) = (rule config).run (windows buffer tokens) ∧
      ∀ n, (stateBehind fixed buffer tokens n).stack = (stateBehind config buffer tokens n).stack ∧
        (stateBehind fixed buffer tokens n).policy = (stateBehind config buffer tokens n).policy := by
  intro fixed
  have hstart : State.start fixed = (State.start config).preset ⟨some (width : Int), none⟩ := by
    simp [State.start, State.preset, fixed, hspaces]
  have hm : Measured (.start config) := fun h => absurd h hpolicy
  have hmulti : fixed.checkMultiLine = config.checkMultiLine := rfl
  obtain ⟨hrun, hstates⟩ := run_preset hmulti hstart hm
    ⟨fun v hv => by cases hv; exact hwidth.symm, by simp⟩
  refine ⟨hrun, fun n => ?_⟩
  rw [hstates n]
  exact ⟨rfl, rfl⟩

/-- The first nested mapping settles the width, and the second is told to be wrong by it. -/
theorem consistent_width_is_fixed_three :
    let source := "a:\n   b: 1\nc:\n  d: 1"
    let tokens := (scan source).tokens
    let buffer := Text.bytes source.toList
    (stateBehind ⟨.consistent, .whatever, false⟩ buffer tokens tokens.length).width = some 3 ∧
      ((rule ⟨.fixed 3, .whatever, false⟩).run (windows buffer tokens)).flatten =
        [⟨4, 3, "wrong indentation: expected 3 but found 2"⟩] := by
  intro source tokens buffer
  have hwidth : (stateBehind ⟨.consistent, .whatever, false⟩ buffer tokens tokens.length).width =
      some 3 := by decide +kernel
  have hrun := (consistent_width_is_fixed ⟨.consistent, .whatever, false⟩ buffer tokens rfl
    (by decide) 3 (.inl hwidth)).1
  refine ⟨hwidth, ?_⟩
  rw [hrun]
  decide +kernel

/-- A pass that settles the policy for sequences is the same as one that is told it. A pass with
consistent policy that ends with the policy `policy` tells the same at every token as one with that
policy from the start, and has the same stack and width behind every token; a pass that ends without a
decision does so for every policy. -/
theorem consistent_policy_is_fixed (config : Config) (buffer : List UInt8) (tokens : List Token)
    (hconsistent : config.indentSequences = .consistent) (policy : Policy)
    (hpolicy : (stateBehind config buffer tokens tokens.length).policy = policy ∨
      (stateBehind config buffer tokens tokens.length).policy = .consistent) :
    let fixed := { config with indentSequences := policy }
    (rule fixed).run (windows buffer tokens) = (rule config).run (windows buffer tokens) ∧
      ∀ n, (stateBehind fixed buffer tokens n).stack = (stateBehind config buffer tokens n).stack ∧
        (stateBehind fixed buffer tokens n).width = (stateBehind config buffer tokens n).width := by
  intro fixed
  have hstart : State.start fixed = (State.start config).preset ⟨none, some policy⟩ := by
    simp [State.start, State.preset, fixed]
  have hm : Measured (.start config) := fun h => by
    have hne : config.indentSequences = .always := h
    rw [hconsistent] at hne
    cases hne
  have hmulti : fixed.checkMultiLine = config.checkMultiLine := rfl
  obtain ⟨hrun, hstates⟩ := run_preset hmulti hstart hm
    ⟨by simp, fun q hq => by cases hq; exact hpolicy.symm⟩
  refine ⟨hrun, fun n => ?_⟩
  rw [hstates n]
  exact ⟨rfl, rfl⟩

/-- The first sequence settles that none is indented, and the second is told to be wrong by it. -/
theorem consistent_policy_is_fixed_never :
    let source := "a:\n- 1\nb:\n    - 2"
    let tokens := (scan source).tokens
    let buffer := Text.bytes source.toList
    (stateBehind ⟨.consistent, .consistent, false⟩ buffer tokens tokens.length).policy = .never ∧
      ((rule ⟨.consistent, .never, false⟩).run (windows buffer tokens)).flatten =
        [⟨4, 5, "wrong indentation: expected 0 but found 4"⟩] := by
  intro source tokens buffer
  have hpolicy : (stateBehind ⟨.consistent, .consistent, false⟩ buffer tokens
      tokens.length).policy = .never := by decide +kernel
  have hrun := (consistent_policy_is_fixed ⟨.consistent, .consistent, false⟩ buffer tokens rfl
    .never (.inl hpolicy)).1
  refine ⟨hpolicy, ?_⟩
  rw [hrun]
  decide +kernel

end YamlLinter.Indentation
