import Mathlib.Data.List.Chain
import YamlLinter.Proofs.Indentation.Step
import YamlLinter.Proofs.RuleRun

/-!
# The states that the indentation rule can reach

Whatever the tokens are, the stack of the rule has a shape of its own: the root at the bottom and
nowhere else, each value on a key and each item on a sequence. A token may be given up half-way: in
the comparison of columns, in that of the lines of a scalar, or while it opens frames. The state is
then left as it is at that point, so every one of these parts has to keep the shape by itself.

## Contents

* `Sits`, `Shaped`: the shape of the stack;
* `closeFrames_suffix`, `Shaped.fits`: closing frames takes from the top, and always succeeds;
* `Evolves`: what may become of a state: its shape stays, and what is settled stays settled;
* `evolves_checkStart`, `evolves_checkScalar`, `evolves_openFrames`, `evolves_shift`: each part;
* `evolves_check`, `evolves_stateBehind`: one token, and some tokens;
* `State.opened`: how far a token gets before it closes frames;
* `filter_isAnomaly_check`: when a token is told not to fit;
* `reachable_states`: all of this for any tokens.
-/

namespace YamlLinter.Indentation

variable {t : Token} {n : Option TokenKind} {consumed : Bool} {w : Window} {config : Config}
  {s s₁ s₂ : State} {f : Frame} {stack : List Frame}

/-! ## The shape of the stack -/

/-- Whether a frame may lie on another one: the root lies on none, an item lies on a sequence, and a
value lies on a key. -/
def Sits (above below : Frame) : Bool :=
  match above with
  | .root => false
  | .blockEntry _ => below.isBlockSeq
  | .value _ => below.isKey
  | _ => true

/-- The root is at the bottom, and every other frame lies on one on which it may. -/
structure Shaped (stack : List Frame) : Prop where
  based : Based stack
  sits : stack.IsChain fun above below => Sits above below = true

/-- The stack of the first state is in shape. -/
theorem shaped_root : Shaped [.root] := ⟨rfl, .singleton _⟩

/-- A frame that may sit on the one on top. -/
theorem Shaped.cons (h : Shaped stack) (hf : ∀ top ∈ stack.head?, Sits f top = true) :
    Shaped (f :: stack) :=
  ⟨h.based.cons f, h.sits.cons hf⟩

theorem Shaped.of_suffix {rest : List Frame} (h : Shaped stack) (hrest : rest <:+ stack)
    (hne : rest ≠ []) : Shaped rest := by
  refine ⟨?_, h.sits.suffix hrest⟩
  obtain ⟨above, rfl⟩ := hrest
  have hlast := h.based
  unfold Based at hlast ⊢
  rwa [List.getLast?_append_of_ne_nil _ hne] at hlast

/-! ## Closing -/

/-- Frames are closed from the top of the stack. -/
theorem closeFrames_suffix (stack : List Frame) : (closeFrames t n consumed stack).1 <:+ stack := by
  fun_induction closeFrames t n consumed stack with
  | case1 | case2 | case3 | case4 | case9 => exact List.suffix_refl _
  | case5 consumed top below rest _ ih | case6 consumed top below rest _ ih =>
    exact ih.trans (List.suffix_cons top _)
  | case7 consumed top below rest _ he =>
    obtain rfl : rest = [] := by simpa using he
    exact List.suffix_cons top _
  | case8 consumed top below rest _ _ ih =>
    exact ih.trans ((List.suffix_cons below rest).trans (List.suffix_cons top _))

/-- Closing frames keeps the shape. -/
theorem Shaped.closeFrames (h : Shaped stack) : Shaped (closeFrames t n consumed stack).1 :=
  h.of_suffix (closeFrames_suffix stack) (based_closeFrames h.based).ne_nil

/-- Where every value lies on a key, nothing is broken. -/
theorem closing_ne_broken {below : Frame} (h : Sits f below = true) :
    closing t n consumed f (some below) ≠ .broken := by
  unfold closing
  split
  · simp
  · cases f with
    | blockEntry i =>
      simp only [Option.isNone_some, Bool.and_false, Bool.false_eq_true, if_false]
      split
      · simp
      · split <;> simp
    | value i =>
      have hkey : below.isKey = true := h
      simp only [Option.any_some, hkey, if_true]
      split <;> simp
    | key i explicit =>
      simp only
      split <;> simp
    | _ => simp

/-- Nothing is closed together with the root. -/
theorem closing_on_root : closing t n consumed f (some .root) ≠ .closeTwo := by
  unfold closing
  split
  · simp
  · cases f with
    | blockEntry i =>
      simp only [Option.any_some, Frame.isImplicitSeq, Bool.and_false, Bool.false_and,
        Option.isNone_some, Bool.false_eq_true, if_false]
      split <;> simp
    | value i =>
      simp only [Option.any_some, Frame.isKey, Bool.false_eq_true, if_false]
      split <;> simp
    | key i explicit =>
      simp only
      split <;> simp
    | _ => simp

/-- The root is never closed. -/
theorem closing_root : closing t n consumed .root none = .stay := by
  simp [closing, closesOwn]

/-- In a stack of the right shape, frames can always be closed. -/
theorem Shaped.fits (h : Shaped stack) : (Indentation.closeFrames t n consumed stack).2 = true := by
  fun_induction Indentation.closeFrames t n consumed stack with
  | case1 => exact absurd rfl h.based.ne_nil
  | case2 | case4 => rfl
  | case3 consumed top hc =>
    obtain rfl : top = .root := by simpa [Based] using h.based
    exact absurd closing_root hc
  | case5 consumed top below rest _ ih | case6 consumed top below rest _ ih =>
    exact ih (h.of_suffix (List.suffix_cons top _) (by simp))
  | case7 consumed top below rest hc he =>
    -- the bottom is the root, which is never closed together with what lies on it
    obtain rfl : rest = [] := by simpa using he
    obtain rfl : below = .root := by simpa [Based] using h.based
    exact absurd hc closing_on_root
  | case8 consumed top below rest _ he ih =>
    refine ih (h.of_suffix ?_ (by simpa using he))
    exact (List.suffix_cons below rest).trans (List.suffix_cons top _)
  | case9 consumed top below rest hc =>
    exact absurd hc (closing_ne_broken (List.isChain_cons_cons.1 h.sits).1)

/-! ## What may become of a state -/

/-- The stack keeps its shape, a known width stays as it is, and so does the policy unless it is to be
settled. -/
structure Evolves (s s₁ : State) : Prop where
  shaped : Shaped s.stack → Shaped s₁.stack
  width : ∀ width, s.width = some width → s₁.width = some width
  policy : s₁.policy = s.policy ∨
    s.policy = .consistent ∧ (s₁.policy = .always ∨ s₁.policy = .never)

namespace Evolves

theorem refl (s : State) : Evolves s s := ⟨fun h => h, fun _ h => h, .inl rfl⟩

/-- Two steps behind each other. -/
theorem trans (h₁ : Evolves s s₁) (h₂ : Evolves s₁ s₂) : Evolves s s₂ where
  shaped h := h₂.shaped (h₁.shaped h)
  width width h := h₂.width width (h₁.width width h)
  policy := by
    rcases h₂.policy with h | ⟨hfrom, hto⟩
    · rw [h]
      exact h₁.policy
    · rcases h₁.policy with h | ⟨-, h | h⟩
      · exact .inr ⟨h ▸ hfrom, hto⟩
      · rw [h] at hfrom
        cases hfrom
      · rw [h] at hfrom
        cases hfrom

/-- A column compared behind other steps. -/
theorem expect (h : Evolves s s₁) (base column : Int) : Evolves s (s₁.expect base column).2 := by
  refine h.trans ?_
  unfold State.expect
  split
  · exact refl s₁
  · rename_i hnone
    refine ⟨fun h => h, ?_, .inl rfl⟩
    intro width hwidth
    rw [hnone] at hwidth
    cases hwidth

/-- A frame opened where it may sit, behind other steps. -/
theorem push (h : Evolves s s₁) (hf : ∀ top, s₁.top? = some top → Sits f top = true) :
    Evolves s (s₁.push f) :=
  h.trans ⟨fun hs => hs.cons hf, fun _ hw => hw, .inl rfl⟩

end Evolves

theorem State.Compared.evolves (h : s.Compared s₁) : Evolves s s₁ := by
  rcases h with rfl | ⟨base, column, rfl⟩
  · exact .refl _
  · exact (Evolves.refl s).expect base column

theorem evolves_expectSequence (base column : Int) :
    Evolves s (s.expectSequence base column).2 := by
  have hsettle : ∀ {policy : Policy}, s.policy = .consistent →
      (policy = .always ∨ policy = .never) → Evolves s { s with policy } :=
    fun hfrom hto => ⟨fun h => h, fun _ h => h, .inr ⟨hfrom, hto⟩⟩
  unfold State.expectSequence
  split
  · exact .refl s
  · split
    · exact .refl s
    · exact (Evolves.refl s).expect base column
  · split
    · exact .refl s
    · exact (Evolves.refl s).expect base column
  · rename_i hpolicy
    split
    · exact hsettle hpolicy (.inr rfl)
    · exact (hsettle hpolicy (.inl rfl)).expect base column

theorem evolves_expectValue (base : Int) (explicit : Bool) (prev content : Token) :
    Evolves s (s.expectValue base explicit prev content).2 := by
  unfold State.expectValue
  simp only
  split
  · exact (Evolves.refl s).expect _ _
  · split
    · exact .refl s
    · split
      · exact evolves_expectSequence _ _
      · exact (Evolves.refl s).expect _ _

/-! ## Opening -/

/-- The start of a block collection keeps the shape of the stack, and what is fixed. -/
theorem evolves_openBlock {first : TokenKind} {frame : Int → Frame}
    (hframe : ∀ i below, Sits (frame i) below = true) (h : s.openBlock w first frame = some s₁) :
    Evolves s s₁ := by
  unfold State.openBlock at h
  split at h
  · cases h
  · split at h
    · cases h
      exact (Evolves.refl s).push fun top _ => hframe _ top
    · cases h

theorem evolves_openFlow {frame : Int → Int → Frame}
    (hframe : ∀ i l below, Sits (frame i l) below = true) (h : s.openFlow w frame = some s₁) :
    Evolves s s₁ := by
  unfold State.openFlow at h
  split at h
  · cases h
  · split at h
    · cases h
      exact (Evolves.refl s).push fun top _ => hframe _ _ top
    · obtain rfl := Option.some.inj h
      exact ((Evolves.refl s).expect _ _).push fun top _ => hframe _ _ top

theorem evolves_openEntry (h : s.openEntry w = some s₁) : Evolves s s₁ := by
  unfold State.openEntry at h
  split at h
  · rename_i next top _ htop
    split at h
    · cases h
      exact .refl s
    · -- the item lies on the sequence that was on top, or on the one that it opens
      obtain ⟨s₂, hs₂, hseq, heq⟩ : ∃ s₂, Evolves s s₂ ∧
          (∀ top, s₂.top? = some top → top.isBlockSeq = true) ∧
          (if top.isBlockSeq then s else s.push (.blockSeq (columnOf w.token) true)) = s₂ := by
        refine ⟨_, ?_, ?_, rfl⟩
        · split
          · exact .refl s
          · exact (Evolves.refl s).push fun top _ => rfl
        · intro f hf
          split at hf
          · rename_i hseq
            cases htop.symm.trans hf
            exact hseq
          · cases hf
            rfl
      simp only [heq] at h
      split at h
      · obtain rfl := Option.some.inj h
        exact hs₂.push hseq
      · obtain rfl := Option.some.inj h
        refine (hs₂.expect _ _).push fun f hf => hseq f ?_
        simpa [State.top?] using hf
  · cases h

theorem evolves_openKey (h : s.openKey w = some s₁) : Evolves s s₁ := by
  unfold State.openKey at h
  split at h
  · cases h
  · obtain rfl := Option.some.inj h
    exact (Evolves.refl s).push fun _ _ => rfl

theorem evolves_openValue (h : s.openValue w = some s₁) : Evolves s s₁ := by
  unfold State.openValue at h
  split at h
  · rename_i base explicit prev next htop _ _
    simp only at h
    split at h
    · cases h
      exact .refl s
    · obtain rfl := Option.some.inj h
      refine (evolves_expectValue _ _ _ _).push fun f hf => ?_
      -- columns were compared in between, but the key is still on top
      have hkey : s.top? = some f := by simpa [State.top?] using hf
      cases htop.symm.trans hkey
      rfl
  · cases h

/-- A token opens frames only where they may lie. -/
theorem evolves_openFrames (h : s.openFrames w = some s₁) : Evolves s s₁ := by
  unfold State.openFrames at h
  split at h
  · exact evolves_openBlock (fun _ _ => rfl) h
  · exact evolves_openBlock (fun _ _ => rfl) h
  · exact evolves_openFlow (fun _ _ _ => rfl) h
  · exact evolves_openFlow (fun _ _ _ => rfl) h
  · exact evolves_openEntry h
  · exact evolves_openKey h
  · exact evolves_openValue h
  · cases h
    exact .refl s

/-! ## One token -/

/-- The state in which a token has opened its frames and closes none yet; none if it does not get so
far. -/
def State.opened (s : State) (config : Config) (w : Window) : Option State :=
  match s.checkStart w.token with
  | none => none
  | some (_, s₁) =>
    match s₁.checkScalar config w.buffer w.token with
    | none => none
    | some (_, s₂) => (s₂.moveTo w.buffer w.token (s.isFirst w.token)).openFrames w

theorem evolves_moveTo (buffer : List UInt8) (t : Token) (first : Bool) :
    Evolves s (s.moveTo buffer t first) := by
  unfold State.moveTo
  split
  · exact ⟨fun h => h, fun _ h => h, .inl rfl⟩
  · exact .refl s

/-- Everything that a token opens and closes keeps the shape of the stack, and what is fixed. -/
theorem evolves_shift (w : Window) : Evolves s (s.shift w).1 := by
  unfold State.shift
  split
  · exact .refl s
  · rename_i s₁ hopen
    refine (evolves_openFrames hopen).trans ⟨fun h => h.closeFrames, fun _ h => h, .inl rfl⟩

/-- Whatever a token is, and wherever it is given up, the state evolves. -/
theorem evolves_check (config : Config) (w : Window) (s : State) :
    Evolves s (check config w s).2 := by
  rw [check_snd]
  unfold State.step
  split
  · exact .refl s
  · rename_i hstart
    have hstart := (State.checkStart_cases hstart).1.evolves
    split
    · exact hstart
    · rename_i hscalar
      have hscalar := (State.checkScalar_cases hscalar).1.evolves
      exact ((hstart.trans hscalar).trans (evolves_moveTo _ _ _)).trans (evolves_shift w)

/-- Once its frames are opened, a token closes frames. -/
theorem State.step_of_opened (h : s.opened config w = some s₁) :
    (s.step config w).2 =
      ({ s₁ with stack := (closeFrames w.token (w.next.map Token.kind) false s₁.stack).1 },
        (closeFrames w.token (w.next.map Token.kind) false s₁.stack).2) := by
  cases hstart : s.checkStart w.token with
  | none => simp [State.opened, hstart] at h
  | some first =>
    cases hscalar : first.2.checkScalar config w.buffer w.token with
    | none => simp [State.opened, hstart, hscalar] at h
    | some second =>
      simp only [State.opened, hstart, hscalar] at h
      simp only [State.step, hstart, hscalar, State.shift, h]

/-- A token that does not get so far as to have opened its frames does not fit. -/
theorem State.step_of_not_opened (h : s.opened config w = none) :
    (s.step config w).2.2 = false := by
  cases hstart : s.checkStart w.token with
  | none => simp [State.step, hstart]
  | some first =>
    cases hscalar : first.2.checkScalar config w.buffer w.token with
    | none => simp [State.step, hstart, hscalar]
    | some second =>
      simp only [State.opened, hstart, hscalar] at h
      simp only [State.step, hstart, hscalar, State.shift, h]

/-- The stack behind a token that opens frames. -/
theorem stack_check_of_opened (h : s.opened config w = some s₁) :
    (check config w s).2.stack =
      (closeFrames w.token (w.next.map Token.kind) false s₁.stack).1 := by
  rw [check_snd, State.step_of_opened h]

theorem evolves_opened (h : s.opened config w = some s₁) : Evolves s s₁ := by
  unfold State.opened at h
  split at h
  · cases h
  · rename_i hstart
    split at h
    · cases h
    · rename_i hscalar
      have hstart := (State.checkStart_cases hstart).1.evolves
      have hscalar := (State.checkScalar_cases hscalar).1.evolves
      exact ((hstart.trans hscalar).trans (evolves_moveTo _ _ _)).trans (evolves_openFrames h)

/-! ## Anomalies -/

/-- Whether a finding says that a token does not fit. -/
def isAnomaly (f : Finding) : Bool := f.desc == "cannot infer indentation: unexpected token"

/-- Tokens that make no sense are an anomaly. -/
theorem isAnomaly_cannotInfer (t : Token) : isAnomaly (cannotInfer t) = true := by
  simp [isAnomaly, cannotInfer]

/-- A wrong indentation is none. -/
theorem isAnomaly_wrongIndentation (line : Nat) (found expected : Int) :
    isAnomaly (wrongIndentation line found expected) = false := by
  unfold isAnomaly
  rw [beq_eq_false_iff_ne]
  intro h
  have hfirst := congrArg (·.toList.head?) h
  simp [wrongIndentation] at hfirst

theorem filter_isAnomaly_compareIndent (line : Nat) (found expected : Int) :
    (compareIndent line found expected).filter isAnomaly = [] := by
  unfold compareIndent
  split
  · rfl
  · simp [isAnomaly_wrongIndentation]

/-- Comparing columns tells of no anomaly. -/
theorem filter_isAnomaly_step (s : State) (config : Config) (w : Window) :
    (s.step config w).1.filter isAnomaly = [] := by
  have hstart : ∀ {fs s₁}, s.checkStart w.token = some (fs, s₁) → fs.filter isAnomaly = [] := by
    intro fs s₁ h
    obtain ⟨-, rfl | ⟨expected, rfl⟩⟩ := State.checkStart_cases h
    · rfl
    · exact filter_isAnomaly_compareIndent _ _ _
  unfold State.step
  split
  · rfl
  · rename_i fs s₁ h
    split
    · exact hstart h
    · rename_i gs s₂ hscalar
      have hlines : gs.filter isAnomaly = [] := by
        obtain ⟨-, rfl | ⟨-, -, expected, rfl⟩⟩ := State.checkScalar_cases hscalar
        · rfl
        · rw [List.filter_flatMap, List.flatMap_eq_nil_iff]
          intro x _
          exact filter_isAnomaly_compareIndent _ _ _
      rw [List.filter_append, hstart h, hlines]
      rfl

/-- A token fits if and only if it gets so far as to have opened its frames. -/
theorem fits_step (hs : Shaped s.stack) :
    (s.step config w).2.2 = (s.opened config w).isSome := by
  cases h : s.opened config w with
  | none => exact State.step_of_not_opened h
  | some s₁ =>
    have hshaped := (evolves_opened h).shaped hs
    rw [State.step_of_opened h]
    exact hshaped.fits

/-- A token is told not to fit once, at its start, if it does not get so far as to have opened its
frames; else it is not told. -/
theorem filter_isAnomaly_check (hs : Shaped s.stack) :
    (check config w s).1.filter isAnomaly =
      if (s.opened config w).isSome then [] else [cannotInfer w.token] := by
  rw [← fits_step hs]
  unfold check
  simp only
  by_cases hfits : (s.step config w).2.2 = true
  · simp only [hfits, if_true]
    exact filter_isAnomaly_step s config w
  · simp only [hfits, Bool.false_eq_true, if_false]
    rw [List.filter_append, filter_isAnomaly_step]
    simp [isAnomaly_cannotInfer]

/-! ## Some tokens -/

/-- The state behind the first `n` tokens. -/
def stateBehind (config : Config) (buffer : List UInt8) (tokens : List Token) (n : Nat) : State :=
  ((windows buffer tokens).take n).foldl (fun s w => (check config w s).2) (.start config)

variable {buffer : List UInt8} {tokens : List Token}

/-- The state behind one token more. -/
theorem stateBehind_succ {n : Nat} (h : (windows buffer tokens)[n]? = some w) :
    stateBehind config buffer tokens (n + 1) =
      (check config w (stateBehind config buffer tokens n)).2 :=
  TokenRule.stateBehind_succ (r := rule config) h

/-- Whole runs keep it too. -/
theorem evolves_stateBehind {m n : Nat} (h : m ≤ n) :
    Evolves (stateBehind config buffer tokens m) (stateBehind config buffer tokens n) := by
  induction n, h using Nat.le_induction with
  | base => exact .refl _
  | succ n _ ih =>
    cases hw : (windows buffer tokens)[n]? with
    | none =>
      have hsame : stateBehind config buffer tokens (n + 1) = stateBehind config buffer tokens n := by
        unfold stateBehind
        rw [List.take_add_one, hw]
        simp
      rw [hsame]
      exact ih
    | some w =>
      rw [stateBehind_succ hw]
      exact ih.trans (evolves_check config w _)

/-- The stack is in shape behind every token. -/
theorem shaped_stateBehind (n : Nat) : Shaped (stateBehind config buffer tokens n).stack :=
  (evolves_stateBehind (Nat.zero_le n)).shaped shaped_root

/-- What the rule finds at a token is what it finds in the state behind the tokens before. -/
theorem run_getElem? (config : Config) (buffer : List UInt8) (tokens : List Token) (n : Nat) :
    ((rule config).run (windows buffer tokens))[n]? =
      (windows buffer tokens)[n]?.map fun w =>
        (check config w (stateBehind config buffer tokens n)).1 :=
  (rule config).getElem?_run (windows buffer tokens) n

/-- The states of the indentation rule, for any options, source and tokens. The root is at the bottom
of the stack and nowhere else, values lie on keys and items on sequences. Closing frames always
succeeds, so a token is told not to fit exactly if it does not get so far as to have opened its
frames, and then once and at its start. A width that is known stays as it is, and the policy changes
only from `consistent`, to `always` or `never`. -/
theorem reachable_states (config : Config) (buffer : List UInt8) (tokens : List Token) :
    (∀ n, Shaped (stateBehind config buffer tokens n).stack) ∧
      (∀ n w, (windows buffer tokens)[n]? = some w →
        (∀ s, (stateBehind config buffer tokens n).opened config w = some s →
          (closeFrames w.token (w.next.map Token.kind) false s.stack).2 = true) ∧
        ∃ fs, ((rule config).run (windows buffer tokens))[n]? = some fs ∧
          fs.filter isAnomaly =
            if ((stateBehind config buffer tokens n).opened config w).isSome then []
            else [cannotInfer w.token]) ∧
      (∀ m n, m ≤ n → ∀ width, (stateBehind config buffer tokens m).width = some width →
        (stateBehind config buffer tokens n).width = some width) ∧
      (∀ m n, m ≤ n →
        (stateBehind config buffer tokens n).policy = (stateBehind config buffer tokens m).policy ∨
          (stateBehind config buffer tokens m).policy = .consistent ∧
            ((stateBehind config buffer tokens n).policy = .always ∨
              (stateBehind config buffer tokens n).policy = .never)) ∧
      (config.indentSequences ≠ .consistent →
        ∀ n, (stateBehind config buffer tokens n).policy = config.indentSequences) := by
  refine ⟨shaped_stateBehind, ?_, ?_, ?_, ?_⟩
  · intro n w hw
    have hshaped : Shaped (stateBehind config buffer tokens n).stack := shaped_stateBehind n
    constructor
    · intro s hs
      exact ((evolves_opened hs).shaped hshaped).fits
    · refine ⟨_, ?_, filter_isAnomaly_check hshaped⟩
      rw [run_getElem?, hw]
      rfl
  · intro m n hmn
    exact (evolves_stateBehind hmn).width
  · intro m n hmn
    exact (evolves_stateBehind hmn).policy
  · intro hpolicy n
    rcases (evolves_stateBehind (Nat.zero_le n)).policy with h | ⟨h, -⟩
    · exact h
    · exact absurd h hpolicy

end YamlLinter.Indentation
