import YamlLinter.Proofs.Indentation.Reachable
import YamlLinter.Scan.Tokens
import YamlLinter.Text.Utf8

/-!
# The width that is detected

A pass that is told to be consistent settles the width at the first content that is nested below
something else and stands on a line of its own: the width is the column of the content, less the
column from which it is measured. A sequence at the column of its key and an entry at the column of
its `-` are left out, so that they do not settle a width of zero. Nothing else is: the first content
of a flow collection, of a key with `?` or of a value, and the lines of a block scalar, may stand at
the column from which they are measured, or left of it.

## Contents

* `Measure`: content and the column from which it is measured;
* `State.startMeasures`, `State.lineMeasures`, `State.openMeasures`: what a token measures, in the
  order in which it does;
* `Settles`: the first measure settles a width that is not known;
* `settles_checkStart`, `settles_checkScalar`, `settles_openFrames`, `settles_check`: one token;
* `measuresBehind`, `settles_stateBehind`: some tokens;
* `width_is_positive_iff_indented`: whole passes.
-/

namespace YamlLinter.Indentation

/-- Content that is nested below something: the column from which it is measured, and its own. -/
structure Measure where
  base : Int
  column : Int
  deriving Repr, DecidableEq

/-- How far the content is indented. -/
def Measure.width (m : Measure) : Int := m.column - m.base

variable {s s₁ s₂ : State} {t : Token} {w : Window} {config : Config} {ms ms' : List Measure}

namespace State

/-! ## What a token measures -/

/-- A token that starts a line behind a `?` is measured from the key. -/
def startMeasures (s : State) (t : Token) : List Measure :=
  match s.top? with
  | some (.key base true) =>
    if s.isFirst t && !t.kind.isFlowEnd && t.kind != .value then [⟨base, columnOf t⟩] else []
  | _ => []

/-- The column from which the lines of a block scalar are measured. -/
def blockBase (s : State) (t : Token) : Option Int :=
  match s.top? with
  | none | some (.key _ false) => none
  | some (.blockEntry _) | some (.key _ true) => some (columnOf t)
  | some (.value indent) =>
    if s.line < t.start.line + 1 then some indent
    else s.below?.map fun below => if below.isExplicitKey then columnOf t else below.indent
  | some top => some top.indent

/-- The first line of a block scalar is measured, if the rule looks at the lines of scalars. -/
def lineMeasures (s : State) (config : Config) (buffer : List UInt8) (t : Token) : List Measure :=
  match continuationLines buffer t with
  | [] => []
  | (_, found) :: _ =>
    if config.checkMultiLine && isBlockScalar t then (s.blockBase t).toList.map (⟨·, found⟩) else []

/-- The content of a value is measured from its key: behind a `?` always, else if it does not stand
behind the key. A sequence is not if it is not to be indented, or stands at the key's column. -/
def valueMeasures (s : State) (base : Int) (explicit : Bool) (prev content : Token) :
    List Measure :=
  let flush := s.policy == .never || columnOf content == base
  if explicit then [⟨base, columnOf content⟩]
  else if content.start.line == prev.start.line || startsSequence content.kind && flush then []
  else [⟨base, columnOf content⟩]

/-- The content of a flow collection is measured from the indent of the line on which it starts,
unless it stands on that line too. -/
def flowMeasures (s : State) (t next : Token) : List Measure :=
  if next.start.line == t.start.line then [] else [⟨s.lineIndent, columnOf next⟩]

/-- The content of an entry is measured from its `-`, unless it stands on the line or at the column
of that. -/
def entryMeasures (t next : Token) : List Measure :=
  if endsItem next.kind || next.start.line == t.stop.line || columnOf next == columnOf t then []
  else [⟨columnOf t, columnOf next⟩]

/-- What a token measures when it opens a construct. -/
def openMeasures (s : State) (w : Window) : List Measure :=
  match w.token.kind with
  | .flowMappingStart | .flowSequenceStart => w.next.elim [] (s.flowMeasures w.token)
  | .blockEntry => w.next.elim [] (entryMeasures w.token)
  | .value =>
    match s.top?, w.prev, w.next with
    | some (.key base explicit), some prev, some next =>
      let content := contentOf prev next w.nextNext
      if endsEntry content.kind then [] else s.valueMeasures base explicit prev content
    | _, _, _ => []
  | _ => []

/-- What a token measures. -/
def measures (s : State) (config : Config) (w : Window) : List Measure :=
  s.startMeasures w.token ++ s.lineMeasures config w.buffer w.token ++
    (s.moveTo w.buffer w.token (s.isFirst w.token)).openMeasures w

end State

/-! ## The first measure settles the width -/

/-- A width that is known stays; else the first measure settles it. -/
def Settles (s : State) (ms : List Measure) (s₁ : State) : Prop :=
  s₁.width = s.width.or (ms.head?.map Measure.width)

namespace Settles

theorem of_eq (h : s₁.width = s.width) : Settles s [] s₁ := by
  unfold Settles
  simp [h]

theorem trans (h₁ : Settles s ms s₁) (h₂ : Settles s₁ ms' s₂) : Settles s (ms ++ ms') s₂ := by
  unfold Settles at *
  rw [h₂, h₁, Option.or_assoc, List.head?_append, Option.map_or]

theorem expect (s : State) (base column : Int) :
    Settles s [⟨base, column⟩] (s.expect base column).2 := by
  unfold Settles State.expect
  cases hwidth : s.width with
  | none => rfl
  | some width => exact hwidth

theorem of_expect {base column expected : Int} (h : s.expect base column = (expected, s₁)) :
    Settles s [⟨base, column⟩] s₁ := by
  have hsettles := Settles.expect s base column
  rwa [h] at hsettles

end Settles

/-- Comparing columns changes nothing but the width. -/
theorem State.Compared.exists_width (h : s.Compared s₁) : ∃ width, s₁ = { s with width } := by
  refine ⟨s₁.width, ?_⟩
  rcases h with rfl | ⟨base, column, rfl⟩
  · rfl
  · unfold State.expect
    split <;> rfl

theorem startMeasures_eq_nil (h : s.isFirst t = false ∨ t.kind.isFlowEnd = true) :
    s.startMeasures t = [] := by
  unfold State.startMeasures
  split
  · rcases h with h | h <;> simp [h]
  · rfl

theorem settles_expectStart {expected : Int} (hfirst : s.isFirst t = true)
    (h : s.expectStart t = some (expected, s₁)) : Settles s (s.startMeasures t) s₁ := by
  unfold State.expectStart at h
  cases htop : s.top? with
  | none => simp [htop] at h
  | some top =>
    simp only [htop] at h
    by_cases hend : t.kind.isFlowEnd = true
    · rw [if_pos hend] at h
      obtain ⟨l, -, heq⟩ := Option.map_eq_some_iff.1 h
      cases heq
      rw [startMeasures_eq_nil (.inr hend)]
      exact .of_eq rfl
    · rw [if_neg hend] at h
      unfold State.startMeasures
      rw [htop]
      -- only behind a `?` is anything measured
      cases top with
      | key base explicit =>
        cases explicit with
        | false =>
          simp only [Frame.isExplicitKey, Bool.and_false, Bool.false_eq_true, if_false] at h
          cases h
          exact .of_eq rfl
        | true =>
          simp only [hfirst, hend, Frame.isExplicitKey, Bool.and_true, Bool.true_and,
            Bool.not_false] at h ⊢
          split at h
          · rename_i hvalue
            rw [if_pos hvalue]
            exact .of_expect (Option.some.inj h)
          · rename_i hvalue
            rw [if_neg hvalue]
            cases h
            exact .of_eq rfl
      | _ =>
        simp only [Frame.isExplicitKey, Bool.and_false, Bool.false_eq_true, if_false] at h
        cases h
        exact .of_eq rfl

theorem settles_checkStart {fs : List Finding} (h : s.checkStart t = some (fs, s₁)) :
    Settles s (s.startMeasures t) s₁ := by
  unfold State.checkStart at h
  split at h
  · rename_i hfirst
    split at h
    · cases h
    · rename_i hexpect
      cases h
      exact settles_expectStart hfirst hexpect
  · rename_i hfirst
    cases h
    rw [startMeasures_eq_nil (.inl (Bool.eq_false_iff.2 hfirst))]
    exact .of_eq rfl

/-- The lines of a block scalar are compared if there is a column from which they are measured. -/
theorem expectBlock_eq (s : State) (t : Token) (found : Int) :
    s.expectBlock t found = (s.blockBase t).map (s.expect · found) := by
  unfold State.expectBlock State.blockBase
  cases htop : s.top? with
  | none => rfl
  | some top =>
    cases top with
    | key base explicit => cases explicit <;> rfl
    | value indent =>
      simp only
      split
      · rfl
      · cases hbelow : s.below? with
        | none => rfl
        | some below =>
          simp only [Option.map_some]
          split <;> rfl
    | _ => rfl

/-- Only a block scalar is measured: other scalars are compared with a column of their own. -/
theorem settles_expectScalar {found expected : Int}
    (h : s.expectScalar t found = some (expected, s₁)) :
    Settles s (if isBlockScalar t then (s.blockBase t).toList.map (⟨·, found⟩) else []) s₁ := by
  unfold State.expectScalar at h
  unfold isBlockScalar
  cases hstyle : t.scalarStyle? with
  | none => simp [hstyle] at h
  | some style =>
    cases style with
    | literal | folded =>
      simp only [hstyle, expectBlock_eq] at h
      obtain ⟨base, hbase, hexpect⟩ := Option.map_eq_some_iff.1 h
      rw [hbase]
      exact .of_expect hexpect
    | plain | singleQuoted | doubleQuoted =>
      simp only [hstyle] at h
      cases h
      exact .of_eq rfl

theorem settles_checkScalar {fs : List Finding} {buffer : List UInt8}
    (h : s.checkScalar config buffer t = some (fs, s₁)) :
    Settles s (s.lineMeasures config buffer t) s₁ := by
  unfold State.checkScalar State.checkLines at h
  unfold State.lineMeasures
  cases hlines : continuationLines buffer t with
  | nil =>
    simp only [hlines, ite_self] at h
    cases h
    exact .of_eq rfl
  | cons line rest =>
    simp only [hlines] at h ⊢
    cases hasked : config.checkMultiLine && t.isScalar with
    | true =>
      simp only [hasked, if_true] at h
      obtain ⟨hasked, -⟩ := Bool.and_eq_true_iff.1 hasked
      rw [hasked, Bool.true_and]
      split at h
      · cases h
      · rename_i hexpect
        cases h
        exact settles_expectScalar hexpect
    | false =>
      simp only [hasked, Bool.false_eq_true, if_false] at h
      cases h
      -- the lines of the scalar are not asked for, so nothing is measured
      have hother : (config.checkMultiLine && isBlockScalar t) = false := by
        rw [Bool.and_eq_false_imp] at hasked ⊢
        intro hlines
        have hscalar := hasked hlines
        unfold Token.isScalar at hscalar
        unfold isBlockScalar
        cases hstyle : t.scalarStyle? with
        | none => rfl
        | some style => simp [hstyle] at hscalar
      rw [hother]
      exact .of_eq rfl

theorem settles_expectSequence (base column : Int) :
    Settles s (if s.policy == .never || column == base then [] else [⟨base, column⟩])
      (s.expectSequence base column).2 := by
  unfold State.expectSequence
  by_cases hflush : column = base
  · subst hflush
    simp only [beq_self_eq_true, Bool.or_true, Bool.and_true, if_true]
    cases hpolicy : s.policy with
    | always =>
      cases hwidth : s.width with
      | none => exact .of_eq rfl
      | some width =>
        apply Settles.of_eq
        simp [State.expect, hwidth]
    | never | whatever | consistent => exact .of_eq rfl
  · simp only [beq_eq_false_iff_ne.2 hflush, Bool.or_false, Bool.and_false, Bool.false_eq_true,
      if_false]
    cases hpolicy : s.policy with
    | never => exact .of_eq rfl
    | always | whatever => exact .expect s base column
    | consistent => exact .expect { s with policy := .always } base column

theorem settles_expectValue (base : Int) (explicit : Bool) (prev content : Token) :
    Settles s (s.valueMeasures base explicit prev content)
      (s.expectValue base explicit prev content).2 := by
  unfold State.expectValue State.valueMeasures
  simp only
  cases explicit with
  | true => exact .expect s base (columnOf content)
  | false =>
    simp only [Bool.false_eq_true, if_false]
    by_cases hline : content.start.line = prev.start.line
    · simp only [hline, beq_self_eq_true, if_true, Bool.true_or]
      exact .of_eq rfl
    · simp only [beq_eq_false_iff_ne.2 hline, Bool.false_eq_true, if_false, Bool.false_or]
      cases startsSequence content.kind with
      | false => exact .expect s base (columnOf content)
      | true => exact settles_expectSequence base (columnOf content)

/-! ## Opening -/

theorem settles_openFlow (frame : Int → Int → Frame) :
    Settles s (w.next.elim [] (s.flowMeasures w.token)) ((s.openFlow w frame).getD s) := by
  unfold State.openFlow
  cases w.next with
  | none => exact .of_eq rfl
  | some next =>
    simp only [Option.elim_some, State.flowMeasures]
    split
    · exact .of_eq rfl
    · exact .expect s s.lineIndent (columnOf next)

theorem settles_openEntry (hb : Based s.stack) :
    Settles s (w.next.elim [] (State.entryMeasures w.token)) ((s.openEntry w).getD s) := by
  obtain ⟨top, htop⟩ := hb.top?
  unfold State.openEntry
  rw [htop]
  cases w.next with
  | none => exact .of_eq rfl
  | some next =>
    simp only [Option.elim_some, State.entryMeasures]
    by_cases hend : endsItem next.kind = true
    · simp only [hend, if_true, Bool.true_or]
      exact .of_eq rfl
    · simp only [hend, Bool.false_eq_true, if_false, Bool.false_or]
      -- a sequence that has to be opened first changes nothing about the width
      have hseq : Settles s [] (if top.isBlockSeq then s
          else s.push (.blockSeq (columnOf w.token) true)) := by
        split <;> exact .of_eq rfl
      split
      · exact hseq
      · exact hseq.trans (.expect _ (columnOf w.token) (columnOf next))

theorem settles_openValue (hkind : w.token.kind = .value) :
    Settles s (s.openMeasures w) ((s.openValue w).getD s) := by
  unfold State.openValue State.openMeasures
  simp only [hkind]
  -- the same tokens are asked for in both, one after the other
  rcases s.top? with _ | top
  · exact .of_eq rfl
  cases top with
  | key base explicit =>
    rcases w.prev with _ | prev
    · exact .of_eq rfl
    rcases w.next with _ | next
    · exact .of_eq rfl
    by_cases hend : endsEntry (State.contentOf prev next w.nextNext).kind = true
    · simp only [hend, if_true]
      exact .of_eq rfl
    · simp only [hend, Bool.false_eq_true, if_false]
      exact settles_expectValue base explicit prev _
  | _ => exact .of_eq rfl

/-- A token that opens frames measures their content; one that fails to has measured nothing. -/
theorem settles_openFrames (hb : Based s.stack) :
    Settles s (s.openMeasures w) ((s.openFrames w).getD s) := by
  unfold State.openFrames
  cases hkind : w.token.kind with
  | value => exact settles_openValue hkind
  | flowMappingStart | flowSequenceStart =>
    simp only [State.openMeasures, hkind]
    exact settles_openFlow _
  | blockEntry =>
    simp only [State.openMeasures, hkind]
    exact settles_openEntry hb
  | blockMappingStart | blockSequenceStart =>
    simp only [State.openMeasures, hkind, State.openBlock]
    apply Settles.of_eq
    repeat' split
    all_goals rfl
  | key =>
    simp only [State.openMeasures, hkind, State.openKey]
    apply Settles.of_eq
    split <;> rfl
  | _ =>
    simp only [State.openMeasures, hkind]
    exact .of_eq rfl

theorem openMeasures_of_opensNone (h : opensNone w.token.kind = true) : s.openMeasures w = [] := by
  unfold State.openMeasures
  split <;> simp_all [opensNone]

/-! ## One token -/

theorem settles_shift (hb : Based s.stack) (w : Window) (first : Bool) :
    Settles s ((s.moveTo w.buffer w.token first).openMeasures w)
      ((s.moveTo w.buffer w.token first).shift w).1 := by
  have hmoved : (s.moveTo w.buffer w.token first).stack = s.stack ∧
      (s.moveTo w.buffer w.token first).width = s.width := by
    unfold State.moveTo
    split <;> exact ⟨rfl, rfl⟩
  generalize s.moveTo w.buffer w.token first = moved at hmoved
  have hopen := settles_openFrames (w := w) (s := moved) (hmoved.1 ▸ hb)
  unfold Settles at hopen ⊢
  rw [← hmoved.2, ← hopen]
  unfold State.shift
  cases moved.openFrames w <;> rfl

/-- What a token measures when it opens a construct does not depend on the width. -/
theorem openMeasures_moveTo (s : State) (width : Option Int) (w : Window) (first : Bool) :
    (({ s with width } : State).moveTo w.buffer w.token first).openMeasures w =
      (s.moveTo w.buffer w.token first).openMeasures w := by
  unfold State.moveTo
  split <;> rfl

/-- The lines of a scalar that cannot be compared are not measured. -/
theorem lineMeasures_of_checkScalar_eq_none {buffer : List UInt8}
    (h : s.checkScalar config buffer t = none) :
    t.isScalar = true ∧ s.lineMeasures config buffer t = [] := by
  unfold State.checkScalar State.checkLines at h
  unfold State.lineMeasures
  split at h
  case isFalse => cases h
  case isTrue hasked =>
    refine ⟨(Bool.and_eq_true_iff.1 hasked).2, ?_⟩
    cases hlines : continuationLines buffer t with
    | nil => rfl
    | cons line rest =>
      simp only [hlines] at h ⊢
      split at h
      case h_2 => cases h
      case h_1 hexpect =>
        unfold State.expectScalar at hexpect
        unfold isBlockScalar
        cases hstyle : t.scalarStyle? with
        | none => simp
        | some style =>
          cases style with
          | literal | folded =>
            simp only [hstyle, expectBlock_eq, Option.map_eq_none_iff] at hexpect
            simp [hexpect]
          | plain | singleQuoted | doubleQuoted => simp [hstyle] at hexpect

/-- Whatever a token is, and wherever it is given up, what it measures settles the width. -/
theorem settles_check (hb : Based s.stack) (config : Config) (w : Window) :
    Settles s (s.measures config w) (check config w s).2 := by
  rw [check_snd]
  unfold State.step State.measures
  cases hstart : s.checkStart w.token with
  | none =>
    -- only the end of a flow collection cannot be compared, and it measures nothing
    have hend : w.token.kind.isFlowEnd = true := by
      by_contra hend
      obtain ⟨fs, s₁, hsome⟩ := checkStart_isSome (t := w.token) hb fun h => absurd h hend
      rw [hstart] at hsome
      cases hsome
    have hstyle : isBlockScalar w.token = false := by
      unfold isBlockScalar Token.scalarStyle?
      cases hkind : w.token.kind <;> simp_all [TokenKind.isFlowEnd]
    have hopen : opensNone w.token.kind = true := by
      cases hkind : w.token.kind <;> simp_all [TokenKind.isFlowEnd, opensNone]
    rw [startMeasures_eq_nil (.inr hend), openMeasures_of_opensNone hopen]
    simp only [State.lineMeasures, hstyle, Bool.and_false, Bool.false_eq_true, if_false]
    split <;> exact .of_eq rfl
  | some first =>
    obtain ⟨fs, s₁⟩ := first
    have hfirst := settles_checkStart hstart
    obtain ⟨width, rfl⟩ := (State.checkStart_cases hstart).1.exists_width
    simp only
    cases hscalar : State.checkScalar _ config w.buffer w.token with
    | none =>
      obtain ⟨hkind, hlines⟩ := lineMeasures_of_checkScalar_eq_none hscalar
      have hopen : opensNone w.token.kind = true := by
        unfold Token.isScalar Token.scalarStyle? at hkind
        cases hkind' : w.token.kind <;> simp_all [opensNone]
      rw [openMeasures_of_opensNone hopen, List.append_nil]
      exact hfirst.trans (hlines ▸ .of_eq rfl)
    | some second =>
      obtain ⟨gs, s₂⟩ := second
      have hlines := settles_checkScalar hscalar
      obtain ⟨width', rfl⟩ := (State.checkScalar_cases hscalar).1.exists_width
      rw [← openMeasures_moveTo s width']
      exact (hfirst.trans hlines).trans (settles_shift (s := { s with width := width' }) hb w _)

/-! ## Some tokens -/

/-- What the first `n` tokens measure. -/
def measuresBehind (config : Config) (buffer : List UInt8) (tokens : List Token) (n : Nat) :
    List Measure :=
  (List.range n).flatMap fun i =>
    (windows buffer tokens)[i]?.elim [] ((stateBehind config buffer tokens i).measures config)

/-- The width behind some tokens is known from the start, or settled by what they measure first. -/
theorem settles_stateBehind (config : Config) (buffer : List UInt8) (tokens : List Token)
    (n : Nat) : Settles (.start config) (measuresBehind config buffer tokens n)
      (stateBehind config buffer tokens n) := by
  induction n with
  | zero => exact .of_eq rfl
  | succ n ih =>
    unfold measuresBehind at ih ⊢
    rw [List.range_succ, List.flatMap_append, List.flatMap_singleton]
    refine ih.trans ?_
    cases hw : (windows buffer tokens)[n]? with
    | none =>
      have hsame : stateBehind config buffer tokens (n + 1) =
          stateBehind config buffer tokens n := by
        unfold stateBehind
        rw [List.take_add_one, hw]
        simp
      rw [hsame]
      exact .of_eq rfl
    | some w =>
      rw [stateBehind_succ hw]
      exact settles_check (shaped_stateBehind n).based config w

/-- A pass that is told to be consistent has the width of what it measures first; so the width is
positive throughout if and only if that is indented. -/
theorem width_is_positive_iff_indented {config : Config} (hconfig : config.spaces = .consistent)
    (source : String) :
    let buffer := Text.bytes source.toList
    let tokens := (scan source).tokens
    (∀ n, (stateBehind config buffer tokens n).width =
      (measuresBehind config buffer tokens n).head?.map fun m => m.column - m.base) ∧
    ((∀ n ≤ tokens.length, ∀ width, (stateBehind config buffer tokens n).width = some width →
        1 ≤ width) ↔
      ∀ m, (measuresBehind config buffer tokens tokens.length).head? = some m →
        m.base < m.column) := by
  intro buffer tokens
  have hwidth : ∀ n, (stateBehind config buffer tokens n).width =
      (measuresBehind config buffer tokens n).head?.map Measure.width := by
    intro n
    have hsettles := settles_stateBehind config buffer tokens n
    unfold Settles State.start at hsettles
    rwa [hconfig, Option.none_or] at hsettles
  refine ⟨hwidth, ?_, ?_⟩
  · intro hpositive m hm
    have hm' : (stateBehind config buffer tokens tokens.length).width = some m.width := by
      rw [hwidth, hm]
      rfl
    have := hpositive _ (Nat.le_refl _) _ hm'
    unfold Measure.width at this
    omega
  · intro hindented n hn width hn'
    -- the width stays until the last token
    have hlast := (evolves_stateBehind hn).width width hn'
    rw [hwidth] at hlast
    obtain ⟨m, hm, rfl⟩ := Option.map_eq_some_iff.1 hlast
    have := hindented m hm
    unfold Measure.width
    omega

/-- The content of a flow sequence stands at the column of the line on which that starts: the width
is zero. -/
theorem width_is_positive_iff_indented_flushContent :
    let source := "[\na\n]\n"
    let state := stateBehind .default (Text.bytes source.toList) (scan source).tokens
    Config.default.spaces = .consistent ∧ (state 1).width = none ∧ (state 2).width = some 0 ∧
      ¬∀ n ≤ (scan source).tokens.length, ∀ width, (state n).width = some width → 1 ≤ width := by
  intro source state
  have hmeasured : (measuresBehind .default (Text.bytes source.toList) (scan source).tokens
      (scan source).tokens.length).head? = some ⟨0, 0⟩ := by
    decide +kernel
  have hspaces : Config.default.spaces = .consistent := rfl
  refine ⟨hspaces, by decide +kernel, by decide +kernel, fun hpositive => ?_⟩
  have hindented := (width_is_positive_iff_indented hspaces source).2.1 hpositive
  exact absurd (hindented _ hmeasured) (by decide)

end YamlLinter.Indentation
