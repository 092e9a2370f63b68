import Mathlib.Data.List.Forall2
import YamlLinter.Proofs.Tandem.Walk
import YamlLinter.Proofs.Through

/-!
# Readers in tandem

Whatever the left cursor can read, the right one reads at the same time: every reader gives the same
text on both sides, leaves the two cursors in step, and fails on both sides or on none.

## Contents

* `MarkPair`, `TokenPair`, `CommentPair`, `ErrorPair`: what belongs together on the two sides;
* `Agree`: two answers that are both errors or both values, and belong together;
* gaps and line tails, names, tags, directives;
* quoted, plain and block scalars.
-/

namespace YamlLinter

open Text

/-! ## The loops over lines

Each loop turns on the break at the cursor. The equations leave out what its termination rests on. -/

namespace Cursor

/-- One line of the gap in front of a token, and the lines behind it. -/
theorem gap_eq (c : Cursor) (flow allowKey : Bool) :
    c.gap flow allowKey =
      match (c.lineGap flow allowKey).2.lineBreak? with
      | none => ⟨(c.lineGap flow allowKey).1, allowKey, (c.lineGap flow allowKey).2⟩
      | some (_, c') =>
        { c'.gap flow (allowKey || !flow) with
          comments := (c.lineGap flow allowKey).1 ++ (c'.gap flow (allowKey || !flow)).comments } := by
  rw [gap.eq_def]
  split <;> rename_i heq <;> simp only [heq]

/-- One empty line inside quotes, and the lines behind it. -/
theorem quotedBreaks_eq (c : Cursor) :
    c.quotedBreaks =
      if c.atSeparator then c.fail .markerInQuote
      else
        match (c.skipWhile isBlank).lineBreak? with
        | none => .ok ⟨[], c.skipWhile isBlank⟩
        | some (ch, c') =>
          match c'.quotedBreaks with
          | .error e => .error e
          | .ok more => .ok ⟨ch :: more.text, more.cursor⟩ := by
  rw [quotedBreaks]
  split
  · rfl
  · split
    · rename_i heq
      simp only [heq]
    · rename_i c' heq
      cases hmore : c'.quotedBreaks <;> simp only [heq, hmore]

/-- One step inside quotes, and the steps behind it. -/
theorem quotedBody_eq (c : Cursor) (double : Bool) :
    c.quotedBody double =
      match c.quotedUnit double with
      | .error e => .error e
      | .ok none => .ok ⟨[], c⟩
      | .ok (some part) =>
        match part.cursor.quotedBody double with
        | .error e => .error e
        | .ok more => .ok ⟨part.text ++ more.text, more.cursor⟩ := by
  rw [quotedBody]
  split
  · rename_i heq
    simp only [heq]
  · rename_i heq
    simp only [heq]
  · rename_i part heq
    cases hmore : part.cursor.quotedBody double <;> simp only [heq, hmore]

/-- One empty line behind a chunk, and the lines behind it. -/
theorem plainBreaks_eq (c : Cursor) :
    c.plainBreaks =
      match (c.skipWhile (· == ' ')).lineBreak? with
      | none => (some [], c.skipWhile (· == ' '))
      | some (ch, c') =>
        if c'.atSeparator then (none, c')
        else (c'.plainBreaks.1.map (ch :: ·), c'.plainBreaks.2) := by
  rw [plainBreaks]
  split <;> rename_i heq <;> simp only [heq]

/-- One empty line in front of a block scalar, and the lines behind it. -/
theorem leadingBreaks_eq (c : Cursor) (deepest : Nat) (stop : Mark) :
    c.leadingBreaks deepest stop =
      let deepest' := if c.peek == ' ' then max deepest (c.skipWhile (· == ' ')).column else deepest
      match (c.skipWhile (· == ' ')).lineBreak? with
      | none => (⟨[], stop, c.skipWhile (· == ' ')⟩, deepest')
      | some (ch, c') =>
        let more := c'.leadingBreaks deepest' c'.mark
        (⟨ch :: more.1.breaks, more.1.stop, more.1.cursor⟩, more.2) := by
  rw [leadingBreaks]
  simp only
  split <;> rename_i heq <;> simp only [heq]

/-- One empty line inside a block scalar, and the lines behind it. -/
theorem indentedBreaks_eq (c : Cursor) (indent : Nat) (stop : Mark) :
    c.indentedBreaks indent stop =
      match (c.skipIndent indent).lineBreak? with
      | none => ⟨[], stop, c.skipIndent indent⟩
      | some (ch, c') =>
        let lines := c'.indentedBreaks indent c'.mark
        ⟨ch :: lines.breaks, lines.stop, lines.cursor⟩ := by
  rw [indentedBreaks]
  split <;> rename_i heq <;> simp only [heq]

/-- One line of text with the empty lines behind it, and the text that follows. -/
theorem blockLines_eq (c : Cursor) (folded : Bool) (indent : Nat) :
    c.blockLines folded indent =
      match c.skipLine.lineBreak? with
      | none => ⟨c.rest.takeWhile (!isLineEnd ·), none, [], c.skipLine.mark, c.skipLine⟩
      | some (ch, c₁) =>
        let text := c.rest.takeWhile (!isLineEnd ·)
        let lines := c₁.indentedBreaks indent c₁.mark
        if lines.cursor.atBlockLine indent then
          let more := lines.cursor.blockLines folded indent
          let joint := blockJoint folded c.peek lines.cursor.peek ch lines.breaks
          { more with text := text ++ joint ++ lines.breaks ++ more.text }
        else
          ⟨text, some ch, lines.breaks, lines.stop, lines.cursor⟩ := by
  rw [blockLines]
  split <;> rename_i heq <;> simp only [heq]

end Cursor

namespace Tandem

variable {w : Tandem} {c d : Cursor} {ch : Char}

/-! ## What belongs together -/

/-- The marks of two cursors that are passed at the same time. -/
def MarkPair (w : Tandem) (m m' : Mark) : Prop :=
  ∃ c d, w.Passes c d ∧ m = c.mark ∧ m' = d.mark

/-- Tokens of one kind between marks that belong together. -/
structure TokenPair (w : Tandem) (t t' : Token) : Prop where
  kind : t'.kind = t.kind
  start : w.MarkPair t.start t'.start
  stop : w.MarkPair t.stop t'.stop

/-- The comments at two cursors that are passed at the same time. -/
def CommentPair (w : Tandem) (k k' : Comment) : Prop :=
  ∃ c d, w.Passes c d ∧ k = c.comment ∧ k' = d.comment

/-- Errors at marks that belong together. The causes tell what was found, which can be a break. -/
structure ErrorPair (w : Tandem) (e f : ScanError) : Prop where
  mark : w.MarkPair e.mark f.mark
  cause : w.returns = false → f.cause = e.cause

/-- Two answers that are errors together, or values that satisfy `P`. -/
def Agree {α : Type} (w : Tandem) (P : α → α → Prop) (x y : Except ScanError α) : Prop :=
  (∃ e f, x = .error e ∧ y = .error f ∧ w.ErrorPair e f) ∨ ∃ a b, x = .ok a ∧ y = .ok b ∧ P a b

/-- A value with the cursor behind it. -/
def Read {α : Type} (w : Tandem) (P : α → α → Prop) (a b : α × Cursor) : Prop :=
  P a.1 b.1 ∧ w.Passes a.2 b.2

/-- Cursors that are passed at the same time have marks that belong together. -/
theorem Passes.markPair (h : w.Passes c d) : w.MarkPair c.mark d.mark := ⟨c, d, h, rfl, rfl⟩

section Agree

variable {α : Type} {P : α → α → Prop} {x y : Except ScanError α} {a b : α}

theorem Agree.ok (h : P a b) : w.Agree P (.ok a) (.ok b) := .inr ⟨a, b, rfl, rfl, h⟩

theorem Agree.error {e f : ScanError} (h : w.ErrorPair e f) : w.Agree P (.error e) (.error f) :=
  .inl ⟨e, f, rfl, rfl, h⟩

/-- Where the left side has a value, so has the right one. -/
theorem Agree.of_ok (h : w.Agree P x y) (hx : x = .ok a) : ∃ b, y = .ok b ∧ P a b := by
  rcases h with ⟨_, _, he, -, -⟩ | ⟨a', b, ha, hy, hab⟩
  · rw [hx] at he
    cases he
  · rw [hx] at ha
    cases ha
    exact ⟨b, hy, hab⟩

/-- Where the left side fails, so does the right one. -/
theorem Agree.of_error {e : ScanError} (h : w.Agree P x y) (hx : x = .error e) :
    ∃ f, y = .error f ∧ w.ErrorPair e f := by
  rcases h with ⟨e', f, he, hy, hef⟩ | ⟨_, _, ha, -, -⟩
  · rw [hx] at he
    cases he
    exact ⟨f, hy, hef⟩
  · rw [hx] at ha
    cases ha

/-- Errors at cursors in step belong together. Their causes count only where lines end alike. -/
theorem Passes.fail {a b : ScanError.Cause} (h : w.Passes c d) (hab : w.returns = false → b = a) :
    w.Agree P (c.fail a) (d.fail b) :=
  .error ⟨h.markPair, hab⟩

/-- A cause that tells which character was found. -/
theorem Passes.fail_peek (h : w.Passes c d) (cause : Char → ScanError.Cause) :
    w.Agree P (c.fail (cause c.peek)) (d.fail (cause d.peek)) := by
  refine h.fail fun hr => ?_
  simp only [Cursor.peek, Cursor.peekAt, h.rest_eq hr]

end Agree

/-! ## Gaps and line tails -/

theorem Passes.comment (h : w.Passes c d) : w.CommentPair c.comment d.comment :=
  ⟨c, d, h, rfl, rfl⟩

/-- What stands in front of a token on its line is passed in step. -/
theorem Passes.lineGap (h : w.Passes c d) (flow allowKey : Bool) :
    w.Read (List.Forall₂ w.CommentPair) (c.lineGap flow allowKey) (d.lineGap flow allowKey) := by
  have hskip : w.Passes (c.skipWhile (Cursor.isSkipped flow allowKey))
      (d.skipWhile (Cursor.isSkipped flow allowKey)) := h.skipWhile rfl rfl
  have hhash := hskip.test (· == '#') (by decide)
  unfold Cursor.lineGap
  simp only at hhash ⊢
  rw [hhash]
  split
  · exact ⟨.cons hskip.comment .nil, hskip.skipLine⟩
  · exact ⟨.nil, hskip⟩

/-- Two gaps that belong together. -/
structure GapPair (w : Tandem) (g g' : Gap) : Prop where
  comments : List.Forall₂ w.CommentPair g.comments g'.comments
  allowKey : g'.allowKey = g.allowKey
  cursor : w.Passes g.cursor g'.cursor

/-- All that stands in front of a token is passed in step. -/
theorem Passes.gap (h : w.Passes c d) (flow allowKey : Bool) :
    w.GapPair (c.gap flow allowKey) (d.gap flow allowKey) := by
  induction hn : c.rest.length using Nat.strongRecOn generalizing c d allowKey with
  | ind n ih =>
  have hline := h.lineGap flow allowKey
  rw [Cursor.gap_eq c, Cursor.gap_eq d]
  rcases hline.2.lineBreak? with ⟨hc, hd⟩ | ⟨ch, c', d', hc, hd, hbreak⟩
  · simp only [hc, hd]
    exact ⟨hline.1, rfl, hline.2⟩
  · have hlt := Cursor.length_rest_lineBreak? hc
    have hle := c.length_rest_lineGap_le flow allowKey
    have hmore := ih _ (by omega) hbreak (allowKey || !flow) rfl
    simp only [hc, hd]
    exact ⟨List.rel_append hline.1 hmore.comments, hmore.allowKey, hmore.cursor⟩

/-- The tail of a line is passed in step, or goes wrong on both sides. -/
theorem Passes.lineTail (h : w.Passes c d) :
    w.Agree (w.Read fun k k' => List.Forall₂ w.CommentPair k.toList k'.toList)
      c.lineTail d.lineTail := by
  have hskip : w.Passes (c.skipWhile isBlank) (d.skipWhile isBlank) := h.skipWhile rfl rfl
  have hhash := hskip.test (· == '#') (by decide)
  have hend := hskip.test isLineEnd (by decide)
  unfold Cursor.lineTail
  simp only at hhash ⊢
  rw [hhash, hend]
  split
  · exact .ok ⟨.cons hskip.comment .nil, hskip.skipLine.skipBreak⟩
  · split
    · exact .ok ⟨.nil, hskip.skipBreak⟩
    · exact hskip.fail_peek .trailingText

/-! ## Names and tags -/

/-- Aliases and anchors are read in step. -/
theorem Passes.name (h : w.Passes c d) (hc : c.peek ≠ '\n') (missing : Char → ScanError.Cause)
    (kind : String → TokenKind) :
    w.Agree (w.Read w.TokenPair) (c.name missing kind) (d.name missing kind) := by
  have hone := h.forward_one hc
  have htext : (d.forward 1).rest.takeWhile isNameChar = (c.forward 1).rest.takeWhile isNameChar :=
    hone.takeWhile (by decide) (by decide)
  have hskip := hone.forward_takeWhile (p := isNameChar) (by decide)
  unfold Cursor.name
  simp only [htext]
  split
  · exact hone.fail_peek missing
  · exact .ok ⟨⟨rfl, h.markPair, hskip.markPair⟩, hskip⟩

theorem Passes.tagSuffix (h : w.Passes c d) (flow : Bool) :
    w.Agree (w.Read Eq) (c.tagSuffix flow) (d.tagSuffix flow) := by
  have htext := h.takeWhile (p := fun ch => isUriChar ch && !(flow && isFlowMark ch))
    (by cases flow <;> decide) (by cases flow <;> decide)
  have hskip := h.forward_takeWhile (p := fun ch => isUriChar ch && !(flow && isFlowMark ch))
    (by cases flow <;> decide)
  unfold Cursor.tagSuffix
  simp only [htext]
  split
  · exact h.fail_peek .missingTagSuffix
  · exact .ok ⟨rfl, hskip⟩

/-- What a handle with a second `!` is made of. -/
theorem rest_of_handle {word : List Char} (hword : word = (c.rest.drop 1).takeWhile isWordChar)
    (hbang : (c.forward (word.length + 1)).peek = '!') :
    c.rest.take (word.length + 2) = c.peek :: word ++ ['!'] := by
  cases hr : c.rest with
  | nil =>
    simp only [hr, List.drop_nil, List.takeWhile_nil] at hword
    simp [Passes.peek_forward, Cursor.peekAt, hr, nul] at hbang
  | cons x cs =>
    rw [hr, List.drop_succ_cons, List.drop_zero] at hword
    rw [Passes.peek_forward, Cursor.peekAt, hr, List.getD_cons_succ] at hbang
    have hcs : cs = word ++ cs.dropWhile isWordChar := by
      rw [hword, List.takeWhile_append_dropWhile]
    rw [hcs] at hbang
    cases hd : cs.dropWhile isWordChar with
    | nil => simp [hd, nul] at hbang
    | cons y ds =>
      obtain rfl : y = '!' := by simpa [hd] using hbang
      rw [hd] at hcs
      rw [List.take_succ_cons, hcs, List.take_length_add_append]
      simp [Cursor.peek, Cursor.peekAt, hr]

theorem Passes.tagHandle (h : w.Passes c d) (hc : c.peek ≠ '\n') :
    w.Agree (w.Read Eq) c.tagHandle d.tagHandle := by
  have hone := h.forward_one hc
  have hword : (d.rest.drop 1).takeWhile isWordChar = (c.rest.drop 1).takeWhile isWordChar := by
    rw [← Cursor.rest_forward, ← Cursor.rest_forward]
    exact hone.takeWhile (by decide) (by decide)
  have hskip := hone.forward_takeWhile (p := isWordChar) (by decide)
  rw [Cursor.rest_forward] at hskip
  unfold Cursor.tagHandle
  simp only [hword]
  generalize hu : (c.rest.drop 1).takeWhile isWordChar = word at hskip ⊢
  change w.Passes (c.forward (word.length + 1)) (d.forward (word.length + 1)) at hskip
  have hbang := hskip.test (· == '!') (by decide)
  rw [hbang]
  split
  · rename_i hb
    have hb : (c.forward (word.length + 1)).peek = '!' := by simpa using hb
    refine .ok ⟨?_, hskip.forward_one (by rw [hb]; decide)⟩
    refine (h.take ?_).symm
    rw [rest_of_handle hu.symm hb]
    have hfeed : '\n' ∉ word := by
      rw [← hu]
      intro hmem
      exact absurd (List.all_eq_true.1 List.all_takeWhile _ hmem) (by decide)
    simp [hfeed, Ne.symm hc]
  · exact hskip.fail_peek .badTagHandle

theorem Passes.verbatimTag (h : w.Passes c d) (hc : c.peek ≠ '\n') (hc' : c.peekAt 1 ≠ '\n')
    (flow : Bool) : w.Agree (w.Read Eq) (c.verbatimTag flow) (d.verbatimTag flow) := by
  have htwo : w.Passes (c.forward 2) (d.forward 2) :=
    (h.forward_one hc).forward_one (by rwa [peek_forward])
  rcases htwo.tagSuffix flow with ⟨e, f, hx, hy, he⟩ | ⟨⟨text, c₁⟩, ⟨text', d₁⟩, hx, hy, rfl, h₁⟩
  · rw [Cursor.verbatimTag, Cursor.verbatimTag, hx, hy]
    exact .error he
  · have hclose := h₁.test (· == '>') (by decide)
    simp only [Cursor.verbatimTag, hx, hy] at hclose ⊢
    rw [hclose]
    split
    · rename_i hp
      have hp : c₁.peek = '>' := by simpa using hp
      exact .ok ⟨rfl, h₁.forward_one (by rw [hp]; decide)⟩
    · exact h₁.fail_peek .unclosedTag

theorem Passes.shorthandTag (h : w.Passes c d) (hc : c.peek ≠ '\n') (flow : Bool) :
    w.Agree (fun a b => a.1 = b.1 ∧ w.Read Eq a.2 b.2) (c.shorthandTag flow)
      (d.shorthandTag flow) := by
  have hone := h.forward_one hc
  have hlong : d.hasLongHandle = c.hasLongHandle := by
    rw [Cursor.hasLongHandle, Cursor.hasLongHandle, ← Cursor.rest_forward, ← Cursor.rest_forward,
      hone.takeWhile (by decide) (by decide)]
  have hhandle : w.Agree (w.Read Eq)
      (if c.hasLongHandle then c.tagHandle else .ok (['!'], c.forward 1))
      (if d.hasLongHandle then d.tagHandle else .ok (['!'], d.forward 1)) := by
    rw [hlong]
    split
    · exact h.tagHandle hc
    · exact .ok ⟨rfl, hone⟩
  unfold Cursor.shorthandTag
  rcases hhandle with ⟨e, f, hx, hy, he⟩ | ⟨⟨handle, c₁⟩, ⟨handle', d₁⟩, hx, hy, rfl, h₁⟩
  · simp only [hx, hy]
    exact .error he
  · rcases h₁.tagSuffix flow with ⟨e, f, hx', hy', he⟩ | ⟨⟨text, c₂⟩, ⟨text', d₂⟩, hx', hy', rfl, h₂⟩
    · simp only [hx, hy, hx', hy']
      exact .error he
    · simp only [hx, hy, hx', hy']
      exact .ok ⟨rfl, rfl, h₂⟩

theorem Passes.tagParts (h : w.Passes c d) (hc : c.peek ≠ '\n') (flow : Bool) :
    w.Agree (fun a b => a.1 = b.1 ∧ w.Read Eq a.2 b.2) (c.tagParts flow) (d.tagParts flow) := by
  have hangle := h.test_next hc (· == '<') (by decide)
  have hblank := h.test_next hc isBlankOrEnd (by decide)
  unfold Cursor.tagParts
  rw [hangle, hblank]
  split
  · rename_i ha
    have ha : c.peekAt 1 = '<' := by simpa using ha
    rcases h.verbatimTag hc (by rw [ha]; decide) flow with
      ⟨e, f, hx, hy, he⟩ | ⟨⟨text, c₁⟩, ⟨text', d₁⟩, hx, hy, rfl, h₁⟩
    · simp only [hx, hy]
      exact .error he
    · simp only [hx, hy]
      exact .ok ⟨rfl, rfl, h₁⟩
  · split
    · exact .ok ⟨rfl, rfl, h.forward_one hc⟩
    · exact h.shorthandTag hc flow

/-- Tags are read in step. -/
theorem Passes.tag (h : w.Passes c d) (hc : c.peek ≠ '\n') (flow : Bool) :
    w.Agree (w.Read w.TokenPair) (c.tag flow) (d.tag flow) := by
  rcases h.tagParts hc flow with
    ⟨e, f, hx, hy, he⟩ | ⟨⟨handle, suffix, c₁⟩, ⟨handle', suffix', d₁⟩, hx, hy, rfl, rfl, h₁⟩
  · simp only [Cursor.tag, hx, hy]
    exact .error he
  · have hend := h₁.test (Cursor.isTagEnd flow) (by cases flow <;> decide)
    simp only [Cursor.tag, hx, hy] at hend ⊢
    rw [hend]
    split
    · exact .ok ⟨⟨rfl, h.markPair, h₁.markPair⟩, h₁⟩
    · exact h₁.fail_peek .textAfterTag

/-! ## Directives -/

/-- The text of a directive ends in front of a line end, and so does not see its spelling. -/
theorem directiveText_respell {returns : Bool} (afterBlank : Bool) (cs : List Char) :
    directiveText afterBlank (respell returns cs) = directiveText afterBlank cs := by
  induction cs generalizing afterBlank with
  | nil => rfl
  | cons x cs ih =>
    rw [respell_cons]
    by_cases hx : x = '\n'
    · subst hx
      cases returns <;> simp [directiveText, isLineEnd, isBreak]
    · rw [respell_of_ne hx, List.singleton_append, directiveText, directiveText, ih]

/-- The text of a directive has no line feed in it. -/
theorem not_mem_directiveText (afterBlank : Bool) (cs : List Char) :
    '\n' ∉ directiveText afterBlank cs := by
  fun_induction directiveText afterBlank cs with
  | case1 => simp
  | case2 => simp
  | case3 afterBlank x cs hx ih =>
    have hne : x ≠ '\n' := by
      rintro rfl
      simp [isLineEnd, isBreak] at hx
    simp [ih, Ne.symm hne]

/-- Directives are read in step, with the comments behind them. -/
theorem Passes.directive (h : w.Passes c d) (hc : c.peek ≠ '\n') :
    w.Agree (fun a b => w.TokenPair a.1 b.1 ∧
      w.Read (fun k k' => List.Forall₂ w.CommentPair k.toList k'.toList) a.2 b.2)
      c.directive d.directive := by
  have h₁ := h.forward_one hc
  have hname : (d.forward 1).rest.takeWhile isWordChar = (c.forward 1).rest.takeWhile isWordChar :=
    h₁.takeWhile (by decide) (by decide)
  have h₂ := h₁.forward_takeWhile (p := isWordChar) (by decide)
  unfold Cursor.directive
  simp only [hname]
  generalize (c.forward 1).rest.takeWhile isWordChar = name at h₂ ⊢
  generalize (c.forward 1).forward name.length = c₂ at h₂ ⊢
  generalize (d.forward 1).forward name.length = d₂ at h₂ ⊢
  have hend := h₂.test isBlankOrEnd (by decide)
  have h₃ : w.Passes (c₂.skipWhile isBlank) (d₂.skipWhile isBlank) :=
    h₂.skipWhile (by decide) (by decide)
  generalize c₂.skipWhile isBlank = c₃ at h₃ ⊢
  generalize d₂.skipWhile isBlank = d₃ at h₃ ⊢
  have hvalue : directiveText false d₃.rest = directiveText false c₃.rest := by
    rw [h₃.rest, directiveText_respell]
  have h₄ := h₃.forward (Cursor.isPrefix_directiveText false c₃.rest) (not_mem_directiveText _ _)
  rw [hend, hvalue]
  split
  · exact h₁.fail fun _ => rfl
  · split
    · exact h₂.fail_peek .badDirectiveName
    · rcases h₄.lineTail with ⟨e, f, hx, hy, he⟩ | ⟨⟨k, c₅⟩, ⟨k', d₅⟩, hx, hy, hk, h₅⟩
      · simp only [hx, hy]
        exact .error he
      · simp only [hx, hy]
        exact .ok ⟨⟨rfl, h.markPair, h₄.markPair⟩, hk, h₅⟩

/-! ## Quoted scalars -/

/-- Two parts of a quoted scalar with the same text. -/
def PartPair (w : Tandem) (a b : QuotedPart) : Prop :=
  b.text = a.text ∧ w.Passes a.cursor b.cursor

theorem Passes.quotedBreaks (h : w.Passes c d) :
    w.Agree w.PartPair c.quotedBreaks d.quotedBreaks := by
  induction hn : c.rest.length using Nat.strongRecOn generalizing c d with
  | ind n ih =>
  have hskip : w.Passes (c.skipWhile isBlank) (d.skipWhile isBlank) := h.skipWhile rfl rfl
  rw [Cursor.quotedBreaks_eq c, Cursor.quotedBreaks_eq d, h.atSeparator]
  split
  · exact h.fail fun _ => rfl
  · rcases hskip.lineBreak? with ⟨hc, hd⟩ | ⟨ch, c', d', hc, hd, hbreak⟩
    · simp only [hc, hd]
      exact .ok ⟨rfl, hskip⟩
    · have hlt := Cursor.length_rest_lineBreak? hc
      have hle := c.length_rest_skipWhile_le isBlank
      simp only [hc, hd]
      rcases ih _ (by omega) hbreak rfl with ⟨e, f, hx, hy, he⟩ | ⟨a, b, hx, hy, hab⟩
      · rw [hx, hy]
        exact .error he
      · rw [hx, hy]
        exact .ok ⟨by rw [hab.1], hab.2⟩

theorem Passes.quotedGap (h : w.Passes c d) : w.Agree w.PartPair c.quotedGap d.quotedGap := by
  have hblanks : d.rest.takeWhile isBlank = c.rest.takeWhile isBlank := h.takeWhile rfl rfl
  have h₁ := h.forward_takeWhile (p := isBlank) rfl
  unfold Cursor.quotedGap
  simp only [hblanks]
  generalize c.rest.takeWhile isBlank = blanks at h₁ ⊢
  have hnul := h₁.test (· == nul) (by decide)
  rw [hnul]
  split
  · exact h₁.fail fun _ => rfl
  · rcases h₁.lineBreak? with ⟨hc, hd⟩ | ⟨ch, c₂, d₂, hc, hd, h₂⟩
    · simp only [hc, hd]
      exact .ok ⟨rfl, h₁⟩
    · simp only [hc, hd]
      rcases h₂.quotedBreaks with ⟨e, f, hx, hy, he⟩ | ⟨a, b, hx, hy, hab⟩
      · simp only [hx, hy]
        exact .error he
      · simp only [hx, hy]
        exact .ok ⟨by rw [hab.1], hab.2⟩

theorem hexNumber_eq_none {cs : List Char} (hmem : ch ∈ cs) (hv : hexValue ch = none) (acc : Nat) :
    hexNumber acc cs = none := by
  induction cs generalizing acc with
  | nil => simp at hmem
  | cons x cs ih =>
    rw [hexNumber]
    rcases List.mem_cons.1 hmem with rfl | hmem
    · rw [hv]
    · split
      · exact ih hmem _
      · rfl

/-- Digits among which stands something else give no character. -/
theorem escapeCode_eq_none {cs : List Char} {length : Nat} (hmem : ch ∈ cs)
    (hv : hexValue ch = none) (hplus : ch ≠ '+') : escapeCode length cs = none := by
  have hsigned : signedHex cs = none := by
    unfold signedHex
    split
    · rfl
    · rename_i x cs
      exact hexNumber_eq_none (by simpa [hplus] using hmem) hv 0
    · exact hexNumber_eq_none hmem hv 0
  simp [escapeCode, hsigned]

theorem length_of_escapeCode {cs : List Char} {length : Nat} (h : escapeCode length cs = some ch) :
    cs.length = length := by
  unfold escapeCode at h
  split at h
  · simp_all
  · cases h

/-- Escapes are read in step. A break among the digits is an error on both sides. -/
theorem Passes.escape (h : w.Passes c d) : w.Agree w.PartPair c.escape d.escape := by
  have hletter := h.test escapeLetter (by decide)
  have hlength := h.test escapeLength (by decide)
  unfold Cursor.escape
  simp only
  rw [hletter, hlength]
  split
  · rename_i hl
    exact .ok ⟨rfl, h.forward_one fun hn => by simp [hn, escapeLetter] at hl⟩
  · split
    · rename_i length hl
      have h₁ := h.forward_one fun hn => by simp [hn, escapeLength] at hl
      generalize c.forward 1 = c₁ at h₁ ⊢
      generalize d.forward 1 = d₁ at h₁ ⊢
      by_cases hn : '\n' ∈ c₁.rest.take length
      · -- a break is no digit, whichever it is
        have hd : escapeCode length (d₁.rest.take length) = none := by
          rcases h₁.mem_take hn with hm | hm
          · exact escapeCode_eq_none hm (by decide) (by decide)
          · exact escapeCode_eq_none hm (by decide) (by decide)
        simp only [escapeCode_eq_none hn (by decide) (by decide), hd]
        exact h₁.fail fun hr => by rw [h₁.rest_eq hr]
      · rw [h₁.take hn]
        split
        · rename_i hcode
          have hread := h₁.forward (List.take_prefix length c₁.rest) hn
          rw [length_of_escapeCode hcode] at hread
          exact .ok ⟨rfl, hread⟩
        · exact h₁.fail fun _ => rfl
    · rcases h.lineBreak? with ⟨hc, hd⟩ | ⟨ch, c₁, d₁, hc, hd, h₁⟩
      · simp only [hc, hd]
        exact h.fail_peek .unknownEscape
      · simp only [hc, hd]
        exact h₁.quotedBreaks

/-- Steps inside quotes are read in step. -/
theorem Passes.quotedUnit (h : w.Passes c d) (double : Bool) :
    w.Agree (fun a b => Option.Rel w.PartPair a b) (c.quotedUnit double) (d.quotedUnit double) := by
  have hend := h.test isBlankOrEnd (by decide)
  unfold Cursor.quotedUnit
  simp only
  rw [hend]
  split
  · rcases h.quotedGap with ⟨e, f, hx, hy, he⟩ | ⟨a, b, hx, hy, hab⟩
    · rw [hx, hy]
      exact .error he
    · rw [hx, hy]
      exact .ok (.some hab)
  · rename_i hb
    -- the character is no break, so both read the same one
    have hne : c.peek ≠ '\n' := fun hn => by simp [hn, isBlankOrEnd, isLineEnd, isBreak] at hb
    have hone := h.forward_one hne
    have hquote := h.test_next hne (· == '\x27') (by decide)
    rw [h.peek_eq hne, hquote]
    split
    · split
      · exact .ok .none
      · split
        · rcases hone.escape with ⟨e, f, hx, hy, he⟩ | ⟨a, b, hx, hy, hab⟩
          · rw [hx, hy]
            exact .error he
          · rw [hx, hy]
            exact .ok (.some hab)
        · exact .ok (.some ⟨rfl, hone⟩)
    · split
      · split
        · rename_i hq
          have hq : (c.forward 1).peek = '\x27' := by simpa [peek_forward] using hq
          exact .ok (.some ⟨rfl, hone.forward_one (by rw [hq]; decide)⟩)
        · exact .ok .none
      · exact .ok (.some ⟨rfl, hone⟩)

/-- At a closing quote no line ends. -/
theorem peek_of_quotedUnit_none {double : Bool} (h : c.quotedUnit double = .ok none) :
    c.peek ≠ '\n' := by
  intro hn
  rw [Cursor.quotedUnit, hn, if_pos (by decide)] at h
  cases hg : c.quotedGap <;> simp [hg, Except.map] at h

/-- Both find the closing quote at the same time. -/
theorem Passes.quotedBody (h : w.Passes c d) (double : Bool) :
    w.Agree (fun a b => w.PartPair a b ∧ a.cursor.peek ≠ '\n') (c.quotedBody double)
      (d.quotedBody double) := by
  induction hn : c.rest.length using Nat.strongRecOn generalizing c d with
  | ind n ih =>
  rw [Cursor.quotedBody_eq c, Cursor.quotedBody_eq d]
  rcases h.quotedUnit double with ⟨e, f, hx, hy, he⟩ | ⟨a, b, hx, hy, hab⟩
  · rw [hx, hy]
    exact .error he
  · rw [hx, hy]
    cases hab with
    | none => exact .ok ⟨⟨rfl, h⟩, peek_of_quotedUnit_none hx⟩
    | @some a b hab =>
      have hlt := Cursor.length_rest_quotedUnit_lt hx
      simp only
      rcases ih _ (hn ▸ hlt) hab.2 rfl with ⟨e, f, hx, hy, he⟩ | ⟨a', b', hx, hy, hab', hend⟩
      · rw [hx, hy]
        exact .error he
      · rw [hx, hy]
        exact .ok ⟨⟨by rw [hab.1, hab'.1], hab'.2⟩, hend⟩

/-- Quoted scalars are read in step. -/
theorem Passes.quoted (h : w.Passes c d) (hc : c.peek ≠ '\n') (double : Bool) :
    w.Agree (w.Read w.TokenPair) (c.quoted double) (d.quoted double) := by
  unfold Cursor.quoted
  rcases (h.forward_one hc).quotedBody double with
    ⟨e, f, hx, hy, he⟩ | ⟨a, b, hx, hy, ⟨htext, hab⟩, hend⟩
  · rw [hx, hy]
    exact .error he
  · have hstop := hab.forward_one hend
    rw [hx, hy]
    simp only [htext]
    exact .ok ⟨⟨rfl, h.markPair, hstop.markPair⟩, hstop⟩

/-! ## Plain scalars -/

/-- A chunk of a plain scalar does not see how the line behind it ends. -/
theorem plainChunk_respell {returns : Bool} (flow : Bool) (cs : List Char) :
    plainChunk flow (respell returns cs) = plainChunk flow cs := by
  induction cs with
  | nil => rfl
  | cons x cs ih =>
    rw [respell_cons]
    by_cases hx : x = '\n'
    · subst hx
      cases returns <;> simp [plainChunk, endsPlainChunk, isBlankOrEnd, isLineEnd, isBreak]
    · have hnext : endsPlainChunk flow x ((respell returns cs).headD nul) =
          endsPlainChunk flow x (cs.headD nul) := by
        cases cs with
        | nil => rfl
        | cons y cs =>
          rw [respell_cons]
          by_cases hy : y = '\n'
          · subst hy
            cases returns <;>
              simp [endsPlainChunk, isBlankOrEnd, isLineEnd, isBreak, isFlowMark]
          · rw [respell_of_ne hy]
            rfl
      rw [respell_of_ne hx, List.singleton_append, plainChunk, plainChunk, hnext, ih]

theorem not_mem_plainChunk (flow : Bool) (cs : List Char) : '\n' ∉ plainChunk flow cs := by
  fun_induction plainChunk flow cs with
  | case1 => simp
  | case2 => simp
  | case3 x cs hx ih =>
    have hne : x ≠ '\n' := by
      rintro rfl
      simp [endsPlainChunk, isBlankOrEnd, isLineEnd, isBreak] at hx
    simp [ih, Ne.symm hne]

theorem Passes.plainBreaks (h : w.Passes c d) : w.Read Eq c.plainBreaks d.plainBreaks := by
  induction hn : c.rest.length using Nat.strongRecOn generalizing c d with
  | ind n ih =>
  have hskip : w.Passes (c.skipWhile (· == ' ')) (d.skipWhile (· == ' ')) := h.skipWhile rfl rfl
  rw [Cursor.plainBreaks_eq c, Cursor.plainBreaks_eq d]
  rcases hskip.lineBreak? with ⟨hc, hd⟩ | ⟨ch, c', d', hc, hd, hbreak⟩
  · simp only [hc, hd]
    exact ⟨rfl, hskip⟩
  · have hlt := Cursor.length_rest_lineBreak? hc
    have hle := c.length_rest_skipWhile_le (· == ' ')
    have hmore := ih _ (by omega) hbreak rfl
    simp only [hc, hd, hbreak.atSeparator]
    split
    · exact ⟨rfl, hbreak⟩
    · exact ⟨by rw [hmore.1], hmore.2⟩

/-- Two gaps in a plain scalar that belong together. -/
structure PlainGapPair (w : Tandem) (g g' : PlainGap) : Prop where
  joint : g'.joint = g.joint
  broken : g'.broken = g.broken
  cursor : w.Passes g.cursor g'.cursor

/-- All that stands behind a chunk is read in step. -/
theorem Passes.plainGap (h : w.Passes c d) : w.PlainGapPair c.plainGap d.plainGap := by
  have hblanks : d.rest.takeWhile isBlank = c.rest.takeWhile isBlank := h.takeWhile rfl rfl
  have h₁ := h.forward_takeWhile (p := isBlank) rfl
  unfold Cursor.plainGap
  simp only [hblanks]
  generalize c.rest.takeWhile isBlank = blanks at h₁ ⊢
  rcases h₁.lineBreak? with ⟨hc, hd⟩ | ⟨ch, c₂, d₂, hc, hd, h₂⟩
  · simp only [hc, hd]
    exact ⟨rfl, rfl, h₁⟩
  · simp only [hc, hd, h₂.atSeparator]
    split
    · exact ⟨rfl, rfl, h₂⟩
    · exact ⟨by rw [h₂.plainBreaks.1], rfl, h₂.plainBreaks.2⟩

/-- Two plain scalars that belong together. -/
structure PlainPair (w : Tandem) (a b : PlainScalar) : Prop where
  value : b.value = a.value
  stop : w.MarkPair a.stop b.stop
  broken : b.broken = a.broken
  cursor : w.Passes a.cursor b.cursor

/-- A plain scalar goes on on both sides or on none. -/
theorem Passes.continuesPlain (h : w.Passes c d) (flow : Bool) (indent : Int) :
    d.continuesPlain flow indent = c.continuesPlain flow indent := by
  have hhash := h.test (· != '#') (by decide)
  rw [Cursor.continuesPlain, Cursor.continuesPlain, hhash, h.column]

/-- The chunk at the cursors, which is the same, and the cursors behind it. -/
theorem Passes.plainChunk (h : w.Passes c d) (flow : Bool) :
    plainChunk flow d.rest = plainChunk flow c.rest ∧
      w.Passes (c.forward (plainChunk flow c.rest).length)
        (d.forward (plainChunk flow c.rest).length) := by
  refine ⟨by rw [h.rest, plainChunk_respell], ?_⟩
  exact h.forward (Cursor.isPrefix_plainChunk flow c.rest) (not_mem_plainChunk _ _)

/-- Plain scalars are read in step. -/
theorem Passes.plain (h : w.Passes c d) (flow : Bool) (indent : Int) :
    w.PlainPair (c.plain flow indent) (d.plain flow indent) := by
  induction hn : c.rest.length using Nat.strongRecOn generalizing c d with
  | ind n ih =>
  obtain ⟨hchunk, h₁⟩ := h.plainChunk flow
  have hgap := h₁.plainGap
  rw [Cursor.plain, Cursor.plain]
  simp only [hchunk, hgap.joint, hgap.cursor.continuesPlain]
  by_cases hnil : YamlLinter.plainChunk flow c.rest = []
  · simp only [hnil, dite_true]
    exact ⟨rfl, h.markPair, rfl, h⟩
  · have hshorter := c.length_rest_plainGap_lt flow hnil
    have hmore := ih _ (hn ▸ hshorter) hgap.cursor rfl
    simp only [hnil, dite_false]
    split
    · exact ⟨rfl, h₁.markPair, hgap.broken, hgap.cursor⟩
    · exact ⟨rfl, h₁.markPair, hgap.broken, hgap.cursor⟩
    · split
      · rw [hmore.value]
        split
        · exact ⟨rfl, h₁.markPair, hgap.broken, hmore.cursor⟩
        · exact ⟨rfl, hmore.stop, hmore.broken, hmore.cursor⟩
      · exact ⟨rfl, h₁.markPair, hgap.broken, hgap.cursor⟩

/-! ## Block scalars -/

theorem Passes.blockIncrement (h : w.Passes c d) :
    w.Agree (w.Read Eq) c.blockIncrement d.blockIncrement := by
  have hdigit := h.test Char.isDigit (by decide)
  unfold Cursor.blockIncrement
  rw [hdigit]
  split
  · rename_i hd
    have hne : c.peek ≠ '\n' := fun hn => by simp [hn] at hd
    rw [h.peek_eq hne]
    split
    · exact h.fail fun _ => rfl
    · exact .ok ⟨rfl, h.forward_one hne⟩
  · exact .ok ⟨rfl, h⟩

theorem peek_of_chompingOf {chomping : Chomping} (h : chompingOf c.peek = some chomping) :
    c.peek ≠ '\n' := by
  intro hn
  simp [hn, chompingOf] at h

theorem Passes.blockIndicators (h : w.Passes c d) :
    w.Agree (w.Read Eq) c.blockIndicators d.blockIndicators := by
  have hfirst := h.test chompingOf (by decide)
  unfold Cursor.blockIndicators
  rw [hfirst]
  split
  · rename_i chomping hc
    rcases (h.forward_one (peek_of_chompingOf hc)).blockIncrement with
      ⟨e, f, hx, hy, he⟩ | ⟨⟨n, c₁⟩, ⟨n', d₁⟩, hx, hy, rfl, h₁⟩
    · rw [hx, hy]
      exact .error he
    · rw [hx, hy]
      exact .ok ⟨rfl, h₁⟩
  · rcases h.blockIncrement with ⟨e, f, hx, hy, he⟩ | ⟨⟨n, c₁⟩, ⟨n', d₁⟩, hx, hy, rfl, h₁⟩
    · rw [hx, hy]
      exact .error he
    · have hsecond : chompingOf d₁.peek = chompingOf c₁.peek := h₁.test chompingOf (by decide)
      rw [hx, hy]
      cases n with
      | none => exact .ok ⟨rfl, h₁⟩
      | some n =>
        simp only [hsecond]
        split
        · rename_i hc
          exact .ok ⟨rfl, h₁.forward_one (peek_of_chompingOf hc)⟩
        · exact .ok ⟨rfl, h₁⟩

/-- Headers of block scalars are read in step. -/
theorem Passes.blockHeader (h : w.Passes c d) :
    w.Agree (fun a b => a.1 = b.1 ∧
      w.Read (fun k k' => List.Forall₂ w.CommentPair k.toList k'.toList) a.2 b.2)
      c.blockHeader d.blockHeader := by
  unfold Cursor.blockHeader
  rcases h.blockIndicators with ⟨e, f, hx, hy, he⟩ | ⟨⟨header, c₁⟩, ⟨header', d₁⟩, hx, hy, rfl, h₁⟩
  · rw [hx, hy]
    exact .error he
  · have hend := h₁.test isBlankOrEnd (by decide)
    simp only [hx, hy]
    rw [hend]
    split
    · rcases h₁.lineTail with ⟨e, f, hx, hy, he⟩ | ⟨⟨k, c₂⟩, ⟨k', d₂⟩, hx, hy, hk, h₂⟩
      · rw [hx, hy]
        exact .error he
      · rw [hx, hy]
        exact .ok ⟨rfl, hk, h₂⟩
    · exact h₁.fail_peek .badBlockHeader

/-- Empty lines that belong together. -/
structure LinesPair (w : Tandem) (a b : EmptyLines) : Prop where
  breaks : b.breaks = a.breaks
  stop : w.MarkPair a.stop b.stop
  cursor : w.Passes a.cursor b.cursor

/-- Empty lines in front of the first line of text are read in step, and are as deep on both sides.
-/
theorem Passes.leadingBreaks {m m' : Mark} (h : w.Passes c d) (deepest : Nat)
    (hm : w.MarkPair m m') :
    w.LinesPair (c.leadingBreaks deepest m).1 (d.leadingBreaks deepest m').1 ∧
      (d.leadingBreaks deepest m').2 = (c.leadingBreaks deepest m).2 := by
  induction hn : c.rest.length using Nat.strongRecOn generalizing c d deepest m m' with
  | ind n ih =>
  have hskip : w.Passes (c.skipWhile (· == ' ')) (d.skipWhile (· == ' ')) := h.skipWhile rfl rfl
  have hspace := h.test (· == ' ') (by decide)
  rw [Cursor.leadingBreaks_eq c, Cursor.leadingBreaks_eq d]
  simp only [hspace, hskip.column]
  rcases hskip.lineBreak? with ⟨hc, hd⟩ | ⟨ch, c', d', hc, hd, hbreak⟩
  · simp only [hc, hd, and_true]
    exact ⟨rfl, hm, hskip⟩
  · have hlt := Cursor.length_rest_lineBreak? hc
    have hle := c.length_rest_skipWhile_le (· == ' ')
    obtain ⟨hlines, hdeep⟩ := ih _ (by omega) hbreak
      (if c.peek == ' ' then max deepest (c.skipWhile (· == ' ')).column else deepest)
      hbreak.markPair rfl
    simp only [hc, hd]
    exact ⟨⟨by rw [hlines.breaks], hlines.stop, hlines.cursor⟩, hdeep⟩

theorem Passes.skipIndent (h : w.Passes c d) (indent : Nat) :
    w.Passes (c.skipIndent indent) (d.skipIndent indent) := by
  have hspaces : d.rest.takeWhile (· == ' ') = c.rest.takeWhile (· == ' ') := h.takeWhile rfl rfl
  rw [Cursor.skipIndent, Cursor.skipIndent, hspaces, h.column, Nat.min_comm,
    ← List.length_take]
  have hfront : (c.rest.takeWhile (· == ' ')).take (indent - c.column) <+: c.rest :=
    (List.take_prefix _ _).trans (List.takeWhile_prefix _)
  refine h.forward hfront fun hmem => ?_
  have := List.all_eq_true.1 List.all_takeWhile _ (List.mem_of_mem_take hmem)
  simp at this

theorem Passes.indentedBreaks {m m' : Mark} (h : w.Passes c d) (indent : Nat)
    (hm : w.MarkPair m m') :
    w.LinesPair (c.indentedBreaks indent m) (d.indentedBreaks indent m') := by
  induction hn : c.rest.length using Nat.strongRecOn generalizing c d m m' with
  | ind n ih =>
  have hskip := h.skipIndent indent
  rw [Cursor.indentedBreaks_eq c, Cursor.indentedBreaks_eq d]
  rcases hskip.lineBreak? with ⟨hc, hd⟩ | ⟨ch, c', d', hc, hd, hbreak⟩
  · simp only [hc, hd]
    exact ⟨rfl, hm, hskip⟩
  · have hlt := Cursor.length_rest_lineBreak? hc
    have hle : (c.skipIndent indent).rest.length ≤ c.rest.length := c.length_rest_forward_le _
    have hlines := ih _ (by omega) hbreak hbreak.markPair rfl
    simp only [hc, hd]
    exact ⟨by rw [hlines.breaks], hlines.stop, hlines.cursor⟩

/-- The lines of two block scalars that belong together. -/
structure BodyPair (w : Tandem) (a b : BlockBody) : Prop where
  text : b.text = a.text
  lastBreak : b.lastBreak = a.lastBreak
  breaks : b.breaks = a.breaks
  stop : w.MarkPair a.stop b.stop
  cursor : w.Passes a.cursor b.cursor

/-- Text goes on on both sides or on none. -/
theorem Passes.atBlockLine (h : w.Passes c d) (indent : Nat) :
    d.atBlockLine indent = c.atBlockLine indent := by
  have hnul := h.test (· != nul) (by decide)
  rw [Cursor.atBlockLine, Cursor.atBlockLine, h.column, hnul]

/-- Between two lines only blanks at their starts matter. -/
theorem Passes.blockJoint {c' d' : Cursor} (h : w.Passes c d) (h' : w.Passes c' d') (folded : Bool)
    (ch : Char) (breaks : List Char) :
    blockJoint folded d.peek d'.peek ch breaks = blockJoint folded c.peek c'.peek ch breaks := by
  have hfirst := h.test isBlank (by decide)
  have hnext := h'.test isBlank (by decide)
  rw [YamlLinter.blockJoint, YamlLinter.blockJoint, hfirst, hnext]

theorem Passes.blockLines (h : w.Passes c d) (folded : Bool) (indent : Nat) :
    w.BodyPair (c.blockLines folded indent) (d.blockLines folded indent) := by
  induction hn : c.rest.length using Nat.strongRecOn generalizing c d with
  | ind n ih =>
  have htext : d.rest.takeWhile (!isLineEnd ·) = c.rest.takeWhile (!isLineEnd ·) :=
    h.takeWhile (by decide) (by decide)
  have hline := h.skipLine
  rw [Cursor.blockLines_eq c, Cursor.blockLines_eq d, htext]
  rcases hline.lineBreak? with ⟨hc, hd⟩ | ⟨ch, c₁, d₁, hc, hd, h₁⟩
  · simp only [hc, hd]
    exact ⟨rfl, rfl, rfl, hline.markPair, hline⟩
  · have hlt := Cursor.length_rest_lineBreak? hc
    have hle : c.skipLine.rest.length ≤ c.rest.length := c.length_rest_skipWhile_le _
    have hle' := c₁.length_rest_indentedBreaks_le indent c₁.mark
    have hlines := h₁.indentedBreaks indent h₁.markPair
    have hmore := ih _ (by omega) hlines.cursor rfl
    simp only [hc, hd, hlines.cursor.atBlockLine, h.blockJoint hlines.cursor, hlines.breaks]
    split
    · exact ⟨by rw [hmore.text], hmore.lastBreak, hmore.breaks, hmore.stop, hmore.cursor⟩
    · exact ⟨rfl, rfl, rfl, hlines.stop, hlines.cursor⟩

/-- Block scalars with and without text are read in step. -/
theorem LinesPair.blockBody {a b : EmptyLines} (h : w.LinesPair a b) (folded : Bool)
    (indent : Nat) :
    w.BodyPair (Cursor.blockBody a folded indent) (Cursor.blockBody b folded indent) := by
  have hbody := h.cursor.blockLines folded indent
  unfold Cursor.blockBody
  simp only [h.cursor.atBlockLine, h.breaks]
  split
  · exact ⟨by rw [hbody.text], hbody.lastBreak, hbody.breaks, hbody.stop, hbody.cursor⟩
  · exact ⟨rfl, rfl, rfl, h.stop, h.cursor⟩

theorem BodyPair.blockValue {a b : BlockBody} (h : w.BodyPair a b) (chomping : Chomping) :
    Cursor.blockValue b chomping = Cursor.blockValue a chomping := by
  cases chomping <;> simp [Cursor.blockValue, h.text, h.lastBreak, h.breaks]

/-- Block scalars are read in step, with the comments in their headers. -/
theorem Passes.block (h : w.Passes c d) (hc : c.peek ≠ '\n') (folded : Bool) (parent : Int) :
    w.Agree (fun a b => w.TokenPair a.1 b.1 ∧
      w.Read (fun k k' => List.Forall₂ w.CommentPair k.toList k'.toList) a.2 b.2)
      (c.block folded parent) (d.block folded parent) := by
  unfold Cursor.block
  rcases (h.forward_one hc).blockHeader with
    ⟨e, f, hx, hy, he⟩ | ⟨⟨header, k, c₁⟩, ⟨header', k', d₁⟩, hx, hy, rfl, hk, h₁⟩
  · rw [hx, hy]
    exact .error he
  · simp only [hx, hy]
    cases header.increment with
    | none =>
      obtain ⟨hlines, hdeep⟩ := h₁.leadingBreaks 0 h₁.markPair
      have hbody := hlines.blockBody folded (max (max (parent + 1).toNat 1) (c₁.leadingBreaks 0 c₁.mark).2)
      simp only [hdeep, hbody.blockValue]
      exact .ok ⟨⟨rfl, h.markPair, hbody.stop⟩, hk, hbody.cursor⟩
    | some increment =>
      have hbody := (h₁.indentedBreaks (max (parent + 1).toNat 1 + increment - 1)
        h₁.markPair).blockBody folded (max (parent + 1).toNat 1 + increment - 1)
      simp only [hbody.blockValue]
      exact .ok ⟨⟨rfl, h.markPair, hbody.stop⟩, hk, hbody.cursor⟩

end Tandem

end YamlLinter
