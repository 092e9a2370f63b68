import YamlLinter.Linter
import YamlLinter.Proofs.Canonical.Indent
import YamlLinter.Proofs.Canonical.Scan

/-!
# The verdict on a canonical document

A linter whose rules are silent on the tokens of a source finds nothing in it. The three rules are
silent on every canonical document, as long as the options of the indentation rule agree with the
layout.

## Contents

* `lintText_of_silent`: a source on which all rules are silent;
* `builtinLinter`: the three rules;
* `lint_emit`: a canonical document.
-/

namespace YamlLinter

/-! ## Silent rules -/

/-- Silent rules have no problems at any token. -/
theorem tokenProblems_of_silent {l : Linter} {buffer : List UInt8} {ts : List Token}
    (h : ∀ r ∈ l.tokenRules, ∃ s', Silent r.1 buffer none r.1.start ts [] s') :
    ∀ ps ∈ l.tokenProblems (windows buffer ts), ps = [] := by
  unfold Linter.tokenProblems
  generalize l.tokenRules = rules at h
  induction rules with
  | nil =>
    intro ps hps
    obtain ⟨w, -, rfl⟩ := List.mem_map.1 hps
    rfl
  | cons r rules ih =>
    intro ps hps
    -- the problems at a token are those of the first rule, and then those of the others
    rw [List.foldr_cons, ← List.map_uncurry_zip_eq_zipWith] at hps
    obtain ⟨⟨found, more⟩, hmem, rfl⟩ := List.mem_map.1 hps
    obtain ⟨hfound, hmore⟩ := List.of_mem_zip hmem
    obtain ⟨s', hs'⟩ := h r List.mem_cons_self
    obtain ⟨findings, hfindings, rfl⟩ := List.mem_map.1 hfound
    have hnone : findings = [] := run_of_silent hs' findings hfindings
    have hrest : more = [] := ih (fun r hr => h r (List.mem_cons_of_mem _ hr)) more hmore
    rw [hnone, hrest]
    rfl

/-- An element without problems: a token at which nothing was found, or a line. -/
def Element.IsQuiet : Element → Prop
  | .token _ problems => problems = []
  | .comment _ => False
  | .line _ => True

/-- Nothing is held back or released at elements without problems. -/
theorem meet_of_isQuiet {c : Sweep.Checks} (hline : ∀ line, c.line line = []) {e : Element}
    (he : e.IsQuiet) {s : Sweep} (hs : s.held = [] ∧ s.released = []) :
    (Sweep.meet c s e).held = [] ∧ (Sweep.meet c s e).released = [] := by
  obtain ⟨hheld, hreleased⟩ := hs
  cases e with
  | token t problems =>
    obtain rfl : problems = [] := he
    exact ⟨by simp [Sweep.meet, Sweep.hold, hheld], hreleased⟩
  | comment comment => exact absurd he id
  | line line =>
    refine ⟨rfl, ?_⟩
    simp [Sweep.meet, Sweep.endLine, Sweep.hold, hheld, hreleased, hline, Problem.sort]

theorem problems_of_isQuiet {c : Sweep.Checks} (hline : ∀ line, c.line line = [])
    {es : List Element} (hes : ∀ e ∈ es, e.IsQuiet) : Sweep.problems c es = [] := by
  have hrun : ∀ s : Sweep, s.held = [] ∧ s.released = [] →
      (es.foldl (Sweep.meet c) s).released = [] := by
    induction es with
    | nil =>
      intro s hs
      exact hs.2
    | cons e es ih =>
      intro s hs
      exact ih (fun e he => hes e (List.mem_cons_of_mem _ he)) _
        (meet_of_isQuiet hline (hes e List.mem_cons_self) hs)
  exact hrun .start ⟨rfl, rfl⟩

/-- A source without comments on which all rules are silent has no problems. -/
theorem lintText_of_silent {l : Linter} {source : List Char} {ts : List Token}
    (hscan : scanText source = ⟨ts, [], none⟩) (hline : l.lineRules = [])
    (h : ∀ r ∈ l.tokenRules, ∃ s', Silent r.1 (Text.bytes source) none r.1.start ts [] s') :
    l.lintText source = [] := by
  unfold Linter.lintText
  split
  · rfl
  -- tokens come with nothing found at them, there are no comments, and no rule looks at lines
  · rw [hscan]
    show Sweep.problems (l.checks (Text.bytes source)) (elements _ [] (Line.all source)) = []
    apply problems_of_isQuiet
    · intro line
      simp [Linter.checks, Linter.lineProblems, hline]
    · intro e he
      unfold elements at he
      rcases List.mem_merge.1 he with he | he
      · rcases List.mem_merge.1 he with he | he
        · obtain ⟨⟨t, problems⟩, hmem, rfl⟩ := List.mem_map.1 he
          exact tokenProblems_of_silent h problems (List.of_mem_zip hmem).2
        · cases he
      · obtain ⟨line, -, rfl⟩ := List.mem_map.1 he
        trivial

/-! ## Canonical documents -/

/-- The three rules with their default options, but for the width and the policy of the indentation
rule. -/
def builtinLinter (spaces : Indentation.Width) (policy : Indentation.Policy) (level : Level) :
    Linter :=
  let indentation := { Indentation.Config.default with spaces, indentSequences := policy }
  { Linter.empty with
    tokenRules :=
      [(Indentation.rule indentation, level), (KeyDuplicates.rule .default, level),
        (Anchors.rule .default, level)] }

namespace Canonical

variable {layout : Layout} {spaces : Indentation.Width} {policy : Indentation.Policy}

theorem fits_start (hspaces : spaces = .consistent ∨ spaces = .fixed layout.width)
    (hpolicy : layout.Allows policy) (checkMultiLine : Bool) :
    Fits layout (.start ⟨spaces, policy, checkMultiLine⟩) := by
  refine ⟨?_, hpolicy⟩
  rcases hspaces with rfl | rfl
  · exact .inl rfl
  · exact .inr rfl

/-- A canonical document has no problems if the options of the indentation rule agree with its
layout. -/
theorem lint_emit (level : Level) (tree : Tree) (hw : 0 < layout.width) (hd : tree.Distinct)
    (hspaces : spaces = .consistent ∨ spaces = .fixed layout.width)
    (hpolicy : layout.Allows policy) :
    (builtinLinter spaces policy level).lint (emit layout tree) = [] := by
  rw [Linter.lint, emit, String.toList_ofList]
  apply lintText_of_silent (scanText_text hw tree) rfl
  intro r hr
  simp only [builtinLinter, List.mem_cons, List.not_mem_nil, or_false] at hr
  rcases hr with rfl | rfl | rfl
  · exact silent_indentation rfl hw (fits_start hspaces hpolicy false) tree (inked_stream tree)
  · exact ⟨_, unrepeated_stream tree hd none [] []⟩
  · exact silent_anchors (isName_stream tree) none []

/-- A word of one letter or digit. -/
def Word.ofChar (c : Char) (h : c.isAlphanum = true) : Word := ⟨[c], by simp, by simpa using h⟩

/-- A key of one letter or digit. -/
def Key.ofChar (c : Char) (h : c.isAlphanum = true) : Key :=
  ⟨.ofChar c h, Nat.le_add_left 1 1023⟩

/-- A tree with a sequence and a mapping below the keys of a mapping. -/
def sample : Tree :=
  .mapping (.cons (.ofChar 'a' rfl) (.sequence (.cons (.leaf (.ofChar 'x' rfl))
      (.last (.mapping (.last (.ofChar 'b' rfl) (.leaf (.ofChar '1' rfl)))))))
    (.last (.ofChar 'c' rfl) (.mapping (.last (.ofChar 'a' rfl) (.leaf (.ofChar '2' rfl))))))

theorem lint_emit_sample :
    emit ⟨2, false⟩ sample = "a:\n- x\n- b: 1\nc:\n  a: 2\n" ∧
      (builtinLinter .consistent .never .error).lint (emit ⟨2, false⟩ sample) = [] := by
  refine ⟨by decide, ?_⟩
  refine lint_emit .error sample (by decide) ?_ (.inl rfl) ?_
  · simp [sample, Tree.Distinct, Entries.Distinct, Items.Distinct, Entries.keys, Key.ofChar,
      Word.ofChar]
  · simp [Layout.Allows]

end Canonical

end YamlLinter
