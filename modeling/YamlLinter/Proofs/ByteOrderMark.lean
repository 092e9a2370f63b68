import YamlLinter.Proofs.Tandem.Sources

/-!
# A byte order mark in front of a source

The scanner skips a byte order mark at the start of a source and gives it no column, so behind it the
tokens, the comments and the error are those of the source without the mark. Two other looks at the
first line see the mark as text: a directive behind it does not switch the linter off for the file,
and a comment alone on the first line counts as inline, so that a directive for one line acts on the
first line in place of the second.

## Contents

* `markTandem`, `scanPair_byteOrderMark`: the scan behind the mark;
* `fileDisabled_byteOrderMark`, `length_all_byteOrderMark`: the first line with the mark;
* `Linter.problemsOf`: the problems of a source with a given scan;
* `lint_behind_byteOrderMark`: the problems of a source with the mark.
-/

namespace YamlLinter

open Text ScanState

variable {text : List Char}

/-! ## The scan behind the mark -/

/-- A cursor at the start of a text, and one behind a byte order mark in front of it. -/
def markTandem (text : List Char) (h : text.head? ≠ some '\ufeff') : Tandem where
  left := .ofText text
  right := (Cursor.ofText ('\ufeff' :: text)).forward 1
  returns := false
  text := (respell_false text).symm
  clean := clean_ofText text
  column := rfl
  mark := fun hpeek => absurd hpeek (peek_ofText_ne h)

theorem beside_markTandem (h : text.head? ≠ some '\ufeff') :
    (markTandem text h).Beside ['\ufeff'] where
  left := rfl
  right := rfl
  line := rfl
  last := by
    have hlast : (bytes ['\ufeff']).getLast? = some 0xbf := by decide
    rw [hlast]
    rintro b ⟨⟩
    rfl

/-- The scanner that stands in front of the mark fetches what the one behind it does. -/
theorem fetch_started (h : text.head? ≠ some '\ufeff') :
    (started ('\ufeff' :: text)).fetch =
      { started ('\ufeff' :: text) with cursor := (markTandem text h).right }.fetch := by
  rfl

theorem inStep_started (h : text.head? ≠ some '\ufeff') :
    (markTandem text h).InStep (started text)
      { started ('\ufeff' :: text) with cursor := (markTandem text h).right } :=
  ⟨(markTandem text h).start, rfl, rfl, .nil, rfl, rfl, rfl, rfl, .nil, [], rfl, .nil⟩

/-- Behind the mark the scan is that of the text. -/
theorem scanPair_byteOrderMark (h : text.head? ≠ some '\ufeff') :
    (markTandem text h).ScanPair [.empty .streamStart .origin] [.empty .streamStart .origin]
      (scanText text) (scanText ('\ufeff' :: text)) :=
  Tandem.scanPair_started (inStep_started h) (fetch_started h) (needsMore_started _) (run_started _)

/-! ## The first line with the mark -/

theorem length_allFrom (number start : Nat) (read text : List Char) :
    (Line.allFrom number start read text).length = text.count '\n' + 1 := by
  induction text generalizing number start read with
  | nil => rfl
  | cons ch text ih =>
    rw [Line.allFrom, List.count_cons]
    split
    · rw [List.length_cons, ih]
    · rw [ih]

theorem length_all_byteOrderMark (text : List Char) :
    (Line.all ('\ufeff' :: text)).length = (Line.all text).length := by
  rw [Line.all, Line.all, length_allFrom, length_allFrom]
  rfl

/-- With the mark in front, the first line does not start with a `#`. -/
theorem fileDisabled_byteOrderMark (text : List Char) : fileDisabled ('\ufeff' :: text) = false := by
  have hfrom (number start : Nat) (read text : List Char) : ∃ line lines rest,
      Line.allFrom number start (read ++ ['\ufeff']) text = line :: lines ∧
        line.text = '\ufeff' :: rest := by
    have hdrop (read : List Char) :
        Line.dropReturn (read ++ ['\ufeff']) = Line.dropReturn read ++ ['\ufeff'] := by
      cases read with
      | nil => rfl
      | cons ch read =>
        by_cases hch : ch = '\r'
        · subst hch
          rfl
        · simp [Line.dropReturn, hch]
    induction text generalizing number start read with
    | nil => exact ⟨_, _, read.reverse, rfl, by simp [Line.make]⟩
    | cons ch text ih =>
      rw [Line.allFrom]
      split
      · exact ⟨_, _, (Line.dropReturn read).reverse, rfl, by simp [Line.make, hdrop]⟩
      · exact ih number start (ch :: read)
  obtain ⟨line, lines, rest, hall, htext⟩ := hfrom 1 0 [] text
  have hfirst : firstLine ('\ufeff' :: text) = '\ufeff' :: rest := by
    have hall' : Line.all ('\ufeff' :: text) = line :: lines := hall
    unfold firstLine
    simp only [hall', htext]
  unfold fileDisabled
  rw [hfirst]
  rfl

/-! ## Problems -/

/-- The problems of a source with the given scan. -/
def Linter.problemsOf (l : Linter) (source : List Char) (scanned : Scan) : List Problem :=
  match scanned.error with
  | some e => placeError (syntaxProblem e) (l.styleProblems source scanned)
  | none => l.styleProblems source scanned

theorem Linter.lintText_of_fileDisabled {l : Linter} (h : fileDisabled text = false) :
    l.lintText text = l.problemsOf text (scanText text) := by
  unfold lintText
  rw [if_neg (by simp [h])]
  rfl

/-- The built-in rules find the same behind the mark, but for comments on the first line. -/
theorem Linter.lintText_byteOrderMark {l : Linter} (h : text.head? ≠ some '\ufeff')
    (hl : l.commentRules = [] ∧ l.lineRules = [] ∧ ∀ rule ∈ l.tokenRules, IsBuiltin rule.1) :
    l.lintText ('\ufeff' :: text) = l.problemsOf text
      { scanText text with comments := (scanText text).comments.map (·.behind true text) } := by
  have hw := beside_markTandem h
  have hpair := scanPair_byteOrderMark h
  have hstyle : l.styleProblems ('\ufeff' :: text) (scanText ('\ufeff' :: text)) =
      l.styleProblems text
        { scanText text with comments := (scanText text).comments.map (·.behind true text) } := by
    have hbehind := hpair.styleProblems_eq hw rfl hl (by simp) (fun _ => start_le_stop)
      (length_all_byteOrderMark text)
    have hink : (markTandem text h).right.inked = true := rfl
    rw [hink] at hbehind
    exact hbehind
  rw [lintText_of_fileDisabled (fileDisabled_byteOrderMark text)]
  unfold problemsOf
  rw [hstyle]
  have herror := hpair.error
  generalize (scanText text).error = e at herror ⊢
  generalize (scanText ('\ufeff' :: text)).error = e' at herror ⊢
  cases herror with
  | none => rfl
  | @some e f hef =>
    have hproblem : syntaxProblem f = syntaxProblem e := by
      simp only [syntaxProblem, ScanError.line, ScanError.column, ScanError.problem,
        hef.cause rfl, hw.line_eq hef.mark, hef.mark.column]
    simp only [hproblem]

/-- Whether a comment is inline matters only if it switches rules off for one line. -/
theorem Linter.problemsOf_behind {l : Linter} {r : Scan}
    (hl : l.commentRules = [] ∧ l.lineRules = [] ∧ ∀ rule ∈ l.tokenRules, IsBuiltin rule.1)
    (h : ∀ k ∈ r.comments, k.start.index ≤ firstFeed text → k.inline = false → k.skips = false) :
    l.problemsOf text { r with comments := r.comments.map (·.behind true text) } =
      l.problemsOf text r := by
  have hstyle : l.styleProblems text { r with comments := r.comments.map (·.behind true text) } =
      l.styleProblems text r := by
    refine styleProblems_eq hl (T := Eq) (K := fun k k' => k' = k.behind true text ∧
      (k.skips = true → k'.inline = k.inline)) ?_ ?_ ?_ ?_ ?_ rfl rfl
    · rintro t _ rfl
      exact ⟨⟨rfl, rfl, rfl, rfl⟩, rfl, rfl, rfl⟩
    · rintro k _ ⟨rfl, hinline⟩
      exact .comment rfl rfl hinline
    · rintro t _ k _ rfl ⟨rfl, -⟩
      rfl
    · exact List.forall₂_same.2 fun _ _ => rfl
    · rw [List.forall₂_map_right_iff]
      refine List.forall₂_same.2 fun k hk => ⟨rfl, fun hskips => ?_⟩
      unfold Comment.behind
      cases hinline : k.inline with
      | true => rfl
      | false =>
        have hbehind : ¬k.start.index ≤ firstFeed text := by
          intro hle
          rw [h k hk hle hinline] at hskips
          cases hskips
        simp [hbehind]
  unfold problemsOf
  rw [hstyle]

/-- The problems of a source with a byte order mark. They are those of the source, but for two
things: the linter is not switched off for the file, and the comments on the first line count as
inline. So they are the same if the source does not switch the linter off and no comment alone on its
first line switches rules off for one line. -/
theorem lint_behind_byteOrderMark {config : LintConfig} {l : Linter}
    (hl : Linter.ofConfig config = .ok l) {source : String}
    (h : source.toList.head? ≠ some '\ufeff') :
    l.lint ("\ufeff" ++ source) = l.problemsOf source.toList
        { scan source with
          comments := (scan source).comments.map (·.behind true source.toList) } ∧
      (fileDisabled source.toList = false →
        (∀ k ∈ (scan source).comments, k.start.index ≤ firstFeed source.toList →
          k.inline = false → k.skips = false) →
        l.lint ("\ufeff" ++ source) = l.lint source) := by
  have hbuiltin := Linter.isBuiltin_ofConfig hl
  have hexact : l.lint ("\ufeff" ++ source) = l.problemsOf source.toList
      { scan source with
        comments := (scan source).comments.map (·.behind true source.toList) } := by
    rw [Linter.lint, String.toList_append]
    exact Linter.lintText_byteOrderMark h hbuiltin
  refine ⟨hexact, fun hfile hskips => ?_⟩
  rw [hexact, Linter.problemsOf_behind hbuiltin hskips, Linter.lint,
    Linter.lintText_of_fileDisabled hfile]
  rfl

/-- A comment behind the mark on the first line counts as inline, so that its directive leaves the
second line alone. -/
theorem lint_behind_byteOrderMark_disableLine :
    let source := "# yamlstyle disable-line\n a: 1\n"
    let config : LintConfig := ⟨[(Indentation.id, .enable)]⟩
    let l : Linter := ⟨[(Indentation.rule .default, .error)], [], []⟩
    let p : Problem :=
      ⟨2, 2, "wrong indentation: expected 0 but found 1", some Indentation.id, .error⟩
    Linter.ofConfig config = .ok l ∧ source.toList.head? ≠ some '\ufeff' ∧ l.lint source = [] ∧
      l.lint ("\ufeff" ++ source) = [p] ∧
      l.problemsOf source.toList { scan source with
        comments := (scan source).comments.map (·.behind true source.toList) } = [p] := by
  intro source config l p
  have hl : Linter.ofConfig config = .ok l := by rfl
  have hhead : source.toList.head? ≠ some '\ufeff' := by decide +kernel
  have hlint : l.lint source = [] := by
    refine (lintText_eq l ?_ ?_ (feeds_of_lt ?_)).trans ?_ <;> decide +kernel
  have hmarked : l.lint ("\ufeff" ++ source) = [p] := by
    refine (lintText_eq l ?_ ?_ (feeds_of_lt ?_)).trans ?_ <;> decide +kernel
  exact ⟨hl, hhead, hlint, hmarked, (lint_behind_byteOrderMark hl hhead).1.symm.trans hmarked⟩

end YamlLinter
