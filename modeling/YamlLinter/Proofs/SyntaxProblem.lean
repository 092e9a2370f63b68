import YamlLinter.Proofs.SortedProblems

/-!
# The error of a scan is told once

A source that cannot be scanned has one problem more than its rules find. It stands where the scan
stopped, and takes the place of the first problem that is not in front of it. All other problems
stay, in their order; those of the token rules are what the rules find in front of the last two
tokens.

## Contents

* `exists_placeError`: where the error stands among the problems;
* `Linter.exists_rule_of_mem_styleProblems`: all other problems are found by a rule;
* `TokenRule.run_take`, `Linter.tokenProblems_take`: rules that see fewer windows find less, and
  nothing else;
* `Linter.getElem?_checkedWindows`: the windows in front of an error show both tokens behind them;
* `lint_of_error`, `scan_error_is_told_once`: the problems of a source that cannot be scanned.
-/

namespace YamlLinter

/-! ## The place of the error -/

/-- All problems in front of the error stay. Of the others the first is replaced, if there is
one. -/
theorem exists_placeError (e : Problem) (ps : List Problem) :
    ∃ front behind, placeError e ps = front ++ e :: behind ∧ (∀ p ∈ front, p.place < e.place) ∧
      (ps = front ∧ behind = [] ∨ ∃ q, ps = front ++ q :: behind ∧ e.place ≤ q.place) := by
  fun_induction placeError e ps with
  | case1 => exact ⟨[], [], rfl, by simp, .inl ⟨rfl, rfl⟩⟩
  | case2 p ps hle =>
    exact ⟨[], ps, rfl, by simp, .inr ⟨p, rfl, Problem.placeLe_iff.1 hle⟩⟩
  | case3 p ps hle ih =>
    obtain ⟨front, behind, hplaced, hfront, hrest⟩ := ih
    have hlt : p.place < e.place := lt_of_not_ge fun hge => hle (Problem.placeLe_iff.2 hge)
    refine ⟨p :: front, behind, congrArg (p :: ·) hplaced, ?_, ?_⟩
    · intro q hq
      rcases List.mem_cons.1 hq with rfl | hq
      · exact hlt
      · exact hfront q hq
    · rcases hrest with ⟨rfl, rfl⟩ | ⟨q, rfl, hq⟩
      · exact .inl ⟨rfl, rfl⟩
      · exact .inr ⟨q, rfl, hq⟩

/-! ## Rules that see fewer windows -/

/-- What a rule finds at a window does not depend on the windows behind it. -/
theorem TokenRule.run_take (r : TokenRule) (ws : List Window) (n : Nat) :
    r.run (ws.take n) = (r.run ws).take n := by
  unfold run
  generalize r.start = s
  induction ws generalizing s n with
  | nil => simp [runFrom]
  | cons w ws ih =>
    cases n with
    | zero => rfl
    | succ n => exact congrArg ((r.check w s).1 :: ·) (ih n _)

namespace Linter

variable {l : Linter} {source : List Char} {scanned : Scan} {p : Problem} {w : Window} {n : Nat}

theorem tokenProblems_take (l : Linter) (ws : List Window) (n : Nat) :
    l.tokenProblems (ws.take n) = (l.tokenProblems ws).take n := by
  unfold tokenProblems
  generalize l.tokenRules = rules
  induction rules with
  | nil => exact List.map_take
  | cons r rules ih =>
    have hrule : ruleProblems r (ws.take n) = (ruleProblems r ws).take n := by
      unfold ruleProblems
      rw [TokenRule.run_take, List.map_take]
    rw [List.foldr_cons, List.foldr_cons, ih, hrule, List.take_zipWith]

/-- Only rules find problems in a scanned source. -/
theorem exists_rule_of_mem_styleProblems (h : p ∈ l.styleProblems source scanned) :
    ∃ rule ∈ l.ruleIds, p.rule = some rule := by
  have hsame : l.SameRules l := ⟨.refl _, .refl _, .refl _⟩
  -- a linter shares its rules with itself, so its problems are all of them
  have hall := filter_styleProblems hsame.joins (List.disjoint_nil_right _) source scanned
  exact Problem.isOf_iff.1 (List.filter_eq_self.1 hall p h)

theorem checkedWindows_of_error {e : ScanError} (h : scanned.error = some e) :
    checkedWindows source scanned =
      (windows (Text.bytes source) scanned.tokens).take (scanned.tokens.length - 2) := by
  unfold checkedWindows
  rw [h]

/-- In front of an error, the windows that are checked show both tokens behind them. -/
theorem getElem?_checkedWindows {e : ScanError} (herror : scanned.error = some e)
    (h : (checkedWindows source scanned)[n]? = some w) :
    ∃ next nextNext, w.next = some next ∧ w.nextNext = some nextNext ∧
      scanned.tokens[n + 1]? = some next ∧ scanned.tokens[n + 2]? = some nextNext := by
  rw [checkedWindows_of_error herror, List.getElem?_take] at h
  split at h
  case isFalse => cases h
  case isTrue hn =>
    obtain ⟨-, -, hnext⟩ := getElem?_windows h
    have hnextNext := nextNext_of_getElem?_windows h
    have hn1 : n + 1 < scanned.tokens.length := by omega
    have hn2 : n + 2 < scanned.tokens.length := by omega
    rw [List.getElem?_eq_getElem hn1] at hnext
    rw [List.getElem?_eq_getElem hn2] at hnextNext
    exact ⟨_, _, hnext, hnextNext, List.getElem?_eq_getElem hn1, List.getElem?_eq_getElem hn2⟩

end Linter

/-! ## Sources -/

/-- The error of a scan is put among the problems of the rules. -/
theorem lint_of_error (l : Linter) {source : String} {e : ScanError}
    (henabled : fileDisabled source.toList = false) (herror : (scan source).error = some e) :
    l.lint source = placeError (syntaxProblem e) (l.styleProblems source.toList (scan source)) := by
  unfold Linter.lint Linter.lintText
  unfold scan at herror
  simp only [henabled, Bool.false_eq_true, if_false, herror]
  rfl

/-- The error of a scan is told once and hides nothing in front of it. Of a source that cannot be
scanned, one problem has no rule: it is an error, stands where the scan stopped, and tells why.
Without it, the problems are those of the rules in their order, but for the first one at its place
or behind it, if there is one. The problems of the rules are what a sweep over all comments and lines
and the checked tokens gives. At these the token rules find what they find at all tokens, up to the
last two; so both tokens behind each token that they look at are there. -/
theorem scan_error_is_told_once (l : Linter) {source : String} {e : ScanError}
    (henabled : fileDisabled source.toList = false) (herror : (scan source).error = some e) :
    let told : Problem :=
      ⟨e.mark.line + 1, e.mark.column + 1, "syntax error: " ++ e.problem, none, .error⟩
    let style := l.styleProblems source.toList (scan source)
    let tokens := (scan source).tokens
    let checked := Linter.checkedWindows source.toList (scan source)
    (l.lint source).filter (·.rule.isNone) = [told] ∧
      (∃ front behind, l.lint source = front ++ told :: behind ∧
        (∀ p ∈ front, p.place < told.place) ∧
        (style = front ∧ behind = [] ∨
          ∃ p, style = front ++ p :: behind ∧ told.place ≤ p.place)) ∧
      style = Sweep.problems (l.checks (Text.bytes source.toList))
        (elements ((checked.map Window.token).zip (l.tokenProblems checked)) (scan source).comments
          (Line.all source.toList)) ∧
      checked.map Window.token = tokens.take (tokens.length - 2) ∧
      l.tokenProblems checked =
        (l.tokenProblems (windows (Text.bytes source.toList) tokens)).take (tokens.length - 2) ∧
      ∀ n w, checked[n]? = some w → ∃ next nextNext,
        w.next = some next ∧ w.nextNext = some nextNext ∧
          tokens[n + 1]? = some next ∧ tokens[n + 2]? = some nextNext := by
  intro told style tokens checked
  have hlint : l.lint source = placeError told style := lint_of_error l henabled herror
  have hchecked : checked =
      (windows (Text.bytes source.toList) tokens).take (tokens.length - 2) :=
    Linter.checkedWindows_of_error herror
  obtain ⟨front, behind, hplaced, hfront, hrest⟩ := exists_placeError told style
  rw [← hlint] at hplaced
  -- the problems that are left are all problems of rules
  have hruled : ∀ p ∈ front ++ behind, p ∈ style := by
    intro p hp
    rcases hrest with ⟨hstyle, rfl⟩ | ⟨q, hstyle, -⟩
    · rw [hstyle]
      simpa using hp
    · rw [hstyle]
      rw [List.mem_append] at hp ⊢
      exact hp.imp_right (List.mem_cons_of_mem q)
  have hnone : ∀ ps : List Problem, (∀ p ∈ ps, p ∈ style) → ps.filter (·.rule.isNone) = [] := by
    intro ps hps
    rw [List.filter_eq_nil_iff]
    intro p hp
    obtain ⟨rule, -, hrule⟩ := Linter.exists_rule_of_mem_styleProblems (hps p hp)
    simp [hrule]
  refine ⟨?_, ⟨front, behind, hplaced, hfront, hrest⟩, rfl, ?_, ?_, ?_⟩
  · rw [hplaced, List.filter_append, List.filter_cons_of_pos rfl,
      hnone front fun p hp => hruled p (List.mem_append_left _ hp),
      hnone behind fun p hp => hruled p (List.mem_append_right _ hp)]
    rfl
  · rw [hchecked, List.map_take]
    exact congrArg (List.take _) (map_token_windowsFrom _ _ _)
  · rw [hchecked, Linter.tokenProblems_take]
  · intro n w hw
    exact Linter.getElem?_checkedWindows herror hw

/-- A character that no token starts with, behind a repeated key. Three lines are too short. The
last of them, which is empty, lies behind the error, and the error stands in the place of its
problem. -/
theorem scan_error_is_told_once_shortLines :
    let short : LineRule :=
      ⟨"short", fun line => if line.text.length < 5 then [⟨line.number, 1, "short line"⟩] else []⟩
    let l : Linter := ⟨[(KeyDuplicates.rule .default, .error)], [], [(short, .warning)]⟩
    let source := "a: 1\na: two\nb: @\n"
    let told : Problem :=
      ⟨3, 4, "syntax error: found character '@' that cannot start any token", none, .error⟩
    let front : List Problem :=
      [⟨1, 1, "short line", some "short", .warning⟩,
        ⟨2, 1, "duplication of key \"a\" in mapping", some "key-duplicates", .error⟩,
        ⟨3, 1, "short line", some "short", .warning⟩]
    let hidden : Problem := ⟨4, 1, "short line", some "short", .warning⟩
    fileDisabled source.toList = false ∧
      (scan source).error = some ⟨.strayCharacter '@', ⟨15, 2, 3⟩⟩ ∧
      (l.lint source).filter (·.rule.isNone) = [told] ∧
      l.lint source = front ++ [told] ∧ (∀ p ∈ front, p.place < told.place) ∧
      l.styleProblems source.toList (scan source) = front ++ [hidden] ∧
      told.place ≤ hidden.place := by
  intro short l source told front hidden
  have henabled : fileDisabled source.toList = false := by decide +kernel
  have herror : (scan source).error = some ⟨.strayCharacter '@', ⟨15, 2, 3⟩⟩ := by decide +kernel
  obtain ⟨honce, -, htie, -⟩ := scan_error_is_told_once l henabled herror
  have hcomments : (scan source).comments = [] := by decide +kernel
  have hstyle : l.styleProblems source.toList (scan source) = front ++ [hidden] := by
    rw [htie, elements, hcomments, List.map_nil, List.merge_right]
    -- the elements line by line
    rw [merge_eq_flatMap _ (numbers_all source.toList)]
    · decide +kernel
    · decide +kernel
    · decide +kernel
  refine ⟨henabled, herror, honce, ?_, by decide +kernel, hstyle, by decide +kernel⟩
  rw [lint_of_error l henabled herror, hstyle]
  decide +kernel

end YamlLinter
