import YamlLinter.Proofs.Independence
import YamlLinter.Proofs.Places
import YamlLinter.Proofs.SkippedLine

/-!
# Problems come in the order of their places

Problems are put in order line by line, when a line ends; nothing puts the problems of two lines in
order. They are in order since a rule that looks at a token tells of no place in front of the token
and of none behind the next one. An anchor that nothing refers to is told only when its document
ends, so this holds of the rule on anchors only while it is not asked for these.

## Contents

* `Problem.place`: the place of a problem, by which problems are in order;
* `IsDirect`, `spans_of_mem_check`: the rules that tell of a token before the next one;
* `spans_of_mem_tokenProblems`, `pairwise_tokenProblems`: what they find at the tokens of a text;
* `Sweep.Sorted`, `sorted_meet`, `pairwise_problems`: a sweep keeps that order;
* `pairwise_placeError`: so does the error of the scan;
* `problems_come_sorted`: the problems of a source.
-/

namespace YamlLinter

open Text

/-! ## Places of problems -/

/-- The line and the column of a finding. -/
def Finding.place (f : Finding) : Nat ×ₗ Nat := toLex (f.line, f.column)

theorem Finding.At.place_eq {f : Finding} {m : Mark} (h : f.At m) : f.place = m.reported := by
  unfold Finding.place Mark.reported
  rw [h.line, h.column]

namespace Problem

/-- The line and the column of a problem. Places are ordered by line, then by column. -/
def place (p : Problem) : Nat ×ₗ Nat := toLex (p.line, p.column)

theorem placeLe_iff {a b : Problem} : a.placeLe b = true ↔ a.place ≤ b.place := by
  unfold placeLe comparePlace place
  rw [Prod.Lex.toLex_le_toLex]
  rcases Nat.lt_trichotomy a.line b.line with h | h | h
  · simp [Nat.compare_eq_lt.2 h, h]
  · simp [h, Nat.compare_eq_gt]
  · simp [Nat.compare_eq_gt.2 h, Nat.not_lt_of_gt h, Nat.ne_of_gt h]

/-- Problems are put in order by their places first. -/
theorem place_le_of_le {a b : Problem} (h : a.le b = true) : a.place ≤ b.place := by
  rw [← placeLe_iff]
  unfold le order at h
  unfold placeLe
  cases hplace : comparePlace a b with
  | gt => simp [hplace] at h
  | lt | eq => rfl

theorem pairwise_place_sort (ps : List Problem) :
    (sort ps).Pairwise fun p q => p.place ≤ q.place :=
  (pairwise_sort ps).imp place_le_of_le

end Problem

/-! ## What is found at a token -/

/-- The built-in rules, but for one that tells of unused anchors. -/
inductive IsDirect : TokenRule → Prop
  | indentation (c : Indentation.Config) : IsDirect (Indentation.rule c)
  | keyDuplicates (c : KeyDuplicates.Config) : IsDirect (KeyDuplicates.rule c)
  | anchors (c : Anchors.Config) (h : c.forbidUnusedAnchors = false) : IsDirect (Anchors.rule c)

namespace Window

/-- The place is neither in front of the token nor behind the next one. -/
structure Spans (w : Window) (x : Nat ×ₗ Nat) : Prop where
  start : w.token.start.reported ≤ x
  stop : ∀ next, w.next = some next → x ≤ next.start.reported

/-- The token and the lines of it that may be looked at are not behind the next token. -/
structure Ordered (w : Window) : Prop where
  token : ∀ next, w.next = some next → w.token.start.reported ≤ next.start.reported
  lines : ∀ x ∈ Indentation.continuationLines w.buffer w.token, ∀ next, w.next = some next →
    toLex (x.1, x.2 + 1) ≤ next.start.reported

variable {w : Window}

theorem Ordered.spans_start (h : w.Ordered) : w.Spans w.token.start.reported :=
  ⟨le_refl _, h.token⟩

theorem Ordered.spans_next (h : w.Ordered) {next : Token} (hnext : w.next = some next) :
    w.Spans next.start.reported := by
  refine ⟨h.token next hnext, fun other hother => ?_⟩
  rw [Option.some.inj (hnext.symm.trans hother)]

theorem Ordered.spans_line (h : w.Ordered) {line indent : Nat}
    (hline : (line, indent) ∈ Indentation.continuationLines w.buffer w.token) :
    w.Spans (toLex (line, indent + 1)) :=
  ⟨Prod.Lex.toLex_le_toLex.2 (.inl (lt_of_mem_continuationLines hline)), h.lines _ hline⟩

end Window

/-- What such a rule finds at a token lies between that and the next one. -/
theorem spans_of_mem_check {r : TokenRule} (hr : IsDirect r) {w : Window} (hw : w.Ordered)
    {s : r.State} {f : Finding} (h : f ∈ (r.check w s).1) : w.Spans f.place := by
  cases hr with
  | indentation c =>
    rcases Indentation.at_of_mem_check h with hat | ⟨-, -, indent, hline, hcolumn⟩
    · rw [hat.place_eq]
      exact hw.spans_start
    · unfold Finding.place
      rw [hcolumn]
      exact hw.spans_line hline
  | keyDuplicates c =>
    obtain ⟨-, next, hnext, -, hat⟩ := KeyDuplicates.at_of_mem_check h
    rw [hat.place_eq]
    exact hw.spans_next hnext
  | anchors c hquiet =>
    rcases Anchors.at_of_mem_check h with hat | ⟨hasked, -⟩
    · rw [hat.place_eq]
      exact hw.spans_start
    · rw [hquiet] at hasked
      cases hasked

namespace Linter

variable {l : Linter} {ws : List Window} {w : Window} {i : Nat} {p : Problem}

theorem spans_of_mem_tokenProblems (hrules : ∀ r ∈ l.tokenRules, IsDirect r.1)
    (hw : ws[i]? = some w) (hordered : w.Ordered) (h : p ∈ (l.tokenProblems ws).getD i []) :
    w.Spans p.place := by
  rw [getD_tokenProblems] at h
  obtain ⟨r, hr, h⟩ := List.mem_flatMap.1 h
  unfold ruleProblems at h
  rw [List.getD_eq_getElem?_getD, List.getElem?_map, TokenRule.getElem?_run, hw] at h
  obtain ⟨f, hf, rfl⟩ := List.mem_map.1 h
  exact spans_of_mem_check (hrules r hr) hordered hf

end Linter

section Scanned

variable {text : List Char} {l : Linter} {w : Window} {n : Nat}

theorem pairwise_reported_scanText (text : List Char) :
    (scanText text).tokens.Pairwise fun t u => t.start.reported ≤ u.start.reported := by
  obtain ⟨s, hrun, -⟩ := ScanState.run_scanText text
  have hplaces := (ScanState.placed_run hrun).tokens.pairwise_ahead
    (R := fun m n => m.reported ≤ n.reported) Cursor.Ahead.reported_le
  exact (List.pairwise_append.1 hplaces).1

/-- The windows of a text are in order, also in front of an error. -/
theorem ordered_of_getElem? (h : (windows (bytes text) (scanText text).tokens)[n]? = some w) :
    w.Ordered := by
  obtain ⟨s, hrun, -⟩ := ScanState.run_scanText text
  obtain ⟨hbuffer, -⟩ := getElem?_windows h
  obtain ⟨xs, rest, hsplit, hhead⟩ := exists_split_of_mem_windowsFrom (List.mem_of_getElem? h)
  have hnext : ∀ next, w.next = some next → ∃ us, rest = next :: us := by
    intro next hnext
    rw [hnext] at hhead
    exact List.head?_eq_some_iff.1 hhead.symm
  constructor
  · intro next hsome
    obtain ⟨us, rfl⟩ := hnext next hsome
    have hplaces := pairwise_reported_scanText text
    rw [hsplit, List.pairwise_append] at hplaces
    exact (List.pairwise_cons.1 hplaces.2.1).1 next List.mem_cons_self
  · intro x hx next hsome
    obtain ⟨us, rfl⟩ := hnext next hsome
    have hlaid := (ScanState.placed_run hrun).tokens
    have hstart := ScanState.starts_run hrun next
    rw [hsplit, List.append_assoc, List.cons_append, List.cons_append] at hlaid hstart
    rw [hbuffer] at hx
    exact le_reported_of_mem_continuationLines hlaid (hstart (by simp)) hx

/-- What is found at a token does not stand behind what is found at a later one. -/
theorem pairwise_tokenProblems (hrules : ∀ r ∈ l.tokenRules, IsDirect r.1) (text : List Char)
    (n : Nat) :
    let ws := (windows (bytes text) (scanText text).tokens).take n
    ((ws.map Window.token).zip (l.tokenProblems ws)).Pairwise fun x y =>
      ∀ p ∈ x.2, ∀ q ∈ y.2, p.place ≤ q.place := by
  intro ws
  have hwindow : ∀ {i : Nat} {w : Window}, ws[i]? = some w →
      (windows (bytes text) (scanText text).tokens)[i]? = some w := by
    intro i w h
    rw [List.getElem?_take] at h
    split at h
    · exact h
    · cases h
  rw [List.pairwise_iff_getElem]
  intro i j hi hj hij p hp q hq
  have hlength : ((ws.map Window.token).zip (l.tokenProblems ws)).length ≤ ws.length := by
    simp
  have hwi : ws[i]? = some ws[i] := List.getElem?_eq_getElem (by omega)
  have hwj : ws[j]? = some ws[j] := List.getElem?_eq_getElem (by omega)
  have hfound : ∀ k (hk : k < ((ws.map Window.token).zip (l.tokenProblems ws)).length),
      ((ws.map Window.token).zip (l.tokenProblems ws))[k].2 = (l.tokenProblems ws).getD k [] := by
    intro k hk
    rw [List.getElem_zip, List.getD_eq_getElem?_getD, List.getElem?_eq_getElem]
    rfl
  rw [hfound] at hp hq
  have hspans := Linter.spans_of_mem_tokenProblems hrules hwi (ordered_of_getElem? (hwindow hwi)) hp
  have hspans' := Linter.spans_of_mem_tokenProblems hrules hwj (ordered_of_getElem? (hwindow hwj)) hq
  obtain ⟨-, -, hnext⟩ := getElem?_windows (hwindow hwi)
  obtain ⟨-, htoken, -⟩ := getElem?_windows (hwindow hwj)
  obtain ⟨hlt, htoken⟩ := List.getElem?_eq_some_iff.1 htoken
  -- the token behind the first one is the second, or stands in front of it
  have hplaces : (scanText text).tokens[i + 1].start.reported ≤ ws[j].token.start.reported := by
    rcases Nat.lt_or_eq_of_le (Nat.succ_le_of_lt hij) with hlater | hsame
    · rw [← htoken]
      exact List.pairwise_iff_getElem.1 (pairwise_reported_scanText text) _ _ _ hlt hlater
    · rw [← htoken]
      simp only [← hsame]
      exact le_refl _
  exact (hspans.stop _ (hnext.trans (List.getElem?_eq_getElem (by omega)))).trans
    (hplaces.trans hspans'.start)

end Scanned

/-! ## Sweeps -/

/-- Nothing found at the first element stands behind anything found at the second. -/
def Element.Precedes (c : Sweep.Checks) (d e : Element) : Prop :=
  ∀ p ∈ d.problems c, ∀ q ∈ e.problems c, p.place ≤ q.place

namespace Sweep

variable {c : Checks} {s : Sweep} {e : Element} {es : List Element}

/-- What has been released is in order, and nothing that was held back or comes later stands in front
of it; nor does anything that comes later stand in front of what is held back. -/
structure Sorted (c : Checks) (s : Sweep) (es : List Element) : Prop where
  released : s.released.Pairwise fun p q => p.place ≤ q.place
  held : ∀ p ∈ s.released, ∀ q ∈ s.held, p.place ≤ q.place
  coming : ∀ p ∈ s.released ++ s.held, ∀ e ∈ es, ∀ q ∈ e.problems c, p.place ≤ q.place
  elements : es.Pairwise (Element.Precedes c)

/-- One element adds what is found at it to what is held back; the end of a line releases some of
that, in order. -/
theorem meet_cases (c : Checks) (s : Sweep) (e : Element) :
    (meet c s e).released = s.released ∧ (meet c s e).held = s.held ++ e.problems c ∨
      ∃ f, (meet c s e).released =
          s.released ++ (Problem.sort (s.held ++ e.problems c)).filter f ∧
        (meet c s e).held = [] := by
  cases e with
  | token t ps => exact .inl ⟨rfl, rfl⟩
  | comment k => exact .inl ⟨(meet_comment k).2, (meet_comment k).1⟩
  | line l => exact .inr ⟨_, rfl, rfl⟩

theorem sorted_meet (h : Sorted c s (e :: es)) : Sorted c (meet c s e) es := by
  have hcons := List.pairwise_cons.1 h.elements
  -- what is released lies in front of what is held, and both in front of what is still to come
  have hnew : ∀ p ∈ s.released, ∀ q ∈ s.held ++ e.problems c, p.place ≤ q.place := by
    intro p hp q hq
    rcases List.mem_append.1 hq with hq | hq
    · exact h.held p hp q hq
    · exact h.coming p (List.mem_append_left _ hp) e List.mem_cons_self q hq
  have hlater : ∀ p ∈ s.released ++ (s.held ++ e.problems c), ∀ d ∈ es, ∀ q ∈ d.problems c,
      p.place ≤ q.place := by
    intro p hp d hd q hq
    rw [← List.append_assoc] at hp
    rcases List.mem_append.1 hp with hp | hp
    · exact h.coming p hp d (List.mem_cons_of_mem e hd) q hq
    · exact hcons.1 d hd p hp q hq
  rcases meet_cases c s e with ⟨hreleased, hheld⟩ | ⟨f, hreleased, hheld⟩
  · refine ⟨?_, ?_, ?_, hcons.2⟩ <;> rw [hreleased]
    · exact h.released
    · rw [hheld]
      exact hnew
    · rw [hheld]
      exact hlater
  · have hmem : ∀ p ∈ (Problem.sort (s.held ++ e.problems c)).filter f,
        p ∈ s.held ++ e.problems c :=
      fun p hp => (Problem.sort_perm _).mem_iff.1 (List.mem_filter.1 hp).1
    refine ⟨?_, ?_, ?_, hcons.2⟩ <;> rw [hreleased]
    · exact List.pairwise_append.2 ⟨h.released, (Problem.pairwise_place_sort _).filter f,
        fun p hp q hq => hnew p hp q (hmem q hq)⟩
    · rw [hheld]
      simp
    · intro p hp
      rw [hheld, List.append_nil] at hp
      refine hlater p ?_
      rcases List.mem_append.1 hp with hp | hp
      · exact List.mem_append_left _ hp
      · exact List.mem_append_right _ (hmem p hp)

theorem sorted_foldl (h : Sorted c s es) : Sorted c (es.foldl (meet c) s) [] := by
  induction es generalizing s with
  | nil => exact h
  | cons e es ih => exact ih (sorted_meet h)

/-- If what is found at the elements is in order from one to the next, all that is released is in
order. -/
theorem pairwise_problems (h : es.Pairwise (Element.Precedes c)) :
    (problems c es).Pairwise fun p q => p.place ≤ q.place :=
  (sorted_foldl ⟨.nil, by simp [start], by simp [start], h⟩).released

end Sweep

theorem pairwise_merge {α : Type} {R : α → α → Prop} {le : α → α → Bool} {xs ys : List α}
    (hxs : xs.Pairwise R) (hys : ys.Pairwise R) (h : ∀ x ∈ xs, ∀ y ∈ ys, R x y ∧ R y x) :
    (xs.merge ys le).Pairwise R := by
  induction xs generalizing ys with
  | nil => simpa using hys
  | cons x xs ihx =>
    obtain ⟨hx, hxs⟩ := List.pairwise_cons.1 hxs
    induction ys with
    | nil => simpa using ⟨hx, hxs⟩
    | cons y ys ihy =>
      obtain ⟨hy, hys'⟩ := List.pairwise_cons.1 hys
      rw [List.cons_merge_cons]
      split
      · refine .cons (fun z hz => ?_) (ihx hxs hys fun a ha => h a (List.mem_cons_of_mem x ha))
        rcases List.mem_merge.1 hz with hz | hz
        · exact hx z hz
        · exact (h x List.mem_cons_self z hz).1
      · refine .cons (fun z hz => ?_) (ihy hys' fun a ha b hb => h a ha b (List.mem_cons_of_mem y hb))
        rcases List.mem_merge.1 hz with hz | hz
        · exact (h z hz y List.mem_cons_self).2
        · exact hy z hz

/-- Where nothing is found at comments and lines, only the tokens have to be in order. -/
theorem pairwise_elements {c : Sweep.Checks} {tokens : List (Token × List Problem)}
    (hcomment : ∀ k, c.comment k = []) (hline : ∀ l, c.line l = [])
    (h : tokens.Pairwise fun x y => ∀ p ∈ x.2, ∀ q ∈ y.2, p.place ≤ q.place)
    (comments : List Comment) (lines : List Line) :
    (elements tokens comments lines).Pairwise (Element.Precedes c) := by
  have hsilent : ∀ {d e : Element}, e.problems c = [] → d.Precedes c e ∧ e.Precedes c d := by
    intro d e he
    unfold Element.Precedes
    rw [he]
    simp
  unfold elements
  refine pairwise_merge (pairwise_merge ?_ ?_ ?_) ?_ ?_
  · rw [List.pairwise_map]
    exact h
  · rw [List.pairwise_map]
    exact List.pairwise_of_forall fun k k' => (hsilent (e := .comment k') (hcomment k')).1
  · intro d _ e he
    obtain ⟨k, -, rfl⟩ := List.mem_map.1 he
    exact hsilent (e := .comment k) (hcomment k)
  · rw [List.pairwise_map]
    exact List.pairwise_of_forall fun l l' => (hsilent (e := .line l') (hline l')).1
  · intro d _ e he
    obtain ⟨l, -, rfl⟩ := List.mem_map.1 he
    exact hsilent (e := .line l) (hline l)

/-! ## The error of a scan -/

/-- The error takes the place of the first problem that is not in front of it. -/
theorem pairwise_placeError {ps : List Problem} (e : Problem)
    (h : ps.Pairwise fun p q => p.place ≤ q.place) :
    (placeError e ps).Pairwise fun p q => p.place ≤ q.place := by
  have hmem : ∀ {ps : List Problem} {q : Problem}, q ∈ placeError e ps → q = e ∨ q ∈ ps := by
    intro ps q hq
    fun_induction placeError e ps with
    | case1 => exact .inl (List.mem_singleton.1 hq)
    | case2 p ps hle =>
      rcases List.mem_cons.1 hq with rfl | hq
      · exact .inl rfl
      · exact .inr (List.mem_cons_of_mem p hq)
    | case3 p ps hle ih =>
      rcases List.mem_cons.1 hq with rfl | hq
      · exact .inr List.mem_cons_self
      · exact (ih hq).imp_right (List.mem_cons_of_mem p)
  fun_induction placeError e ps with
  | case1 => exact List.pairwise_singleton _ e
  | case2 p ps hle =>
    obtain ⟨hp, hps⟩ := List.pairwise_cons.1 h
    have hle := Problem.placeLe_iff.1 hle
    exact .cons (fun q hq => le_trans hle (hp q hq)) hps
  | case3 p ps hle ih =>
    obtain ⟨hp, hps⟩ := List.pairwise_cons.1 h
    have hle : p.place ≤ e.place := le_of_not_ge fun hge => hle (Problem.placeLe_iff.2 hge)
    refine .cons (fun q hq => ?_) (ih hps)
    rcases hmem hq with rfl | hq
    · exact hle
    · exact hp q hq

/-- The problems of a source come in the order of their places, lines first. This holds of every
linter that is made of built-in rules only, in any order and with any levels and options but that no
unused anchors are told of; and of every source, whether it can be scanned or not and however its
lines end. -/
theorem problems_come_sorted (l : Linter) (hcomments : l.commentRules = [])
    (hlines : l.lineRules = []) (hrules : ∀ r ∈ l.tokenRules, IsDirect r.1) (source : String) :
    (l.lint source).Pairwise fun p q => p.place ≤ q.place := by
  have hstyle : (l.styleProblems source.toList (scan source)).Pairwise fun p q =>
      p.place ≤ q.place := by
    refine Sweep.pairwise_problems (pairwise_elements ?_ ?_ ?_ _ _)
    · intro k
      simp [Linter.checks, Linter.commentProblems, hcomments]
    · intro line
      simp [Linter.checks, Linter.lineProblems, hlines]
    · -- in front of an error the last two windows are not looked at
      have htokens := pairwise_tokenProblems hrules source.toList
      unfold Linter.checkedWindows
      split
      · exact htokens _
      · have hall := htokens (windows (bytes source.toList) (scanText source.toList).tokens).length
        rwa [List.take_length] at hall
  unfold Linter.lint Linter.lintText
  split
  · exact .nil
  · simp only
    split
    · exact pairwise_placeError _ hstyle
    · exact hstyle

/-- A line of a scalar that is indented wrongly, a key that is repeated on the next line, an alias
behind it, and a character that no token starts with. -/
theorem problems_come_sorted_manyLines :
    let l : Linter :=
      ⟨[(KeyDuplicates.rule ⟨true⟩, .error), (Anchors.rule ⟨true, true, false⟩, .warning),
        (Indentation.rule ⟨.fixed 2, .always, true⟩, .error)], [], []⟩
    let source := "a: \"x\n y\"\na: *b\nc: d\n@"
    (∀ r ∈ l.tokenRules, IsDirect r.1) ∧ (scan source).error ≠ none ∧
      (l.tokenProblems (Linter.checkedWindows source.toList (scan source))).flatten.map
        (fun p => (p.line, p.column)) = [(2, 2), (3, 1), (3, 4)] ∧
      (l.lint source).Pairwise fun p q => p.place ≤ q.place := by
  intro l source
  have hrules : ∀ r ∈ l.tokenRules, IsDirect r.1 := by
    intro r hr
    simp only [l, List.mem_cons, List.not_mem_nil, or_false] at hr
    rcases hr with rfl | rfl | rfl
    · exact .keyDuplicates _
    · exact .anchors _ rfl
    · exact .indentation _
  exact ⟨hrules, by decide +kernel, by decide +kernel,
    problems_come_sorted l rfl rfl hrules source⟩

end YamlLinter
