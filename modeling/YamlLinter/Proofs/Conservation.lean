import Mathlib.Data.List.Perm.Basic
import YamlLinter.Linter
import YamlLinter.Proofs.Canonical.Verdict
import YamlLinter.Proofs.Positions
import YamlLinter.Proofs.RuleRun

/-!
# Which problems a linter keeps

A linter holds problems back until a line ends. It goes by physical lines, which only line feeds
divide, while the scanner counts more characters as line ends. So a source can have tokens and
comments on lines that are not there, and what is found at them is never released. Everything else
is: without directives, a linter gives all that its rules find, but for what they find behind the last
physical line.

## Contents

* `meet_perm`, `foldl_meet_perm`: without directives a sweep keeps all problems;
* `exists_last_line`: the physical lines of a text;
* `merge_lines`: what comes before the last line in the order of elements, and what behind it;
* `problems_elements`: the problems that are released;
* `foundAt`: what is found at some tokens, rule by rule;
* `Linter.found`, `Linter.unreached`: all problems of a source, and those behind its last line;
* `lint_loses_unreached`: a linter gives all problems but those.
-/

namespace YamlLinter

/-! ## Sweeps without directives -/

/-- What is found at an element. -/
def Element.problems (c : Sweep.Checks) : Element → List Problem
  | .token _ problems => problems
  | .comment k => c.comment k
  | .line l => c.line l

/-- The element is no comment that holds a directive. -/
def Element.Undirected : Element → Prop
  | .comment k => Directive.parse k.text.toList = none
  | _ => True

/-- The element is no line. -/
def Element.isItem : Element → Bool
  | .line _ => false
  | _ => true

namespace Sweep

variable {c : Checks} {s : Sweep} {e : Element} {es : List Element}

/-- No rule is switched off, now or later. -/
structure Calm (s : Sweep) : Prop where
  off : s.off = .empty
  offHere : s.offHere = .empty
  offNext : s.offNext = .empty

theorem Calm.shows (h : s.Calm) (p : Problem) : s.shows p = true := by
  have hcovers : Suppression.empty.covers p.rule = false := by cases p.rule <;> rfl
  simp [Sweep.shows, h.off, h.offHere, hcovers]

/-- One element adds what is found at it to the problems held or released. -/
theorem meet_perm (hs : s.Calm) (he : e.Undirected) :
    (meet c s e).Calm ∧
      ((meet c s e).released ++ (meet c s e).held).Perm (s.released ++ s.held ++ e.problems c) := by
  have hold : ∀ ps, (s.hold ps).Calm := fun ps => ⟨hs.off, hs.offHere, hs.offNext⟩
  cases e with
  | token t ps => exact ⟨hold ps, by simp [meet, Sweep.hold, Element.problems]⟩
  | comment k =>
    have hk : Directive.parse k.text.toList = none := he
    simp only [meet, hk]
    exact ⟨hold _, by simp [Sweep.hold, Element.problems]⟩
  | line l =>
    refine ⟨⟨hs.off, hs.offNext, rfl⟩, ?_⟩
    -- nothing is dropped at the end of the line
    have hall : (Problem.sort (s.held ++ c.line l)).filter (s.hold (c.line l)).shows =
        Problem.sort (s.held ++ c.line l) :=
      List.filter_eq_self.2 fun p _ => (hold _).shows p
    have hsort : (Problem.sort (s.held ++ c.line l)).Perm (s.held ++ c.line l) :=
      List.mergeSort_perm _ _
    simp only [meet, endLine]
    rw [show (s.hold (c.line l)).held = s.held ++ c.line l from rfl, hall, List.append_nil,
      List.append_assoc]
    exact hsort.append_left s.released

/-- A sweep without directives neither drops nor doubles problems. -/
theorem foldl_meet_perm (hs : s.Calm) (he : ∀ e ∈ es, e.Undirected) :
    (es.foldl (meet c) s).Calm ∧
      ((es.foldl (meet c) s).released ++ (es.foldl (meet c) s).held).Perm
        (s.released ++ s.held ++ es.flatMap (Element.problems c)) := by
  induction es generalizing s with
  | nil => exact ⟨hs, by simp⟩
  | cons e es ih =>
    obtain ⟨hcalm, hmeet⟩ := meet_perm (c := c) hs (he e List.mem_cons_self)
    obtain ⟨hcalm, hrest⟩ := ih hcalm fun e h => he e (List.mem_cons_of_mem _ h)
    refine ⟨hcalm, hrest.trans ?_⟩
    rw [List.flatMap_cons, ← List.append_assoc]
    exact hmeet.append_right _

/-- Only lines release problems. -/
theorem released_foldl_items (he : ∀ e ∈ es, e.isItem = true) :
    (es.foldl (meet c) s).released = s.released := by
  induction es generalizing s with
  | nil => rfl
  | cons e es ih =>
    refine (ih fun e h => he e (List.mem_cons_of_mem _ h)).trans ?_
    cases e with
    | token t ps => rfl
    | comment k =>
      simp only [meet]
      split
      · simp only [follow]
        split <;> rfl
      · rfl
    | line l => exact absurd (he _ List.mem_cons_self) (by simp [Element.isItem])

/-- What is found up to a line is released there, and what is found behind the last line never. -/
theorem problems_perm {l : Line} {es' : List Element} (he : ∀ e ∈ es, e.Undirected)
    (he' : ∀ e ∈ es', e.isItem = true) :
    (problems c (es ++ .line l :: es')).Perm (es.flatMap (Element.problems c) ++ c.line l) := by
  have hundirected : ∀ e ∈ es ++ [Element.line l], e.Undirected := by
    intro e hmem
    rcases List.mem_append.1 hmem with hmem | hmem
    · exact he e hmem
    · obtain rfl : e = .line l := by simpa using hmem
      trivial
  have hreleased : problems c (es ++ .line l :: es') =
      ((es ++ [Element.line l]).foldl (meet c) start).released := by
    rw [problems, List.append_cons, List.foldl_append]
    exact released_foldl_items he'
  have hheld : ((es ++ [Element.line l]).foldl (meet c) start).held = [] := by
    rw [List.foldl_append]
    rfl
  have hswept := (foldl_meet_perm (c := c) (s := start) ⟨rfl, rfl, rfl⟩ hundirected).2
  rw [hheld, List.append_nil, ← hreleased] at hswept
  simpa [start, Element.problems] using hswept

end Sweep

/-! ## Physical lines -/

/-- The lines of a text are numbered one after the other, and there is one more than line feeds. -/
theorem exists_last_line (number start : Nat) (read cs : List Char) :
    ∃ ls last, Line.allFrom number start read cs = ls ++ [last] ∧ ls.length = cs.count '\n' ∧
      last.number = number + ls.length ∧ ∀ l ∈ ls, l.number < last.number := by
  induction cs generalizing number start read with
  | nil => exact ⟨[], _, rfl, rfl, rfl, by simp⟩
  | cons c cs ih =>
    rw [Line.allFrom]
    by_cases hc : c = '\n'
    · obtain ⟨ls, last, he, hlen, hlast, hlt⟩ :=
        ih (number + 1) (start + Text.byteCount read + 1) []
      rw [if_pos (by simpa using hc), he]
      refine ⟨_ :: ls, last, rfl, by simp [hc, hlen], ?_, ?_⟩
      · rw [hlast, List.length_cons]
        omega
      · intro l hl
        rcases List.mem_cons.1 hl with rfl | hl
        · simp only [Line.make]
          omega
        · exact hlt l hl
    · obtain ⟨ls, last, he, hlen, hrest⟩ := ih number start (c :: read)
      rw [if_neg (by simpa using hc), he]
      exact ⟨ls, last, rfl, by simp [hc, hlen], hrest⟩

/-! ## The order of elements -/

theorem endsBefore_line {e : Element} {l : Line} :
    e.endsBefore (.line l) = true ↔ e.lineNumber < l.number :=
  decide_eq_true_iff

/-- Elements that come before the last line are merged with the lines before it, and those that do
not come behind it. -/
theorem merge_lines {before behind : List Element} {ls : List Line} {last : Line}
    (hls : ∀ l ∈ ls, l.number < last.number)
    (hbefore : ∀ e ∈ before, e.lineNumber < last.number)
    (hbehind : ∀ e, behind.head? = some e → last.number ≤ e.lineNumber) :
    (before ++ behind).merge ((ls ++ [last]).map .line) Element.endsBefore =
      before.merge (ls.map .line) Element.endsBefore ++ .line last :: behind := by
  -- nothing that lies behind is merged in front of a line
  have hfirst : ∀ (l : Line) (es : List Element), l.number ≤ last.number →
      behind.merge (.line l :: es) Element.endsBefore =
        .line l :: behind.merge es Element.endsBefore := by
    intro l es hl
    cases hb : behind with
    | nil => simp
    | cons e behind =>
      have hge := hbehind e (by simp [hb])
      rw [List.cons_merge_cons, if_neg]
      rw [endsBefore_line]
      omega
  -- the merge walks both lists, and so does the induction
  induction before generalizing ls with
  | nil =>
    induction ls with
    | nil => simpa using hfirst last [] (Nat.le_refl _)
    | cons l ls ih =>
      have hl := hls l List.mem_cons_self
      have hrest := ih fun m hm => hls m (List.mem_cons_of_mem l hm)
      simp only [List.nil_append, List.cons_append, List.map_cons, List.nil_merge] at hrest ⊢
      rw [hfirst l _ (Nat.le_of_lt hl), hrest]
  | cons e before ih =>
    have he := hbefore e List.mem_cons_self
    have ih := fun ls hls => @ih ls hls fun d hd => hbefore d (List.mem_cons_of_mem e hd)
    induction ls with
    | nil =>
      have hrest := ih [] (by simp)
      simp only [List.nil_append, List.cons_append, List.map_cons, List.map_nil] at hrest ⊢
      rw [List.cons_merge_cons, if_pos (endsBefore_line.2 he), hrest]
      simp
    | cons l ls ihl =>
      simp only [List.cons_append, List.map_cons, List.cons_merge_cons]
      by_cases hl : e.lineNumber < l.number
      · rw [if_pos (endsBefore_line.2 hl), if_pos (endsBefore_line.2 hl)]
        exact congrArg (e :: ·) (ih (l :: ls) hls)
      · rw [if_neg (mt endsBefore_line.1 hl), if_neg (mt endsBefore_line.1 hl)]
        exact congrArg (Element.line l :: ·) (ihl fun m hm => hls m (List.mem_cons_of_mem l hm))

/-- In a list with rising line numbers, the elements up to a line are the first ones. -/
theorem takeWhile_eq_filter {es : List Element} {n : Nat}
    (h : es.Pairwise fun d e => d.lineNumber ≤ e.lineNumber) :
    es.takeWhile (·.lineNumber < n) = es.filter (·.lineNumber < n) := by
  induction es with
  | nil => rfl
  | cons e es ih =>
    obtain ⟨he, hes⟩ := List.pairwise_cons.1 h
    by_cases hn : e.lineNumber < n
    · rw [List.takeWhile_cons_of_pos (by simpa using hn), List.filter_cons_of_pos (by simpa using hn),
        ih hes]
    · rw [List.takeWhile_cons_of_neg (by simpa using hn), List.filter_cons_of_neg (by simpa using hn)]
      refine (List.filter_eq_nil_iff.2 fun d hd => ?_).symm
      have hle := he d hd
      simp only [decide_eq_true_eq]
      omega

/-- The tokens and comments of a source by where they start. -/
def itemsOf (tokens : List (Token × List Problem)) (comments : List Comment) : List Element :=
  (tokens.map fun (t, problems) => Element.token t problems).merge (comments.map .comment)
    Element.startsBefore

/-- Without directives the problems that are released are those at the tokens and comments that start
before the end of the last line, and those of the lines. -/
theorem problems_elements {c : Sweep.Checks} {tokens : List (Token × List Problem)}
    {comments : List Comment} {ls : List Line} {last : Line}
    (hls : ∀ l ∈ ls, l.number < last.number)
    (hcomments : ∀ k ∈ comments, Directive.parse k.text.toList = none)
    (hsorted : (itemsOf tokens comments).Pairwise fun d e => d.lineNumber ≤ e.lineNumber) :
    (Sweep.problems c (elements tokens comments (ls ++ [last]))).Perm
      ((tokens.filter (·.1.start.line < last.number)).flatMap (·.2) ++
        (comments.filter (·.start.line < last.number)).flatMap c.comment ++
        (ls ++ [last]).flatMap c.line) := by
  -- what starts before the end of the last line is released with it, all else is held for good
  let before := (itemsOf tokens comments).filter (·.lineNumber < last.number)
  let behind := (itemsOf tokens comments).dropWhile (·.lineNumber < last.number)
  have hsplit : itemsOf tokens comments = before ++ behind := by
    show _ = List.filter _ _ ++ List.dropWhile _ _
    rw [← takeWhile_eq_filter hsorted, List.takeWhile_append_dropWhile]
  have hperm : (itemsOf tokens comments).Perm
      (tokens.map (fun (t, problems) => Element.token t problems) ++ comments.map .comment) :=
    List.merge_perm_append _
  have hitem : ∀ e ∈ itemsOf tokens comments, e.isItem = true ∧ e.Undirected := by
    intro e he
    rcases List.mem_append.1 (hperm.mem_iff.1 he) with he | he
    · obtain ⟨⟨t, ps⟩, -, rfl⟩ := List.mem_map.1 he
      exact ⟨rfl, trivial⟩
    · obtain ⟨k, hk, rfl⟩ := List.mem_map.1 he
      exact ⟨rfl, hcomments k hk⟩
  have helements : elements tokens comments (ls ++ [last]) =
      before.merge (ls.map .line) Element.endsBefore ++ .line last :: behind := by
    show (itemsOf tokens comments).merge _ _ = _
    rw [hsplit, merge_lines hls]
    · intro e he
      simpa using (List.mem_filter.1 he).2
    · intro e he
      have hnot := List.head?_dropWhile_not (·.lineNumber < last.number) (itemsOf tokens comments)
      rw [he] at hnot
      simpa using hnot
  have hundirected : ∀ e ∈ before.merge (ls.map .line) Element.endsBefore, e.Undirected := by
    intro e he
    rcases List.mem_merge.1 he with he | he
    · exact (hitem e (List.mem_filter.1 he).1).2
    · obtain ⟨l, -, rfl⟩ := List.mem_map.1 he
      trivial
  have hreleased := Sweep.problems_perm (c := c) (l := last) hundirected fun e he =>
    (hitem e (hsplit ▸ List.mem_append_right before he)).1
  have hbefore : (before.flatMap (Element.problems c)).Perm
      ((tokens.filter (·.1.start.line < last.number)).flatMap (·.2) ++
        (comments.filter (·.start.line < last.number)).flatMap c.comment) := by
    refine ((hperm.filter _).flatMap_right _).trans (.of_eq ?_)
    simp only [List.filter_append, List.filter_map, List.flatMap_append, List.flatMap_map]
    rfl
  rw [helements]
  refine hreleased.trans ?_
  rw [List.flatMap_append, List.flatMap_singleton, ← List.append_assoc]
  refine List.Perm.append_right _ ?_
  refine ((List.merge_perm_append _).flatMap_right _).trans ?_
  rw [List.flatMap_append, List.flatMap_map]
  exact hbefore.append_right _

/-! ## Rule by rule -/

/-- The problems that were found at the tokens that `p` picks. -/
def foundAt (p : Token → Bool) (ts : List Token) (found : List (List Problem)) : List Problem :=
  ((ts.zip found).filter (p ·.1)).flatMap (·.2)

theorem foundAt_cons (p : Token → Bool) (t : Token) (ts : List Token) (ps : List Problem)
    (found : List (List Problem)) :
    foundAt p (t :: ts) (ps :: found) = (if p t then ps else []) ++ foundAt p ts found := by
  simp only [foundAt, List.zip_cons_cons, List.filter_cons]
  split <;> simp

/-- What two rules find at each token. -/
theorem foundAt_zipWith (p : Token → Bool) :
    ∀ {ts : List Token} {found more : List (List Problem)}, found.length = ts.length →
      more.length = ts.length →
      (foundAt p ts (List.zipWith (· ++ ·) found more)).Perm
        (foundAt p ts found ++ foundAt p ts more)
  | [], [], [], _, _ => .nil
  | t :: ts, ps :: found, qs :: more, hf, hm => by
    have ih := foundAt_zipWith p (Nat.succ.inj hf) (Nat.succ.inj hm)
    rw [List.zipWith_cons_cons, foundAt_cons, foundAt_cons, foundAt_cons]
    split
    · refine (ih.append_left (ps ++ qs)).trans ?_
      simp only [List.append_assoc]
      exact (List.perm_append_comm_assoc _ _ _).append_left ps
    · exact ih

/-- What a rule finds at the tokens that `p` picks and at the others is all that it finds. -/
theorem foundAt_compl (p : Token → Bool) :
    ∀ {ts : List Token} {found : List (List Problem)}, found.length = ts.length →
      (foundAt p ts found ++ foundAt (!p ·) ts found).Perm found.flatten
  | [], [], _ => .nil
  | t :: ts, ps :: found, hlen => by
    have ih := foundAt_compl p (Nat.succ.inj hlen)
    rw [foundAt_cons, foundAt_cons, List.flatten_cons]
    cases p t with
    | true =>
      simp only [if_true, Bool.not_true, Bool.false_eq_true, if_false, List.nil_append]
      rw [List.append_assoc]
      exact ih.append_left ps
    | false =>
      simp only [Bool.false_eq_true, if_false, Bool.not_false, if_true, List.nil_append]
      exact (List.perm_append_comm_assoc _ _ _).trans (ih.append_left ps)

theorem length_ruleProblems (r : TokenRule × Level) (ws : List Window) :
    (Linter.ruleProblems r ws).length = ws.length := by
  rw [Linter.ruleProblems, List.length_map]
  exact r.1.length_runFrom _ ws

/-- What all token rules find at some tokens, rule by rule. -/
theorem foundAt_tokenProblems (l : Linter) (ws : List Window) (p : Token → Bool) :
    (foundAt p (ws.map Window.token) (l.tokenProblems ws)).Perm
      (l.tokenRules.flatMap fun r => foundAt p (ws.map Window.token) (Linter.ruleProblems r ws)) ∧
      (l.tokenProblems ws).length = ws.length := by
  unfold Linter.tokenProblems
  generalize l.tokenRules = rules
  induction rules with
  | nil =>
    refine ⟨.of_eq ?_, by simp⟩
    simp only [List.foldr_nil, foundAt, List.flatMap_nil, List.flatMap_eq_nil_iff]
    intro x hx
    obtain ⟨w, -, hw⟩ := List.mem_map.1 (List.of_mem_zip (List.mem_filter.1 hx).1).2
    exact hw.symm
  | cons r rules ih =>
    obtain ⟨hrest, hlen⟩ := ih
    have hrule := length_ruleProblems r ws
    rw [List.foldr_cons, List.flatMap_cons]
    refine ⟨(foundAt_zipWith p ?_ ?_).trans (hrest.append_left _), ?_⟩
    · rw [hrule, List.length_map]
    · rw [hlen, List.length_map]
    · rw [List.length_zipWith, hrule, hlen, Nat.min_self]

/-- Rules may be run one after the other over all places, or all at each place. -/
theorem flatMap_comm {α β : Type*} (xs : List α) (ys : List β) (f : α → β → List Problem) :
    (xs.flatMap fun x => ys.flatMap (f x)).Perm (ys.flatMap fun y => xs.flatMap (f · y)) := by
  induction ys with
  | nil => simp
  | cons y ys ih =>
    simp only [List.flatMap_cons]
    exact (List.flatMap_append_perm xs _ _).symm.trans (ih.append_left _)

/-- What rules find at the places that `p` picks and at the others is all that they find. -/
theorem flatMap_filter_compl {α β : Type} (rules : List α) (places : List β) (p : β → Bool)
    (f : α → β → List Problem) :
    ((rules.flatMap fun r => (places.filter p).flatMap (f r)) ++
        rules.flatMap fun r => (places.filter (!p ·)).flatMap (f r)).Perm
      (rules.flatMap fun r => places.flatMap (f r)) := by
  refine (List.flatMap_append_perm rules _ _).trans (.flatMap_left rules fun r _ => ?_)
  rw [← List.flatMap_append]
  exact (List.filter_append_perm p places).flatMap_right _

namespace Linter

variable (l : Linter) (source : List Char)

/-- Everything that the rules find in a source: each token rule at all windows, each comment rule at
all comments and each line rule at all physical lines. -/
def found : List Problem :=
  (l.tokenRules.flatMap fun r =>
      (ruleProblems r (windows (Text.bytes source) (scanText source).tokens)).flatten) ++
    (l.commentRules.flatMap fun r =>
      (scanText source).comments.flatMap fun k =>
        (r.1.check ⟨k, Text.bytes source⟩).map (·.tag r.1.id r.2)) ++
    l.lineRules.flatMap fun r =>
      (Line.all source).flatMap fun line =>
        (r.1.check ⟨line, Text.bytes source⟩).map (·.tag r.1.id r.2)

/-- Whether a place is not behind the last physical line. -/
def reaches (m : Mark) : Bool := m.line < (Line.all source).length

/-- What the rules find at tokens and comments that start behind the last physical line. -/
def unreached : List Problem :=
  (l.tokenRules.flatMap fun r => foundAt (!reaches source ·.start) (scanText source).tokens
      (ruleProblems r (windows (Text.bytes source) (scanText source).tokens))) ++
    l.commentRules.flatMap fun r =>
      ((scanText source).comments.filter (!reaches source ·.start)).flatMap fun k =>
        (r.1.check ⟨k, Text.bytes source⟩).map (·.tag r.1.id r.2)

end Linter

/-! ## Scanned sources -/

section Scanned

variable {source : List Char}

/-- The places where tokens and comments of a scan without an error start. -/
theorem laid_scanText (herror : (scanText source).error = none) :
    (∃ c, Laid Token.start Token.stop (.ofText source) (scanText source).tokens c) ∧
      ∃ c, Laid Comment.start Comment.stop (.ofText source) (scanText source).comments c := by
  obtain ⟨s, hrun, hends⟩ := ScanState.run_scanText source
  unfold ScanState.Ends at hends
  rw [herror] at hends
  obtain ⟨-, hqueue, hcomments⟩ := hends
  have hplaced := ScanState.placed_run hrun
  have htokens := hplaced.tokens
  rw [hqueue, List.append_nil] at htokens
  exact ⟨⟨_, htokens⟩, _, hcomments ▸ hplaced.comments.laid⟩

/-- Tokens and comments by where they start are in the order of their lines. -/
theorem sorted_items (herror : (scanText source).error = none)
    {tokens : List (Token × List Problem)} (htokens : tokens.map (·.1) = (scanText source).tokens) :
    (itemsOf tokens (scanText source).comments).Pairwise fun d e =>
      d.lineNumber ≤ e.lineNumber := by
  obtain ⟨⟨c, hlaid⟩, d, hnotes⟩ := laid_scanText herror
  rw [← htokens] at hlaid
  -- every item starts at a cursor of the text
  have hlies : ∀ e ∈ itemsOf tokens (scanText source).comments,
      ∃ c, (Cursor.ofText source).Ahead c ∧ e.index = c.mark.index ∧ e.lineNumber = c.line := by
    intro e he
    rcases List.mem_merge.1 he with he | he
    · obtain ⟨⟨t, ps⟩, ht, rfl⟩ := List.mem_map.1 he
      obtain ⟨p, -, hp, -, -, hs, -⟩ := hlaid.mem (List.mem_map_of_mem ht)
      exact ⟨p, hp, congrArg Mark.index hs, congrArg Mark.line hs⟩
    · obtain ⟨k, hk, rfl⟩ := List.mem_map.1 he
      obtain ⟨p, -, hp, -, -, hs, -⟩ := hnotes.mem hk
      exact ⟨p, hp, congrArg Mark.index hs, congrArg Mark.line hs⟩
  have hindex : (itemsOf tokens (scanText source).comments).Pairwise fun d e =>
      d.startsBefore e = true := by
    refine List.pairwise_merge ?_ ?_ _ _ ?_ ?_
    · intro a b c hab hbc
      simp only [Element.startsBefore, decide_eq_true_eq] at hab hbc ⊢
      exact Nat.le_trans hab hbc
    · intro a b
      simp only [Element.startsBefore, Bool.or_eq_true, decide_eq_true_eq]
      exact Nat.le_total _ _
    · rw [List.pairwise_map]
      have hstarts := List.pairwise_map.1 hlaid.pairwise_start
      exact hstarts.imp fun h => decide_eq_true h
    · rw [List.pairwise_map]
      exact hnotes.pairwise_start.imp fun h => decide_eq_true h
  refine hindex.imp_of_mem fun {d e} hd he hde => ?_
  obtain ⟨p, hp, hpi, hpl⟩ := hlies d hd
  obtain ⟨q, hq, hqi, hql⟩ := hlies e he
  have hle : d.index ≤ e.index := of_decide_eq_true hde
  rw [hpl, hql]
  exact Cursor.line_le_of_index_le hp hq (by omega)

/-- What a linter gives for a source without directives, rule by rule. -/
theorem lintText_perm (l : Linter) (hfile : fileDisabled source = false)
    (herror : (scanText source).error = none)
    (hdirective : ∀ k ∈ (scanText source).comments, Directive.parse k.text.toList = none) :
    (l.lintText source).Perm
      ((l.tokenRules.flatMap fun r =>
          foundAt (Linter.reaches source ·.start) (scanText source).tokens
            (Linter.ruleProblems r (windows (Text.bytes source) (scanText source).tokens))) ++
        (l.commentRules.flatMap fun r =>
          ((scanText source).comments.filter (Linter.reaches source ·.start)).flatMap fun k =>
            (r.1.check ⟨k, Text.bytes source⟩).map (·.tag r.1.id r.2)) ++
        l.lineRules.flatMap fun r =>
          (Line.all source).flatMap fun line =>
            (r.1.check ⟨line, Text.bytes source⟩).map (·.tag r.1.id r.2)) := by
  generalize hw : windows (Text.bytes source) (scanText source).tokens = ws
  have hws : ws.map Window.token = (scanText source).tokens := hw ▸ map_token_windowsFrom _ _ _
  obtain ⟨hrules, hlen⟩ := foundAt_tokenProblems l ws (Linter.reaches source ·.start)
  obtain ⟨ls, last, hlines, -, hlast, hls⟩ := exists_last_line 1 0 [] source
  -- lines are numbered from one, so the number of the last one is how many there are
  have hreaches : ∀ m, decide (m.line < last.number) = Linter.reaches source m := by
    intro m
    have hcount : (Line.all source).length = last.number := by
      rw [Line.all, hlines, List.length_append, List.length_singleton, hlast]
      omega
    rw [Linter.reaches, hcount]
  have hstyle : l.lintText source = Sweep.problems (l.checks (Text.bytes source))
      (elements ((scanText source).tokens.zip (l.tokenProblems ws)) (scanText source).comments
        (ls ++ [last])) := by
    simp only [Linter.lintText, hfile, herror, Linter.styleProblems, Linter.checkedWindows, hw, hws,
      ← hlines]
    rfl
  have htokens : ((scanText source).tokens.zip (l.tokenProblems ws)).map (·.1) =
      (scanText source).tokens := by
    refine List.map_fst_zip (Nat.le_of_eq ?_)
    rw [hlen, ← hws, List.length_map]
  have hreleased := problems_elements (c := l.checks (Text.bytes source)) hls hdirective
    (sorted_items herror htokens)
  rw [hstyle]
  refine hreleased.trans ?_
  simp only [hreaches]
  refine ((?_ : List.Perm _ _).append ?_).append ?_
  · rw [hws] at hrules
    exact hrules
  · exact flatMap_comm _ _ _
  · rw [← hlines]
    exact flatMap_comm _ _ _

/-- What a linter gives and what lies behind the last line is all that its rules find. -/
theorem lintText_append_unreached (l : Linter) (hfile : fileDisabled source = false)
    (herror : (scanText source).error = none)
    (hdirective : ∀ k ∈ (scanText source).comments, Directive.parse k.text.toList = none) :
    (l.lintText source ++ l.unreached source).Perm (l.found source) := by
  have hlint := lintText_perm l hfile herror hdirective
  generalize hw : windows (Text.bytes source) (scanText source).tokens = ws at hlint
  have hws : (scanText source).tokens = ws.map Window.token :=
    hw ▸ (map_token_windowsFrom _ _ _).symm
  have hlen : ∀ r, (Linter.ruleProblems r ws).length = (scanText source).tokens.length := by
    intro r
    rw [length_ruleProblems, hws, List.length_map]
  have htokens := (List.flatMap_append_perm l.tokenRules _ _).trans
    (List.Perm.flatMap_left l.tokenRules fun r _ =>
      foundAt_compl (Linter.reaches source ·.start) (hlen r))
  have hcomments := flatMap_filter_compl l.commentRules (scanText source).comments
    (Linter.reaches source ·.start) fun r k =>
      (r.1.check ⟨k, Text.bytes source⟩).map (·.tag r.1.id r.2)
  rw [List.perm_iff_count]
  intro p
  have hlint := hlint.count_eq p
  have htokens := htokens.count_eq p
  have hcomments := hcomments.count_eq p
  simp only [Linter.found, Linter.unreached, hw, List.count_append] at hlint htokens hcomments ⊢
  omega

/-- If only line feeds end lines, no place of a text is behind its last physical line. -/
theorem reaches_of_at {m : Mark} {n : Nat} (hm : m.At source n)
    (hfeed : ∀ i, endsLineAt source i = true → source[i]? = some '\n') :
    Linter.reaches source m = true := by
  obtain ⟨ls, last, hlines, hlen, -⟩ := exists_last_line 1 0 [] source
  have hcount : ∀ n, (List.range n).countP (fun i => source[i]? == some '\n') =
      (source.take n).count '\n' := by
    intro n
    induction n with
    | zero => rfl
    | succ n ih =>
      rw [List.range_succ, List.countP_append, ih, List.take_add_one, List.count_append]
      cases h : source[n]? <;> simp [h, List.count_singleton]
  have hle : m.line ≤ source.count '\n' := by
    rw [hm.line]
    refine Nat.le_trans (List.countP_mono_left fun i _ hi => ?_)
      (Nat.le_trans (Nat.le_of_eq (hcount n)) ((List.take_sublist n source).count_le _))
    simpa using hfeed i hi
  rw [Linter.reaches, Line.all, hlines, List.length_append, hlen, decide_eq_true_eq]
  exact Nat.lt_succ_of_le hle

theorem unreached_eq_nil (l : Linter) (herror : (scanText source).error = none)
    (hfeed : ∀ i, endsLineAt source i = true → source[i]? = some '\n') :
    l.unreached source = [] := by
  obtain ⟨⟨c, hlaid⟩, d, hnotes⟩ := laid_scanText herror
  have htokens : ∀ t ∈ (scanText source).tokens, Linter.reaches source t.start = true := by
    intro t ht
    obtain ⟨p, -, hp, -, -, hs, -⟩ := hlaid.mem ht
    exact reaches_of_at (hs ▸ hp.at_pos) hfeed
  have hcomments : ∀ k ∈ (scanText source).comments, Linter.reaches source k.start = true := by
    intro k hk
    obtain ⟨p, -, hp, -, -, hs, -⟩ := hnotes.mem hk
    exact reaches_of_at (hs ▸ hp.at_pos) hfeed
  unfold Linter.unreached
  rw [List.append_eq_nil_iff, List.flatMap_eq_nil_iff, List.flatMap_eq_nil_iff]
  constructor
  · intro r _
    rw [foundAt, List.filter_eq_nil_iff.2, List.flatMap_nil]
    intro x hx
    simp [htokens x.1 (List.of_mem_zip hx).1]
  · intro r _
    rw [List.filter_eq_nil_iff.2, List.flatMap_nil]
    intro k hk
    simp [hcomments k hk]

end Scanned

/-- A linter gives all that its rules find in a source without directives that can be scanned, but
for what they find at tokens and comments behind the last physical line, and each problem once. It
gives all of it if and only if nothing is found there, as in every source in which only line feeds,
alone or behind a carriage return, end lines. -/
theorem lint_loses_unreached (l : Linter) (source : String)
    (hfile : fileDisabled source.toList = false) (herror : (scan source).error = none)
    (hdirective : ∀ k ∈ (scan source).comments, Directive.parse k.text.toList = none) :
    (l.lint source ++ l.unreached source.toList).Perm (l.found source.toList) ∧
      ((l.lint source).Perm (l.found source.toList) ↔ l.unreached source.toList = []) ∧
      ((∀ i, endsLineAt source.toList i = true → source.toList[i]? = some '\n') →
        l.unreached source.toList = []) := by
  have hall : (l.lint source ++ l.unreached source.toList).Perm (l.found source.toList) :=
    lintText_append_unreached l hfile herror hdirective
  refine ⟨hall, ⟨fun hperm => ?_, fun hnone => ?_⟩, unreached_eq_nil l herror⟩
  · have hlen := hall.length_eq
    rw [List.length_append, hperm.length_eq] at hlen
    exact List.length_eq_zero_iff.1 (by omega)
  · rwa [hnone, List.append_nil] at hall

/-- A carriage return alone ends a line for the scanner only, so that a key repeated behind it is
found and never told. -/
theorem lint_loses_unreached_loneReturn :
    fileDisabled "a: 1\ra: 2".toList = false ∧ (scan "a: 1\ra: 2").error = none ∧
      (scan "a: 1\ra: 2").comments = [] ∧
      (builtinLinter .consistent .always .error).found "a: 1\ra: 2".toList =
        [⟨2, 1, "duplication of key \"a\" in mapping", some "key-duplicates", .error⟩] ∧
      (builtinLinter .consistent .always .error).lint "a: 1\ra: 2" = [] := by
  let l := builtinLinter .consistent .always .error
  have hfile : fileDisabled "a: 1\ra: 2".toList = false := by decide +kernel
  have herror : (scan "a: 1\ra: 2").error = none := by decide +kernel
  have hcomments : (scan "a: 1\ra: 2").comments = [] := by decide +kernel
  have hfound : l.found "a: 1\ra: 2".toList =
      [⟨2, 1, "duplication of key \"a\" in mapping", some "key-duplicates", .error⟩] := by
    decide +kernel
  have hlost : (l.unreached "a: 1\ra: 2".toList).length = 1 := by decide +kernel
  obtain ⟨hall, -⟩ := lint_loses_unreached l "a: 1\ra: 2" hfile herror (by simp [hcomments])
  have hlen := hall.length_eq
  rw [List.length_append, hlost, hfound, List.length_singleton] at hlen
  have hnone : l.lint "a: 1\ra: 2" = [] := List.length_eq_zero_iff.1 (by omega)
  exact ⟨hfile, herror, hcomments, hfound, hnone⟩

end YamlLinter
