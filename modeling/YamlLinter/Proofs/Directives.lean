import YamlLinter.Proofs.Conservation

/-!
# What directives do

A linter meets directives on its way through a source, and each of them acts at once: on what is
switched off until further notice, on the current line, or on the next one. Here the same is said
without the way: whether a rule is shown on a line depends on the last directive up to that line that
switches the rule, and on the directives for that line. Problems are told line by line, in order on
each line.

## Contents

* `Problem.sort_eq_of_perm`, `Problem.filter_sort`: problems in order;
* `Suppression.covers_apply`, `Suppression.covers_applyLine`: one directive;
* `shown`: whether a rule is shown on a line, by the comments of a source;
* `Follows`: what a sweep has switched off, by the directives that it has met;
* `follows_comment`, `follows_endLine`, `follows_items`: one comment, the end of a line, one line;
* `released_lines`: the problems that a sweep over all lines releases;
* `merge_eq_flatMap`: the order of elements, line by line;
* `Linter.foundOn`: what the rules find on a line;
* `lintText_eq`, `mem_lintText_iff`: what a linter tells, line by line;
* `lint_follows_directives`: the problems of a source.
-/

namespace YamlLinter

/-! ## Problems in order -/

namespace Problem

/-- The order of problems compares one field after the other. -/
theorem order_eq : order =
    compareLex (compareLex (compareOn line) (compareOn column))
      (compareLex (compareOn desc)
        (compareLex (fun a b => compare a.rule b.rule) (compareOn fun p => p.level.rank))) := by
  funext a b
  have hrule : compareRule a.rule b.rule = compare a.rule b.rule := by
    cases a.rule <;> cases b.rule <;> rfl
  show (comparePlace a b).then _ = _
  rw [hrule]
  rfl

instance : Std.TransCmp order := by
  have hrule : Std.TransCmp fun a b : Problem => compare a.rule b.rule :=
    inferInstanceAs (Std.TransCmp (compareOn rule))
  rw [order_eq]
  infer_instance

theorem le_iff {a b : Problem} : a.le b = true ↔ (order a b).isLE = true := by
  unfold le
  cases order a b <;> simp

theorem le_trans (a b c : Problem) (hab : a.le b = true) (hbc : b.le c = true) : a.le c = true := by
  rw [le_iff] at hab hbc ⊢
  exact Std.TransCmp.isLE_trans hab hbc

theorem le_total (a b : Problem) : (a.le b || b.le a) = true := by
  have hswap : order b a = (order a b).swap := Std.OrientedCmp.eq_swap
  rw [Bool.or_eq_true, le_iff, le_iff, hswap]
  cases order a b <;> simp

/-- Problems that are told at the same place in the same words are the same. -/
theorem le_antisymm {a b : Problem} (hab : a.le b = true) (hba : b.le a = true) : a = b := by
  rw [le_iff] at hab hba
  have heq : order a b = .eq := Std.OrientedCmp.isLE_antisymm hab hba
  rw [order_eq] at heq
  simp only [compareLex, compareOn, Ordering.then_eq_eq, Std.LawfulEqCmp.compare_eq_iff_eq] at heq
  obtain ⟨⟨hline, hcolumn⟩, hdesc, hrule, hlevel⟩ := heq
  have hlevel : a.level = b.level := by
    cases ha : a.level <;> cases hb : b.level <;> simp [ha, hb, Level.rank] at hlevel ⊢
  cases a
  cases b
  simp_all

theorem sort_perm (ps : List Problem) : (sort ps).Perm ps := List.mergeSort_perm _ _

theorem pairwise_sort (ps : List Problem) : (sort ps).Pairwise fun a b => a.le b = true :=
  List.pairwise_mergeSort le_trans le_total ps

/-- There is one order for some problems. -/
theorem sort_eq {ps qs : List Problem} (hperm : ps.Perm qs)
    (hsorted : ps.Pairwise fun a b => a.le b = true) : ps = sort qs := by
  have hperm := hperm.trans (sort_perm qs).symm
  refine hperm.eq_of_pairwise ?_ hsorted (pairwise_sort qs)
  intro a b _ _ hab hba
  exact le_antisymm hab hba

theorem sort_eq_of_perm {ps qs : List Problem} (h : ps.Perm qs) : sort ps = sort qs :=
  sort_eq ((sort_perm ps).trans h) (pairwise_sort ps)

/-- It does not matter whether problems are dropped before or after they are put in order. -/
theorem filter_sort (f : Problem → Bool) (ps : List Problem) :
    (sort ps).filter f = sort (ps.filter f) :=
  sort_eq ((sort_perm ps).filter f) ((pairwise_sort ps).filter f)

end Problem

/-! ## One directive -/

/-- Whether a directive switches a rule off or on until further notice. -/
def Directive.switches (d : Directive) (rule : String) : Bool :=
  (d.kind == .disable || d.kind == .enable) && d.addresses rule

/-- Whether a directive switches a rule off for one line. -/
def Directive.skips (d : Directive) (rule : String) : Bool :=
  d.kind == .disableLine && d.addresses rule

namespace Suppression

variable {s : Suppression} {d : Directive} {known : List String} {rule : String}

theorem covers_disable (h : rule ∈ known) :
    (s.disable d known).covers (some rule) = (s.covers (some rule) || d.addresses rule) := by
  unfold disable Directive.addresses
  by_cases hall : d.rules.isEmpty = true
  · simp [hall, covers, h]
  · simp [hall, covers, h]

theorem covers_enable :
    (s.enable d).covers (some rule) = (s.covers (some rule) && !d.addresses rule) := by
  unfold enable Directive.addresses
  by_cases hall : d.rules.isEmpty = true
  · simp [hall, covers, empty]
  · simp [hall, covers]

/-- A directive that switches a rule decides, any other leaves the rule as it is. -/
theorem covers_apply (h : rule ∈ known) :
    (s.apply d known).covers (some rule) =
      if d.switches rule then d.kind == .disable else s.covers (some rule) := by
  unfold apply Directive.switches
  cases hk : d.kind with
  | disable =>
    rw [covers_disable h]
    cases d.addresses rule <;> simp
  | enable =>
    rw [covers_enable]
    cases d.addresses rule <;> simp
  | disableLine => rfl
  | disableFile => rfl

theorem covers_applyLine (h : rule ∈ known) :
    (s.applyLine d known).covers (some rule) = (s.covers (some rule) || d.skips rule) := by
  unfold applyLine Directive.skips
  cases hk : d.kind with
  | disableLine => simpa using covers_disable h
  | disable => simp
  | enable => simp
  | disableFile => simp

end Suppression

/-! ## All directives of a source -/

/-- The comments that hold a directive, with the directive. -/
def directives (comments : List Comment) : List (Comment × Directive) :=
  comments.filterMap fun k => (Directive.parse k.text.toList).map (k, ·)

/-- Whether the last directive that switches a rule switches it off. -/
def switchedOff (ds : List (Comment × Directive)) (rule : String) : Bool :=
  (ds.filter (·.2.switches rule)).getLast?.any (·.2.kind == .disable)

/-- The number of the line for which a directive in a comment can switch rules off: its own if
something stands before it there, else the next. -/
def Comment.target (k : Comment) : Nat :=
  if k.inline then k.start.line + 1 else k.start.line + 2

/-- Whether a directive switches a rule off for a line. -/
def skipped (ds : List (Comment × Directive)) (line : Nat) (rule : String) : Bool :=
  ds.any fun (k, d) => k.target == line && d.skips rule

/-- Whether what a rule finds on a line is shown, by the comments of the source: the last directive up
to that line that switches the rule does not switch it off, and no directive does so for the line. -/
def shown (comments : List Comment) (line : Nat) (rule : String) : Bool :=
  !switchedOff (directives (comments.filter (·.start.line < line))) rule &&
    !skipped (directives comments) line rule

/-- Whether a problem that was found on a line is shown. -/
def Problem.shown (comments : List Comment) (line : Nat) (p : Problem) : Bool :=
  p.rule.all (YamlLinter.shown comments line)

variable {ds : List (Comment × Directive)} {rule : String} {line : Nat}

theorem switchedOff_append (k : Comment) (d : Directive) :
    switchedOff (ds ++ [(k, d)]) rule =
      if d.switches rule then d.kind == .disable else switchedOff ds rule := by
  unfold switchedOff
  rw [List.filter_append]
  by_cases hd : d.switches rule = true
  · simp [hd]
  · simp [hd]

theorem skipped_append (k : Comment) (d : Directive) :
    skipped (ds ++ [(k, d)]) line rule =
      (skipped ds line rule || (k.target == line && d.skips rule)) := by
  simp [skipped]

/-- A directive acts on its own line or the next. -/
theorem skipped_eq_false (h : ∀ kd ∈ ds, kd.1.start.line + 2 < line) :
    skipped ds line rule = false := by
  unfold skipped
  rw [List.any_eq_false]
  intro kd hkd
  have hlt := h kd hkd
  have htarget : kd.1.target ≤ kd.1.start.line + 2 := by
    unfold Comment.target
    split <;> omega
  have hne : kd.1.target ≠ line := by omega
  simp [hne]

/-- What comes in order of a number can be split at any number. -/
theorem filter_lt_append {α : Type} (f : α → Nat) {xs : List α} {n : Nat}
    (h : xs.Pairwise fun x y => f x ≤ f y) :
    xs.filter (f · < n) ++ xs.filter (n ≤ f ·) = xs := by
  induction xs with
  | nil => rfl
  | cons x xs ih =>
    obtain ⟨hx, hxs⟩ := List.pairwise_cons.1 h
    by_cases hlt : f x < n
    · rw [List.filter_cons_of_pos (by simpa using hlt), List.filter_cons_of_neg (by simpa using hlt),
        List.cons_append, ih hxs]
    · have hall : ∀ y ∈ x :: xs, n ≤ f y := by
        intro y hy
        rcases List.mem_cons.1 hy with rfl | hy
        · omega
        · have := hx y hy
          omega
      have hnone : (x :: xs).filter (f · < n) = [] := by
        rw [List.filter_eq_nil_iff]
        intro y hy
        have := hall y hy
        simp only [decide_eq_true_eq]
        omega
      rw [hnone, List.nil_append, List.filter_eq_self]
      intro y hy
      simpa using hall y hy

/-! ## Along a sweep -/

/-- The comment that an element is. -/
def Element.comment? : Element → Option Comment
  | .comment k => some k
  | _ => none

namespace Sweep

variable {c : Checks} {s : Sweep} {known : List String}

/-- What a sweep has switched off on a line, after it has met some directives. -/
structure Follows (known : List String) (ds : List (Comment × Directive)) (line : Nat) (s : Sweep) :
    Prop where
  off : ∀ rule ∈ known, s.off.covers (some rule) = switchedOff ds rule
  offHere : ∀ rule ∈ known, s.offHere.covers (some rule) = skipped ds line rule
  offNext : ∀ rule ∈ known, s.offNext.covers (some rule) = skipped ds (line + 1) rule

theorem follows_start : Follows known [] 1 start where
  off _ _ := rfl
  offHere _ _ := rfl
  offNext _ _ := rfl

/-- A comment of the line. -/
theorem follows_comment {k : Comment} (h : Follows c.known ds line s)
    (hk : k.start.line + 1 = line) :
    Follows c.known (ds ++ directives [k]) line (meet c s (.comment k)) := by
  unfold meet directives
  cases hd : Directive.parse k.text.toList with
  | none => simpa [hd] using ⟨h.off, h.offHere, h.offNext⟩
  | some d =>
    simp only [List.filterMap_cons, hd, Option.map_some, List.filterMap_nil]
    have hoff : ∀ rule ∈ c.known,
        (s.off.apply d c.known).covers (some rule) = switchedOff (ds ++ [(k, d)]) rule := by
      intro rule hrule
      rw [Suppression.covers_apply hrule, switchedOff_append, h.off rule hrule]
    -- the directive is about this line or the next, and the other line is as before
    by_cases hin : k.inline = true
    · have htarget : k.target = line := by simp [Comment.target, hin, hk]
      have hstep : ((s.hold (c.comment k)).follow d k.inline c.known).offHere =
          s.offHere.applyLine d c.known := by simp [follow, hin, hold]
      have hnext : ((s.hold (c.comment k)).follow d k.inline c.known).offNext = s.offNext := by
        simp [follow, hin, hold]
      constructor
      · simpa [follow, hin, hold] using hoff
      · intro rule hrule
        rw [hstep, Suppression.covers_applyLine hrule, skipped_append, h.offHere rule hrule]
        simp [htarget]
      · intro rule hrule
        rw [hnext, skipped_append, h.offNext rule hrule]
        simp [htarget]
    · have htarget : k.target = line + 1 := by simp [Comment.target, hin, ← hk]
      have hstep : ((s.hold (c.comment k)).follow d k.inline c.known).offNext =
          s.offNext.applyLine d c.known := by simp [follow, hin, hold]
      have hhere : ((s.hold (c.comment k)).follow d k.inline c.known).offHere = s.offHere := by
        simp [follow, hin, hold]
      constructor
      · simpa [follow, hin, hold] using hoff
      · intro rule hrule
        rw [hhere, skipped_append, h.offHere rule hrule]
        simp [htarget]
      · intro rule hrule
        rw [hstep, Suppression.covers_applyLine hrule, skipped_append, h.offNext rule hrule]
        simp [htarget]

/-- The end of a line hands over what is switched off for the next. -/
theorem follows_endLine (h : Follows known ds line s) (hds : ∀ kd ∈ ds, kd.1.start.line < line) :
    Follows known ds (line + 1) s.endLine where
  off := h.off
  offHere := h.offNext
  offNext := by
    intro rule _
    refine (skipped_eq_false fun kd hkd => ?_).symm
    have := hds kd hkd
    omega

theorem meet_comment (k : Comment) :
    (meet c s (.comment k)).held = s.held ++ c.comment k ∧
      (meet c s (.comment k)).released = s.released := by
  simp only [meet]
  cases Directive.parse k.text.toList with
  | none => exact ⟨rfl, rfl⟩
  | some d =>
    unfold follow
    by_cases hin : k.inline = true
    · simp [hin, hold]
    · simp [hin, hold]

/-- The tokens and comments of a line. -/
theorem follows_items {es : List Element} (h : Follows c.known ds line s)
    (hes : ∀ e ∈ es, e.isItem = true ∧ e.lineNumber + 1 = line) :
    Follows c.known (ds ++ directives (es.filterMap Element.comment?)) line (es.foldl (meet c) s) ∧
      (es.foldl (meet c) s).held = s.held ++ es.flatMap (Element.problems c) ∧
      (es.foldl (meet c) s).released = s.released := by
  induction es generalizing s ds with
  | nil => exact ⟨by simpa [directives] using h, by simp, rfl⟩
  | cons e es ih =>
    have hrest : ∀ e ∈ es, e.isItem = true ∧ e.lineNumber + 1 = line := fun e he =>
      hes e (List.mem_cons_of_mem _ he)
    obtain ⟨hitem, hline⟩ := hes e List.mem_cons_self
    cases e with
    | token t ps =>
      have hmet : Follows c.known ds line (meet c s (.token t ps)) := ⟨h.off, h.offHere, h.offNext⟩
      obtain ⟨hfollows, hheld, hreleased⟩ := ih hmet hrest
      refine ⟨hfollows, ?_, hreleased⟩
      rw [List.foldl_cons, hheld, List.flatMap_cons, ← List.append_assoc]
      rfl
    | comment k =>
      obtain ⟨hfollows, hheld, hreleased⟩ := ih (follows_comment h hline) hrest
      obtain ⟨hhold, hkeep⟩ := meet_comment (c := c) (s := s) k
      refine ⟨?_, ?_, hreleased.trans hkeep⟩
      · have hsplit : directives ((Element.comment k :: es).filterMap Element.comment?) =
            directives [k] ++ directives (es.filterMap Element.comment?) := by
          show directives (k :: es.filterMap Element.comment?) = _
          rw [← List.singleton_append]
          exact List.filterMap_append
        rw [hsplit, ← List.append_assoc]
        exact hfollows
      · rw [List.foldl_cons, hheld, hhold, List.flatMap_cons, ← List.append_assoc]
        rfl
    | line l => cases hitem

/-! ## Line by line -/

theorem directives_filter_append {ks : List Comment}
    (hsorted : ks.Pairwise fun j k => j.start.line ≤ k.start.line) :
    directives (ks.filter (·.start.line + 1 < line)) ++
        directives (ks.filter (·.start.line + 1 == line)) =
      directives (ks.filter (·.start.line < line)) := by
  have hparts := filter_lt_append (fun k : Comment => k.start.line + 1) (n := line)
    ((hsorted.imp fun h => Nat.succ_le_succ h).filter (·.start.line < line))
  simp only [List.filter_filter] at hparts
  unfold directives
  rw [← List.filterMap_append, ← hparts]
  congr 2
  · apply List.filter_congr
    intro k _
    rw [Bool.eq_iff_iff, Bool.and_eq_true, decide_eq_true_eq, decide_eq_true_eq]
    omega
  · apply List.filter_congr
    intro k _
    rw [Bool.eq_iff_iff, Bool.and_eq_true, decide_eq_true_eq, decide_eq_true_eq, beq_iff_eq]
    omega

/-- The directives for a line stand in front of its end. -/
theorem skipped_filter (ks : List Comment) :
    skipped (directives (ks.filter (·.start.line < line))) line rule =
      skipped (directives ks) line rule := by
  induction ks with
  | nil => rfl
  | cons k ks ih =>
    have hcons : ∀ js, skipped (directives (k :: js)) line rule =
        (skipped (directives [k]) line rule || skipped (directives js) line rule) := by
      intro js
      unfold skipped directives
      rw [← List.singleton_append, List.filterMap_append, List.any_append]
    by_cases hlt : k.start.line < line
    · rw [List.filter_cons_of_pos (by simpa using hlt), hcons, ih, ← hcons]
    · have hnone : skipped (directives [k]) line rule = false := by
        have htarget : k.target ≠ line := by
          unfold Comment.target
          split <;> omega
        unfold skipped directives
        cases hd : Directive.parse k.text.toList with
        | none => simp [hd]
        | some d => simp [hd, htarget]
      rw [List.filter_cons_of_neg (by simpa using hlt), ih, hcons, hnone, Bool.false_or]

/-- At the end of a line, what is shown is what the comments of the source say. -/
theorem shows_eq {ks : List Comment} {p : Problem} (hp : ∀ rule, p.rule = some rule → rule ∈ known)
    (h : Follows known (directives (ks.filter (·.start.line < line))) line s) :
    s.shows p = p.shown ks line := by
  unfold shows Problem.shown
  cases hrule : p.rule with
  | none => rfl
  | some rule =>
    have hknown := hp rule hrule
    rw [h.off rule hknown, h.offHere rule hknown, skipped_filter, Option.all_some, shown,
      Bool.and_comm]

/-- A sweep over lines releases on each what is found on it and shown. -/
theorem released_lines {ks : List Comment} {items : Nat → List Element}
    (hsorted : ks.Pairwise fun j k => j.start.line ≤ k.start.line)
    (hitems : ∀ n, ∀ e ∈ items n, e.isItem = true ∧ e.lineNumber + 1 = n)
    (hcomments : ∀ n, (items n).filterMap Element.comment? = ks.filter (·.start.line + 1 == n))
    (ls : List Line) (hls : ls.map Line.number = List.range' line ls.length)
    (hknown : ∀ l ∈ ls, ∀ p ∈ (items l.number).flatMap (Element.problems c) ++ c.line l,
      ∀ rule, p.rule = some rule → rule ∈ c.known)
    (h : Follows c.known (directives (ks.filter (·.start.line + 1 < line))) line s)
    (hheld : s.held = []) :
    ((ls.flatMap fun l => items l.number ++ [.line l]).foldl (meet c) s).released =
      s.released ++ ls.flatMap fun l =>
        Problem.sort (((items l.number).flatMap (Element.problems c) ++ c.line l).filter
          (Problem.shown ks l.number)) := by
  induction ls generalizing s line with
  | nil => simp
  | cons l ls ih =>
    obtain ⟨rfl, hrest⟩ :
        l.number = line ∧ ls.map Line.number = List.range' (line + 1) ls.length := by
      simpa [List.range'_succ] using hls
    generalize hs₁ : (items l.number).foldl (meet c) s = s₁
    obtain ⟨hfollows, hheld₁, hreleased⟩ := follows_items h (hitems l.number)
    rw [hcomments, directives_filter_append hsorted, hs₁] at hfollows
    rw [hs₁, hheld, List.nil_append] at hheld₁
    rw [hs₁] at hreleased
    -- the end of the line releases what is held, in order, as far as it is shown
    have hend : (meet c s₁ (.line l)).released = s.released ++
        Problem.sort (((items l.number).flatMap (Element.problems c) ++ c.line l).filter
          (Problem.shown ks l.number)) := by
      show s₁.released ++ (Problem.sort (s₁.held ++ c.line l)).filter s₁.shows = _
      rw [hreleased, hheld₁, Problem.filter_sort]
      congr 2
      apply List.filter_congr
      intro p hp
      exact shows_eq (hknown l List.mem_cons_self p hp) hfollows
    have hnext : Follows c.known (directives (ks.filter (·.start.line + 1 < l.number + 1)))
        (l.number + 1) (meet c s₁ (.line l)) := by
      simp only [Nat.add_lt_add_iff_right]
      refine follows_endLine ⟨hfollows.off, hfollows.offHere, hfollows.offNext⟩ ?_
      intro kd hkd
      obtain ⟨k, hk, hparse⟩ := List.mem_filterMap.1 hkd
      obtain ⟨d, -, rfl⟩ := Option.map_eq_some_iff.1 hparse
      simpa using (List.mem_filter.1 hk).2
    have ih := ih hrest (fun l hl => hknown l (List.mem_cons_of_mem _ hl)) hnext rfl
    rw [List.flatMap_cons, List.foldl_append, List.foldl_append, hs₁, List.flatMap_cons,
      ← List.append_assoc, ← hend]
    exact ih

end Sweep

/-! ## The order of elements -/

/-- What stands before the end of a line comes in front of it, the rest behind it. -/
theorem merge_line {before behind es : List Element} {l : Line}
    (hbefore : ∀ e ∈ before, e.lineNumber < l.number)
    (hbehind : ∀ e ∈ behind, l.number ≤ e.lineNumber) :
    (before ++ behind).merge (.line l :: es) Element.endsBefore =
      before ++ .line l :: behind.merge es Element.endsBefore := by
  induction before with
  | nil =>
    cases behind with
    | nil => simp
    | cons e behind =>
      have hge := hbehind e List.mem_cons_self
      rw [List.nil_append, List.nil_append, List.cons_merge_cons, if_neg]
      rw [endsBefore_line]
      omega
  | cons e before ih =>
    have hlt := hbefore e List.mem_cons_self
    rw [List.cons_append, List.cons_merge_cons, if_pos (endsBefore_line.2 hlt), List.cons_append]
    exact congrArg (e :: ·) (ih fun d hd => hbefore d (List.mem_cons_of_mem e hd))

/-- Elements in the order of their lines, each line behind what starts on it. -/
theorem merge_eq_flatMap {items : List Element} {number : Nat} (ls : List Line)
    (hls : ls.map Line.number = List.range' (number + 1) ls.length)
    (hsorted : items.Pairwise fun d e => d.lineNumber ≤ e.lineNumber)
    (hitems : ∀ e ∈ items, number ≤ e.lineNumber ∧ e.lineNumber < number + ls.length) :
    items.merge (ls.map .line) Element.endsBefore =
      ls.flatMap fun l => items.filter (·.lineNumber + 1 == l.number) ++ [.line l] := by
  induction ls generalizing items number with
  | nil =>
    have hnone : items = [] := by
      rw [List.eq_nil_iff_forall_not_mem]
      intro e he
      have := hitems e he
      simp only [List.length_nil] at this
      omega
    simp [hnone]
  | cons l ls ih =>
    obtain ⟨hl, hrest⟩ : l.number = number + 1 ∧
        ls.map Line.number = List.range' (number + 1 + 1) ls.length := by
      simpa [List.range'_succ] using hls
    -- what starts before the end of the line stands in front of all that starts later
    have hsplit := filter_lt_append Element.lineNumber (n := l.number) hsorted
    have hfirst : items.filter (·.lineNumber < l.number) =
        items.filter (·.lineNumber + 1 == l.number) := by
      apply List.filter_congr
      intro e he
      have := hitems e he
      rw [Bool.eq_iff_iff, decide_eq_true_eq, beq_iff_eq]
      omega
    have hmerge : items.merge (.line l :: ls.map .line) Element.endsBefore =
        items.filter (·.lineNumber + 1 == l.number) ++
          .line l :: (items.filter (l.number ≤ ·.lineNumber)).merge (ls.map .line)
            Element.endsBefore := by
      conv_lhs => rw [← hsplit]
      rw [merge_line, hfirst]
      · intro e he
        simpa using (List.mem_filter.1 he).2
      · intro e he
        simpa using (List.mem_filter.1 he).2
    -- the later lines miss nothing of what has been left behind with this one
    have hlater : ∀ m ∈ ls, (items.filter (l.number ≤ ·.lineNumber)).filter
        (·.lineNumber + 1 == m.number) = items.filter (·.lineNumber + 1 == m.number) := by
      intro m hm
      have hnumber : number + 1 + 1 ≤ m.number := by
        have := hrest ▸ List.mem_map_of_mem hm
        rw [List.mem_range'_1] at this
        exact this.1
      rw [List.filter_filter]
      apply List.filter_congr
      intro e _
      rw [Bool.eq_iff_iff, Bool.and_eq_true, beq_iff_eq, decide_eq_true_eq]
      omega
    rw [List.map_cons, hmerge, ih hrest (hsorted.filter _)]
    · rw [List.flatMap_cons, List.append_assoc, List.singleton_append]
      congr 2
      apply List.flatMap_congr
      intro m hm
      rw [hlater m hm]
    · intro e he
      have hmem := List.mem_filter.1 he
      have hbounds := hitems e hmem.1
      have hge : l.number ≤ e.lineNumber := by simpa using hmem.2
      rw [List.length_cons] at hbounds
      omega

theorem filterMap_merge {α β : Type} {le : α → α → Bool} {f : α → Option β} {xs ys : List α}
    (h : ∀ x ∈ xs, f x = none) : (xs.merge ys le).filterMap f = ys.filterMap f := by
  induction xs generalizing ys with
  | nil => simp
  | cons x xs ih =>
    have hx := h x List.mem_cons_self
    have ih := fun ys => @ih ys fun y hy => h y (List.mem_cons_of_mem x hy)
    induction ys with
    | nil => simpa [hx] using h
    | cons y ys ihy =>
      rw [List.cons_merge_cons]
      by_cases hle : le x y = true
      · rw [if_pos hle, List.filterMap_cons_none hx, ih]
      · rw [if_neg hle, List.filterMap_cons, ihy, List.filterMap_cons]

/-- The comments among the elements of a line. -/
theorem comments_filter (es : List Element) (n : Nat) :
    (es.filter (·.lineNumber + 1 == n)).filterMap Element.comment? =
      (es.filterMap Element.comment?).filter (·.start.line + 1 == n) := by
  induction es with
  | nil => rfl
  | cons e es ih =>
    cases e with
    | comment k =>
      rw [List.filterMap_cons_some (rfl : (Element.comment k).comment? = some k)]
      by_cases hk : k.start.line + 1 = n
      · rw [List.filter_cons_of_pos (by simpa [Element.lineNumber] using hk),
          List.filter_cons_of_pos (by simpa using hk),
          List.filterMap_cons_some (rfl : (Element.comment k).comment? = some k), ih]
      · rw [List.filter_cons_of_neg (by simpa [Element.lineNumber] using hk),
          List.filter_cons_of_neg (by simpa using hk), ih]
    | token t ps =>
      rw [List.filterMap_cons_none rfl, List.filter_cons]
      split
      · rw [List.filterMap_cons_none rfl, ih]
      · exact ih
    | line l =>
      rw [List.filterMap_cons_none rfl, List.filter_cons]
      split
      · rw [List.filterMap_cons_none rfl, ih]
      · exact ih

theorem comments_itemsOf (tokens : List (Token × List Problem)) (ks : List Comment) :
    (itemsOf tokens ks).filterMap Element.comment? = ks := by
  unfold itemsOf
  rw [filterMap_merge, List.filterMap_map]
  · exact List.filterMap_some
  · intro e he
    obtain ⟨⟨t, ps⟩, -, rfl⟩ := List.mem_map.1 he
    rfl

/-- The lines of a source are numbered one after the other. -/
theorem numbers_all (source : List Char) :
    (Line.all source).map Line.number = List.range' 1 (Line.all source).length := by
  have hfrom : ∀ (number start : Nat) (read cs : List Char),
      (Line.allFrom number start read cs).map Line.number =
        List.range' number (Line.allFrom number start read cs).length := by
    intro number start read cs
    induction cs generalizing number start read with
    | nil => rfl
    | cons c cs ih =>
      rw [Line.allFrom]
      split
      · rw [List.map_cons, ih, List.length_cons, List.range'_succ]
        rfl
      · exact ih ..
  exact hfrom 1 0 [] source

theorem pairwise_number_all (source : List Char) :
    (Line.all source).Pairwise fun l m => l.number < m.number := by
  rw [← List.pairwise_map (f := Line.number) (R := fun m n => m < n), numbers_all]
  exact List.pairwise_lt_range'

/-- A line is the only one with its number. -/
theorem filter_number {source : List Char} {line : Line} (h : line ∈ Line.all source) :
    (Line.all source).filter (·.number == line.number) = [line] := by
  have hsorted := pairwise_number_all source
  generalize Line.all source = ls at h hsorted
  induction ls with
  | nil => cases h
  | cons l ls ih =>
    obtain ⟨hl, hls⟩ := List.pairwise_cons.1 hsorted
    rcases List.mem_cons.1 h with rfl | hmem
    · rw [List.filter_cons_of_pos (by simp), List.filter_eq_nil_iff.2]
      intro m hm
      have := hl m hm
      simp only [beq_iff_eq]
      omega
    · have := hl line hmem
      rw [List.filter_cons_of_neg (by simp only [beq_iff_eq]; omega), ih hmem hls]

/-! ## Sources -/

namespace Linter

variable (l : Linter) (source : List Char)

/-- What the rules find on a line: each token rule at the tokens that start there, each comment rule
at the comments that do, and each line rule at the line. -/
def foundOn (n : Nat) : List Problem :=
  (l.tokenRules.flatMap fun r => foundAt (·.start.line + 1 == n) (scanText source).tokens
      (ruleProblems r (windows (Text.bytes source) (scanText source).tokens))) ++
    (l.commentRules.flatMap fun r =>
      ((scanText source).comments.filter (·.start.line + 1 == n)).flatMap fun k =>
        (r.1.check ⟨k, Text.bytes source⟩).map (·.tag r.1.id r.2)) ++
    l.lineRules.flatMap fun r =>
      ((Line.all source).filter (·.number == n)).flatMap fun line =>
        (r.1.check ⟨line, Text.bytes source⟩).map (·.tag r.1.id r.2)

variable {l source}

/-- What is found has the id of a rule. -/
theorem mem_ruleIds_of_foundOn {n : Nat} {p : Problem} (h : p ∈ l.foundOn source n) {rule : String}
    (hrule : p.rule = some rule) : rule ∈ l.ruleIds := by
  have htag : ∀ {id : String} {level : Level} {fs : List Finding},
      p ∈ fs.map (·.tag id level) → rule = id := by
    intro id level fs hp
    obtain ⟨f, -, rfl⟩ := List.mem_map.1 hp
    exact (Option.some.inj hrule).symm
  unfold ruleIds
  simp only [foundOn, List.mem_append, List.mem_flatMap] at h
  rcases h with (⟨r, hr, hp⟩ | ⟨r, hr, k, -, hp⟩) | ⟨r, hr, line, -, hp⟩
  · obtain ⟨x, hx, hp⟩ := List.mem_flatMap.1 hp
    obtain ⟨fs, -, hfs⟩ := List.mem_map.1 (List.of_mem_zip (List.mem_filter.1 hx).1).2
    rw [← hfs] at hp
    simp only [List.mem_append, List.mem_map]
    exact .inl (.inl ⟨r, hr, (htag hp).symm⟩)
  · simp only [List.mem_append, List.mem_map]
    exact .inl (.inr ⟨r, hr, (htag hp).symm⟩)
  · simp only [List.mem_append, List.mem_map]
    exact .inr ⟨r, hr, (htag hp).symm⟩

/-- What is met on a line is what the rules find on it. -/
theorem foundOn_perm {line : Line} (hline : line ∈ Line.all source) {ws : List Window}
    (hws : windows (Text.bytes source) (scanText source).tokens = ws) :
    (((itemsOf ((scanText source).tokens.zip (l.tokenProblems ws)) (scanText source).comments).filter
        (·.lineNumber + 1 == line.number)).flatMap
          (Element.problems (l.checks (Text.bytes source))) ++
      (l.checks (Text.bytes source)).line line).Perm (l.foundOn source line.number) := by
  have htokens : ws.map Window.token = (scanText source).tokens := hws ▸ map_token_windowsFrom _ _ _
  obtain ⟨hrules, -⟩ := foundAt_tokenProblems l ws (·.start.line + 1 == line.number)
  rw [htokens] at hrules
  unfold foundOn
  rw [hws]
  refine List.Perm.append ?_ ?_
  · refine ((List.merge_perm_append _).filter _).flatMap_right _ |>.trans ?_
    simp only [List.filter_append, List.filter_map, List.flatMap_append, List.flatMap_map]
    exact hrules.append (flatMap_comm _ _ _)
  · rw [filter_number hline]
    simp only [List.flatMap_cons, List.flatMap_nil, List.append_nil]
    exact .refl _

end Linter

section Lined

variable {source : List Char}

/-- Where only line feeds end lines, all tokens and comments start on physical lines. -/
theorem line_lt (herror : (scanText source).error = none)
    (hfeed : ∀ i, endsLineAt source i = true → source[i]? = some '\n') :
    (∀ t ∈ (scanText source).tokens, t.start.line < (Line.all source).length) ∧
      ∀ k ∈ (scanText source).comments, k.start.line < (Line.all source).length := by
  obtain ⟨⟨c, hlaid⟩, d, hnotes⟩ := laid_scanText herror
  constructor
  · intro t ht
    obtain ⟨p, -, hp, -, -, hs, -⟩ := hlaid.mem ht
    exact of_decide_eq_true (reaches_of_at (hs ▸ hp.at_pos) hfeed)
  · intro k hk
    obtain ⟨p, -, hp, -, -, hs, -⟩ := hnotes.mem hk
    exact of_decide_eq_true (reaches_of_at (hs ▸ hp.at_pos) hfeed)

theorem lineNumber_lt (herror : (scanText source).error = none)
    (hfeed : ∀ i, endsLineAt source i = true → source[i]? = some '\n')
    {tokens : List (Token × List Problem)} (htokens : tokens.map (·.1) = (scanText source).tokens)
    {e : Element} (he : e ∈ itemsOf tokens (scanText source).comments) :
    e.isItem = true ∧ e.lineNumber < (Line.all source).length := by
  obtain ⟨hlines, hnotes⟩ := line_lt herror hfeed
  rcases List.mem_merge.1 he with he | he
  · obtain ⟨⟨t, ps⟩, ht, rfl⟩ := List.mem_map.1 he
    exact ⟨rfl, hlines t (htokens ▸ List.mem_map_of_mem ht)⟩
  · obtain ⟨k, hk, rfl⟩ := List.mem_map.1 he
    exact ⟨rfl, hnotes k hk⟩

/-- A linter tells line by line what is found and shown on the line. -/
theorem lintText_eq (l : Linter) (hfile : fileDisabled source = false)
    (herror : (scanText source).error = none)
    (hfeed : ∀ i, endsLineAt source i = true → source[i]? = some '\n') :
    l.lintText source = (List.range' 1 (Line.all source).length).flatMap fun n =>
      Problem.sort ((l.foundOn source n).filter (Problem.shown (scanText source).comments n)) := by
  generalize hws : windows (Text.bytes source) (scanText source).tokens = ws
  let ks := (scanText source).comments
  let tokens := (scanText source).tokens.zip (l.tokenProblems ws)
  let items := fun n => (itemsOf tokens ks).filter (·.lineNumber + 1 == n)
  have hmap : ws.map Window.token = (scanText source).tokens := hws ▸ map_token_windowsFrom _ _ _
  have htokens : tokens.map (·.1) = (scanText source).tokens := by
    refine List.map_fst_zip (Nat.le_of_eq ?_)
    rw [(foundAt_tokenProblems l ws fun _ => true).2, ← hmap, List.length_map]
  have hstyle : l.lintText source =
      Sweep.problems (l.checks (Text.bytes source)) (elements tokens ks (Line.all source)) := by
    simp only [Linter.lintText, hfile, herror, Linter.styleProblems, Linter.checkedWindows, hws, hmap]
    rfl
  -- each line stands behind the elements that start on it, so their problems are released with it
  have helements : elements tokens ks (Line.all source) =
      (Line.all source).flatMap fun line => items line.number ++ [.line line] := by
    apply merge_eq_flatMap _ (numbers_all source) (sorted_items herror htokens)
    intro e he
    have := (lineNumber_lt herror hfeed htokens he).2
    omega
  obtain ⟨-, c, hnotes⟩ := laid_scanText herror
  rw [hstyle, helements, ← numbers_all, List.flatMap_map]
  refine (Sweep.released_lines hnotes.pairwise_line ?_ ?_ _ (numbers_all source) ?_ ?_ rfl).trans ?_
  · intro n e he
    obtain ⟨hmem, hline⟩ := List.mem_filter.1 he
    exact ⟨(lineNumber_lt herror hfeed htokens hmem).1, by simpa using hline⟩
  · intro n
    rw [comments_filter, comments_itemsOf]
  · intro line hline p hp rule hrule
    exact Linter.mem_ruleIds_of_foundOn ((Linter.foundOn_perm hline hws).mem_iff.1 hp) hrule
  · simpa [directives] using Sweep.follows_start
  · show [] ++ _ = _
    rw [List.nil_append]
    apply List.flatMap_congr
    intro line hline
    exact Problem.sort_eq_of_perm ((Linter.foundOn_perm hline hws).filter _)

/-- What is told is what is found and shown on some line. -/
theorem mem_lintText_iff {l : Linter} (hfile : fileDisabled source = false)
    (herror : (scanText source).error = none)
    (hfeed : ∀ i, endsLineAt source i = true → source[i]? = some '\n') {p : Problem} :
    p ∈ l.lintText source ↔
      ∃ n, p ∈ l.foundOn source n ∧ p.shown (scanText source).comments n = true := by
  rw [lintText_eq l hfile herror hfeed, List.mem_flatMap]
  simp only [(Problem.sort_perm _).mem_iff, List.mem_filter]
  constructor
  · rintro ⟨n, -, hp⟩
    exact ⟨n, hp⟩
  · rintro ⟨n, hp, hshown⟩
    refine ⟨n, ?_, hp, hshown⟩
    obtain ⟨hlines, hnotes⟩ := line_lt herror hfeed
    rw [List.mem_range'_1]
    simp only [Linter.foundOn, List.mem_append, List.mem_flatMap] at hp
    rcases hp with (⟨r, -, hp⟩ | ⟨r, -, k, hk, -⟩) | ⟨r, -, line, hline, -⟩
    · obtain ⟨x, hx, -⟩ := List.mem_flatMap.1 hp
      obtain ⟨hx, hn⟩ := List.mem_filter.1 hx
      have hlt := hlines x.1 (List.of_mem_zip hx).1
      have hn := eq_of_beq hn
      omega
    · obtain ⟨hk, hn⟩ := List.mem_filter.1 hk
      have hlt := hnotes k hk
      have hn := eq_of_beq hn
      omega
    · obtain ⟨hline, hn⟩ := List.mem_filter.1 hline
      have hmem := List.mem_map_of_mem (f := Line.number) hline
      rw [numbers_all, List.mem_range'_1] at hmem
      rwa [← eq_of_beq hn]

end Lined

/-! ## All that is found -/

/-- Things that each have a number of a range can be listed number by number. -/
theorem flatMap_filter_perm {α : Type*} (f : α → Nat) (start len : Nat) (xs : List α)
    (h : ∀ x ∈ xs, start ≤ f x ∧ f x < start + len) :
    ((List.range' start len).flatMap fun n => xs.filter (f · == n)).Perm xs := by
  induction len generalizing start xs with
  | zero =>
    have hnone : xs = [] := by
      rw [List.eq_nil_iff_forall_not_mem]
      intro x hx
      have := h x hx
      omega
    simp [hnone]
  | succ len ih =>
    have hlater : (List.range' (start + 1) len).flatMap (fun n => xs.filter (f · == n)) =
        (List.range' (start + 1) len).flatMap fun n =>
          (xs.filter (fun x => !(f x == start))).filter (f · == n) := by
      apply List.flatMap_congr
      intro n hn
      rw [List.filter_filter]
      apply List.filter_congr
      intro x _
      have hlt := (List.mem_range'_1.1 hn).1
      rw [Bool.eq_iff_iff, Bool.and_eq_true, Bool.not_eq_true', beq_iff_eq, beq_eq_false_iff_ne]
      omega
    rw [List.range'_succ, List.flatMap_cons, hlater]
    refine ((ih (start + 1) _ ?_).append_left _).trans (List.filter_append_perm _ xs)
    intro x hx
    obtain ⟨hmem, hne⟩ := List.mem_filter.1 hx
    have hbounds := h x hmem
    simp only [Bool.not_eq_true', beq_eq_false_iff_ne] at hne
    omega

/-- What rules find at places can be listed by the numbers of the places. -/
theorem flatMap_places_perm {α β : Type*} (rules : List α) (places : α → List β) (f : β → Nat)
    (g : α → β → List Problem) (start len : Nat)
    (h : ∀ r, ∀ x ∈ places r, start ≤ f x ∧ f x < start + len) :
    ((List.range' start len).flatMap fun n =>
        rules.flatMap fun r => ((places r).filter (f · == n)).flatMap (g r)).Perm
      (rules.flatMap fun r => (places r).flatMap (g r)) := by
  refine (flatMap_comm (List.range' start len) rules fun n r =>
    ((places r).filter (f · == n)).flatMap (g r)).trans (.flatMap_left rules fun r _ => ?_)
  show ((List.range' start len).flatMap fun n => _).Perm _
  rw [← List.flatMap_assoc]
  exact (flatMap_filter_perm f start len (places r) (h r)).flatMap_right _

/-- All that is found is found on some physical line. -/
theorem foundOn_flatMap_perm (l : Linter) {source : List Char}
    (herror : (scanText source).error = none)
    (hfeed : ∀ i, endsLineAt source i = true → source[i]? = some '\n') :
    ((List.range' 1 (Line.all source).length).flatMap (l.foundOn source)).Perm (l.found source) := by
  obtain ⟨hlines, hnotes⟩ := line_lt herror hfeed
  let ws := windows (Text.bytes source) (scanText source).tokens
  have hws : ws.length = (scanText source).tokens.length := by
    rw [← map_token_windowsFrom (Text.bytes source) none (scanText source).tokens, List.length_map]
    rfl
  have htokens : (l.tokenRules.flatMap fun r =>
      ((scanText source).tokens.zip (Linter.ruleProblems r ws)).flatMap (·.2)) =
        l.tokenRules.flatMap fun r => (Linter.ruleProblems r ws).flatten := by
    apply List.flatMap_congr
    intro r _
    rw [List.flatMap_def, List.map_snd_zip]
    exact Nat.le_of_eq ((length_ruleProblems r ws).trans hws)
  -- each of the three kinds of rules is put together over the lines by itself
  unfold Linter.found
  rw [← htokens]
  refine (List.flatMap_append_perm _ _ _).symm.trans (.append ?_ ?_)
  · refine (List.flatMap_append_perm _ _ _).symm.trans (.append ?_ ?_)
    · refine flatMap_places_perm l.tokenRules (β := Token × List Problem) _ (·.1.start.line + 1)
        (fun _ x => x.2) 1 _ ?_
      intro r x hx
      have hlt := hlines x.1 (List.of_mem_zip hx).1
      omega
    · refine flatMap_places_perm l.commentRules _ (fun k : Comment => k.start.line + 1) _ 1 _ ?_
      intro r k hk
      have hlt := hnotes k hk
      omega
  · refine flatMap_places_perm l.lineRules _ Line.number _ 1 _ ?_
    intro r line hline
    have hmem := List.mem_map_of_mem (f := Line.number) hline
    rw [numbers_all, List.mem_range'_1] at hmem
    exact hmem

/-- A linter tells line by line, and on each line in order, what its rules find there and what the
directives of the source let through: the last directive up to the line that switches the rule does
not switch it off, and none switches it off for the line. Everything that is found is found on one of
the lines. This holds in every source that can be scanned and is not switched off as a whole, if only
line feeds, alone or behind a carriage return, end its lines. -/
theorem lint_follows_directives (l : Linter) (source : String)
    (hfile : fileDisabled source.toList = false) (herror : (scan source).error = none)
    (hfeed : ∀ i, endsLineAt source.toList i = true → source.toList[i]? = some '\n') :
    l.lint source = (List.range' 1 (Line.all source.toList).length).flatMap (fun n =>
        Problem.sort ((l.foundOn source.toList n).filter (Problem.shown (scan source).comments n))) ∧
      ((List.range' 1 (Line.all source.toList).length).flatMap (l.foundOn source.toList)).Perm
        (l.found source.toList) ∧
      ∀ ps, (Problem.sort ps).Perm ps ∧ (Problem.sort ps).Pairwise fun p q => p.le q = true :=
  ⟨lintText_eq l hfile herror hfeed, foundOn_flatMap_perm l herror hfeed,
    fun ps => ⟨Problem.sort_perm ps, Problem.pairwise_sort ps⟩⟩

/-- Behind the end of a text no line ends. -/
theorem feeds_of_lt {text : List Char}
    (h : ∀ i < text.length, endsLineAt text i = true → text[i]? = some '\n') (i : Nat)
    (hi : endsLineAt text i = true) : text[i]? = some '\n' := by
  by_cases hlt : i < text.length
  · exact h i hlt hi
  · have hnone : text[i]? = none := List.getElem?_eq_none (by omega)
    simp [endsLineAt, hnone] at hi

/-- Of three repeated keys, two stand where directives have switched the rule off. -/
theorem lint_follows_directives_switched :
    let source := "a: 1\n# yamlstyle disable\na: 2\n# yamlstyle enable\na: 3 # yamlstyle disable-line\na: 4"
    let l := builtinLinter .consistent .always .error
    fileDisabled source.toList = false ∧ (scan source).error = none ∧
      (l.found source.toList).map Problem.line = [3, 5, 6] ∧
      (l.lint source).map Problem.line = [6] := by
  intro source l
  have hfile : fileDisabled source.toList = false := by decide +kernel
  have herror : (scan source).error = none := by decide +kernel
  have hfound : (l.found source.toList).map Problem.line = [3, 5, 6] := by decide +kernel
  have hlint := (lint_follows_directives l source hfile herror (feeds_of_lt (by decide +kernel))).1
  refine ⟨hfile, herror, hfound, ?_⟩
  rw [hlint]
  decide +kernel

end YamlLinter
