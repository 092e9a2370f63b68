import Mathlib.Data.List.GetD
import YamlLinter.Proofs.Tandem.Rules

/-!
# Rules are independent of each other

All rules of a linter put what they find into one list, which is sorted and filtered at the end of
each line, and a directive that names no rule is about all rules that the linter knows. Still no rule
has a say in what is told of another: the problems of some of the rules are those that these rules
have alone, in the same order. So it does not matter either in which order rules are added.

Both are seen from two sweeps side by side, one with all rules and one with some of them. What the
second holds back and releases is what the first does, but for the problems of the other rules.

## Contents

* `Problem.isOf`, `Problem.Part`: the problems of some rules among those of all;
* `part_flatMap`: what rules find at one place;
* `Sweep.Part`, `Sweep.part_meet`, `Sweep.filter_problems`: two sweeps side by side;
* `Linter.Joins`, `Linter.SameRules`: linters with the rules of two others, and with the same rules;
* `Linter.filter_styleProblems`: the problems of a scanned source, rule by rule;
* `rules_do_not_interfere`, `rule_order_does_not_matter`: the problems of a source.
-/

namespace YamlLinter

variable {ids : List String}

/-! ## The problems of some rules -/

namespace Problem

/-- Whether a problem was found by a rule with one of the ids. -/
def isOf (ids : List String) (p : Problem) : Bool := p.rule.any ids.contains

theorem isOf_iff {p : Problem} : p.isOf ids = true ↔ ∃ rule ∈ ids, p.rule = some rule := by
  unfold isOf
  cases p.rule with
  | none => simp
  | some rule => simp

/-- In some order, `part` is what the rules with these ids have among the problems `all`. -/
def Part (ids : List String) (all part : List Problem) : Prop := (all.filter (·.isOf ids)).Perm part

namespace Part

variable {all all' part part' : List Problem}

theorem append (h : Part ids all part) (h' : Part ids all' part') :
    Part ids (all ++ all') (part ++ part') := by
  unfold Part
  rw [List.filter_append]
  exact List.Perm.append h h'

theorem isOf_of_mem (h : Part ids all part) {p : Problem} (hp : p ∈ part) : p.isOf ids = true :=
  (List.mem_filter.1 (h.mem_iff.2 hp)).2

/-- In order, the problems of the rules are the same list. -/
theorem filter_sort (h : Part ids all part) : (sort all).filter (·.isOf ids) = sort part := by
  rw [Problem.filter_sort]
  exact sort_eq_of_perm h

end Part

end Problem

/-- At one place, rules find what some of them find and what the others do. -/
theorem part_flatMap {ρ : Type*} {rules own others : List ρ} {f : ρ → String}
    {find : ρ → List Problem} (hrules : rules.Perm (own ++ others))
    (hfind : ∀ r, ∀ p ∈ find r, p.rule = some (f r)) (hown : ∀ r ∈ own, f r ∈ ids)
    (hothers : ∀ r ∈ others, f r ∉ ids) :
    Problem.Part ids (rules.flatMap find) (own.flatMap find) := by
  have hkept : (own.flatMap find).filter (·.isOf ids) = own.flatMap find := by
    rw [List.filter_eq_self]
    intro p hp
    obtain ⟨r, hr, hp⟩ := List.mem_flatMap.1 hp
    exact Problem.isOf_iff.2 ⟨f r, hown r hr, hfind r p hp⟩
  have hdropped : (others.flatMap find).filter (·.isOf ids) = [] := by
    rw [List.filter_eq_nil_iff]
    intro p hp hof
    obtain ⟨r, hr, hp⟩ := List.mem_flatMap.1 hp
    obtain ⟨rule, hmem, hrule⟩ := Problem.isOf_iff.1 hof
    rw [hfind r p hp] at hrule
    cases hrule
    exact hothers r hr hmem
  refine ((hrules.flatMap_right find).filter _).trans (.of_eq ?_)
  rw [List.flatMap_append, List.filter_append, hkept, hdropped, List.append_nil]

/-! ## Two sweeps side by side -/

/-- An element, with what all token rules found at it and with what some of them did. -/
inductive Element.Part (ids : List String) : Element → Element → Prop
  | token {t : Token} {all part : List Problem} (found : Problem.Part ids all part) :
      Part ids (.token t all) (.token t part)
  | comment (k : Comment) : Part ids (.comment k) (.comment k)
  | line (l : Line) : Part ids (.line l) (.line l)

namespace Sweep

/-- The checks of all rules, and those of the rules with these ids. -/
structure Checks.Part (ids : List String) (c d : Checks) : Prop where
  known : ∀ rule ∈ ids, rule ∈ c.known ∧ rule ∈ d.known
  comment : ∀ k, Problem.Part ids (c.comment k) (d.comment k)
  line : ∀ l, Problem.Part ids (c.line l) (d.line l)

/-- A sweep with all rules, and one with the rules with these ids. -/
structure Part (ids : List String) (s t : Sweep) : Prop where
  off : ∀ rule ∈ ids, s.off.covers (some rule) = t.off.covers (some rule)
  offHere : ∀ rule ∈ ids, s.offHere.covers (some rule) = t.offHere.covers (some rule)
  offNext : ∀ rule ∈ ids, s.offNext.covers (some rule) = t.offNext.covers (some rule)
  held : Problem.Part ids s.held t.held
  released : s.released.filter (·.isOf ids) = t.released

variable {c d : Checks} {s t : Sweep}

theorem Part.hold {ps qs : List Problem} (h : Part ids s t) (hps : Problem.Part ids ps qs) :
    Part ids (s.hold ps) (t.hold qs) :=
  { h with held := h.held.append hps }

/-- A directive does the same to the rules that both know. -/
theorem Part.follow {known known' : List String} (h : Part ids s t) (d : Directive) (inline : Bool)
    (hknown : ∀ rule ∈ ids, rule ∈ known ∧ rule ∈ known') :
    Part ids (s.follow d inline known) (t.follow d inline known') := by
  have hoff : ∀ rule ∈ ids, (s.off.apply d known).covers (some rule) =
      (t.off.apply d known').covers (some rule) := by
    intro rule hrule
    rw [Suppression.covers_apply (hknown rule hrule).1,
      Suppression.covers_apply (hknown rule hrule).2, h.off rule hrule]
  have hline : ∀ {a b : Suppression}, (∀ rule ∈ ids, a.covers (some rule) = b.covers (some rule)) →
      ∀ rule ∈ ids, (a.applyLine d known).covers (some rule) =
        (b.applyLine d known').covers (some rule) := by
    intro a b hab rule hrule
    rw [Suppression.covers_applyLine (hknown rule hrule).1,
      Suppression.covers_applyLine (hknown rule hrule).2, hab rule hrule]
  unfold Sweep.follow
  cases inline with
  | true => exact { h with off := hoff, offHere := hline h.offHere }
  | false => exact { h with off := hoff, offNext := hline h.offNext }

/-- Both show the same of what the rules with these ids find. -/
theorem Part.shows {p : Problem} (h : Part ids s t) (hp : p.isOf ids = true) :
    s.shows p = t.shows p := by
  obtain ⟨rule, hmem, hrule⟩ := Problem.isOf_iff.1 hp
  unfold Sweep.shows
  rw [hrule, h.off rule hmem, h.offHere rule hmem]

/-- At the end of a line, the problems of the rules are sorted and shown as if there were no others. -/
theorem Part.endLine (h : Part ids s t) : Part ids s.endLine t.endLine where
  off := h.off
  offHere := h.offNext
  offNext _ _ := rfl
  held := .refl _
  released := by
    have hshown : ((Problem.sort s.held).filter s.shows).filter (·.isOf ids) =
        (Problem.sort t.held).filter t.shows := by
      rw [List.filter_comm, h.held.filter_sort]
      apply List.filter_congr
      intro p hp
      exact h.shows (h.held.isOf_of_mem ((Problem.sort_perm _).mem_iff.1 hp))
    unfold Sweep.endLine
    simp only [List.filter_append, h.released, hshown]

/-- Side by side, the two sweeps meet one element. -/
theorem part_meet {e e' : Element} (hc : c.Part ids d) (h : Part ids s t) (he : e.Part ids e') :
    Part ids (meet c s e) (meet d t e') := by
  cases he with
  | token found => exact h.hold found
  | line l => exact (h.hold (hc.line l)).endLine
  | comment k =>
    have hheld := h.hold (hc.comment k)
    simp only [meet]
    cases Directive.parse k.text.toList with
    | none => exact hheld
    | some directive => exact hheld.follow directive k.inline hc.known

/-- Of all that a sweep releases, the problems of some rules are what a sweep with these rules
releases. -/
theorem filter_problems {es es' : List Element} (hc : c.Part ids d)
    (h : List.Forall₂ (Element.Part ids) es es') :
    (problems c es).filter (·.isOf ids) = problems d es' := by
  have hfold : ∀ {s t}, Part ids s t → Part ids (es.foldl (meet c) s) (es'.foldl (meet d) t) := by
    induction h with
    | nil => exact fun hst => hst
    | cons he _ ih => exact fun hst => ih (part_meet hc hst he)
  have hstart : Part ids start start :=
    ⟨fun _ _ => rfl, fun _ _ => rfl, fun _ _ => rfl, .refl _, rfl⟩
  exact (hfold hstart).released

end Sweep

/-! ## Linters -/

namespace Linter

variable {l l' own others : Linter}

/-- The linter has the rules of two others with their levels, added in any order. -/
structure Joins (l own others : Linter) : Prop where
  tokenRules : l.tokenRules.Perm (own.tokenRules ++ others.tokenRules)
  commentRules : l.commentRules.Perm (own.commentRules ++ others.commentRules)
  lineRules : l.lineRules.Perm (own.lineRules ++ others.lineRules)

/-- Two linters have the same rules with the same levels, added in any order. -/
structure SameRules (l l' : Linter) : Prop where
  tokenRules : l.tokenRules.Perm l'.tokenRules
  commentRules : l.commentRules.Perm l'.commentRules
  lineRules : l.lineRules.Perm l'.lineRules

theorem mem_ruleIds {id : String} : id ∈ l.ruleIds ↔
    (∃ r ∈ l.tokenRules, r.1.id = id) ∨ (∃ r ∈ l.commentRules, r.1.id = id) ∨
      ∃ r ∈ l.lineRules, r.1.id = id := by
  simp only [ruleIds, List.mem_append, List.mem_map, or_assoc]

theorem Joins.mem_ruleIds (h : l.Joins own others) {id : String} (hid : id ∈ own.ruleIds) :
    id ∈ l.ruleIds := by
  rw [Linter.mem_ruleIds] at hid ⊢
  rcases hid with ⟨r, hr, rfl⟩ | ⟨r, hr, rfl⟩ | ⟨r, hr, rfl⟩
  · exact .inl ⟨r, h.tokenRules.mem_iff.2 (List.mem_append_left _ hr), rfl⟩
  · exact .inr (.inl ⟨r, h.commentRules.mem_iff.2 (List.mem_append_left _ hr), rfl⟩)
  · exact .inr (.inr ⟨r, h.lineRules.mem_iff.2 (List.mem_append_left _ hr), rfl⟩)

theorem SameRules.joins (h : l.SameRules l') : l.Joins l' empty := by
  refine ⟨?_, ?_, ?_⟩ <;> rw [empty, List.append_nil]
  · exact h.tokenRules
  · exact h.commentRules
  · exact h.lineRules

/-- What is found has the id of the rule that found it. -/
theorem rule_of_mem_tag {fs : List Finding} {id : String} {level : Level} {p : Problem}
    (hp : p ∈ fs.map (·.tag id level)) : p.rule = some id := by
  obtain ⟨f, -, rfl⟩ := List.mem_map.1 hp
  rfl

/-- What the token rules find at one window, rule by rule. -/
theorem getD_tokenProblems (l : Linter) (ws : List Window) (i : Nat) :
    (l.tokenProblems ws).getD i [] =
      l.tokenRules.flatMap fun r => (ruleProblems r ws).getD i [] := by
  unfold tokenProblems
  generalize l.tokenRules = rules
  induction rules with
  | nil =>
    rw [List.foldr_nil, List.getD_eq_getElem?_getD, List.getElem?_map]
    cases ws[i]? <;> rfl
  | cons r rules ih =>
    have hrule := length_ruleProblems r ws
    have hrest := (foundAt_tokenProblems ⟨rules, [], []⟩ ws fun _ => true).2
    unfold tokenProblems at hrest
    rw [List.foldr_cons, List.flatMap_cons, ← ih]
    generalize ruleProblems r ws = found at hrule ⊢
    generalize rules.foldr _ _ = more at hrest ⊢
    -- both lists have one entry for each window
    by_cases hi : i < ws.length
    · simp [List.getD_eq_getElem?_getD, hrule, hrest, hi]
    · simp [List.getD_eq_getElem?_getD, hrule, hrest, hi]

section Parts

variable (hjoin : l.Joins own others) (hids : own.ruleIds.Disjoint others.ruleIds)
include hjoin hids

theorem part_tokenProblems (ws : List Window) :
    List.Forall₂ (Problem.Part own.ruleIds) (l.tokenProblems ws) (own.tokenProblems ws) := by
  have hlength (m : Linter) : (m.tokenProblems ws).length = ws.length :=
    (foundAt_tokenProblems m ws fun _ => true).2
  rw [List.forall₂_iff_get]
  refine ⟨(hlength l).trans (hlength own).symm, fun i hi hi' => ?_⟩
  have hpart : Problem.Part own.ruleIds ((l.tokenProblems ws).getD i [])
      ((own.tokenProblems ws).getD i []) := by
    rw [getD_tokenProblems, getD_tokenProblems]
    refine part_flatMap (f := (·.1.id)) hjoin.tokenRules ?_ ?_ ?_
    · intro r p hp
      by_cases hlt : i < (ruleProblems r ws).length
      · rw [List.getD_eq_getElem _ _ hlt] at hp
        simp only [ruleProblems, List.getElem_map] at hp
        exact rule_of_mem_tag hp
      · rw [List.getD_eq_default _ _ (by omega)] at hp
        cases hp
    · exact fun r hr => mem_ruleIds.2 (.inl ⟨r, hr, rfl⟩)
    · exact fun r hr hmem => hids hmem (mem_ruleIds.2 (.inl ⟨r, hr, rfl⟩))
  rw [List.getD_eq_getElem _ _ hi, List.getD_eq_getElem _ _ hi'] at hpart
  exact hpart

theorem part_checks (buffer : List UInt8) :
    (l.checks buffer).Part own.ruleIds (own.checks buffer) where
  known _ hrule := ⟨hjoin.mem_ruleIds hrule, hrule⟩
  comment k := by
    refine part_flatMap (f := (·.1.id)) hjoin.commentRules ?_ ?_ ?_
    · exact fun r p hp => rule_of_mem_tag hp
    · exact fun r hr => mem_ruleIds.2 (.inr (.inl ⟨r, hr, rfl⟩))
    · exact fun r hr hmem => hids hmem (mem_ruleIds.2 (.inr (.inl ⟨r, hr, rfl⟩)))
  line line := by
    refine part_flatMap (f := (·.1.id)) hjoin.lineRules ?_ ?_ ?_
    · exact fun r p hp => rule_of_mem_tag hp
    · exact fun r hr => mem_ruleIds.2 (.inr (.inr ⟨r, hr, rfl⟩))
    · exact fun r hr hmem => hids hmem (mem_ruleIds.2 (.inr (.inr ⟨r, hr, rfl⟩)))

/-- Of the problems of a scanned source, those of some rules are the ones that these rules have
alone. -/
theorem filter_styleProblems (source : List Char) (scanned : Scan) :
    (l.styleProblems source scanned).filter (·.isOf own.ruleIds) =
      own.styleProblems source scanned := by
  refine Sweep.filter_problems (part_checks hjoin hids _) ?_
  -- both sweeps meet the same elements in the same order
  refine forall₂_merge id (Q := Element.Part own.ruleIds) id (P := Element.Part own.ruleIds) ?_ ?_ ?_
  · intro x x' y y' hx hy
    cases hx <;> cases hy <;> rfl
  · refine forall₂_merge id (Q := Element.Part own.ruleIds) id (P := Element.Part own.ruleIds) ?_ ?_ ?_
    · intro x x' y y' hx hy
      cases hx <;> cases hy <;> rfl
    · have hparts := part_tokenProblems hjoin hids (checkedWindows source scanned)
      generalize (checkedWindows source scanned).map Window.token = ts
      generalize l.tokenProblems _ = found at hparts ⊢
      generalize own.tokenProblems _ = found' at hparts ⊢
      induction hparts generalizing ts with
      | nil => simp
      | cons hfound _ ih =>
        cases ts with
        | nil => exact .nil
        | cons t ts => exact .cons (.token hfound) (ih ts)
    · exact List.forall₂_map_left_iff.2 (List.forall₂_map_right_iff.2
        (List.forall₂_same.2 fun k _ => .comment k))
  · exact List.forall₂_map_left_iff.2 (List.forall₂_map_right_iff.2
      (List.forall₂_same.2 fun line _ => .line line))

end Parts

/-- The problems of a scanned source do not depend on the order of the rules. -/
theorem SameRules.styleProblems_eq (h : l.SameRules l') (source : List Char) (scanned : Scan) :
    l.styleProblems source scanned = l'.styleProblems source scanned := by
  have hself : l.SameRules l := ⟨.refl _, .refl _, .refl _⟩
  have hids (id : String) : l.ruleIds.contains id = l'.ruleIds.contains id := by
    rw [Bool.eq_iff_iff, List.contains_iff_mem, List.contains_iff_mem, mem_ruleIds, mem_ruleIds]
    simp only [h.tokenRules.mem_iff, h.commentRules.mem_iff, h.lineRules.mem_iff]
  have hall : (fun p : Problem => p.isOf l.ruleIds) = fun p => p.isOf l'.ruleIds := by
    funext p
    unfold Problem.isOf
    congr 1
    funext id
    exact hids id
  calc l.styleProblems source scanned
      = (l.styleProblems source scanned).filter (·.isOf l.ruleIds) :=
        (filter_styleProblems hself.joins (List.disjoint_nil_right _) source scanned).symm
    _ = (l.styleProblems source scanned).filter (·.isOf l'.ruleIds) := by rw [hall]
    _ = l'.styleProblems source scanned :=
        filter_styleProblems h.joins (List.disjoint_nil_right _) source scanned

end Linter

/-! ## Sources -/

/-- Rules do not interfere. A linter with two sets of rules that share no id, added in any order, tells
of the rules of the first set what a linter with these rules alone does, in the same order. This holds
in every source that can be scanned, whatever its directives switch off: the problem of a source that
cannot be scanned takes the place of one that is found behind it. -/
theorem rules_do_not_interfere {l own others : Linter} (hjoin : l.Joins own others)
    (hids : own.ruleIds.Disjoint others.ruleIds) {source : String}
    (herror : (scan source).error = none) :
    (l.lint source).filter (·.isOf own.ruleIds) = own.lint source := by
  unfold scan at herror
  unfold Linter.lint Linter.lintText
  split
  · rfl
  · simp only [herror]
    exact Linter.filter_styleProblems hjoin hids source.toList _

/-- On the fourth line a directive without names switches off what both rules find, though the linter
for repeated keys alone does not know the other rule. -/
theorem rules_do_not_interfere_repeatedKey :
    let source := "b:\n    c: 1\n    c: 2\n    c: 3 # yamlstyle disable-line\n"
    let indentation := Indentation.rule { Indentation.Config.default with spaces := .fixed 2 }
    let own : Linter := ⟨[(KeyDuplicates.rule .default, .error)], [], []⟩
    let others : Linter := ⟨[(indentation, .warning)], [], []⟩
    let l : Linter := ⟨[(indentation, .warning), (KeyDuplicates.rule .default, .error)], [], []⟩
    let p : Problem :=
      ⟨2, 5, "wrong indentation: expected 2 but found 4", some Indentation.id, .warning⟩
    let q : Problem :=
      ⟨3, 5, "duplication of key \"c\" in mapping", some KeyDuplicates.id, .error⟩
    l.Joins own others ∧ own.ruleIds.Disjoint others.ruleIds ∧ (scan source).error = none ∧
      l.lint source = [p, q] ∧ own.lint source = [q] := by
  intro source indentation own others l p q
  have hjoin : l.Joins own others := ⟨.swap _ _ _, .refl _, .refl _⟩
  have hids : own.ruleIds.Disjoint others.ruleIds := List.singleton_disjoint.2 (by decide)
  have herror : (scan source).error = none := by decide +kernel
  have hlint : l.lint source = [p, q] := by
    refine (lintText_eq l ?_ ?_ (feeds_of_lt ?_)).trans ?_ <;> decide +kernel
  refine ⟨hjoin, hids, herror, hlint, ?_⟩
  rw [← rules_do_not_interfere hjoin hids herror, hlint]
  decide

/-- It does not matter in which order rules are added to a linter: two linters that have the same rules
with the same levels tell the same problems of every source, also of one that cannot be scanned. -/
theorem rule_order_does_not_matter {l l' : Linter} (h : l.SameRules l') (source : String) :
    l.lint source = l'.lint source := by
  unfold Linter.lint Linter.lintText
  simp only [h.styleProblems_eq]

/-- Two rules that report the same line at the same place are told by their words, not in the order in
which they were added. -/
theorem rule_order_does_not_matter_sameLine :
    let short : LineRule :=
      ⟨"short", fun line => if line.text.length < 3 then [⟨line.number, 1, "short line"⟩] else []⟩
    let blank : LineRule :=
      ⟨"blank", fun line => if line.text.isEmpty then [⟨line.number, 1, "blank line"⟩] else []⟩
    let l : Linter := ⟨[], [], [(short, .error), (blank, .warning)]⟩
    let l' : Linter := ⟨[], [], [(blank, .warning), (short, .error)]⟩
    let p : Problem := ⟨1, 1, "blank line", some "blank", .warning⟩
    let q : Problem := ⟨1, 1, "short line", some "short", .error⟩
    l.SameRules l' ∧ l'.lint "" = [p, q] ∧ l.lint "" = [p, q] := by
  intro short blank l l' p q
  have hsame : l.SameRules l' := ⟨.refl _, .refl _, .swap _ _ _⟩
  have hfound : (List.range' 1 (Line.all []).length).map (fun n =>
      (l'.foundOn [] n).filter (Problem.shown (scanText []).comments n)) = [[p, q]] := by
    decide +kernel
  have hsort : Problem.sort [p, q] = [p, q] := (Problem.sort_eq (.refl _) (by decide)).symm
  have hlint : l'.lint "" = [p, q] := by
    refine (lintText_eq l' ?_ ?_ (feeds_of_lt ?_)).trans ?_
    · decide +kernel
    · decide +kernel
    · decide +kernel
    · have hline := congrArg (List.flatMap Problem.sort) hfound
      rw [List.flatMap_map] at hline
      refine hline.trans ?_
      rw [List.flatMap_singleton, hsort]
  exact ⟨hsame, hlint, (rule_order_does_not_matter hsame "").trans hlint⟩

end YamlLinter
