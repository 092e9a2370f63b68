import Mathlib.Data.List.Induction
import YamlLinter.Proofs.Directives

/-!
# The last directive wins

Directives are followed one after the other, and each of them changes what is switched off. Here a
whole list of directives is told at once: of those that switch a rule, only the last one counts, and
for the next line it is enough that one of them asks for it. A rule that the linter does not know is
never switched off, whatever the directives name.

## Contents

* `Suppression.Within`: only known rules are switched off;
* `Suppression.follow`, `Suppression.followLine`: some directives, one after the other;
* `Directive.IsLastSwitch`: the last directive that switches a rule;
* `last_directive_wins`: the rules that are switched off behind some directives.
-/

namespace YamlLinter

namespace Suppression

variable {s : Suppression} {d : Directive} {known : List String} {rule : String}

/-! ## Only known rules -/

/-- All rules that are switched off are known. -/
def Within (known : List String) (s : Suppression) : Prop := ∀ rule ∈ s.rules, rule ∈ known

/-- To begin with nothing is suppressed. -/
theorem within_empty (known : List String) : Within known .empty := by
  intro rule hrule
  cases hrule

/-- Switching off switches known rules off. -/
theorem within_disable (h : Within known s) : Within known (s.disable d known) := by
  intro rule hrule
  unfold disable at hrule
  split at hrule
  · rcases List.mem_append.1 hrule with hold | hnew
    · exact h rule hold
    · exact hnew
  · rcases List.mem_append.1 hrule with hold | hnew
    · exact h rule hold
    · simpa using (List.mem_filter.1 hnew).2

theorem within_enable (h : Within known s) : Within known (s.enable d) := by
  unfold enable
  split
  · exact within_empty known
  · intro rule hrule
    exact h rule (List.mem_filter.1 hrule).1

/-- Following a directive switches off known rules only. -/
theorem within_apply (h : Within known s) : Within known (s.apply d known) := by
  unfold apply
  cases d.kind with
  | disable => exact within_disable h
  | enable => exact within_enable h
  | disableLine => exact h
  | disableFile => exact h

theorem within_applyLine (h : Within known s) : Within known (s.applyLine d known) := by
  unfold applyLine
  cases d.kind with
  | disableLine => exact within_disable h
  | disable => exact h
  | enable => exact h
  | disableFile => exact h

/-- A rule that is switched off is known. -/
theorem Within.mem (h : Within known s) (hcovers : s.covers (some rule) = true) : rule ∈ known :=
  h rule (by simpa [covers] using hcovers)

/-! ## Some directives -/

/-- What is switched off until further notice behind some directives. -/
def follow (known : List String) (ds : List Directive) : Suppression :=
  ds.foldl (fun s d => s.apply d known) .empty

/-- What is switched off for one line behind some directives. -/
def followLine (known : List String) (ds : List Directive) : Suppression :=
  ds.foldl (fun s d => s.applyLine d known) .empty

/-- The last directive is followed last. -/
theorem follow_append (known : List String) (ds : List Directive) (d : Directive) :
    follow known (ds ++ [d]) = (follow known ds).apply d known := by
  unfold follow
  rw [List.foldl_append]
  rfl

/-- So is the last one that disables a line. -/
theorem followLine_append (known : List String) (ds : List Directive) (d : Directive) :
    followLine known (ds ++ [d]) = (followLine known ds).applyLine d known := by
  unfold followLine
  rw [List.foldl_append]
  rfl

theorem within_follow (known : List String) (ds : List Directive) :
    Within known (follow known ds) := by
  induction ds using List.reverseRecOn with
  | nil => exact within_empty known
  | append_singleton ds d ih =>
    rw [follow_append]
    exact within_apply ih

theorem within_followLine (known : List String) (ds : List Directive) :
    Within known (followLine known ds) := by
  induction ds using List.reverseRecOn with
  | nil => exact within_empty known
  | append_singleton ds d ih =>
    rw [followLine_append]
    exact within_applyLine ih

end Suppression

namespace Directive

variable {ds : List Directive} {d e : Directive} {rule : String}

/-- Of some directives, `d` is the last one that switches a rule. -/
def IsLastSwitch (ds : List Directive) (rule : String) (d : Directive) : Prop :=
  d.switches rule = true ∧
    ∃ before behind, ds = before ++ d :: behind ∧ ∀ e ∈ behind, e.switches rule = false

/-- Without directives there is no last one. -/
theorem not_isLastSwitch_nil : ¬IsLastSwitch [] rule d := by
  rintro ⟨-, before, behind, hsplit, -⟩
  simp at hsplit

/-- A place in a list with one more thing at its end is that end, or a place in front of it. -/
theorem eq_or_exists_of_append {before behind : List Directive}
    (h : ds ++ [e] = before ++ d :: behind) :
    behind = [] ∧ d = e ∨ ∃ rest, behind = rest ++ [e] ∧ ds = before ++ d :: rest := by
  rcases List.eq_nil_or_concat behind with rfl | ⟨rest, last, rfl⟩
  · obtain ⟨-, hlast⟩ := List.append_inj' h rfl
    exact .inl ⟨rfl, (List.singleton_inj.1 hlast).symm⟩
  · rw [List.concat_eq_append, ← List.cons_append, ← List.append_assoc] at h
    obtain ⟨hfront, hlast⟩ := List.append_inj' h rfl
    rw [List.concat_eq_append, List.singleton_inj.1 hlast]
    exact .inr ⟨rest, rfl, hfront⟩

/-- A directive that switches the rule takes the place of those in front of it. -/
theorem isLastSwitch_append (he : e.switches rule = true) :
    IsLastSwitch (ds ++ [e]) rule d ↔ d = e := by
  constructor
  · rintro ⟨-, before, behind, hsplit, hbehind⟩
    rcases eq_or_exists_of_append hsplit with ⟨-, hlast⟩ | ⟨rest, rfl, -⟩
    · exact hlast
    · have hfalse := hbehind e (by simp)
      rw [he] at hfalse
      cases hfalse
  · rintro rfl
    exact ⟨he, ds, [], rfl, by simp⟩

/-- A directive that does not switch the rule changes nothing. -/
theorem isLastSwitch_append_of_not (he : e.switches rule = false) :
    IsLastSwitch (ds ++ [e]) rule d ↔ IsLastSwitch ds rule d := by
  constructor
  · rintro ⟨hd, before, behind, hsplit, hbehind⟩
    rcases eq_or_exists_of_append hsplit with ⟨-, rfl⟩ | ⟨rest, rfl, hfront⟩
    · rw [hd] at he
      cases he
    · exact ⟨hd, before, rest, hfront, fun f hf => hbehind f (List.mem_append_left _ hf)⟩
  · rintro ⟨hd, before, behind, rfl, hbehind⟩
    refine ⟨hd, before, behind ++ [e], by simp, fun f hf => ?_⟩
    rcases List.mem_append.1 hf with hf | hf
    · exact hbehind f hf
    · rw [List.mem_singleton.1 hf]
      exact he

/-! ## The rules that a directive names -/

/-- A directive addresses all rules if it names none. -/
theorem addresses_iff : d.addresses rule = true ↔ d.rules = [] ∨ rule ∈ d.rules := by
  simp [addresses]

/-- What switches a rule is a directive to disable or enable it. -/
theorem switches_iff :
    d.switches rule = true ↔
      (d.kind = .disable ∨ d.kind = .enable) ∧ (d.rules = [] ∨ rule ∈ d.rules) := by
  rw [switches, Bool.and_eq_true, Bool.or_eq_true, beq_iff_eq, beq_iff_eq, addresses_iff]

/-- What skips a line for a rule is a directive to disable the line. -/
theorem skips_iff :
    d.skips rule = true ↔ d.kind = .disableLine ∧ (d.rules = [] ∨ rule ∈ d.rules) := by
  rw [skips, Bool.and_eq_true, beq_iff_eq, addresses_iff]

end Directive

namespace Suppression

open Directive

variable {known : List String} {rule : String}

/-- A known rule is switched off if the last directive that switches it does so. -/
theorem covers_follow (h : rule ∈ known) (ds : List Directive) :
    (follow known ds).covers (some rule) = true ↔
      ∃ d, IsLastSwitch ds rule d ∧ d.kind = .disable := by
  induction ds using List.reverseRecOn with
  | nil =>
    refine iff_of_false (by simp [follow, empty, covers]) ?_
    rintro ⟨d, hd, -⟩
    exact not_isLastSwitch_nil hd
  | append_singleton ds e ih =>
    rw [follow_append, covers_apply h]
    by_cases he : e.switches rule = true
    · simp only [if_pos he, isLastSwitch_append he, exists_eq_left, beq_iff_eq]
    · rw [if_neg he, ih]
      simp only [isLastSwitch_append_of_not (Bool.eq_false_iff.2 he)]

/-- A known rule is switched off for a line if one directive does so. -/
theorem covers_followLine (h : rule ∈ known) (ds : List Directive) :
    (followLine known ds).covers (some rule) = true ↔ ∃ d ∈ ds, d.skips rule = true := by
  induction ds using List.reverseRecOn with
  | nil => simp [followLine, empty, covers]
  | append_singleton ds e ih =>
    rw [followLine_append, covers_applyLine h, Bool.or_eq_true, ih]
    constructor
    · rintro (⟨d, hd, hskips⟩ | hskips)
      · exact ⟨d, List.mem_append_left _ hd, hskips⟩
      · exact ⟨e, by simp, hskips⟩
    · rintro ⟨d, hd, hskips⟩
      rcases List.mem_append.1 hd with hd | hd
      · exact .inl ⟨d, hd, hskips⟩
      · rw [List.mem_singleton.1 hd] at hskips
        exact .inr hskips

end Suppression

/-- The last directive wins. Behind any directives, a rule is switched off if and only if it is known
and the last directive to disable or enable that names no rule or this one is one to disable. It is
switched off for a line if and only if it is known and one of the directives disables a line and
names no rule or this one. A problem that no rule has found is never switched off. -/
theorem last_directive_wins (known : List String) (ds : List Directive) (rule : String) :
    ((Suppression.follow known ds).covers (some rule) = true ↔
        rule ∈ known ∧ ∃ before d behind, ds = before ++ d :: behind ∧ d.kind = .disable ∧
          (d.rules = [] ∨ rule ∈ d.rules) ∧
          ∀ e ∈ behind, e.kind = .disable ∨ e.kind = .enable → e.rules ≠ [] ∧ rule ∉ e.rules) ∧
      (Suppression.follow known ds).covers none = false ∧
      ((Suppression.followLine known ds).covers (some rule) = true ↔
        rule ∈ known ∧ ∃ d ∈ ds, d.kind = .disableLine ∧ (d.rules = [] ∨ rule ∈ d.rules)) ∧
      (Suppression.followLine known ds).covers none = false := by
  refine ⟨?_, rfl, ?_, rfl⟩
  · constructor
    · intro hcovers
      have hknown := (Suppression.within_follow known ds).mem hcovers
      obtain ⟨d, ⟨hd, before, behind, hsplit, hbehind⟩, hkind⟩ :=
        (Suppression.covers_follow hknown ds).1 hcovers
      refine ⟨hknown, before, d, behind, hsplit, hkind, (Directive.switches_iff.1 hd).2, ?_⟩
      intro e he hswitch
      have hnot := Bool.eq_false_iff.1 (hbehind e he)
      rw [Ne, Directive.switches_iff] at hnot
      exact not_or.1 fun hnames => hnot ⟨hswitch, hnames⟩
    · rintro ⟨hknown, before, d, behind, hsplit, hkind, hnames, hbehind⟩
      refine (Suppression.covers_follow hknown ds).2 ⟨d, ⟨?_, before, behind, hsplit, ?_⟩, hkind⟩
      · exact Directive.switches_iff.2 ⟨.inl hkind, hnames⟩
      · intro e he
        rw [Bool.eq_false_iff, Ne, Directive.switches_iff]
        rintro ⟨hswitch, hnames⟩
        exact not_or.2 (hbehind e he hswitch) hnames
  · constructor
    · intro hcovers
      have hknown := (Suppression.within_followLine known ds).mem hcovers
      obtain ⟨d, hd, hskips⟩ := (Suppression.covers_followLine hknown ds).1 hcovers
      exact ⟨hknown, d, hd, Directive.skips_iff.1 hskips⟩
    · rintro ⟨hknown, d, hd, hskips⟩
      exact (Suppression.covers_followLine hknown ds).2 ⟨d, hd, Directive.skips_iff.2 hskips⟩

-- Everything is switched off and one rule on again; what is not known never was off.
example : ["indentation", "anchors", "nope"].filter (fun rule =>
    (Suppression.follow ["indentation", "anchors"]
      [⟨.disable, ["nope"]⟩, ⟨.disable, []⟩, ⟨.enable, ["indentation"]⟩]).covers (some rule)) =
    ["anchors"] := by decide

end YamlLinter
