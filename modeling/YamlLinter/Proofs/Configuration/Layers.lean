import Mathlib.Data.List.Forall2
import Mathlib.Data.List.Nodup
import Mathlib.Data.List.Perm.Basic
import YamlLinter.Proofs.Configuration.Entries

/-!
# Settings over the defaults

Settings are put in their places one after the other: a rule that has a setting keeps its place, one
that has none comes last. So the places of rules are those of their first settings, and what a rule is
set to is its last setting. Over the defaults, where every rule has its place, settings for these rules
change no place at all.

## Contents

* `lookup_iff_mem`, `lookup_perm`, `eq_of_keys_of_lookup`: settings where each id stands once;
* `keys_setRule`, `nodup_keys_setRules`, `mem_keys_setRules`, `keys_setRules`: the ids, in order;
* `lookup_setRule`, `lookup_setRules`: the setting of each id;
* `Describes`, `settings?_eq_some_iff`, `lookup_describes`: settings and the values that describe them;
* `Given`: a setting that is the user's last one, or the default;
* `layered`, `keys_layered`, `given_of_mem_layered`, `layered_perm`: user settings over the defaults.
-/

namespace YamlLinter.LintConfig

/-! ## Each id once -/

section Pairs

variable {α : Type} {pairs others : List (String × α)} {id key : String} {a : α}

theorem lookup_cons_if :
    ((key, a) :: pairs).lookup id = if id = key then some a else pairs.lookup id := by
  rw [List.lookup_cons]
  by_cases h : id = key
  · rw [if_pos h, h, beq_self_eq_true]
  · rw [if_neg h, beq_false_of_ne h]

/-- Where each id stands once, the first pair of an id is the only one. -/
theorem lookup_iff_mem (hkeys : (pairs.map (·.1)).Nodup) :
    pairs.lookup id = some a ↔ (id, a) ∈ pairs := by
  induction pairs with
  | nil => simp
  | cons pair pairs ih =>
    obtain ⟨key, b⟩ := pair
    obtain ⟨hnot, hkeys⟩ := List.nodup_cons.1 hkeys
    rw [lookup_cons_if, List.mem_cons, Prod.mk.injEq]
    by_cases hid : id = key
    · have hmem : (id, a) ∉ pairs := fun h => hnot (List.mem_map.2 ⟨_, h, hid⟩)
      simp [hid, hid ▸ hmem, eq_comm]
    · simp [hid, ih hkeys]

/-- The order of entries with different keys does not matter for a lookup. -/
theorem lookup_perm (hperm : others.Perm pairs) (hkeys : (pairs.map (·.1)).Nodup) :
    others.lookup id = pairs.lookup id := by
  have hkeys' : (others.map (·.1)).Nodup := (hperm.map _).nodup_iff.2 hkeys
  apply Option.ext
  intro a
  rw [lookup_iff_mem hkeys', lookup_iff_mem hkeys]
  exact hperm.mem_iff

/-- Such settings are told by their ids and by the setting of each id. -/
theorem eq_of_keys_of_lookup (hkeys : (pairs.map (·.1)).Nodup)
    (heq : others.map (·.1) = pairs.map (·.1)) (hlookup : ∀ id, others.lookup id = pairs.lookup id) :
    others = pairs := by
  have hlength : others.length = pairs.length := by simpa using congrArg List.length heq
  apply List.ext_getElem hlength
  intro i hi hi'
  have hfst : others[i].1 = pairs[i].1 := by
    have h := List.getElem_of_eq heq (by simpa using hi)
    rwa [List.getElem_map, List.getElem_map] at h
  have hsnd : some others[i].2 = some pairs[i].2 := by
    have hother : others.lookup others[i].1 = some others[i].2 :=
      (lookup_iff_mem (heq ▸ hkeys)).2 (List.getElem_mem hi)
    have hpair : pairs.lookup pairs[i].1 = some pairs[i].2 :=
      (lookup_iff_mem hkeys).2 (List.getElem_mem hi')
    rw [← hother, ← hpair, hlookup, hfst]
  exact Prod.ext hfst (Option.some.inj hsnd)

end Pairs

/-! ## Settings in their places -/

variable {rules new : List (String × Setting)} {id x : String} {setting : Setting}

/-- Setting a rule keeps its place, or puts it behind all others. -/
theorem keys_setRule :
    (setRule rules id setting).map (·.1) =
      if id ∈ rules.map (·.1) then rules.map (·.1) else rules.map (·.1) ++ [id] := by
  induction rules with
  | nil => simp [setRule]
  | cons rule rules ih =>
    obtain ⟨key, s⟩ := rule
    rw [setRule]
    by_cases hkey : key = id
    · simp [hkey]
    · rw [if_neg (by simpa using hkey), List.map_cons, List.map_cons, ih]
      by_cases hmem : id ∈ rules.map (·.1)
      · rw [if_pos hmem, if_pos (List.mem_cons_of_mem _ hmem)]
      · have hne : id ∉ key :: rules.map (·.1) := List.not_mem_cons_of_ne_of_not_mem (Ne.symm hkey) hmem
        rw [if_neg hmem, if_neg hne, List.cons_append]

/-- Setting a rule changes its own setting only. -/
theorem lookup_setRule :
    (setRule rules id setting).lookup x = if x = id then some setting else rules.lookup x := by
  induction rules with
  | nil => rw [setRule, lookup_cons_if]
  | cons rule rules ih =>
    obtain ⟨key, s⟩ := rule
    rw [setRule]
    by_cases hkey : key = id
    · rw [if_pos (by simpa using hkey), lookup_cons_if, lookup_cons_if, hkey]
      by_cases hx : x = id
      · rw [if_pos hx, if_pos hx]
      · rw [if_neg hx, if_neg hx, if_neg hx]
    · rw [if_neg (by simpa using hkey), lookup_cons_if, lookup_cons_if, ih]
      by_cases hx : x = key
      · rw [if_pos hx, if_pos hx, if_neg (by rwa [hx])]
      · rw [if_neg hx, if_neg hx]

/-- No rule is set twice. -/
theorem nodup_keys_setRules (h : (rules.map (·.1)).Nodup) :
    ((setRules rules new).map (·.1)).Nodup := by
  induction new generalizing rules with
  | nil => exact h
  | cons entry new ih =>
    apply ih
    rw [keys_setRule]
    split
    · exact h
    · rename_i hnot
      exact List.nodup_append_comm.1 (List.nodup_cons.2 ⟨hnot, h⟩)

/-- Every rule that is set has its place. -/
theorem mem_keys_setRules :
    x ∈ (setRules rules new).map (·.1) ↔ x ∈ rules.map (·.1) ∨ x ∈ new.map (·.1) := by
  induction new generalizing rules with
  | nil => simp [setRules]
  | cons entry new ih =>
    have hstep : x ∈ (setRule rules entry.1 entry.2).map (·.1) ↔ x ∈ rules.map (·.1) ∨ x = entry.1 := by
      rw [keys_setRule]
      split
      · rename_i hmem
        constructor
        · exact .inl
        · rintro (h | rfl)
          · exact h
          · exact hmem
      · rw [List.mem_append, List.mem_singleton]
    have hrest := @ih (setRule rules entry.1 entry.2)
    rw [hstep, or_assoc] at hrest
    rw [List.map_cons, List.mem_cons]
    exact hrest

/-- Where every rule has its place, settings change no place. -/
theorem keys_setRules (h : ∀ entry ∈ new, entry.1 ∈ rules.map (·.1)) :
    (setRules rules new).map (·.1) = rules.map (·.1) := by
  induction new generalizing rules with
  | nil => rfl
  | cons entry new ih =>
    have hkeys : (setRule rules entry.1 entry.2).map (·.1) = rules.map (·.1) := by
      rw [keys_setRule, if_pos (h entry List.mem_cons_self)]
    have hrest := @ih (setRule rules entry.1 entry.2)
    rw [hkeys] at hrest
    exact hrest fun other hother => h other (List.mem_cons_of_mem _ hother)

/-- The last setting of a rule counts. -/
theorem lookup_setRules :
    (setRules rules new).lookup x = (new.reverse.lookup x).or (rules.lookup x) := by
  induction new generalizing rules with
  | nil => rfl
  | cons entry new ih =>
    have hrest := @ih (setRule rules entry.1 entry.2)
    rw [lookup_setRule] at hrest
    rw [List.reverse_cons, List.lookup_append, Option.or_assoc]
    obtain ⟨id, setting⟩ := entry
    rw [lookup_cons_if]
    refine hrest.trans (congrArg _ ?_)
    by_cases hx : x = id
    · rw [if_pos hx, if_pos hx, Option.some_or]
    · rw [if_neg hx, if_neg hx, List.lookup_nil, Option.none_or]

/-! ## Settings and the values that describe them -/

variable {members others : List (String × Json)} {settings : List (String × Setting)}

/-- Each setting stands for the member in its place. -/
def Describes (member : String × Json) (entry : String × Setting) : Prop :=
  member.1 = entry.1 ∧ Setting.ofJson member.2 = some entry.2

/-- Settings are read member by member. -/
theorem settings?_eq_some_iff :
    settings? members = some settings ↔ List.Forall₂ Describes members settings := by
  induction members generalizing settings with
  | nil =>
    rw [List.forall₂_nil_left_iff]
    constructor
    · intro h
      cases h
      rfl
    · rintro rfl
      rfl
  | cons member members ih =>
    obtain ⟨id, value⟩ := member
    rw [settings?_cons, List.forall₂_cons_left_iff]
    constructor
    · rintro ⟨setting, more, hsetting, hmore, rfl⟩
      exact ⟨(id, setting), more, ⟨rfl, hsetting⟩, ih.1 hmore, rfl⟩
    · rintro ⟨⟨_, setting⟩, more, ⟨rfl, hsetting⟩, hmore, rfl⟩
      exact ⟨setting, more, hsetting, ih.2 hmore, rfl⟩

/-- Where a rule is set, and only there, it has a value, and the setting that the value describes. -/
theorem lookup_describes (h : List.Forall₂ Describes members settings) (id : String) :
    members.lookup id = none ∧ settings.lookup id = none ∨
      ∃ value setting, members.lookup id = some value ∧ Setting.ofJson value = some setting ∧
        settings.lookup id = some setting := by
  induction h with
  | nil => exact .inl ⟨rfl, rfl⟩
  | @cons member entry members settings hentry _ ih =>
    obtain ⟨key, value⟩ := member
    obtain ⟨_, setting⟩ := entry
    obtain ⟨rfl, hsetting⟩ := hentry
    rw [lookup_cons_if, lookup_cons_if]
    by_cases hid : id = key
    · rw [if_pos hid, if_pos hid]
      exact .inr ⟨value, setting, rfl, hsetting, rfl⟩
    · rw [if_neg hid, if_neg hid]
      exact ih

theorem keys_describes (h : List.Forall₂ Describes members settings) :
    settings.map (·.1) = members.map (·.1) := by
  induction h with
  | nil => rfl
  | cons hentry _ ih => rw [List.map_cons, List.map_cons, ih, hentry.1]

theorem member?_object (id : String) : (Json.object members).member? id = members.reverse.lookup id := by
  rw [Json.member?]
  induction members.reverse with
  | nil => rfl
  | cons member members ih =>
    obtain ⟨key, value⟩ := member
    rw [lookup_cons_if]
    by_cases hkey : id = key
    · simp [hkey]
    · rw [if_neg hkey, List.find?_cons_of_neg (by simpa using Ne.symm hkey), ih]

/-! ## Settings over the defaults -/

/-- A setting of a rule that is the user's last one for it, or the default. -/
def Given (members : List (String × Json)) (entry : String × Setting) : Prop :=
  match (Json.object members).member? entry.1 with
  | some value => Setting.ofJson value = some entry.2
  | none => entry.2 = .enable

/-- User settings over the defaults. They have been put in their places once already. -/
def layered (settings : List (String × Setting)) : List (String × Setting) :=
  setRules default.rules (setRules [] settings)

theorem nodup_keys_layered : ((layered settings).map (·.1)).Nodup :=
  nodup_keys_setRules (by decide)

theorem mem_keys_layered (h : x ∈ settings.map (·.1)) : x ∈ (layered settings).map (·.1) :=
  mem_keys_setRules.2 (.inr (mem_keys_setRules.2 (.inr h)))

/-- Settings of rules that have defaults keep the order of the defaults. -/
theorem keys_layered (h : ∀ x ∈ settings.map (·.1), x ∈ default.rules.map (·.1)) :
    (layered settings).map (·.1) = default.rules.map (·.1) := by
  apply keys_setRules
  intro entry hentry
  have hmem : entry.1 ∈ (setRules [] settings).map (·.1) := List.mem_map_of_mem hentry
  rcases mem_keys_setRules.1 hmem with hnil | hmem
  · cases hnil
  · exact h entry.1 hmem

/-- The last setting of a rule wins over its default. -/
theorem lookup_layered :
    (layered settings).lookup x = (settings.reverse.lookup x).or (default.rules.lookup x) := by
  have hkeys : ((setRules [] settings).map (·.1)).Nodup := nodup_keys_setRules List.nodup_nil
  -- Each id stands once in the inner settings: there the last one of an id is the first one.
  rw [layered, lookup_setRules, lookup_perm (List.reverse_perm _) hkeys, lookup_setRules]
  simp

/-- An entry is a default, or was given. -/
theorem given_of_mem_layered (h : List.Forall₂ Describes members settings) {entry : String × Setting}
    (hentry : entry ∈ layered settings) : Given members entry := by
  have hlookup : (layered settings).lookup entry.1 = some entry.2 :=
    (lookup_iff_mem nodup_keys_layered).2 hentry
  rw [lookup_layered] at hlookup
  rw [Given, member?_object]
  obtain ⟨hnone, hsetting⟩ | ⟨value, setting, hvalue, hof, hsetting⟩ :=
    lookup_describes (List.forall₂_reverse_iff.2 h) entry.1
  · rw [hsetting, Option.none_or] at hlookup
    have hdefault : (entry.1, entry.2) ∈ default.rules := (lookup_iff_mem (by decide)).1 hlookup
    have henable : ∀ rule ∈ default.rules, rule.2 = .enable := by simp [default]
    rw [hnone]
    exact henable _ hdefault
  · rw [hsetting, Option.some_or] at hlookup
    rw [hvalue, ← hlookup]
    exact hof

/-- Settings of distinct rules can come in any order. -/
theorem layered_perm (h : List.Forall₂ Describes members settings) (hids : (members.map (·.1)).Nodup)
    (hknown : ∀ x ∈ settings.map (·.1), x ∈ default.rules.map (·.1)) (hperm : others.Perm members) :
    ∃ settings', List.Forall₂ Describes others settings' ∧ layered settings' = layered settings := by
  -- The settings of the permuted members are the settings of the members, permuted.
  obtain ⟨settings', hdescribes, hperm'⟩ := List.perm_comp_forall₂ hperm h
  refine ⟨settings', hdescribes, eq_of_keys_of_lookup nodup_keys_layered ?_ ?_⟩
  · have hknown' : ∀ x ∈ settings'.map (·.1), x ∈ default.rules.map (·.1) :=
      fun x hx => hknown x ((hperm'.map _).mem_iff.1 hx)
    rw [keys_layered hknown, keys_layered hknown']
  · intro id
    have hreverse : settings'.reverse.Perm settings.reverse :=
      (List.reverse_perm _).trans (hperm'.trans (List.reverse_perm _).symm)
    have hkeys : (settings.reverse.map (·.1)).Nodup := by
      rw [List.map_reverse, List.nodup_reverse, keys_describes h]
      exact hids
    rw [lookup_layered, lookup_layered, lookup_perm hreverse hkeys]

end YamlLinter.LintConfig
