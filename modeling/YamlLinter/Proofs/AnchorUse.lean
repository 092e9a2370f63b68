import Mathlib.Data.List.Basic
import Mathlib.Data.Nat.Find
import YamlLinter.Proofs.Coverage
import YamlLinter.Proofs.RuleRun
import YamlLinter.Rule.Anchors

/-!
# Which anchors and aliases are told of

The rule on anchors keeps the anchors of the current document and forgets them where a document
starts or ends. Here the same is said of the tokens alone. The stream and every document start and
end begin a segment; an alias needs an anchor of its name in front of it in its segment, an anchor
should have none, and the last anchor of a name should have an alias behind it in its segment.

## Contents

* `Joined`, `EndsSegment`: segments of a token list;
* `Introduced`, `Newest`, `Referred`: what the tokens tell of the anchors of a name;
* `misnamed`, `idle`, `misuses`: what is wrong at a token;
* `remembered`, `checkName_remembered`, `stateBehind_eq`: what the rule remembers, by the tokens;
* `finds_just_misuses`: what the rule finds.
-/

namespace YamlLinter.Anchors

variable {tokens : List Token} {config : Config} {s : State} {n j : Nat} {t : Token} {name : String}

/-! ## Segments -/

/-- The kind of the token number `i`. -/
def kindAt (tokens : List Token) (i : Nat) : Option TokenKind := tokens[i]?.map Token.kind

/-- No segment begins at a token behind the token number `j` and in front of the token number `n`. -/
def Joined (tokens : List Token) (j n : Nat) : Prop :=
  ∀ m < n, j < m → (kindAt tokens m).any forgets = false

/-- The token number `i` is the last of its segment: the next one begins another segment, or is the
end of the stream. -/
def EndsSegment (tokens : List Token) (i : Nat) : Prop :=
  (kindAt tokens (i + 1)).any forgets = true ∨ kindAt tokens (i + 1) = some .streamEnd

instance : Decidable (Joined tokens j n) :=
  inferInstanceAs (Decidable (∀ m < n, j < m → _))

instance {i : Nat} : Decidable (EndsSegment tokens i) :=
  inferInstanceAs (Decidable (_ ∨ _))

/-! ## Anchors and aliases of a name -/

/-- An anchor of that name stands in front of the token number `n`, in its segment. -/
def Introduced (tokens : List Token) (n : Nat) (name : String) : Prop :=
  ∃ j < n, Joined tokens j n ∧ kindAt tokens j = some (.anchor name)

/-- The token number `j` belongs to the segment in front of the token number `n`, and no anchor of
that name stands in between. -/
def Newest (tokens : List Token) (n j : Nat) (name : String) : Prop :=
  Joined tokens j n ∧ ∀ k < n, j < k → kindAt tokens k ≠ some (.anchor name)

/-- An alias of that name stands between the tokens number `j` and `n`. -/
def Referred (tokens : List Token) (n j : Nat) (name : String) : Prop :=
  ∃ k < n, j < k ∧ kindAt tokens k = some (.aliasRef name)

instance : Decidable (Introduced tokens n name) :=
  inferInstanceAs (Decidable (∃ j < n, _))

instance : Decidable (Newest tokens n j name) :=
  inferInstanceAs (Decidable (_ ∧ ∀ k < n, j < k → _))

instance : Decidable (Referred tokens n j name) :=
  inferInstanceAs (Decidable (∃ k < n, _))

/-- What is told of the token number `j` if it is an anchor. -/
def atAnchor {α : Type} (tokens : List Token) (f : String → Mark → Option α) (j : Nat) : Option α :=
  match tokens[j]? with
  | some ⟨.anchor name, start, _⟩ => f name start
  | _ => none

/-! ## What is wrong at a token -/

/-- An alias without an anchor, or an anchor with another one in front of it. -/
def misnamed (config : Config) (tokens : List Token) (i : Nat) (t : Token) : List Finding :=
  match t.kind with
  | .aliasRef name =>
    if config.forbidUndeclaredAliases = true ∧ ¬Introduced tokens i name then
      [finding "undeclared alias" name t.start]
    else []
  | .anchor name =>
    if config.forbidDuplicatedAnchors = true ∧ Introduced tokens i name then
      [finding "duplicated anchor" name t.start]
    else []
  | _ => []

/-- The anchors of the segment in front of the token number `n` that no alias refers to, in their
order. Of the anchors of one name only the last counts. -/
def idle (tokens : List Token) (n : Nat) : List Finding :=
  (List.range n).filterMap fun j => atAnchor tokens (fun name start =>
    if Newest tokens n j name ∧ ¬Referred tokens n j name then
      some (finding "unused anchor" name start)
    else none) j

/-- What is wrong at the token number `i`: its name, and at the end of a segment the anchors that
nothing refers to. -/
def misuses (config : Config) (tokens : List Token) (i : Nat) (t : Token) : List Finding :=
  misnamed config tokens i t ++
    if config.forbidUnusedAnchors = true ∧ EndsSegment tokens i then idle tokens (i + 1) else []

/-! ## One more token -/

theorem kindAt_of_getElem? (ht : tokens[n]? = some t) : kindAt tokens n = some t.kind := by
  unfold kindAt
  rw [ht]
  rfl

theorem joined_succ (ht : tokens[n]? = some t) (hj : j < n) :
    Joined tokens j (n + 1) ↔ Joined tokens j n ∧ forgets t.kind = false := by
  unfold Joined
  rw [Nat.forall_lt_succ_right, kindAt_of_getElem? ht]
  simp [hj]

/-- Nothing stands between a token and the next one. -/
theorem joined_self (tokens : List Token) (n : Nat) : Joined tokens n (n + 1) := by
  intro m hm hn
  omega

theorem newest_succ (ht : tokens[n]? = some t) (hj : j < n) :
    Newest tokens (n + 1) j name ↔
      Newest tokens n j name ∧ forgets t.kind = false ∧ t.kind ≠ .anchor name := by
  unfold Newest
  rw [joined_succ ht hj, Nat.forall_lt_succ_right, kindAt_of_getElem? ht]
  simp only [hj, ne_eq, Option.some_inj, true_implies]
  exact and_and_and_comm

theorem referred_succ (ht : tokens[n]? = some t) (hj : j < n) :
    Referred tokens (n + 1) j name ↔ Referred tokens n j name ∨ t.kind = .aliasRef name := by
  unfold Referred
  rw [Nat.exists_lt_succ_right, kindAt_of_getElem? ht]
  simp [hj]

/-- Of the anchors of a name in a segment, one is the newest. -/
theorem introduced_iff_newest :
    Introduced tokens n name ↔
      ∃ j < n, Newest tokens n j name ∧ kindAt tokens j = some (.anchor name) := by
  constructor
  · rintro ⟨i, hi, hjoined, hkind⟩
    let j := Nat.findGreatest (fun k => kindAt tokens k = some (.anchor name)) (n - 1)
    have hle : i ≤ j := Nat.le_findGreatest (by omega) hkind
    have hlast : j ≤ n - 1 := Nat.findGreatest_le _
    have hspec : kindAt tokens j = some (.anchor name) :=
      Nat.findGreatest_spec (P := fun k => kindAt tokens k = some (.anchor name)) (by omega) hkind
    refine ⟨j, by omega, ⟨fun m hm hj => hjoined m hm (by omega), fun k hk hj h => ?_⟩, hspec⟩
    have : k ≤ j := Nat.le_findGreatest (by omega) h
    omega
  · rintro ⟨j, hj, hnewest, hkind⟩
    exact ⟨j, hj, hnewest.1, hkind⟩

/-! ## What the rule remembers -/

section

variable {α β : Type} {f g : String → Mark → Option α}

theorem atAnchor_of_anchor (ht : tokens[j]? = some t) (hkind : t.kind = .anchor name) :
    atAnchor tokens f j = f name t.start := by
  obtain ⟨kind, start, stop⟩ := t
  subst hkind
  unfold atAnchor
  rw [ht]

theorem atAnchor_of_ne (ht : tokens[j]? = some t) (hkind : ∀ name, t.kind ≠ .anchor name) :
    atAnchor tokens f j = none := by
  unfold atAnchor
  rw [ht]
  split
  · rename_i name start stop h
    exact absurd (congrArg Token.kind (Option.some.inj h)) (hkind name)
  · rfl

theorem atAnchor_congr (h : ∀ name start, f name start = g name start) :
    atAnchor tokens f j = atAnchor tokens g j := by
  unfold atAnchor
  split
  · exact h _ _
  · rfl

theorem bind_atAnchor (h : α → Option β) :
    (atAnchor tokens f j).bind h = atAnchor tokens (fun name start => (f name start).bind h) j := by
  unfold atAnchor
  split <;> rfl

end

/-- What is remembered of the anchor number `j` in front of the token number `n`. -/
def entry (tokens : List Token) (n j : Nat) : Option Declared :=
  atAnchor tokens (fun name start =>
    if Newest tokens n j name then some ⟨name, start, decide (Referred tokens n j name)⟩
    else none) j

/-- What is remembered in front of the token number `n`. -/
def remembered (tokens : List Token) (n : Nat) : State :=
  (List.range n).filterMap (entry tokens n)

/-- What a token leaves of an anchor that is remembered. -/
def keep (kind : TokenKind) (d : Declared) : Option Declared :=
  if forgets kind = true ∨ kind = .anchor d.name then none
  else some { d with used := d.used || decide (kind = .aliasRef d.name) }

/-- What a token adds to what is remembered. -/
def added (t : Token) : List Declared :=
  match t.kind with
  | .anchor name => [⟨name, t.start, false⟩]
  | _ => []

theorem entry_succ (ht : tokens[n]? = some t) (hj : j < n) :
    entry tokens (n + 1) j = (entry tokens n j).bind (keep t.kind) := by
  unfold entry
  rw [bind_atAnchor]
  refine atAnchor_congr fun name start => ?_
  simp only [newest_succ ht hj, referred_succ ht hj]
  by_cases hnewest : Newest tokens n j name
  · by_cases hpass : forgets t.kind = true ∨ t.kind = .anchor name
    · have hnot : ¬(forgets t.kind = false ∧ t.kind ≠ .anchor name) := by
        rintro ⟨hforgets, hne⟩
        exact hpass.elim (by simp [hforgets]) hne
      simp [keep, hnewest, hpass, hnot]
    · rw [not_or] at hpass
      simp [keep, hnewest, hpass, Bool.decide_or]
  · simp [hnewest]

theorem entry_self (ht : tokens[n]? = some t) :
    (entry tokens (n + 1) n).toList = added t := by
  unfold entry added
  split
  · rename_i name hkind
    have hnewest : Newest tokens (n + 1) n name := ⟨joined_self tokens n, by omega⟩
    have hreferred : ¬Referred tokens (n + 1) n name := by
      rintro ⟨k, hk, hn, -⟩
      omega
    rw [atAnchor_of_anchor ht hkind]
    simp [hnewest, hreferred]
  · rename_i hkind
    rw [atAnchor_of_ne ht hkind]
    rfl

/-- A new token changes what is remembered of the anchors before, and may be one itself. -/
theorem remembered_succ (ht : tokens[n]? = some t) :
    remembered tokens (n + 1) = (remembered tokens n).filterMap (keep t.kind) ++ added t := by
  have hold : (List.range n).filterMap (entry tokens (n + 1)) =
      (List.range n).filterMap fun j => (entry tokens n j).bind (keep t.kind) :=
    List.filterMap_congr fun j hj => entry_succ ht (List.mem_range.1 hj)
  unfold remembered
  rw [List.range_succ, List.filterMap_append, List.filterMap_filterMap, hold, ← entry_self ht]
  cases hentry : entry tokens (n + 1) n <;> simp [hentry]

/-- The names that are remembered are those of the anchors in the segment. -/
theorem declares_remembered :
    declares (remembered tokens n) name = true ↔ Introduced tokens n name := by
  unfold declares remembered
  rw [introduced_iff_newest, List.any_eq_true]
  simp only [List.mem_filterMap, List.mem_range, beq_iff_eq]
  constructor
  · rintro ⟨d, ⟨j, hj, hentry⟩, rfl⟩
    unfold entry atAnchor at hentry
    split at hentry
    · rename_i ht
      simp only at hentry
      split at hentry
      · rename_i hnewest
        cases hentry
        exact ⟨j, hj, hnewest, kindAt_of_getElem? ht⟩
      · cases hentry
    · cases hentry
  · rintro ⟨j, hj, hnewest, hkind⟩
    obtain ⟨t, ht, hkind⟩ := Option.map_eq_some_iff.1 hkind
    refine ⟨⟨name, t.start, decide (Referred tokens n j name)⟩, ⟨j, hj, ?_⟩, rfl⟩
    unfold entry
    rw [atAnchor_of_anchor ht hkind, if_pos hnewest]

/-! ## One step of the rule -/

theorem keep_of_forgets {kind : TokenKind} (h : forgets kind = true) : keep kind = fun _ => none := by
  funext d
  simp [keep, h]

theorem keep_of_other {kind : TokenKind} (h : forgets kind = false)
    (hanchor : ∀ name, kind ≠ .anchor name) (halias : ∀ name, kind ≠ .aliasRef name) :
    keep kind = some := by
  funext d
  simp [keep, h, hanchor, halias]

theorem filterMap_keep_aliasRef (s : State) (name : String) :
    s.filterMap (keep (.aliasRef name)) = use s name := by
  unfold use
  rw [← List.filterMap_eq_map]
  refine List.filterMap_congr fun d _ => ?_
  by_cases hname : d.name = name
  · simp [keep, forgets, hname]
  · simp [keep, forgets, hname, Ne.symm hname]

theorem filterMap_keep_anchor (s : State) (name : String) :
    s.filterMap (keep (.anchor name)) = s.filter (·.name != name) := by
  rw [← List.filterMap_eq_filter]
  refine List.filterMap_congr fun d _ => ?_
  by_cases hname : d.name = name
  · simp [keep, forgets, Option.guard, hname]
  · simp [keep, forgets, Option.guard, hname, Ne.symm hname]

/-- An alias of a name that is not declared marks nothing. -/
theorem use_of_not_declares (h : declares s name = false) : use s name = s := by
  unfold use
  refine (List.map_congr_left fun d hd => ?_).trans (List.map_id' s)
  exact if_neg (List.any_eq_false.1 h d hd)

/-- A step keeps and adds what its token says. -/
theorem check_snd (config : Config) (w : Window) (s : State) :
    (check config w s).2 = s.filterMap (keep w.token.kind) ++ added w.token := by
  show (checkName config w.token (if forgets w.token.kind = true then [] else s)).2 = _
  unfold checkName added
  cases hkind : w.token.kind with
  | aliasRef name =>
    simp only [forgets, Bool.false_eq_true, if_false, List.append_nil, filterMap_keep_aliasRef]
    cases hdeclared : declares s name with
    | true => rfl
    | false =>
      rw [use_of_not_declares hdeclared, if_neg Bool.false_ne_true]
      split <;> rfl
  | anchor name => simp [forgets, declare, filterMap_keep_anchor]
  | streamStart | documentStart | documentEnd =>
    rw [keep_of_forgets rfl, List.filterMap_none]
    rfl
  | _ =>
    rw [keep_of_other rfl (by simp) (by simp), List.filterMap_some]
    simp [forgets]

theorem stateBehind_eq (config : Config) (buffer : List UInt8) (hn : n ≤ tokens.length) :
    (rule config).stateBehind (windows buffer tokens) n = remembered tokens n := by
  refine TokenRule.stateBehind_induct (r := rule config) (P := fun n s => s = remembered tokens n)
    rfl ?_ ?_
  · rintro n w s hw rfl
    obtain ⟨-, ht, -⟩ := getElem?_windows hw
    rw [remembered_succ ht]
    exact check_snd config w _
  · rw [length_windows]
    exact hn

/-- What a token is told of by its name. -/
theorem checkName_remembered (config : Config) (tokens : List Token) (i : Nat) (t : Token) :
    (checkName config t (if forgets t.kind = true then [] else remembered tokens i)).1 =
      misnamed config tokens i t := by
  unfold checkName misnamed
  cases hkind : t.kind with
  | aliasRef name =>
    simp only [forgets, Bool.false_eq_true, if_false]
    by_cases hearlier : Introduced tokens i name
    · simp [hearlier, declares_remembered.2 hearlier]
    · have hdeclares := Bool.eq_false_iff.2 (mt declares_remembered.1 hearlier)
      rw [hdeclares]
      cases hforbid : config.forbidUndeclaredAliases <;> simp [hearlier]
  | anchor name =>
    simp only [forgets, Bool.false_eq_true, if_false, Bool.and_eq_true, declares_remembered]
  | _ => rfl

/-- The anchors without an alias are those that are remembered as not used. -/
theorem unused_remembered (tokens : List Token) (n : Nat) :
    ((remembered tokens n).filter (!·.used)).map (fun d => finding "unused anchor" d.name d.mark) =
      idle tokens n := by
  unfold remembered idle entry
  rw [← List.filterMap_eq_filter, ← List.filterMap_eq_map, List.filterMap_filterMap,
    List.filterMap_filterMap]
  refine List.filterMap_congr fun j _ => ?_
  rw [bind_atAnchor]
  refine atAnchor_congr fun name start => ?_
  by_cases hnewest : Newest tokens n j name
  · by_cases hreferred : Referred tokens n j name
    · simp [hnewest, hreferred, Option.guard]
    · simp [hnewest, hreferred, Option.guard]
  · simp [hnewest]

/-! ## The tokens of a source -/

/-- In a scan without an error the start of the stream stands nowhere but in front, and its end
nowhere but at the end. -/
theorem kindAt_scan {source : String} (h : (scan source).error = none) (i : Nat) :
    (kindAt (scan source).tokens i = some .streamStart → i = 0) ∧
      (kindAt (scan source).tokens i = some .streamEnd ↔ i + 1 = (scan source).tokens.length) := by
  have herror : (scanText source.toList).error = none := h
  obtain ⟨ts, last, htokens, ⟨first, inner, rfl, hfirst, hinner⟩, hlast⟩ :=
    ScanState.framed_scanText herror
  rw [show (scan source).tokens = _ from htokens]
  unfold kindAt
  rcases Nat.lt_trichotomy i (inner.length + 1) with hi | rfl | hi
  · rw [List.getElem?_append_left (by simpa using hi)]
    cases i with
    | zero => simp [hfirst]
    | succ i =>
      have hmark := hinner _ (List.getElem_mem (Nat.lt_of_succ_lt_succ hi))
      rw [List.getElem?_cons_succ, List.getElem?_eq_getElem (Nat.lt_of_succ_lt_succ hi)]
      generalize inner[i] = t at hmark
      constructor
      · intro hkind
        rw [Option.some.inj hkind] at hmark
        cases hmark
      · constructor
        · intro hkind
          rw [Option.some.inj hkind] at hmark
          cases hmark
        · intro hlength
          simp only [List.length_append, List.length_cons, List.length_nil] at hlength
          omega
  · simp [hlast]
  · have hlength : (first :: inner ++ [last]).length = inner.length + 2 := by simp
    rw [List.getElem?_eq_none (by omega)]
    simp only [Option.map_none, reduceCtorEq, false_implies, false_iff, true_and]
    omega

/-- Every token but the end of the stream belongs to one segment, and that has one end. -/
theorem existsUnique_end (hend : ∀ i, kindAt tokens i = some .streamEnd ↔ i + 1 = tokens.length)
    (hj : j + 1 < tokens.length) :
    ∃! i, j ≤ i ∧ Joined tokens j (i + 1) ∧ EndsSegment tokens i := by
  have hexists : ∃ i, j ≤ i ∧ EndsSegment tokens i :=
    ⟨tokens.length - 2, by omega, .inr ((hend _).2 (by omega))⟩
  let i := Nat.find hexists
  obtain ⟨hle, hends⟩ := Nat.find_spec hexists
  refine ⟨i, ⟨hle, ?_, hends⟩, ?_⟩
  · -- a segment that begins in between would have been ended before
    intro m hm hjm
    refine Bool.eq_false_iff.2 fun hforgets => Nat.find_min hexists (m := m - 1) (by omega) ?_
    refine ⟨by omega, .inl ?_⟩
    rw [Nat.sub_add_cancel (by omega)]
    exact hforgets
  · rintro k ⟨hjk, hjoined, hends'⟩
    have hik : i ≤ k := Nat.find_min' hexists ⟨hjk, hends'⟩
    rcases Nat.lt_or_eq_of_le hik with hlt | heq
    · rcases hends with hforgets | hstop
      · have hnot := hjoined (i + 1) (by omega) (by omega)
        rw [hforgets] at hnot
        cases hnot
      · -- the end of the stream has nothing behind it
        have hlast := (hend _).1 hstop
        have hnone : kindAt tokens (k + 1) = none := by
          unfold kindAt
          rw [List.getElem?_eq_none (by omega)]
          rfl
        rcases hends' with h | h <;> rw [hnone] at h <;> cases h
    · exact heq.symm

/-- What the rule finds at the end of a segment, where that is not the start of another stream. -/
theorem unused_of_ends (hstart : ∀ i, kindAt tokens i = some .streamStart → i = 0) (i : Nat) :
    unused config tokens[i + 1]? (remembered tokens (i + 1)) =
      if config.forbidUnusedAnchors = true ∧ EndsSegment tokens i then idle tokens (i + 1)
      else [] := by
  have hends : tokens[i + 1]?.any (endsDocument ·.kind) = true ↔ EndsSegment tokens i := by
    have hnot : kindAt tokens (i + 1) ≠ some .streamStart := fun h => by cases hstart _ h
    unfold EndsSegment
    unfold kindAt at hnot ⊢
    cases htoken : tokens[i + 1]? with
    | none => simp
    | some t =>
      rw [htoken] at hnot
      cases hkind : t.kind <;> simp_all [forgets, endsDocument]
  unfold unused
  rw [unused_remembered]
  simp only [Bool.and_eq_true, hends]

theorem run_eq_misuses (config : Config) (buffer : List UInt8)
    (hstart : ∀ i, kindAt tokens i = some .streamStart → i = 0) :
    (rule config).run (windows buffer tokens) = tokens.mapIdx (misuses config tokens) := by
  refine List.ext_getElem? fun i => ?_
  rw [TokenRule.getElem?_run, List.getElem?_mapIdx]
  cases hw : (windows buffer tokens)[i]? with
  | none =>
    have hi := List.getElem?_eq_none_iff.1 hw
    rw [length_windows] at hi
    rw [List.getElem?_eq_none hi]
    rfl
  | some w =>
    obtain ⟨-, ht, hnext⟩ := getElem?_windows hw
    have hi := (List.getElem?_eq_some_iff.1 ht).1
    have hstate : (check config w (remembered tokens i)).2 = remembered tokens (i + 1) := by
      rw [check_snd, remembered_succ ht]
    rw [ht, stateBehind_eq config buffer (Nat.le_of_lt hi)]
    show some ((checkName config w.token _).1 ++ unused config w.next
      (check config w (remembered tokens i)).2) = _
    rw [checkName_remembered, hstate, hnext, unused_of_ends hstart]
    rfl

/-- What the rule on anchors finds in a source that scans without an error, for any options. At each
token it finds what is wrong with its name, and at the last token of a segment the anchors of the
segment that no alias refers to. Every anchor belongs to one segment with one last token. -/
theorem finds_just_misuses (config : Config) (source : String) (h : (scan source).error = none) :
    (rule config).run (windows (Text.bytes source.toList) (scan source).tokens) =
        (scan source).tokens.mapIdx (misuses config (scan source).tokens) ∧
      ∀ j name, kindAt (scan source).tokens j = some (.anchor name) →
        ∃! i, j ≤ i ∧ Joined (scan source).tokens j (i + 1) ∧
          EndsSegment (scan source).tokens i := by
  have hkinds := kindAt_scan h
  refine ⟨run_eq_misuses config _ fun i => (hkinds i).1, fun j name hkind => ?_⟩
  refine existsUnique_end (fun i => (hkinds i).2) ?_
  obtain ⟨t, ht, -⟩ := Option.map_eq_some_iff.1 hkind
  have hlt := (List.getElem?_eq_some_iff.1 ht).1
  have hne : j + 1 ≠ (scan source).tokens.length := fun hlast => by
    have hend := (hkinds j).2.2 hlast
    rw [hkind] at hend
    cases hend
  omega

/-- Two documents. The first declares `a` twice and refers to `b` only; what it declares is not known
in the second. -/
theorem finds_just_misuses_twoDocuments :
    let source := "- &a 1\n- &a 2\n- &b 3\n- *b\n---\n- *a\n"
    let config : Config := ⟨true, true, true⟩
    (scan source).error = none ∧
      ((rule config).run (windows (Text.bytes source.toList) (scan source).tokens)).flatten =
        [⟨2, 3, "found duplicated anchor \"a\""⟩, ⟨2, 3, "found unused anchor \"a\""⟩,
          ⟨6, 3, "found undeclared alias \"a\""⟩] := by
  intro source config
  have herror : (scan source).error = none := by decide +kernel
  refine ⟨herror, ?_⟩
  rw [(finds_just_misuses config source herror).1]
  decide +kernel

end YamlLinter.Anchors
