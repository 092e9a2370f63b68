import YamlLinter.Config
import YamlLinter.Proofs.Adjacency
import YamlLinter.Proofs.Directives

/-!
# Problems on a line that is switched off

A directive for one line acts on what is found at the tokens that start on the line. A rule can tell
of another line than that of its token: the lines of a scalar behind its first are looked at with the
scalar, the content of a `?` may stand below it, and an anchor is known to be unused only when its
document ends. What a rule tells of a line in one of these ways passes a directive for that line.

## Contents

* `Finding.At`: a finding that is told of the place of a mark;
* `Indentation.at_of_mem_check`, `KeyDuplicates.at_of_mem_check`, `Anchors.at_of_mem_check`: the places
  that a rule tells of at one token;
* `IsBuiltin`: the rules that a configuration can ask for;
* `Strays`: the ways in which a rule tells of another line than that of its token;
* `strays_of_ne`: there are no others;
* `lint_on_skipped_line`: what is told of a line that is switched off.
-/

namespace YamlLinter

variable {buffer : List UInt8} {tokens : List Token} {w : Window} {f : Finding}

/-! ## One token -/

/-- The finding is told of the place of the mark. -/
structure Finding.At (f : Finding) (m : Mark) : Prop where
  line : f.line = m.line + 1
  column : f.column = m.column + 1

namespace Indentation

variable {config : Config} {s : State}

theorem place_of_mem_compareIndent {line : Nat} {found expected : Int}
    (h : f ∈ compareIndent line found expected) : f.line = line ∧ f.column = found.toNat + 1 := by
  unfold compareIndent at h
  split at h
  · cases h
  · rw [List.mem_singleton.1 h]
    exact ⟨rfl, rfl⟩

theorem at_of_mem_checkStart {t : Token} {fs : List Finding} {s' : State}
    (hstart : s.checkStart t = some (fs, s')) (h : f ∈ fs) : f.At t.start := by
  obtain ⟨-, rfl | ⟨expected, rfl⟩⟩ := State.checkStart_cases hstart
  · cases h
  · obtain ⟨hline, hcolumn⟩ := place_of_mem_compareIndent h
    exact ⟨hline, hcolumn⟩

theorem place_of_mem_checkScalar {t : Token} {fs : List Finding} {s' : State}
    (hscalar : s.checkScalar config buffer t = some (fs, s')) (h : f ∈ fs) :
    config.checkMultiLine = true ∧ t.isScalar = true ∧
      ∃ indent, (f.line, indent) ∈ continuationLines buffer t ∧ f.column = indent + 1 := by
  obtain ⟨-, rfl | ⟨hasked, hkind, expected, rfl⟩⟩ := State.checkScalar_cases hscalar
  · cases h
  · obtain ⟨⟨number, indent⟩, hmem, h⟩ := List.mem_flatMap.1 h
    obtain ⟨hline, hcolumn⟩ := place_of_mem_compareIndent h
    rw [hline]
    exact ⟨hasked, hkind, indent, hmem, hcolumn⟩

/-- The rule tells of the start of a token, and of the lines behind the first of a scalar, at the
indent of each. -/
theorem at_of_mem_check (h : f ∈ (check config w s).1) :
    f.At w.token.start ∨
      config.checkMultiLine = true ∧ w.token.isScalar = true ∧
        ∃ indent, (f.line, indent) ∈ continuationLines w.buffer w.token ∧
          f.column = indent + 1 := by
  have hstep : f ∈ (s.step config w).1 ∨ f = cannotInfer w.token := by
    unfold check at h
    simp only at h
    split at h
    · exact .inl h
    · simpa using h
  rcases hstep with hstep | rfl
  · unfold State.step at hstep
    split at hstep
    · cases hstep
    · rename_i hstart
      split at hstep
      · exact .inl (at_of_mem_checkStart hstart hstep)
      · rename_i hscalar
        rcases List.mem_append.1 hstep with hstep | hstep
        · exact .inl (at_of_mem_checkStart hstart hstep)
        · exact .inr (place_of_mem_checkScalar hscalar hstep)
  · exact .inl ⟨rfl, rfl⟩

end Indentation

namespace KeyDuplicates

variable {config : Config} {s : State}

theorem at_of_mem_checkKey {next : Option Token} (h : f ∈ (checkKey config next s).1) :
    ∃ t, next = some t ∧ t.isScalar = true ∧ f.At t.start := by
  unfold checkKey at h
  split at h
  · rename_i t keys outer
    split at h
    · rename_i key hvalue
      have hscalar : t.isScalar = true := by
        unfold Token.scalarValue? at hvalue
        split at hvalue
        · rename_i hkind
          simp [Token.isScalar, Token.scalarStyle?, hkind]
        · cases hvalue
      refine ⟨t, rfl, hscalar, ?_⟩
      split at h
      · split at h
        · cases h
        · rw [List.mem_singleton.1 h]
          exact ⟨rfl, rfl⟩
      · cases h
    · cases h
  · cases h

/-- The rule tells of the start of the scalar behind a key. -/
theorem at_of_mem_check (h : f ∈ (check config w s).1) :
    w.token.kind = .key ∧
      ∃ next, w.next = some next ∧ next.isScalar = true ∧ f.At next.start := by
  unfold check at h
  split at h
  case h_8 hkey => exact ⟨hkey, at_of_mem_checkKey h⟩
  all_goals cases h

end KeyDuplicates

namespace Anchors

variable {config : Config} {s : State} {ws : List Window}

/-- The rule tells of the start of a token, and at the end of a document of those at which unused
anchors were declared. -/
theorem at_of_mem_check (h : f ∈ (check config w s).1) :
    f.At w.token.start ∨
      config.forbidUnusedAnchors = true ∧ w.next.any (endsDocument ·.kind) = true ∧
        ∃ d ∈ (check config w s).2, f.At d.mark := by
  have hname : ∀ s₁, f ∈ (checkName config w.token s₁).1 → f.At w.token.start := by
    intro s₁ hf
    unfold checkName at hf
    split at hf
    · split at hf
      · cases hf
      · split at hf
        · rw [List.mem_singleton.1 hf]
          exact ⟨rfl, rfl⟩
        · cases hf
    · simp only at hf
      split at hf
      · rw [List.mem_singleton.1 hf]
        exact ⟨rfl, rfl⟩
      · cases hf
    · cases hf
  rcases List.mem_append.1 h with h | h
  · exact .inl (hname _ h)
  · right
    unfold unused at h
    split at h
    · rename_i hasked
      obtain ⟨hasked, hends⟩ := Bool.and_eq_true_iff.1 hasked
      obtain ⟨d, hd, rfl⟩ := List.mem_map.1 h
      exact ⟨hasked, hends, d, (List.mem_filter.1 hd).1, ⟨rfl, rfl⟩⟩
    · cases h

/-- An anchor that is known behind a token was known before, or is the token. -/
theorem mem_of_mem_check {d : Declared} (h : d ∈ (check config w s).2) :
    (∃ e ∈ s, e.name = d.name ∧ e.mark = d.mark) ∨
      w.token.kind = .anchor d.name ∧ w.token.start = d.mark := by
  have hforget : ∀ e ∈ (if forgets w.token.kind then [] else s), e ∈ s := by
    intro e he
    split at he
    · cases he
    · exact he
  unfold check at h
  simp only at h
  generalize (if forgets w.token.kind then [] else s) = s₁ at h hforget
  unfold checkName at h
  split at h
  · split at h
    · obtain ⟨e, he, rfl⟩ := List.mem_map.1 h
      refine .inl ⟨e, hforget e he, ?_⟩
      split <;> exact ⟨rfl, rfl⟩
    · split at h <;> exact .inl ⟨d, hforget d h, rfl, rfl⟩
  · rename_i name hkind
    rcases List.mem_append.1 h with h | h
    · exact .inl ⟨d, hforget d (List.mem_filter.1 h).1, rfl, rfl⟩
    · rw [List.mem_singleton.1 h]
      exact .inr ⟨hkind, rfl⟩
  · exact .inl ⟨d, hforget d h, rfl, rfl⟩

/-- All anchors of a state are tokens that do not start behind the given windows. -/
def Known (tokens : List Token) (ws : List Window) (s : State) : Prop :=
  ∀ d ∈ s, ∃ t ∈ tokens, t.kind = .anchor d.name ∧ t.start = d.mark ∧
    ∀ w ∈ ws, t.start.line ≤ w.token.start.line

theorem Known.check (h : Known tokens (w :: ws) s) (htoken : w.token ∈ tokens)
    (hbehind : ∀ v ∈ ws, w.token.start.line ≤ v.token.start.line) :
    Known tokens (w :: ws) (check config w s).2 := by
  intro d hd
  rcases mem_of_mem_check hd with ⟨e, he, hname, hmark⟩ | ⟨hkind, hstart⟩
  · rw [← hname, ← hmark]
    exact h e he
  · refine ⟨w.token, htoken, hkind, hstart, ?_⟩
    intro v hv
    rcases List.mem_cons.1 hv with rfl | hv
    · exact Nat.le_refl _
    · exact hbehind v hv

end Anchors

/-! ## The rules of a configuration -/

/-- The rules that a configuration can ask for. -/
inductive IsBuiltin : TokenRule → Prop
  | anchors (c : Anchors.Config) : IsBuiltin (Anchors.rule c)
  | indentation (c : Indentation.Config) : IsBuiltin (Indentation.rule c)
  | keyDuplicates (c : KeyDuplicates.Config) : IsBuiltin (KeyDuplicates.rule c)

theorem isBuiltin_build {b : Builtin} {options : Options} {r : TokenRule}
    (h : b.build options = .ok r) : IsBuiltin r := by
  unfold Builtin.build at h
  cases b with
  | anchors =>
    cases hoptions : Options.anchors options with
    | error e => simp [hoptions, Except.map] at h
    | ok c =>
      simp only [hoptions, Except.map, Except.ok.injEq] at h
      exact h ▸ .anchors c
  | indentation =>
    cases hoptions : Options.indentation options with
    | error e => simp [hoptions, Except.map] at h
    | ok c =>
      simp only [hoptions, Except.map, Except.ok.injEq] at h
      exact h ▸ .indentation c
  | keyDuplicates =>
    cases hoptions : Options.keyDuplicates options with
    | error e => simp [hoptions, Except.map] at h
    | ok c =>
      simp only [hoptions, Except.map, Except.ok.injEq] at h
      exact h ▸ .keyDuplicates c

theorem isBuiltin_buildAll {es : List LintConfig.Enabled} {rules : List (TokenRule × Level)}
    (h : LintConfig.buildAll es = .ok rules) : ∀ r ∈ rules, IsBuiltin r.1 := by
  induction es generalizing rules with
  | nil =>
    cases h
    intro r hr
    cases hr
  | cons e es ih =>
    unfold LintConfig.buildAll at h
    split at h
    · cases h
    · rename_i rule hbuild
      split at h
      · cases h
      · rename_i hrest
        cases h
        intro r hr
        rcases List.mem_cons.1 hr with rfl | hr
        · exact isBuiltin_build hbuild
        · exact ih hrest r hr

/-- A configuration asks for built-in rules only, and all of these look at tokens. -/
theorem Linter.isBuiltin_ofConfig {config : LintConfig} {l : Linter}
    (h : Linter.ofConfig config = .ok l) :
    l.commentRules = [] ∧ l.lineRules = [] ∧ ∀ r ∈ l.tokenRules, IsBuiltin r.1 := by
  unfold Linter.ofConfig at h
  split at h
  · cases h
  · split at h
    · cases h
    · rename_i hrules
      cases h
      exact ⟨rfl, rfl, isBuiltin_buildAll hrules⟩

/-! ## Other lines -/

/-- The ways in which a rule can tell at a token of another line than that on which the token starts:
a line of a scalar behind its first, the line of the scalar below a `?`, and the line of an unused
anchor before the last token of its document. -/
inductive Strays (source : List Char) (w : Window) (line : Nat) : TokenRule → Prop
  | scalar {c : Indentation.Config} {indent : Nat} (hasked : c.checkMultiLine = true)
      (hscalar : w.token.isScalar = true)
      (hline : (line, indent) ∈ Indentation.continuationLines w.buffer w.token) :
      Strays source w line (Indentation.rule c)
  | key {c : KeyDuplicates.Config} {next : Token} (hkey : w.token.kind = .key)
      (hmark : Announced source w.token) (hnext : w.next = some next)
      (hscalar : next.isScalar = true) (hbelow : w.token.start.line < next.start.line)
      (hline : next.start.line + 1 = line) : Strays source w line (KeyDuplicates.rule c)
  | anchor {c : Anchors.Config} {t : Token} {name : String} (hasked : c.forbidUnusedAnchors = true)
      (hends : w.next.any (Anchors.endsDocument ·.kind) = true)
      (hmem : t ∈ (scanText source).tokens) (hkind : t.kind = .anchor name)
      (habove : t.start.line < w.token.start.line) (hline : t.start.line + 1 = line) :
      Strays source w line (Anchors.rule c)

section Scanned

variable {source : List Char}

/-- The tokens of a scan have what they ask of those behind them. -/
theorem joined_scanText (herror : (scanText source).error = none) :
    Joined source 0 (scanText source).tokens := by
  obtain ⟨s, hrun, hends⟩ := ScanState.run_scanText source
  unfold ScanState.Ends at hends
  rw [herror] at hends
  obtain ⟨-, hqueue, -⟩ := hends
  simpa [hqueue] using (ScanState.joined_run hrun).1

/-- Only the content of a `?` can stand on a line below its key. -/
theorem announced_of_below (herror : (scanText source).error = none)
    (hw : w ∈ windows (Text.bytes source) (scanText source).tokens) (hkey : w.token.kind = .key)
    {next : Token} (hnext : w.next = some next) (hne : next.start.line ≠ w.token.start.line) :
    Announced source w.token ∧ w.token.start.line < next.start.line := by
  obtain ⟨⟨c, hlaid⟩, -⟩ := laid_scanText herror
  obtain ⟨xs, rest, hsplit, hrest⟩ := exists_split_of_mem_windowsFrom hw
  obtain ⟨us, rfl⟩ : ∃ us, rest = next :: us := by
    rw [hnext] at hrest
    exact List.head?_eq_some_iff.1 hrest.symm
  have hjoined := joined_scanText herror
  rw [hsplit] at hjoined
  constructor
  · rcases hjoined.behind.1.key hkey with hmark | ⟨-, ⟨u, vs, hvs, -, hstart⟩, -⟩
    · exact hmark
    · cases hvs
      rw [hstart] at hne
      exact absurd rfl hne
  · have hsorted := hlaid.pairwise_line
    rw [hsplit, List.pairwise_append] at hsorted
    have hle := (List.pairwise_cons.1 hsorted.2.1).1 next List.mem_cons_self
    omega

/-- One step of the rule for anchors: what it finds is on the line of the token or strays, and all
anchors that it knows are tokens. -/
theorem strays_check_anchors {c : Anchors.Config} {s : Anchors.State} {ws : List Window}
    (htoken : w.token ∈ (scanText source).tokens)
    (hbehind : ∀ v ∈ ws, w.token.start.line ≤ v.token.start.line)
    (hknown : Anchors.Known (scanText source).tokens (w :: ws) s) :
    (∀ f ∈ (Anchors.check c w s).1, f.line ≠ w.token.start.line + 1 →
        Strays source w f.line (Anchors.rule c)) ∧
      Anchors.Known (scanText source).tokens ws (Anchors.check c w s).2 := by
  have hkept : Anchors.Known (scanText source).tokens (w :: ws) (Anchors.check c w s).2 :=
    hknown.check htoken hbehind
  constructor
  · intro f hf hne
    rcases Anchors.at_of_mem_check hf with hat | ⟨hasked, hends, d, hd, hat⟩
    · exact absurd hat.line hne
    · obtain ⟨t, ht, hkind, hstart, hlines⟩ := hkept d hd
      have hle := hlines w List.mem_cons_self
      have hline := hat.line
      rw [← hstart] at hline
      exact .anchor hasked hends ht hkind (by omega) hline.symm
  · intro d hd
    obtain ⟨t, ht, hkind, hstart, hlines⟩ := hkept d hd
    exact ⟨t, ht, hkind, hstart, fun v hv => hlines v (List.mem_cons_of_mem w hv)⟩

/-- What a built-in rule finds at a token is on the line of the token, or strays. -/
theorem strays_of_ne (herror : (scanText source).error = none) {r : TokenRule} (hr : IsBuiltin r)
    {ws : List Window} (hws : windows (Text.bytes source) (scanText source).tokens = ws)
    {fs : List Finding} (hfs : (w, fs) ∈ ws.zip (r.run ws)) (hf : f ∈ fs)
    (hne : f.line ≠ w.token.start.line + 1) : Strays source w f.line r := by
  have hmem : w ∈ windows (Text.bytes source) (scanText source).tokens :=
    hws ▸ (List.of_mem_zip hfs).1
  cases hr with
  | indentation c =>
    have hfound := TokenRule.forall_runFrom (r := Indentation.rule c) (I := fun _ _ => True)
      (fun w ws s _ => ⟨fun f => Indentation.at_of_mem_check, trivial⟩) trivial _ hfs f hf
    rcases hfound with hat | ⟨hasked, hscalar, indent, hline, -⟩
    · exact absurd hat.line hne
    · exact .scalar hasked hscalar hline
  | keyDuplicates c =>
    have hfound := TokenRule.forall_runFrom (r := KeyDuplicates.rule c) (I := fun _ _ => True)
      (fun w ws s _ => ⟨fun f => KeyDuplicates.at_of_mem_check, trivial⟩) trivial _ hfs f hf
    obtain ⟨hkey, next, hnext, hscalar, hat⟩ := hfound
    have hline := hat.line
    have hbelow : next.start.line ≠ w.token.start.line := by omega
    obtain ⟨hmark, hlt⟩ := announced_of_below herror hmem hkey hnext hbelow
    exact .key hkey hmark hnext hscalar hlt hline.symm
  | anchors c =>
    obtain ⟨⟨_, hlaid⟩, -⟩ := laid_scanText herror
    have htokens : ws.map Window.token = (scanText source).tokens :=
      hws ▸ map_token_windowsFrom _ _ _
    have hsorted : ws.Pairwise fun v w => v.token.start.line ≤ w.token.start.line := by
      have hlines := hlaid.pairwise_line
      rwa [← htokens, List.pairwise_map] at hlines
    -- a window that is left is one of all, and the tokens of those behind it start below
    have hstep : ∀ w vs (s : Anchors.State),
        (w :: vs <:+ ws ∧ Anchors.Known (scanText source).tokens (w :: vs) s) →
          (∀ f ∈ (Anchors.check c w s).1, f.line ≠ w.token.start.line + 1 →
              Strays source w f.line (Anchors.rule c)) ∧
            vs <:+ ws ∧ Anchors.Known (scanText source).tokens vs (Anchors.check c w s).2 := by
      rintro w vs s ⟨hsuffix, hknown⟩
      have htoken : w.token ∈ (scanText source).tokens :=
        htokens ▸ List.mem_map_of_mem (hsuffix.mem List.mem_cons_self)
      have hbehind := (List.pairwise_cons.1 (hsorted.sublist hsuffix.sublist)).1
      obtain ⟨hfound, hkept⟩ := strays_check_anchors htoken hbehind hknown
      exact ⟨hfound, (List.suffix_cons w vs).trans hsuffix, hkept⟩
    have hstart : Anchors.Known (scanText source).tokens ws [] := by
      intro d hd
      cases hd
    exact TokenRule.forall_runFrom (r := Anchors.rule c)
      (I := fun vs s => vs <:+ ws ∧ Anchors.Known (scanText source).tokens vs s)
      (P := fun w f => f.line ≠ w.token.start.line + 1 → Strays source w f.line (Anchors.rule c))
      hstep ⟨List.suffix_refl ws, hstart⟩ (w, fs) hfs f hf hne

/-- What is found on a line was found by a rule at a token that starts there. -/
theorem exists_finding_of_foundOn {l : Linter} (hcomments : l.commentRules = [])
    (hlines : l.lineRules = []) {n : Nat} {p : Problem} (h : p ∈ l.foundOn source n)
    {ws : List Window} (hws : windows (Text.bytes source) (scanText source).tokens = ws) :
    ∃ r ∈ l.tokenRules, ∃ w fs f, (w, fs) ∈ ws.zip (r.1.run ws) ∧ f ∈ fs ∧
      w.token.start.line + 1 = n ∧ p = f.tag r.1.id r.2 := by
  have htokens : ws.map Window.token = (scanText source).tokens := hws ▸ map_token_windowsFrom _ _ _
  unfold Linter.foundOn at h
  rw [hcomments, hlines, hws, ← htokens] at h
  simp only [List.flatMap_nil, List.append_nil, List.mem_flatMap] at h
  obtain ⟨r, hr, h⟩ := h
  unfold foundAt Linter.ruleProblems at h
  rw [List.zip_map, List.mem_flatMap] at h
  obtain ⟨x, hx, hp⟩ := h
  obtain ⟨hx, hn⟩ := List.mem_filter.1 hx
  obtain ⟨⟨w, fs⟩, hfs, rfl⟩ := List.mem_map.1 hx
  obtain ⟨f, hf, rfl⟩ := List.mem_map.1 hp
  exact ⟨r, hr, w, fs, f, hfs, hf, eq_of_beq hn, rfl⟩

end Scanned

/-- Of a line on which a directive for that line switches a rule off, a linter for a configuration
tells just what the rule finds at tokens on other lines, where it is shown; and at these it strays. So
nothing is told of the line that is found at a token on it. This holds in every source that can be
scanned, if only line feeds, alone or behind a carriage return, end its lines. -/
theorem lint_on_skipped_line {config : LintConfig} {l : Linter}
    (hl : Linter.ofConfig config = .ok l) {source : String} (herror : (scan source).error = none)
    (hfeed : ∀ i, endsLineAt source.toList i = true → source.toList[i]? = some '\n')
    {rule : String} {line : Nat} (hskip : skipped (directives (scan source).comments) line rule = true)
    {p : Problem} (hrule : p.rule = some rule) (hline : p.line = line) :
    p ∈ l.lint source ↔ fileDisabled source.toList = false ∧
      ∃ n, p ∈ l.foundOn source.toList n ∧ shown (scan source).comments n rule = true ∧
        ∃ r ∈ l.tokenRules, r.1.id = rule ∧
          ∃ w ∈ windows (Text.bytes source.toList) (scan source).tokens,
            w.token.start.line + 1 = n ∧ n ≠ line ∧ Strays source.toList w line r.1 := by
  have hshown : ∀ n, p.shown (scan source).comments n = shown (scan source).comments n rule := by
    intro n
    simp [Problem.shown, hrule]
  by_cases hfile : fileDisabled source.toList = true
  · simp [Linter.lint, Linter.lintText, hfile]
  · have hfile : fileDisabled source.toList = false := Bool.eq_false_iff.2 hfile
    unfold Linter.lint
    rw [mem_lintText_iff hfile herror hfeed]
    constructor
    · rintro ⟨n, hp, hn⟩
      rw [show (scanText source.toList).comments = (scan source).comments from rfl, hshown n] at hn
      have hne : n ≠ line := by
        rintro rfl
        simp [shown, hskip] at hn
      obtain ⟨hcomments, hlines, hbuiltin⟩ := Linter.isBuiltin_ofConfig hl
      obtain ⟨r, hr, w, fs, f, hfs, hf, hw, rfl⟩ := exists_finding_of_foundOn hcomments hlines hp rfl
      subst hline
      have hstrays := strays_of_ne herror (hbuiltin r hr) rfl hfs hf (by rw [hw]; exact hne.symm)
      exact ⟨hfile, n, hp, hn, r, hr, Option.some.inj hrule, w, (List.of_mem_zip hfs).1, hw, hne,
        hstrays⟩
    · rintro ⟨-, n, hp, hn, -⟩
      exact ⟨n, hp, (hshown n).trans hn⟩

/-- The second line of the quoted scalar is switched off, and still told to be indented wrongly. -/
theorem lint_on_skipped_line_scalar :
    let source := "a: \"x\n y\" # yamlstyle disable-line rule:indentation\n"
    let config : LintConfig :=
      ⟨[(Indentation.id, .options [("check-multi-line-strings", .bool true)])]⟩
    let l : Linter := ⟨[(Indentation.rule ⟨.consistent, .always, true⟩, .error)], [], []⟩
    let p : Problem :=
      ⟨2, 2, "wrong indentation: expected 4 but found 1", some Indentation.id, .error⟩
    Linter.ofConfig config = .ok l ∧ (scan source).error = none ∧
      skipped (directives (scan source).comments) 2 Indentation.id = true ∧ p ∈ l.lint source ∧
      ∃ r ∈ l.tokenRules, ∃ w ∈ windows (Text.bytes source.toList) (scan source).tokens,
        w.token.start.line + 1 ≠ 2 ∧ Strays source.toList w 2 r.1 := by
  intro source config l p
  have hl : Linter.ofConfig config = .ok l := by rfl
  have herror : (scan source).error = none := by decide +kernel
  have hfeed : ∀ i, endsLineAt source.toList i = true → source.toList[i]? = some '\n' :=
    feeds_of_lt (by decide +kernel)
  have hskip : skipped (directives (scan source).comments) 2 Indentation.id = true := by
    decide +kernel
  have hfile : fileDisabled source.toList = false := by decide +kernel
  have hp : p ∈ l.lint source :=
    (mem_lintText_iff hfile herror hfeed).2 ⟨1, by decide +kernel, by decide +kernel⟩
  have hiff := lint_on_skipped_line hl herror hfeed hskip (p := p) rfl rfl
  obtain ⟨-, n, -, -, r, hr, -, w, hw, hn, hne, hstrays⟩ := hiff.1 hp
  exact ⟨hl, herror, hskip, hp, r, hr, w, hw, by omega, hstrays⟩

end YamlLinter
