import Mathlib.Logic.Function.Iterate
import YamlLinter.Proofs.Coverage

/-!
# A scan always ends

The scanner reads ahead in one loop, and a scan asks it for tokens in another. Here both loops are
told step by step, with the number of fetches they make and without a measure that would stop them.
A fetch reads a character, ends the stream or fails. So both loops end, and a text of `n` characters
takes at most `n + 1` fetches.

## Contents

* `Fetched.advances`, `fetch_advances`: one lexeme, and one fetch;
* `Reachable`: all states that a scanner of a text can be in;
* `Fills`, `Scans`: the two loops;
* `budget`, `fills_fill`, `scans_drain`: the loops end, and how many fetches they make;
* `next_drain`: what a scanner answers after the end;
* `scan_progresses_and_ends`: all of this for any text.
-/

namespace YamlLinter.ScanState

variable {s s' s₁ : ScanState} {e : ScanError} {text : List Char} {out : List Token}

/-! ## One fetch -/

/-- Reading a lexeme takes a character or ends the stream. -/
theorem Fetched.advances (h : Fetched s s') :
    s.cursor.Ahead s'.cursor ∧
      (s'.done = true ∨ s'.cursor.rest.length < s.cursor.rest.length) := by
  -- most lexemes are marks of a few characters
  have hmark : ∀ {s₁ : ScanState} {kind : TokenKind} {n : Nat}, s₁.cursor = s.cursor →
      s.cursor.rest ≠ [] → 0 < n → s.cursor.Ahead (s₁.pushMark kind n).cursor ∧
        ((s₁.pushMark kind n).done = true ∨
          (s₁.pushMark kind n).cursor.rest.length < s.cursor.rest.length) := by
    intro s₁ kind n hc hne hn
    have hreads : s.cursor.Reads ⟨kind, s.cursor.mark, (s.cursor.forward n).mark⟩
        (s.cursor.forward n) := .of_forward hne hn
    have hcursor : (s₁.pushMark kind n).cursor = s.cursor.forward n := by rw [← hc]; rfl
    rw [hcursor]
    exact ⟨hreads.ahead, .inr hreads.shorter⟩
  cases h with
  | streamEnd => exact ⟨by simpa [forgetKey] using .refl _, .inl rfl⟩
  | directive hne hd =>
    obtain ⟨hreads, -, -⟩ := Cursor.reads_directive hne hd
    exact ⟨hreads.ahead, .inr hreads.shorter⟩
  | marker hne => exact hmark (unwind_cursor s _) hne (by omega)
  | flowStart hne hs => cases hs <;> exact hmark rfl hne Nat.one_pos
  | flowEnd hne => exact hmark rfl hne Nat.one_pos
  | flowEntry hne => exact hmark rfl hne Nat.one_pos
  | @entry s₁ _ _ _ hne _ ho =>
    have hcursor : s₁.cursor = s.cursor := opened_cursor ho
    exact hmark hcursor hne Nat.one_pos
  | value hne => exact hmark (insertKey_cursor _ _) hne Nat.one_pos
  | keyable _ hreads => exact ⟨hreads.ahead, .inr hreads.shorter⟩
  | block _ hreads => exact ⟨hreads.ahead, .inr hreads.shorter⟩

/-- A fetch that succeeds takes a character or ends the stream, in whatever state. -/
theorem fetch_advances (h : s.fetch = (none, s')) :
    s.cursor.Ahead s'.cursor ∧
      (s'.done = true ∨ s'.cursor.rest.length < s.cursor.rest.length) := by
  obtain ⟨s₁, hr, hf⟩ := fetch_ok h
  obtain ⟨hahead, hless⟩ := hf.advances
  rw [hr.cursor] at hahead hless
  have hgap := s.ahead_skipGap
  refine ⟨hgap.trans hahead, hless.imp_right fun hlt => ?_⟩
  exact Nat.lt_of_lt_of_le hlt hgap.length_rest_le

/-- The states that a scanner of a text can be in: those between two steps of a run, those in which a
fetch has been asked for or refused, and those behind an error. -/
inductive Reachable (text : List Char) : ScanState → Prop where
  | run {out : List Token} {s : ScanState} : Run text out s → Reachable text s
  | asked {out : List Token} {b : Bool} {s s₁ : ScanState} : Run text out s →
      s.needsMore = .ok (b, s₁) → Reachable text s₁
  | failed {out : List Token} {e : ScanError} {s s' : ScanState} : Run text out s →
      s.Fault e s' → Reachable text { s' with failed := true }

theorem Reachable.ahead (h : Reachable text s) : (Cursor.ofText text).Ahead s.cursor := by
  cases h with
  | run h => exact (placed_run h).tokens.ahead
  | asked h hn => exact (placed_needs (placed_run h) (needsMore_ok hn)).tokens.ahead
  | failed h hf => exact (placed_fault h hf).1.tokens.ahead

/-- The characters read and those left are all characters of the text. -/
theorem pos_add_length_rest {c : Cursor} (h : (Cursor.ofText text).Ahead c) :
    c.pos + c.rest.length = text.length := by
  have hle := h.at_pos.le
  rw [h.rest_eq, List.length_drop]
  omega

/-! ## The two loops -/

/-- Reading ahead from a state: the number of fetches that are made, one that fails included, and how
it ends. -/
inductive Fills : ScanState → Nat → Option ScanError × ScanState → Prop where
  | enough {s s' : ScanState} : s.needsMore = .ok (false, s') → Fills s 0 (none, s')
  | stale {s : ScanState} {e : ScanError} : s.needsMore = .error e → Fills s 0 (some e, s)
  | fails {s s₁ s' : ScanState} {e : ScanError} : s.needsMore = .ok (true, s₁) →
      s₁.fetch = (some e, s') → Fills s 1 (some e, s')
  | fetches {s s₁ s' : ScanState} {n : Nat} {r : Option ScanError × ScanState} :
      s.needsMore = .ok (true, s₁) → s₁.fetch = (none, s') → Fills s' n r → Fills s (n + 1) r

/-- Asking for tokens until there are no more: the number of fetches that are made, the tokens, the
error if there is one, and the state that is left. -/
inductive Scans : ScanState → Nat → List Token → Option ScanError → ScanState → Prop where
  | exhausted {s s' : ScanState} {n : Nat} : s.failed = false → Fills s n (none, s') →
      s'.queue = [] → Scans s n [] none s'
  | error {s s' : ScanState} {n : Nat} {e : ScanError} : s.failed = false →
      Fills s n (some e, s') → Scans s n [] (some e) { s' with failed := true }
  | token {s s' last : ScanState} {m n : Nat} {t : Token} {queue ts : List Token}
      {e : Option ScanError} : s.failed = false → Fills s m (none, s') → s'.queue = t :: queue →
      Scans { s' with queue, taken := s'.taken + 1 } n ts e last → Scans s (m + n) (t :: ts) e last

/-- The number of fetches that a scanner can still make. -/
def budget (s : ScanState) : Nat := if s.done then 0 else s.cursor.rest.length + 1

theorem budget_needs {b : Bool} (h : Needs s b s₁) : s₁.budget = s.budget := by
  obtain ⟨keys, -, rfl⟩ := h.eq_keys
  rfl

/-- A fetch is paid for by a character or by the end of the stream. -/
theorem budget_fetch (hd : s.done = false) (hf : s.fetch = (none, s')) : s'.budget < s.budget := by
  obtain ⟨-, hdone | hlt⟩ := fetch_advances hf
  · simp [budget, hdone, hd]
  · unfold budget
    rw [hd]
    split <;> simp only [Bool.false_eq_true, if_false] <;> omega

/-- Reading ahead comes to an end, within what the scanner may still fetch. -/
theorem fills_fill (h : Run text out s) :
    ∃ n, Fills s n s.fill ∧
      n + (if s.fill.1.isSome then 0 else s.fill.2.budget) ≤ s.budget := by
  fun_induction fill s with
  | case1 s e he => exact ⟨0, .stale he, by simp⟩
  | case2 s s' hn =>
    have hsame := budget_needs (needsMore_ok hn)
    exact ⟨0, .enough hn, by simp [hsame]⟩
  | case3 s s₁ hn e s' hf =>
    have hneeds := needsMore_ok hn
    have hpos : 0 < s₁.budget := by simp [budget, hneeds.not_done rfl]
    rw [budget_needs hneeds] at hpos
    exact ⟨1, .fails hn hf, hpos⟩
  | case4 s s₁ hn s' hf hlt ih =>
    have hneeds := needsMore_ok hn
    have hless := budget_fetch (hneeds.not_done rfl) hf
    rw [budget_needs hneeds] at hless
    obtain ⟨n, hfills, hn'⟩ := ih (h.fetch hn hf)
    exact ⟨n + 1, .fetches hn hf hfills, by omega⟩
  | case5 s s₁ hn s' hf hlt => exact absurd (h.weight_lt hn hf) hlt

/-- A scan comes to an end, within what the scanner may still fetch. -/
theorem scans_drain (h : Run text out s) :
    ∃ n, Scans s n s.drain.1.tokens s.drain.1.error s.drain.2 ∧ n ≤ s.budget := by
  fun_induction drain s generalizing out with
  | case1 s s' hn =>
    obtain ⟨n, hfills, hle⟩ := fills_fill h
    cases asked_next h.not_failed hn with
    | exhausted hfill hq =>
      rw [hfill] at hfills
      exact ⟨n, .exhausted h.not_failed hfills hq, Nat.le_of_add_right_le hle⟩
  | case2 s e s' hn =>
    obtain ⟨n, hfills, hle⟩ := fills_fill h
    cases asked_next h.not_failed hn with
    | error hfill =>
      rw [hfill] at hfills
      exact ⟨n, .error h.not_failed hfills, Nat.le_of_add_right_le hle⟩
  | case3 s t s' hn hlt rest final heq ih =>
    obtain ⟨m, hfills, hle⟩ := fills_fill h
    obtain ⟨n, hscans, hn'⟩ := ih (run_next h hn).1
    rw [heq] at hscans
    cases asked_next h.not_failed hn with
    | @token s₁ _ queue hfill hq =>
      rw [hfill] at hfills hle
      have hsame : budget { s₁ with queue, taken := s₁.taken + 1 } = s₁.budget := rfl
      simp only [Option.isSome_none, Bool.false_eq_true, if_false] at hle
      exact ⟨m + n, .token h.not_failed hfills hq hscans, by omega⟩
  | case4 s t s' hn hlt => exact absurd (run_next h hn).2 hlt

/-! ## Behind the end -/

/-- A scanner that has come to an end has nothing more to give, and stays as it is. -/
theorem next_drain (h : Run text out s) : s.drain.2.next = (.exhausted, s.drain.2) := by
  fun_induction drain s generalizing out with
  | case1 s s' hn =>
    obtain ⟨s₀, h₀, hdone, hq, keys, rfl⟩ := run_next_exhausted h hn
    have hfailed := h₀.not_failed
    rw [next, fill]
    simp [needsMore, hdone, hq, hfailed]
  | case2 s e s' hn =>
    obtain ⟨s₀, s₁, -, -, rfl⟩ := run_next_error h hn
    rfl
  | case3 s t s' hn hlt rest final heq ih =>
    have hlast := ih (run_next h hn).1
    rw [heq] at hlast
    exact hlast
  | case4 s t s' hn hlt => exact absurd (run_next h hn).2 hlt

/-- The scanner always makes progress. Whatever state it is in, it has read no more characters than
the text has; and while the stream has not ended, a fetch fails, or ends the stream, or leaves it
behind at least one more character. So a scan of `n` characters ends after at most `n + 1` fetches,
with an error or with the end of the stream, and from then on every question for a token is answered
with none. -/
theorem scan_progresses_and_ends (text : List Char) :
    (∀ s, Reachable text s → s.cursor.pos ≤ text.length ∧
        (s.done = false →
          (∃ e s', s.fetch = (some e, s')) ∨
            ∃ s', s.fetch = (none, s') ∧ s'.cursor.pos ≤ text.length ∧
              (s'.done = true ∨ s.cursor.pos < s'.cursor.pos))) ∧
      (∃ n ≤ text.length + 1, Scans (ofText text) n (scanText text).tokens (scanText text).error
        (ofText text).drain.2) ∧
      ((scanText text).error = none →
        ∃ t, (scanText text).tokens.getLast? = some t ∧ t.kind = .streamEnd) ∧
      ∀ n, ((fun s => s.next.2)^[n] (ofText text).drain.2).next.1 = .exhausted := by
  refine ⟨?_, ?_, ?_, ?_⟩
  · intro s hs
    have hahead := hs.ahead
    have hall := pos_add_length_rest hahead
    refine ⟨by omega, fun _ => ?_⟩
    obtain ⟨_ | e, s', hf⟩ : ∃ r s', s.fetch = (r, s') := ⟨_, _, rfl⟩
    · obtain ⟨hmore, hless⟩ := fetch_advances hf
      have hall' := pos_add_length_rest (hahead.trans hmore)
      exact .inr ⟨s', hf, by omega, hless.imp_right fun hlt => by omega⟩
    · exact .inl ⟨e, s', hf⟩
  · obtain ⟨n, hscans, hle⟩ := scans_drain (Run.start : Run text [] _)
    exact ⟨n, hle, hscans⟩
  · intro hnone
    obtain ⟨ts, last, he, -, hlast⟩ := framed_scanText hnone
    exact ⟨last, by rw [he, List.getLast?_concat], hlast⟩
  · intro n
    have hlast := next_drain (Run.start : Run text [] _)
    have hstays : (fun s : ScanState => s.next.2)^[n] (ofText text).drain.2 =
        (ofText text).drain.2 := Function.iterate_fixed (congrArg Prod.snd hlast) n
    rw [hstays, hlast]

/-- The first fetch of `a` with a NUL behind it reads the `a`, and the scan fails at the NUL. -/
theorem scan_progresses_and_ends_nul :
    let text := ['a', Text.nul]
    Reachable text (ofText text) ∧ (ofText text).done = false ∧
      (∃ s', (ofText text).fetch = (none, s') ∧ s'.cursor.pos ≤ 2 ∧
        (ofText text).cursor.pos < s'.cursor.pos) ∧
      (∃ n ≤ 3, Scans (ofText text) n (scanText text).tokens (scanText text).error
        (ofText text).drain.2) ∧
      (scanText text).error ≠ none ∧ (ofText text).drain.2.next.1 = .exhausted := by
  intro text
  have hreachable : Reachable text (ofText text) := .run .start
  have hfetch : (ofText text).fetch.1 = none ∧ (ofText text).fetch.2.done = false := by
    decide +kernel
  obtain ⟨hstates, hscans, -, hbehind⟩ := scan_progresses_and_ends text
  refine ⟨hreachable, rfl, ?_, hscans, by decide +kernel, hbehind 0⟩
  rcases (hstates _ hreachable).2 rfl with ⟨e, s', hf⟩ | ⟨s', hf, hle, hless⟩
  · rw [hf] at hfetch
    cases hfetch.1
  · refine ⟨s', hf, hle, hless.resolve_left fun hdone => ?_⟩
    rw [hf] at hfetch
    rw [hdone] at hfetch
    cases hfetch.2

end YamlLinter.ScanState
