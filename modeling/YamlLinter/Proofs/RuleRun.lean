import YamlLinter.Rule

/-!
# Runs of token rules

A token rule goes over the windows of a source and keeps a state. What it finds at a window depends
on the windows before only through that state, so facts about a whole run come from what one step
keeps.

## Contents

* `getElem?_windows`, `exists_split_of_mem_windowsFrom`: what the windows of a token list show;
* `TokenRule.stateBehind`: the state behind some windows;
* `TokenRule.getElem?_run`: what a rule finds at a window;
* `TokenRule.stateBehind_induct`: what every step keeps holds behind any number of windows;
* `TokenRule.forall_runFrom`: what holds of all that a rule finds.
-/

namespace YamlLinter

variable {buffer : List UInt8} {tokens : List Token} {w : Window} {n : Nat}

/-! ## Windows -/

theorem length_windowsFrom (buffer : List UInt8) (prev : Option Token) (tokens : List Token) :
    (windowsFrom buffer prev tokens).length = tokens.length := by
  induction tokens generalizing prev with
  | nil => rfl
  | cons t ts ih => exact congrArg (· + 1) (ih (some t))

theorem length_windows (buffer : List UInt8) (tokens : List Token) :
    (windows buffer tokens).length = tokens.length :=
  length_windowsFrom buffer none tokens

theorem map_token_windowsFrom (buffer : List UInt8) (prev : Option Token) (ts : List Token) :
    (windowsFrom buffer prev ts).map Window.token = ts := by
  induction ts generalizing prev with
  | nil => rfl
  | cons t ts ih => exact congrArg (t :: ·) (ih (some t))

/-- A window shows its token and the one behind it. -/
theorem exists_split_of_mem_windowsFrom {prev : Option Token}
    (h : w ∈ windowsFrom buffer prev tokens) :
    ∃ xs rest, tokens = xs ++ w.token :: rest ∧ w.next = rest.head? := by
  induction tokens generalizing prev with
  | nil => cases h
  | cons t ts ih =>
    rcases List.mem_cons.1 h with rfl | h
    · exact ⟨[], ts, rfl, rfl⟩
    · obtain ⟨xs, rest, rfl, hnext⟩ := ih h
      exact ⟨t :: xs, rest, rfl, hnext⟩

/-- The window at a place shows the buffer, the token there and the token behind it. -/
theorem getElem?_windows (h : (windows buffer tokens)[n]? = some w) :
    w.buffer = buffer ∧ tokens[n]? = some w.token ∧ w.next = tokens[n + 1]? := by
  unfold windows at h
  generalize none = prev at h
  induction tokens generalizing prev n with
  | nil => cases h
  | cons t ts ih =>
    cases n with
    | zero =>
      cases h
      refine ⟨rfl, rfl, ?_⟩
      rw [List.getElem?_cons_succ, List.head?_eq_getElem?]
    | succ n => exact ih (some t) h

/-- It shows the second token behind it as well. -/
theorem nextNext_of_getElem?_windows (h : (windows buffer tokens)[n]? = some w) :
    w.nextNext = tokens[n + 2]? := by
  unfold windows at h
  generalize none = prev at h
  induction tokens generalizing prev n with
  | nil => cases h
  | cons t ts ih =>
    cases n with
    | zero =>
      cases h
      show ts.tail.head? = (t :: ts)[2]?
      rw [List.getElem?_cons_succ, List.head?_eq_getElem?, List.getElem?_tail]
    | succ n => exact ih (some t) h

/-! ## States and findings -/

namespace TokenRule

variable {r : TokenRule} {ws : List Window}

/-- What a rule remembers behind the first `n` windows. -/
def stateBehind (r : TokenRule) (ws : List Window) (n : Nat) : r.State :=
  (ws.take n).foldl (fun s w => (r.check w s).2) r.start

theorem stateBehind_succ (h : ws[n]? = some w) :
    r.stateBehind ws (n + 1) = (r.check w (r.stateBehind ws n)).2 := by
  unfold stateBehind
  rw [List.take_add_one, h, List.foldl_append]
  rfl

theorem length_runFrom (r : TokenRule) (s : r.State) (ws : List Window) :
    (r.runFrom s ws).length = ws.length := by
  induction ws generalizing s with
  | nil => rfl
  | cons w ws ih => exact congrArg (· + 1) (ih _)

/-- What a rule finds at a window is what it finds in the state behind the windows before. -/
theorem getElem?_run (r : TokenRule) (ws : List Window) (n : Nat) :
    (r.run ws)[n]? = ws[n]?.map fun w => (r.check w (r.stateBehind ws n)).1 := by
  have hfrom : ∀ (ws : List Window) (s : r.State) (n : Nat),
      (r.runFrom s ws)[n]? = ws[n]?.map fun w =>
        (r.check w ((ws.take n).foldl (fun s w => (r.check w s).2) s)).1 := by
    intro ws
    induction ws with
    | nil =>
      intro s n
      rfl
    | cons v ws ih =>
      intro s n
      cases n with
      | zero => rfl
      | succ n => exact ih _ n
  exact hfrom _ _ n

/-- What holds in front of the first window and is kept at each holds behind any number of them. -/
theorem stateBehind_induct {P : Nat → r.State → Prop} (start : P 0 r.start)
    (step : ∀ n w s, ws[n]? = some w → P n s → P (n + 1) (r.check w s).2)
    (h : n ≤ ws.length) : P n (r.stateBehind ws n) := by
  induction n with
  | zero => exact start
  | succ n ih =>
    have hw : ws[n]? = some ws[n] := List.getElem?_eq_getElem h
    rw [stateBehind_succ hw]
    exact step n _ _ hw (ih (Nat.le_of_succ_le h))

/-- Each step of a rule finds only what `P` holds of and keeps `I`; then so does the rule. The
invariant speaks of the windows that are left. -/
theorem forall_runFrom {I : List Window → r.State → Prop} {P : Window → Finding → Prop}
    (hstep : ∀ w ws s, I (w :: ws) s →
      (∀ f ∈ (r.check w s).1, P w f) ∧ I ws (r.check w s).2)
    {s : r.State} (hI : I ws s) : ∀ x ∈ ws.zip (r.runFrom s ws), ∀ f ∈ x.2, P x.1 f := by
  induction ws generalizing s with
  | nil =>
    intro x hx
    cases hx
  | cons w ws ih =>
    obtain ⟨hfound, hkept⟩ := hstep w ws s hI
    intro x hx
    rcases List.mem_cons.1 hx with rfl | hx
    · exact hfound
    · exact ih hkept x hx

end TokenRule

end YamlLinter
