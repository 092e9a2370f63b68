import YamlLinter.Proofs.Indentation.Reachable
import YamlLinter.Proofs.Indentation.Walk

/-!
# Matching pairs of tokens

The start and end tokens of collections match like brackets. A run of the indentation rule over some
tokens is smooth if every token fits and every collection takes from the stack no more than the entry
that it completes. Smooth runs can be put together as tokens are put together to trees.

## Contents

* `depth`, `Balanced`: what is opened among some tokens is closed among them;
* `Pair`: a start token and its end token;
* `Pair.of_append`, `Pair.of_enclosed`: where the pairs of a list lie;
* `Restores`: what a collection may take from the stack;
* `Moves`: one token fits, and leaves a given stack;
* `Smooth`: a run over some tokens;
* `Smooth.single`, `Smooth.append`, `Smooth.enclosed`: putting runs together;
* `Smooth.not_isAnomaly`, `Smooth.restores_stateBehind`: the states of a smooth run.
-/

namespace YamlLinter.Indentation

variable {t o c start stop : Token} {ts us xs ys inner : List Token}

/-! ## Depth -/

/-- Whether a token of this kind starts a collection. -/
def isOpener : TokenKind → Bool
  | .blockMappingStart | .blockSequenceStart | .flowMappingStart | .flowSequenceStart => true
  | _ => false

/-- How many collections a token opens. One that ends a collection counts as minus one. -/
def nesting (t : Token) : Int :=
  if isOpener t.kind then 1 else if isEnder t.kind then -1 else 0

/-- How many more collections are open behind some tokens than in front of them. -/
def depth : List Token → Int
  | [] => 0
  | t :: ts => nesting t + depth ts

theorem nesting_opener (h : isOpener t.kind = true) : nesting t = 1 := if_pos h

theorem nesting_ender (h : isEnder t.kind = true) : nesting t = -1 := by
  have hopener : isOpener t.kind = false := by
    unfold isEnder at h
    split at h
    · simp_all [isOpener]
    · simp_all [isOpener]
    · simp_all [isOpener]
    · cases h
  simp [nesting, hopener, h]

theorem nesting_other (ho : isOpener t.kind = false) (he : isEnder t.kind = false) :
    nesting t = 0 := by
  simp [nesting, ho, he]

@[simp] theorem depth_nil : depth [] = 0 := rfl

@[simp] theorem depth_cons (t : Token) (ts : List Token) : depth (t :: ts) = nesting t + depth ts :=
  rfl

@[simp] theorem depth_append (ts us : List Token) : depth (ts ++ us) = depth ts + depth us := by
  induction ts with
  | nil => simp
  | cons t ts ih =>
    rw [List.cons_append, depth_cons, ih, depth_cons]
    omega

/-- What is opened among some tokens is closed among them, and nothing else is. -/
structure Balanced (ts : List Token) : Prop where
  whole : depth ts = 0
  part : ∀ us vs, ts = us ++ vs → 0 ≤ depth us

namespace Balanced

theorem nil : Balanced [] := by
  refine ⟨rfl, ?_⟩
  intro us vs h
  obtain ⟨rfl, -⟩ := List.append_eq_nil_iff.1 h.symm
  exact Int.le_refl 0

theorem single (h : nesting t = 0) : Balanced [t] := by
  refine ⟨by simp [h], ?_⟩
  intro us vs hsplit
  cases us with
  | nil => exact Int.le_refl 0
  | cons u us =>
    obtain ⟨rfl, hnil⟩ := List.cons.inj hsplit
    obtain ⟨rfl, -⟩ := List.append_eq_nil_iff.1 hnil.symm
    simp [h]

theorem append (h₁ : Balanced ts) (h₂ : Balanced us) : Balanced (ts ++ us) := by
  refine ⟨by rw [depth_append, h₁.whole, h₂.whole]; rfl, ?_⟩
  intro vs ws hsplit
  rcases List.append_eq_append_iff.1 hsplit with ⟨xs, rfl, hsecond⟩ | ⟨xs, rfl, -⟩
  · -- the part reaches into the second list
    have hpart := h₂.part xs ws hsecond
    rw [depth_append, h₁.whole]
    omega
  · exact h₁.part vs xs rfl

theorem enclosed (h : Balanced ts) (ho : isOpener start.kind = true)
    (hc : isEnder stop.kind = true) : Balanced (start :: (ts ++ [stop])) := by
  have hopen := nesting_opener ho
  have hclose := nesting_ender hc
  constructor
  · simp [hopen, hclose, h.whole]
  · intro us vs hsplit
    cases us with
    | nil => exact Int.le_refl 0
    | cons u us =>
      obtain ⟨rfl, htail⟩ := List.cons.inj hsplit
      rcases List.append_eq_append_iff.1 htail with ⟨xs, rfl, hlast⟩ | ⟨xs, rfl, -⟩
      · -- the part reaches the end token
        cases xs with
        | nil => simp [hopen, h.whole]
        | cons x xs =>
          obtain ⟨rfl, hnil⟩ := List.cons.inj hlast
          obtain ⟨rfl, -⟩ := List.append_eq_nil_iff.1 hnil.symm
          simp [hopen, hclose, h.whole]
      · have hpart := h.part us xs rfl
        rw [depth_cons, hopen]
        omega

end Balanced

/-! ## Pairs -/

/-- The tokens `o` and `c` start and end one collection: what is opened between them is closed
between them. The tokens `xs` stand before the pair and `ys` behind it. -/
structure Pair (ts xs : List Token) (o : Token) (inner : List Token) (c : Token)
    (ys : List Token) : Prop where
  tokens : ts = xs ++ o :: (inner ++ c :: ys)
  opens : isOpener o.kind = true
  ends : isEnder c.kind = true
  balanced : Balanced inner

/-- A start token is not matched in front of the end of a balanced list. -/
theorem Balanced.not_open (h : Balanced (ts ++ us)) (ho : isOpener o.kind = true) (xs : List Token) :
    ¬Balanced (xs ++ o :: ts) := by
  intro hopen
  have hfront := hopen.part xs (o :: ts) rfl
  have hinner := h.part ts us rfl
  have hwhole := hopen.whole
  rw [depth_append, depth_cons, nesting_opener ho] at hwhole
  omega

namespace Pair

/-- A pair of two balanced lists is a pair of one of them. -/
theorem of_append (hts : Balanced ts) (h : Pair (ts ++ us) xs o inner c ys) :
    (∃ zs, Pair ts xs o inner c zs ∧ ys = zs ++ us) ∨
      ∃ zs, Pair us zs o inner c ys ∧ xs = ts ++ zs := by
  have hopens := h.opens
  have hinner := h.balanced
  rcases List.append_eq_append_iff.1 h.tokens with ⟨zs, rfl, hus⟩ | ⟨zs, rfl, hzs⟩
  · exact .inr ⟨zs, ⟨hus, hopens, h.ends, hinner⟩, rfl⟩
  · cases zs with
    | nil =>
      refine .inr ⟨[], ⟨hzs.symm, hopens, h.ends, hinner⟩, ?_⟩
      rw [List.append_nil, List.append_nil]
    | cons z zs =>
      obtain ⟨rfl, htail⟩ := List.cons.inj hzs
      -- the start token is in the first list, so its end token has to be there too
      rcases List.append_eq_append_iff.1 htail with ⟨a, rfl, ha⟩ | ⟨d, rfl, -⟩
      · cases a with
        | nil =>
          have hwhole : Balanced (inner ++ []) := by simpa using hinner
          rw [List.append_nil] at hts
          exact absurd hts (hwhole.not_open hopens xs)
        | cons a as =>
          obtain ⟨rfl, hys⟩ := List.cons.inj ha
          exact .inl ⟨as, ⟨rfl, hopens, h.ends, hinner⟩, hys⟩
      · exact absurd hts (hinner.not_open hopens xs)

theorem not_single : ¬Pair [t] xs o inner c ys := by
  intro h
  have hlength := congrArg List.length h.tokens
  simp at hlength
  omega

/-- A pair of a collection is that of its own start and end tokens, or one inside. -/
theorem of_enclosed (hb : Balanced ts) (h : Pair (start :: (ts ++ [stop])) xs o inner c ys) :
    (xs = [] ∧ o = start ∧ inner = ts ∧ c = stop ∧ ys = []) ∨
      ∃ zs ws, Pair ts zs o inner c ws ∧ xs = start :: zs ∧ ys = ws ++ [stop] := by
  have htokens := h.tokens
  cases xs with
  | nil =>
    left
    obtain ⟨rfl, htail⟩ := List.cons.inj htokens
    rcases List.append_eq_append_iff.1 htail with ⟨a, hinner, ha⟩ | ⟨d, hts, hd⟩
    · cases a with
      | nil =>
        obtain ⟨rfl, rfl⟩ := List.cons.inj ha
        exact ⟨rfl, rfl, by simpa using hinner, rfl, rfl⟩
      | cons a as => simp at ha
    · cases d with
      | nil =>
        obtain ⟨rfl, rfl⟩ := List.cons.inj hd
        exact ⟨rfl, rfl, by simpa using hts.symm, rfl, rfl⟩
      | cons d ds =>
        -- the end token would close more than is opened inside
        obtain ⟨rfl, -⟩ := List.cons.inj hd
        have hpart := hb.part (inner ++ [c]) ds (by simp [hts])
        simp [h.balanced.whole, nesting_ender h.ends] at hpart
  | cons x zs =>
    right
    obtain ⟨rfl, htail⟩ := List.cons.inj htokens
    have hpair : Pair (ts ++ [stop]) zs o inner c ys := ⟨htail, h.opens, h.ends, h.balanced⟩
    rcases hpair.of_append hb with ⟨ws, hinside, rfl⟩ | ⟨ws, hlast, -⟩
    · exact ⟨zs, ws, hinside, rfl, rfl⟩
    · exact absurd hlast not_single

end Pair

/-! ## Runs -/

/-- A collection takes from the stack no more than the entry that it completes: an item, a key, or a
value with its key. -/
def Restores (stack stack' : List Frame) : Prop :=
  stack' = stack ∨ (∃ i, stack = .blockEntry i :: stack') ∨
    (∃ i explicit, stack = .key i explicit :: stack') ∨
      ∃ i j explicit, stack = .value i :: .key j explicit :: stack'

/-- A token that stands behind `prev` and in front of `rest` fits, and leaves the given stack. -/
structure Moves (config : Config) (buffer : List UInt8) (prev : Option Token) (s : State)
    (t : Token) (rest : List Token) (stack : List Frame) : Prop where
  fits : (s.opened config ⟨buffer, prev, t, rest.head?, rest.tail.head?⟩).isSome = true
  stack : (s.after config buffer prev t rest).stack = stack

/-- Each of some tokens fits. -/
def Fitting (config : Config) (buffer : List UInt8) (prev : Option Token) (s : State) :
    (ts rest : List Token) → Prop
  | [], _ => True
  | t :: ts, rest =>
    (s.opened config ⟨buffer, prev, t, (ts ++ rest).head?, (ts ++ rest).tail.head?⟩).isSome = true ∧
      Fitting config buffer (some t) (s.after config buffer prev t (ts ++ rest)) ts rest

/-- A run over balanced tokens: each of them fits, each collection takes from the stack no more than
the entry that it completes, and the given stack is left in the end. -/
structure Smooth (config : Config) (buffer : List UInt8) (prev : Option Token) (s : State)
    (ts rest : List Token) (stack : List Frame) : Prop where
  balanced : Balanced ts
  fitting : Fitting config buffer prev s ts rest
  restores : ∀ {xs o inner c ys}, Pair ts xs o inner c ys →
    Restores (s.over config buffer prev xs (o :: (inner ++ c :: ys) ++ rest)).stack
      (s.over config buffer prev (xs ++ o :: (inner ++ [c])) (ys ++ rest)).stack
  stack : (s.over config buffer prev ts rest).stack = stack

section

variable {config : Config} {buffer : List UInt8} {prev : Option Token} {s : State}
  {rest : List Token} {stack stack₁ stack₂ : List Frame}

theorem getLast?_or_cons (t : Token) (ts : List Token) (prev : Option Token) :
    (t :: ts).getLast?.or prev = ts.getLast?.or (some t) := by
  cases h : ts.getLast? with
  | none =>
    rw [List.getLast?_eq_none_iff] at h
    simp [h]
  | some u => simp [List.getLast?_cons, h]

theorem Fitting.append (h₁ : Fitting config buffer prev s ts (us ++ rest))
    (h₂ : Fitting config buffer (ts.getLast?.or prev) (s.over config buffer prev ts (us ++ rest)) us
      rest) : Fitting config buffer prev s (ts ++ us) rest := by
  induction ts generalizing prev s with
  | nil => exact h₂
  | cons t ts ih =>
    obtain ⟨hfits, hrest⟩ := h₁
    rw [getLast?_or_cons] at h₂
    rw [List.cons_append, Fitting, List.append_assoc]
    exact ⟨hfits, ih hrest h₂⟩

namespace Smooth

theorem nil : Smooth config buffer prev s [] rest s.stack where
  balanced := .nil
  fitting := trivial
  restores h := by
    have hlength := congrArg List.length h.tokens
    simp at hlength
  stack := rfl

theorem single (ht : nesting t = 0) (h : Moves config buffer prev s t rest stack) :
    Smooth config buffer prev s [t] rest stack where
  balanced := .single ht
  fitting := ⟨h.fits, trivial⟩
  restores hpair := absurd hpair Pair.not_single
  stack := h.stack

theorem append (h₁ : Smooth config buffer prev s ts (us ++ rest) stack₁)
    (h₂ : Smooth config buffer (ts.getLast?.or prev) (s.over config buffer prev ts (us ++ rest)) us
      rest stack) : Smooth config buffer prev s (ts ++ us) rest stack where
  balanced := h₁.balanced.append h₂.balanced
  fitting := h₁.fitting.append h₂.fitting
  restores := by
    intro xs o inner c ys hpair
    rcases hpair.of_append h₁.balanced with ⟨zs, hfirst, rfl⟩ | ⟨zs, hsecond, rfl⟩
    · have hrestores := h₁.restores hfirst
      simpa using hrestores
    · have hrestores := h₂.restores hsecond
      have hfront : zs ++ (o :: (inner ++ c :: ys) ++ rest) = us ++ rest := by
        rw [hsecond.tokens]
        simp
      have hback : zs ++ o :: (inner ++ [c]) ++ (ys ++ rest) = us ++ rest := by
        rw [hsecond.tokens]
        simp
      rw [over_append, hfront, List.append_assoc, over_append, hback]
      exact hrestores
  stack := by
    rw [over_append]
    exact h₂.stack

/-- A token in front of others. -/
theorem cons (ht : nesting t = 0) (h : Moves config buffer prev s t (ts ++ rest) stack₁)
    (hts : Smooth config buffer (some t) (s.after config buffer prev t (ts ++ rest)) ts rest stack) :
    Smooth config buffer prev s (t :: ts) rest stack :=
  (single ht h).append hts

/-- A collection. -/
theorem enclosed (ho : isOpener start.kind = true) (hc : isEnder stop.kind = true)
    (hstart : Moves config buffer prev s start (inner ++ stop :: rest) stack₁)
    (hinner : Smooth config buffer (some start)
      (s.after config buffer prev start (inner ++ stop :: rest)) inner (stop :: rest) stack₂)
    (hstop : Moves config buffer (inner.getLast?.or (some start))
      ((s.after config buffer prev start (inner ++ stop :: rest)).over config buffer (some start)
        inner (stop :: rest)) stop rest stack)
    (hrestores : Restores s.stack stack) :
    Smooth config buffer prev s (start :: (inner ++ [stop])) rest stack := by
  have htokens : inner ++ [stop] ++ rest = inner ++ stop :: rest := by simp
  have hstack : (s.over config buffer prev (start :: (inner ++ [stop])) rest).stack = stack := by
    rw [over_cons, htokens, over_append]
    exact hstop.stack
  refine ⟨hinner.balanced.enclosed ho hc, ?_, ?_, hstack⟩
  · rw [Fitting, htokens]
    exact ⟨hstart.fits, hinner.fitting.append ⟨hstop.fits, trivial⟩⟩
  · intro xs o inside c ys hpair
    -- the pair is the collection itself or lies inside it
    rcases hpair.of_enclosed hinner.balanced with
      ⟨rfl, rfl, rfl, rfl, rfl⟩ | ⟨zs, ws, hinside, rfl, rfl⟩
    · simpa [over_nil, hstack] using hrestores
    · have hrestores := hinner.restores hinside
      have hfront : zs ++ (o :: (inside ++ c :: (ws ++ [stop])) ++ rest) = inner ++ stop :: rest := by
        rw [hinside.tokens]
        simp
      have hback : zs ++ o :: (inside ++ [c]) ++ (ws ++ [stop] ++ rest) = inner ++ stop :: rest := by
        rw [hinside.tokens]
        simp
      show Restores ((s.after config buffer prev start
          (zs ++ (o :: (inside ++ c :: (ws ++ [stop])) ++ rest))).over config buffer (some start) zs
            (o :: (inside ++ c :: (ws ++ [stop])) ++ rest)).stack
        ((s.after config buffer prev start
          (zs ++ o :: (inside ++ [c]) ++ (ws ++ [stop] ++ rest))).over config buffer (some start)
            (zs ++ o :: (inside ++ [c])) (ws ++ [stop] ++ rest)).stack
      rw [hfront, hback]
      simpa using hrestores

end Smooth

/-! ## The states of a run -/

/-- The state behind the first tokens of a list is the one behind a run over them. -/
theorem stateBehind_eq_over (xs rest : List Token) :
    stateBehind config buffer (xs ++ rest) xs.length =
      (State.start config).over config buffer none xs rest := by
  have hfrom : ∀ (prev : Option Token) (s : State),
      ((windowsFrom buffer prev (xs ++ rest)).take xs.length).foldl
        (fun s w => (check config w s).2) s = s.over config buffer prev xs rest := by
    induction xs with
    | nil => exact fun _ _ => rfl
    | cons x xs ih => exact fun _ _ => ih _ _
  exact hfrom none _

/-- Where each token fits, each gets so far as to have opened its frames. -/
theorem Fitting.opened (h : Fitting config buffer none (.start config) ts []) {n : Nat} {w : Window}
    (hw : (windows buffer ts)[n]? = some w) :
    ((stateBehind config buffer ts n).opened config w).isSome = true := by
  have hfrom : ∀ (ts : List Token) (prev : Option Token) (s : State) (n : Nat),
      Fitting config buffer prev s ts [] → (windowsFrom buffer prev ts)[n]? = some w →
        ((((windowsFrom buffer prev ts).take n).foldl
          (fun s w => (check config w s).2) s).opened config w).isSome = true := by
    intro ts
    induction ts with
    | nil =>
      intro prev s n _ hn
      cases hn
    | cons t ts ih =>
      intro prev s n hfits hn
      obtain ⟨hopened, hrest⟩ := hfits
      rw [List.append_nil] at hopened hrest
      cases n with
      | zero =>
        obtain rfl := Option.some.inj hn
        exact hopened
      | succ n => exact ih _ _ n hrest hn
  exact hfrom ts none _ n h hw

/-- On a smooth run no token is told not to fit. -/
theorem Smooth.not_isAnomaly (h : Smooth config buffer none (.start config) ts [] stack) :
    ∀ fs ∈ (rule config).run (windows buffer ts), ∀ f ∈ fs, isAnomaly f = false := by
  intro fs hfs
  obtain ⟨n, hn⟩ := List.mem_iff_getElem?.1 hfs
  rw [run_getElem?] at hn
  obtain ⟨w, hw, rfl⟩ := Option.map_eq_some_iff.1 hn
  have hshaped : Shaped (stateBehind config buffer ts n).stack := shaped_stateBehind n
  have hnone : (check config w (stateBehind config buffer ts n)).1.filter isAnomaly = [] := by
    rw [filter_isAnomaly_check hshaped, if_pos (h.fitting.opened hw)]
  rw [List.filter_eq_nil_iff] at hnone
  intro f hf
  exact Bool.eq_false_iff.2 (hnone f hf)

/-- On a smooth run every collection restores the stack in front of it. -/
theorem Smooth.restores_stateBehind (h : Smooth config buffer none (.start config) ts [] stack)
    (hpair : Pair ts xs o inner c ys) :
    Restores (stateBehind config buffer ts xs.length).stack
      (stateBehind config buffer ts (xs.length + inner.length + 2)).stack := by
  have hrestores := h.restores hpair
  have hback : ts = xs ++ o :: (inner ++ [c]) ++ ys := by
    rw [hpair.tokens]
    simp
  have hlength : (xs ++ o :: (inner ++ [c])).length = xs.length + inner.length + 2 := by
    simp
    omega
  rw [List.append_nil, List.append_nil, ← stateBehind_eq_over, ← stateBehind_eq_over,
    ← hpair.tokens, ← hback, hlength] at hrestores
  exact hrestores

end

end YamlLinter.Indentation
