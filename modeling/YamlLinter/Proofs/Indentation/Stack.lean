import YamlLinter.Proofs.Indentation.Litter
import YamlLinter.Rule.Indentation.Check

/-!
# The stack of the indentation rule

Which frames a token opens and closes depends on the sorts of the frames only, not on the columns
that they hold. Here the steps of the rule are described on stacks without columns.

## Contents

* `Frame.plain`, `State.plain`: frames and stacks without columns;
* `Based`: the root stays at the bottom of the stack;
* `own`: the frames that wait for an end token;
* `closeFrames_*`: closing frames, above and below what a tree leaves open;
* `plain_check*`: what each sort of token does to the stack.
-/

namespace YamlLinter.Indentation

/-- A frame without its columns. -/
def Frame.plain : Frame → Frame
  | root => root
  | blockMap _ => blockMap 0
  | flowMap _ _ => flowMap 0 0
  | blockSeq _ implicit => blockSeq 0 implicit
  | flowSeq _ _ => flowSeq 0 0
  | blockEntry _ => blockEntry 0
  | key _ _ => key 0 false
  | value _ => value 0

/-- Whether a frame is closed by an end token of its own. -/
def Frame.isOwned : Frame → Bool
  | blockMap _ | flowMap _ _ | flowSeq _ _ => true
  | blockSeq _ implicit => !implicit
  | _ => false

/-- The stack without columns. -/
def State.plain (s : State) : List Frame := s.stack.map Frame.plain

/-- The number of frames that wait for an end token. -/
def own (stack : List Frame) : Nat := stack.countP Frame.isOwned

/-- The root is at the bottom of the stack. -/
def Based (stack : List Frame) : Prop := stack.getLast? = some .root

section

variable {t next : Token} {n : Option TokenKind} {consumed : Bool} {f top : Frame}
  {stack : List Frame} {below : Option Frame} {s s' : State} {config : Config} {w : Window}

@[simp] theorem isOwned_plain (f : Frame) : f.plain.isOwned = f.isOwned := by
  cases f <;> rfl

@[simp] theorem isImplicitSeq_plain (f : Frame) : f.plain.isImplicitSeq = f.isImplicitSeq := by
  cases f <;> rfl

@[simp] theorem isBlockSeq_plain (f : Frame) : f.plain.isBlockSeq = f.isBlockSeq := by
  cases f <;> rfl

@[simp] theorem isKey_plain (f : Frame) : f.plain.isKey = f.isKey := by
  cases f <;> rfl

@[simp] theorem closesOwn_plain (f : Frame) (k : TokenKind) :
    closesOwn f.plain k = closesOwn f k := by
  cases f <;> cases k <;> rfl

/-- Frames are counted without their columns. -/
theorem own_map_plain (stack : List Frame) : own (stack.map Frame.plain) = own stack := by
  simp [own, List.countP_map, Function.comp_def]

/-- Closing looks at the sorts of frames only. -/
theorem closing_plain (t : Token) (n : Option TokenKind) (consumed : Bool) (top : Frame)
    (below : Option Frame) :
    closing t n consumed top.plain (below.map Frame.plain) = closing t n consumed top below := by
  have hi : (below.map Frame.plain).any Frame.isImplicitSeq = below.any Frame.isImplicitSeq := by
    cases below <;> simp
  have hk : (below.map Frame.plain).any Frame.isKey = below.any Frame.isKey := by
    cases below <;> simp
  unfold closing
  rw [closesOwn_plain, hi, hk]
  cases top <;> simp [Frame.plain]

theorem closing_plain_some (t : Token) (n : Option TokenKind) (consumed : Bool)
    (top below : Frame) :
    closing t n consumed top.plain (some below.plain) = closing t n consumed top (some below) :=
  closing_plain t n consumed top (some below)

theorem closing_plain_none (t : Token) (n : Option TokenKind) (consumed : Bool) (top : Frame) :
    closing t n consumed top.plain none = closing t n consumed top none :=
  closing_plain t n consumed top none

/-- What is closed does not depend on columns. -/
theorem closeFrames_plain (t : Token) (n : Option TokenKind) (consumed : Bool)
    (stack : List Frame) :
    (closeFrames t n consumed (stack.map Frame.plain)).1 =
      (closeFrames t n consumed stack).1.map Frame.plain := by
  fun_induction closeFrames t n consumed stack with
  | case1 => rfl
  | case2 consumed top h => simp [closeFrames, closing_plain_none, h]
  | case3 consumed top h =>
    rw [List.map_cons, List.map_nil, closeFrames]
    split <;> rfl
  | case4 consumed top below rest h => simp [closeFrames, closing_plain_some, h]
  | case5 consumed top below rest h ih => simpa [closeFrames, closing_plain_some, h] using ih
  | case6 consumed top below rest h ih => simpa [closeFrames, closing_plain_some, h] using ih
  | case7 consumed top below rest h he => simp [closeFrames, closing_plain_some, h, he]
  | case8 consumed top below rest h he ih =>
    simpa [closeFrames, closing_plain_some, h, he] using ih
  | case9 consumed top below rest h => simp [closeFrames, closing_plain_some, h]

/-- One step of closing, where another frame lies below. -/
theorem closeFrames_cons (h : stack ≠ []) :
    closeFrames t n consumed (top :: stack) =
      match closing t n consumed top stack.head? with
      | .stay => (top :: stack, true)
      | .closeOwn => closeFrames t n true stack
      | .closeOne => closeFrames t n consumed stack
      | .closeTwo =>
        if stack.tail.isEmpty then (stack.take 1, false) else closeFrames t n consumed stack.tail
      | .broken => (top :: stack, false) := by
  cases stack with
  | nil => exact absurd rfl h
  | cons below rest => rw [closeFrames]; rfl

/-! ## The root -/

/-- A stack with the root is not empty. -/
theorem Based.ne_nil (h : Based stack) : stack ≠ [] := by
  rintro rfl
  cases h

theorem Based.cons (h : Based stack) (f : Frame) : Based (f :: stack) := by
  have := h.ne_nil
  rw [Based, List.getLast?_cons_of_ne_nil this]
  exact h

/-- What lies below a frame of a based stack is based too. -/
theorem Based.of_cons (h : Based (f :: stack)) (hs : stack ≠ []) : Based stack := by
  rw [Based, List.getLast?_cons_of_ne_nil hs] at h
  exact h

/-- The root is not closed. -/
theorem based_closeFrames (h : Based stack) : Based (closeFrames t n consumed stack).1 := by
  fun_induction closeFrames t n consumed stack with
  | case1 | case2 | case3 | case4 | case9 => exact h
  | case5 _ _ _ _ _ ih | case6 _ _ _ _ _ ih => exact ih (h.of_cons (by simp))
  | case7 _ top below rest _ he =>
    obtain rfl : rest = [] := by simpa using he
    exact h.of_cons (by simp)
  | case8 _ top below rest _ he ih =>
    have hrest : rest ≠ [] := by simpa using he
    exact ih ((h.of_cons (by simp)).of_cons hrest)

/-! ## Frames with end tokens -/

/-- A token that has closed its own frame closes no other frame with an end token. -/
theorem closing_of_isOwned (h : f.isOwned = true) : closing t n true f below = .stay := by
  cases f with
  | blockSeq i implicit => simp [closing]
  | blockMap | flowMap | flowSeq => simp [closing]
  | _ => cases h

/-- One token ends one collection at most. -/
theorem closing_eq_closeOwn (h : closing t n consumed top below = .closeOwn) :
    consumed = false := by
  unfold closing at h
  split at h
  · rename_i hc
    simp only [Bool.and_eq_true] at hc
    simpa using hc.2
  · repeat' split at h
    all_goals cases h

/-- A frame that waits for an end token is closed by that only. -/
theorem closing_eq_closeOne (h : closing t n consumed top below = .closeOne) :
    top.isOwned = false := by
  unfold closing at h
  split at h
  · cases h
  · split at h
    · rfl
    · rfl
    · rfl
    · cases h

/-- Two frames are closed together if they are an item with its sequence or a value with its key. -/
theorem closing_eq_closeTwo {below : Frame}
    (h : closing t n consumed top (some below) = .closeTwo) :
    top.isOwned = false ∧ below.isOwned = false := by
  unfold closing at h
  split at h
  · cases h
  · split at h
    · split at h
      · rename_i hc
        simp only [Option.any_some, Bool.and_eq_true] at hc
        refine ⟨rfl, ?_⟩
        cases below with
        | blockSeq i implicit => simpa [Frame.isOwned, Frame.isImplicitSeq] using hc.1.1.2
        | _ => simp [Frame.isImplicitSeq] at hc
      · repeat' split at h
        all_goals cases h
    · split at h
      · split at h
        · rename_i hc
          refine ⟨rfl, ?_⟩
          cases below with
          | key => rfl
          | _ => simp [Frame.isKey] at hc
        · cases h
      · cases h
    · split at h <;> cases h
    · cases h

theorem own_cons_of_not (h : f.isOwned = false) (stack : List Frame) :
    own (f :: stack) = own stack := by
  simp [own, h]

theorem own_cons_of_isOwned (h : f.isOwned = true) (stack : List Frame) :
    own (f :: stack) = own stack + 1 := by
  simp [own, h]

/-- Without its end token no collection is closed. -/
theorem own_closeFrames_true (stack : List Frame) :
    own (closeFrames t n true stack).1 = own stack := by
  generalize hc : true = consumed
  fun_induction closeFrames t n consumed stack with
  | case1 | case2 | case3 | case4 | case9 => rfl
  | case5 consumed top below rest h ih =>
    rw [← hc] at h
    cases closing_eq_closeOwn h
  | case6 consumed top below rest h ih => rw [ih hc, own_cons_of_not (closing_eq_closeOne h)]
  | case7 consumed top below rest h he => rw [own_cons_of_not (closing_eq_closeTwo h).1]; simp_all
  | case8 consumed top below rest h he ih =>
    obtain ⟨h₁, h₂⟩ := closing_eq_closeTwo h
    rw [ih hc, own_cons_of_not h₁, own_cons_of_not h₂]

/-- An end token closes at most one frame of those that wait for one. -/
theorem own_le_closeFrames (stack : List Frame) :
    own stack ≤ own (closeFrames t n consumed stack).1 + 1 := by
  fun_induction closeFrames t n consumed stack with
  | case1 | case2 | case3 | case4 | case9 => exact Nat.le_succ _
  | case5 consumed top below rest h ih =>
    rw [own_closeFrames_true]
    by_cases ho : top.isOwned = true
    · exact Nat.le_of_eq (own_cons_of_isOwned ho _)
    · rw [own_cons_of_not (by simpa using ho)]
      omega
  | case6 consumed top below rest h ih =>
    rw [own_cons_of_not (closing_eq_closeOne h)]
    exact ih
  | case7 consumed top below rest h he =>
    obtain rfl : rest = [] := by simpa using he
    rw [own_cons_of_not (closing_eq_closeTwo h).1]
    exact Nat.le_succ _
  | case8 consumed top below rest h he ih =>
    obtain ⟨h₁, h₂⟩ := closing_eq_closeTwo h
    rw [own_cons_of_not h₁, own_cons_of_not h₂]
    exact ih

/-- Whether a token of this kind ends a collection. -/
def isEnder : TokenKind → Bool
  | .blockEnd | .flowMappingEnd | .flowSequenceEnd => true
  | _ => false

/-- A token that ends no collection closes no frame of one. -/
theorem closesOwn_of_not_isEnder {k : TokenKind} (h : isEnder k = false) (f : Frame) :
    closesOwn f k = false := by
  cases f <;> cases k <;> first | rfl | cases h

/-- Whether an end token has been used counts at the frame of a collection only. -/
theorem closing_of_not_closesOwn (h : closesOwn top t.kind = false) :
    closing t n consumed top below = closing t n true top below := by
  simp [closing, h]

/-- A token that ends no collection has no frame of its own to close. -/
theorem closeFrames_of_not_isEnder (h : isEnder t.kind = false) (stack : List Frame) :
    closeFrames t n consumed stack = closeFrames t n true stack := by
  have hsame : ∀ top below, closing t n true top below = closing t n consumed top below :=
    fun top _ => (closing_of_not_closesOwn (closesOwn_of_not_isEnder h top)).symm
  fun_induction closeFrames t n consumed stack with
  | case1 => rfl
  | case2 consumed top hc => simp [closeFrames, hsame, hc]
  | case3 consumed top hc =>
    rw [closeFrames, hsame]
    split
    · exact absurd ‹_› hc
    · rfl
  | case4 consumed top below rest hc => simp [closeFrames, hsame, hc]
  | case5 consumed top below rest hc ih =>
    rw [← hsame] at hc
    cases closing_eq_closeOwn hc
  | case6 consumed top below rest hc ih => simp [closeFrames, hsame, hc, ih hsame]
  | case7 consumed top below rest hc he => simp [closeFrames, hsame, hc, he]
  | case8 consumed top below rest hc he ih => simp [closeFrames, hsame, hc, he, ih hsame]
  | case9 consumed top below rest hc => simp [closeFrames, hsame, hc]

/-- A token that has closed its own frame leaves a frame with an end token open. -/
theorem closeFrames_true_owned (h : f.isOwned = true) (stack : List Frame) :
    closeFrames t n true (f :: stack) = (f :: stack, true) := by
  cases stack with
  | nil => rw [closeFrames, closing_of_isOwned h]
  | cons below rest => rw [closeFrames, closing_of_isOwned h]

/-- The last frame stays. -/
theorem closeFrames_single : (closeFrames t n consumed [f]).1 = [f] := by
  rw [closeFrames]
  split <;> rfl

/-- An end token that finds its frame closes it, and goes on below. -/
theorem closeFrames_closesOwn (h : closesOwn f t.kind = true) (hs : stack ≠ []) :
    closeFrames t n false (f :: stack) = closeFrames t n true stack := by
  rw [closeFrames_cons hs]
  simp [closing, h]

/-! ## Litter on the stack -/

/-- The frames of what is left open. -/
def Litter.frames : Litter → List Frame
  | pair => [.value 0, .key 0 false]
  | item => [.blockEntry 0, .blockSeq 0 true]
  | key => [.key 0 false]
  | list => [.blockSeq 0 true]

/-- The frames of all that is left open. -/
def frames (w : List Litter) : List Frame := w.flatMap Litter.frames

@[simp] theorem frames_nil : frames [] = [] := rfl

@[simp] theorem frames_cons (l : Litter) (w : List Litter) : frames (l :: w) = l.frames ++ frames w :=
  rfl

/-- Litter holds no frame that waits for an end token. -/
theorem own_frames (w : List Litter) (stack : List Frame) :
    own (frames w ++ stack) = own stack := by
  induction w with
  | nil => rfl
  | cons l w ih =>
    rw [frames_cons, List.append_assoc]
    cases l <;> simpa [Litter.frames, own, Frame.isOwned] using ih

/-- A value goes with its key when something else stands behind it. -/
theorem closing_value :
    closing t n consumed (.value 0) (some (.key 0 false)) =
      if t.kind != .value && !isProperty t then .closeTwo else .stay := by
  simp [closing, closesOwn, Frame.isKey]

/-- The last item goes with its sequence, any other alone. -/
theorem closing_item :
    closing t (some next.kind) consumed (.blockEntry 0) (some (.blockSeq 0 true)) =
      if t.kind != .blockEntry && !isProperty t && next.kind != .blockEntry then .closeTwo
      else if endsItem next.kind then .closeOne
      else .stay := by
  simp [closing, closesOwn, Frame.isImplicitSeq, and_assoc]

/-- A key alone is closed where its entry ends. -/
theorem closing_key {i : Int} {explicit : Bool} :
    closing t (some next.kind) consumed (.key i explicit) below =
      if endsEntry next.kind then .closeOne else .stay := by
  simp [closing, closesOwn]

/-- A sequence without start and end tokens is never closed alone. -/
theorem closing_list : closing t n consumed (.blockSeq 0 true) below = .stay := by
  cases h : t.kind <;> simp [closing, closesOwn, h]

/-- The end of a token closes of the litter what `sweep` closes, and goes on below if nothing is
left. -/
theorem closeFrames_frames (w : List Litter) (hs : stack ≠ []) :
    closeFrames t (some next.kind) consumed (frames w ++ stack) =
      if (sweep t next w).isEmpty then closeFrames t (some next.kind) consumed stack
      else (frames (sweep t next w) ++ stack, true) := by
  induction w with
  | nil => rfl
  | cons l w ih =>
    have hne : frames w ++ stack ≠ [] := by simp [hs]
    -- each sort of litter is closed under the condition under which `sweep` drops it
    cases l with
    | pair =>
      show closeFrames t _ consumed (.value 0 :: .key 0 false :: (frames w ++ stack)) = _
      rw [closeFrames, closing_value, sweep]
      by_cases hc : (t.kind != .value && !isProperty t) = true
      · simp only [if_pos hc, ih, List.isEmpty_iff, hne, if_false]
      · simp only [if_neg hc]
        rfl
    | item =>
      show closeFrames t _ consumed (.blockEntry 0 :: .blockSeq 0 true :: (frames w ++ stack)) = _
      rw [closeFrames, closing_item, sweep]
      by_cases hc :
          (t.kind != .blockEntry && !isProperty t && next.kind != .blockEntry) = true
      · simp only [if_pos hc, ih, List.isEmpty_iff, hne, if_false]
      · by_cases hi : endsItem next.kind = true
        · simp only [if_neg hc, if_pos hi, closeFrames_cons hne, closing_list]
          rfl
        · simp only [if_neg hc, if_neg hi]
          rfl
    | key =>
      show closeFrames t _ consumed (.key 0 false :: (frames w ++ stack)) = _
      rw [closeFrames_cons hne, closing_key, sweep]
      by_cases hc : endsEntry next.kind = true
      · simp only [if_pos hc, ih]
      · simp only [if_neg hc]
        rfl
    | list =>
      show closeFrames t _ consumed (.blockSeq 0 true :: (frames w ++ stack)) = _
      rw [closeFrames_cons hne, closing_list, sweep]
      rfl

/-- The litter of a collection that has not ended. -/
theorem closeFrames_true_frames (w : List Litter) (hf : f.isOwned = true) :
    (closeFrames t (some next.kind) true (frames w ++ f :: stack)).1 =
      frames (sweep t next w) ++ f :: stack := by
  rw [closeFrames_frames w (by simp)]
  split
  · rename_i hw
    rw [List.isEmpty_iff.1 hw, closeFrames_true_owned hf]
    rfl
  · rfl

/-- Behind a property nothing closes, unless the token that follows ends an item or an entry. -/
theorem closeFrames_property (ht : isProperty t = true) (hi : endsItem next.kind = false)
    (he : endsEntry next.kind = false) (stack : List Frame) :
    (closeFrames t (some next.kind) consumed stack).1 = stack := by
  have hk : t.kind != .blockEntry := by
    unfold isProperty at ht
    split at ht <;> simp_all
  cases stack with
  | nil => rfl
  | cons top rest =>
    cases rest with
    | nil => exact closeFrames_single
    | cons below rest =>
      have hne : isEnder t.kind = false := by
        unfold isProperty at ht
        split at ht <;> simp_all [isEnder]
      rw [closeFrames]
      cases top with
      | key i e => simp [closing, closesOwn_of_not_isEnder hne, he]
      | _ => simp [closing, closesOwn_of_not_isEnder hne, ht, hi]

end

end YamlLinter.Indentation
