import YamlLinter.Proofs.Directives

/-!
# The order of elements

The tokens, comments and lines of a source are merged into one list. Nothing is lost or doubled on
the way, and tokens, comments and lines each keep their order. Tokens and comments come by where they
start, and each line comes behind just those of them that start on it or before it, since offsets and
lines of marks grow together.

## Contents

* `filterMap_merge_right`, `pairwise_merge_of_trans`: what a merge keeps;
* `Element.Leads`: tokens and comments by where they start, tokens first;
* `Element.rank`: the order of items and lines;
* `leads_scanned`, `lineNumber_scanned`: the tokens and comments of a scan;
* `rank_elements`, `lines_around`: the lines in front of an item and behind it;
* `elements_complete_and_placed`: the elements of a source.
-/

namespace YamlLinter

/-! ## Merges -/

section Merge

variable {α β : Type} {le : α → α → Bool} {xs ys : List α}

theorem filterMap_merge_right {f : α → Option β} (h : ∀ y ∈ ys, f y = none) :
    (xs.merge ys le).filterMap f = xs.filterMap f := by
  induction xs generalizing ys with
  | nil =>
    rw [List.nil_merge, List.filterMap_eq_nil_iff.2 h]
    rfl
  | cons x xs ih =>
    induction ys with
    | nil => rw [List.merge_right]
    | cons y ys ihy =>
      rw [List.cons_merge_cons]
      by_cases hle : le x y = true
      · rw [if_pos hle, List.filterMap_cons, ih h, List.filterMap_cons]
      · rw [if_neg hle, List.filterMap_cons_none (h y List.mem_cons_self)]
        exact ihy fun z hz => h z (List.mem_cons_of_mem y hz)

/-- A merge keeps a transitive relation that its comparison follows. -/
theorem pairwise_merge_of_trans {R : α → α → Prop} (htrans : ∀ {a b c}, R a b → R b c → R a c)
    (hxs : xs.Pairwise R) (hys : ys.Pairwise R)
    (hle : ∀ x ∈ xs, ∀ y ∈ ys, le x y = true → R x y)
    (hgt : ∀ x ∈ xs, ∀ y ∈ ys, le x y = false → R y x) : (xs.merge ys le).Pairwise R := by
  -- the merge walks both lists, and so does the induction
  induction xs generalizing ys with
  | nil =>
    rw [List.nil_merge]
    exact hys
  | cons x xs ihx =>
    obtain ⟨hx, hxs'⟩ := List.pairwise_cons.1 hxs
    induction ys with
    | nil =>
      rw [List.merge_right]
      exact hxs
    | cons y ys ihy =>
      obtain ⟨hy, hys'⟩ := List.pairwise_cons.1 hys
      rw [List.cons_merge_cons]
      by_cases hxy : le x y = true
      · rw [if_pos hxy]
        have hfirst := hle x List.mem_cons_self y List.mem_cons_self hxy
        refine .cons (fun z hz => ?_) (ihx hxs' hys (fun a ha => hle a (List.mem_cons_of_mem x ha))
          fun a ha => hgt a (List.mem_cons_of_mem x ha))
        rcases List.mem_merge.1 hz with hz | hz
        · exact hx z hz
        · rcases List.mem_cons.1 hz with rfl | hz
          · exact hfirst
          · exact htrans hfirst (hy z hz)
      · rw [if_neg hxy]
        have hfirst := hgt x List.mem_cons_self y List.mem_cons_self (Bool.eq_false_iff.2 hxy)
        refine .cons (fun z hz => ?_) (ihy hys' (fun a ha b hb => hle a ha b (List.mem_cons_of_mem y hb))
          fun a ha b hb => hgt a ha b (List.mem_cons_of_mem y hb))
        rcases List.mem_merge.1 hz with hz | hz
        · rcases List.mem_cons.1 hz with rfl | hz
          · exact hfirst
          · exact htrans hfirst (hx z hz)
        · exact hy z hz

end Merge

/-! ## Elements -/

namespace Element

/-- The token that an element is, with what was found at it. -/
def token? : Element → Option (Token × List Problem)
  | .token t problems => some (t, problems)
  | _ => none

/-- The line that an element is. -/
def line? : Element → Option Line
  | .line l => some l
  | _ => none

/-- Whether an element is a comment. -/
def isComment : Element → Bool
  | .comment _ => true
  | _ => false

/-- The first element starts before the second, or at the same place and then not as a comment in
front of a token. -/
def Leads (d e : Element) : Prop :=
  d.index < e.index ∨ d.index = e.index ∧ (d.isComment = true → e.isComment = true)

theorem Leads.trans {c d e : Element} (hcd : c.Leads d) (hde : d.Leads e) : c.Leads e := by
  unfold Leads at *
  rcases hcd with hlt | ⟨heq, hcomment⟩
  · rcases hde with hlt' | ⟨heq', -⟩
    · exact .inl (Nat.lt_trans hlt hlt')
    · exact .inl (heq' ▸ hlt)
  · rcases hde with hlt' | ⟨heq', hcomment'⟩
    · exact .inl (heq ▸ hlt')
    · exact .inr ⟨heq.trans heq', fun hc => hcomment' (hcomment hc)⟩

/-- Items of a line come in front of its end, and the end of a line in front of the items of the
next. Items count lines from zero. -/
def rank : Element → Nat
  | .line l => 2 * l.number
  | e => 2 * e.lineNumber + 1

theorem rank_of_isItem {e : Element} (h : e.isItem = true) : e.rank = 2 * e.lineNumber + 1 := by
  cases e with
  | token t ps => rfl
  | comment k => rfl
  | line l => cases h

end Element

variable {tokens : List (Token × List Problem)} {comments : List Comment} {lines : List Line}

theorem isItem_itemsOf {e : Element} (h : e ∈ itemsOf tokens comments) : e.isItem = true := by
  rcases List.mem_merge.1 h with h | h
  · obtain ⟨⟨t, ps⟩, -, rfl⟩ := List.mem_map.1 h
    rfl
  · obtain ⟨k, -, rfl⟩ := List.mem_map.1 h
    rfl

theorem elements_eq (tokens : List (Token × List Problem)) (comments : List Comment)
    (lines : List Line) :
    elements tokens comments lines =
      (itemsOf tokens comments).merge (lines.map .line) Element.endsBefore := rfl

/-! ## Nothing is lost or doubled -/

theorem tokens_elements : (elements tokens comments lines).filterMap Element.token? = tokens := by
  rw [elements_eq, filterMap_merge_right, itemsOf, filterMap_merge_right, List.filterMap_map]
  · exact List.filterMap_some
  · intro e he
    obtain ⟨k, -, rfl⟩ := List.mem_map.1 he
    rfl
  · intro e he
    obtain ⟨l, -, rfl⟩ := List.mem_map.1 he
    rfl

theorem comments_elements :
    (elements tokens comments lines).filterMap Element.comment? = comments := by
  rw [elements_eq, filterMap_merge_right, comments_itemsOf]
  intro e he
  obtain ⟨l, -, rfl⟩ := List.mem_map.1 he
  rfl

theorem lines_elements : (elements tokens comments lines).filterMap Element.line? = lines := by
  rw [elements_eq, filterMap_merge, List.filterMap_map]
  · exact List.filterMap_some
  · intro e he
    have hitem := isItem_itemsOf he
    cases e with
    | token t ps => rfl
    | comment k => rfl
    | line l => cases hitem

/-- Without the lines, the tokens and comments are left. -/
theorem items_elements :
    (elements tokens comments lines).filter Element.isItem = itemsOf tokens comments := by
  have hitems : (itemsOf tokens comments).filter Element.isItem = itemsOf tokens comments :=
    List.filter_eq_self.2 fun e he => isItem_itemsOf he
  rw [elements_eq, ← List.filterMap_eq_filter, filterMap_merge_right, List.filterMap_eq_filter,
    hitems]
  intro e he
  obtain ⟨l, -, rfl⟩ := List.mem_map.1 he
  rfl

/-! ## Items by where they start -/

theorem leads_itemsOf (htokens : (tokens.map (·.1)).Pairwise fun t u => t.start.index ≤ u.start.index)
    (hcomments : comments.Pairwise fun k l => k.start.index ≤ l.start.index) :
    (itemsOf tokens comments).Pairwise Element.Leads := by
  have hle : ∀ {d e : Element}, d.index ≤ e.index → (d.isComment = true → e.isComment = true) →
      d.Leads e := by
    intro d e hindex hcomment
    rcases Nat.lt_or_eq_of_le hindex with hlt | heq
    · exact .inl hlt
    · exact .inr ⟨heq, hcomment⟩
  refine pairwise_merge_of_trans Element.Leads.trans ?_ ?_ ?_ ?_
  · rw [List.pairwise_map] at htokens ⊢
    exact htokens.imp fun h => hle h fun hcomment => by cases hcomment
  · rw [List.pairwise_map]
    exact hcomments.imp fun h => hle h fun _ => rfl
  · intro d hd e he hde
    obtain ⟨⟨t, ps⟩, -, rfl⟩ := List.mem_map.1 hd
    exact hle (of_decide_eq_true hde) fun hcomment => by cases hcomment
  · intro d _ e _ hde
    exact .inl (Nat.lt_of_not_le (of_decide_eq_false hde))

/-! ## Lines around items -/

theorem rank_elements
    (hitems : (itemsOf tokens comments).Pairwise fun d e => d.lineNumber ≤ e.lineNumber)
    (hlines : lines.Pairwise fun l m => l.number < m.number) :
    (elements tokens comments lines).Pairwise fun d e => d.rank ≤ e.rank := by
  rw [elements_eq]
  refine pairwise_merge_of_trans Nat.le_trans ?_ ?_ ?_ ?_
  · refine hitems.imp_of_mem fun {d e} hd he h => ?_
    rw [Element.rank_of_isItem (isItem_itemsOf hd), Element.rank_of_isItem (isItem_itemsOf he)]
    omega
  · rw [List.pairwise_map]
    refine hlines.imp fun {l m} h => ?_
    simp only [Element.rank]
    omega
  · intro d hd e he hde
    obtain ⟨l, -, rfl⟩ := List.mem_map.1 he
    have hlt := endsBefore_line.1 hde
    rw [Element.rank_of_isItem (isItem_itemsOf hd), Element.rank]
    omega
  · intro d hd e he hde
    obtain ⟨l, -, rfl⟩ := List.mem_map.1 he
    have hge := mt endsBefore_line.2 (Bool.eq_false_iff.1 hde)
    rw [Element.rank_of_isItem (isItem_itemsOf hd), Element.rank]
    omega

/-- Lines that are numbered one after the other are split by a number where they are split by their
places. -/
theorem eq_take_drop_of_number {front back : List Line} {n : Nat}
    (hnumbers : (front ++ back).map Line.number = List.range' 1 (front ++ back).length)
    (hfront : ∀ l ∈ front, l.number ≤ n) (hback : ∀ l ∈ back, n < l.number) :
    front = (front ++ back).take n ∧ back = (front ++ back).drop n := by
  have hnumber : ∀ {i : Nat} {l : Line}, (front ++ back)[i]? = some l → l.number = i + 1 := by
    intro i l hl
    have hi := (List.getElem?_eq_some_iff.1 hl).1
    have hsame := congrArg (·[i]?) hnumbers
    rw [List.getElem?_map, hl, List.getElem?_range' hi, Option.map_some, Option.some_inj] at hsame
    omega
  have hle : front.length ≤ n := by
    rcases List.eq_nil_or_concat front with rfl | ⟨front, last, rfl⟩
    · exact Nat.zero_le n
    · rw [List.concat_eq_append] at hfront hnumber ⊢
      have hlast := hnumber (i := front.length) (l := last) (by simp)
      have := hfront last (by simp)
      rw [List.length_append, List.length_singleton]
      omega
  cases back with
  | nil => simp [List.take_of_length_le hle, hle]
  | cons l back =>
    have hfirst := hnumber (i := front.length) (l := l) (by simp)
    have hlt := hback l List.mem_cons_self
    obtain rfl : n = front.length := by omega
    simp

/-- In front of an item come just the lines before the one that it starts on, and behind it all
others. -/
theorem lines_around
    (hitems : (itemsOf tokens comments).Pairwise fun d e => d.lineNumber ≤ e.lineNumber)
    (hlines : lines.map Line.number = List.range' 1 lines.length) {before behind : List Element}
    {e : Element} (hsplit : elements tokens comments lines = before ++ e :: behind)
    (he : e.isItem = true) :
    before.filterMap Element.line? = lines.take e.lineNumber ∧
      behind.filterMap Element.line? = lines.drop e.lineNumber := by
  -- all lines are there, so what counts is the side of the item on which each stands
  have hparts : before.filterMap Element.line? ++ behind.filterMap Element.line? = lines := by
    have hall : (elements tokens comments lines).filterMap Element.line? = lines := lines_elements
    have hnone : e.line? = none := by
      cases e with
      | token t ps => rfl
      | comment k => rfl
      | line l => cases he
    rwa [hsplit, List.filterMap_append, List.filterMap_cons_none hnone] at hall
  have hsorted : lines.Pairwise fun l m => l.number < m.number := by
    rw [← List.pairwise_map (f := Line.number) (R := fun m n => m < n), hlines]
    exact List.pairwise_lt_range'
  have hranks := rank_elements hitems hsorted
  rw [hsplit, List.pairwise_append] at hranks
  obtain ⟨-, hbehind, hbefore⟩ := hranks
  have hrank := Element.rank_of_isItem he
  have hline : ∀ {d : Element} {l : Line}, d.line? = some l → d.rank = 2 * l.number := by
    intro d l hl
    cases d with
    | token t ps => cases hl
    | comment k => cases hl
    | line m =>
      cases hl
      rfl
  rw [← hparts]
  apply eq_take_drop_of_number
  · rw [hparts]
    exact hlines
  · intro l hl
    obtain ⟨d, hd, hl⟩ := List.mem_filterMap.1 hl
    have hle := hbefore d hd e List.mem_cons_self
    rw [hrank, hline hl] at hle
    omega
  · intro l hl
    obtain ⟨d, hd, hl⟩ := List.mem_filterMap.1 hl
    have hle := (List.pairwise_cons.1 hbehind).1 d hd
    rw [hrank, hline hl] at hle
    omega

/-! ## Scanned sources -/

section Scanned

variable {source : List Char}

/-- Items start at cursors of the source. -/
theorem exists_ahead_of_mem_itemsOf (htokens : tokens.map (·.1) <+: (scanText source).tokens)
    {e : Element} (he : e ∈ itemsOf tokens (scanText source).comments) :
    ∃ c, (Cursor.ofText source).Ahead c ∧ e.index = c.mark.index ∧ e.lineNumber = c.line := by
  obtain ⟨⟨c, hlaid⟩, d, hnotes⟩ := laid_scan source
  rcases List.mem_merge.1 he with he | he
  · obtain ⟨⟨t, ps⟩, ht, rfl⟩ := List.mem_map.1 he
    have hmem : t ∈ (scanText source).tokens := htokens.subset (List.mem_map_of_mem ht)
    obtain ⟨p, -, hp, -, -, hstart, -⟩ := hlaid.mem hmem
    exact ⟨p, hp, congrArg Mark.index hstart, congrArg Mark.line hstart⟩
  · obtain ⟨k, hk, rfl⟩ := List.mem_map.1 he
    obtain ⟨p, -, hp, -, -, hstart, -⟩ := hnotes.mem hk
    exact ⟨p, hp, congrArg Mark.index hstart, congrArg Mark.line hstart⟩

theorem leads_scanned (htokens : tokens.map (·.1) <+: (scanText source).tokens) :
    (itemsOf tokens (scanText source).comments).Pairwise Element.Leads := by
  obtain ⟨⟨c, hlaid⟩, d, hnotes⟩ := laid_scan source
  exact leads_itemsOf (hlaid.pairwise_start.sublist htokens.sublist) hnotes.pairwise_start

/-- Items that start later do not start on an earlier line. -/
theorem lineNumber_scanned (htokens : tokens.map (·.1) <+: (scanText source).tokens) :
    (itemsOf tokens (scanText source).comments).Pairwise fun d e => d.lineNumber ≤ e.lineNumber := by
  refine (leads_scanned htokens).imp_of_mem fun {d e} hd he hde => ?_
  obtain ⟨p, hp, hpindex, hpline⟩ := exists_ahead_of_mem_itemsOf htokens hd
  obtain ⟨q, hq, hqindex, hqline⟩ := exists_ahead_of_mem_itemsOf htokens he
  have hindex : p.mark.index ≤ q.mark.index := by
    rw [← hpindex, ← hqindex]
    rcases hde with hlt | ⟨heq, -⟩
    · exact Nat.le_of_lt hlt
    · exact Nat.le_of_eq heq
  rw [hpline, hqline]
  exact Cursor.line_le_of_index_le hp hq hindex

end Scanned

/-- The elements of a source. They hold the tokens, of which there may be only the first ones, the
comments and the lines, each of them once and in order. Tokens and comments come by where they start,
a token first where both start at the same place. If only line feeds, alone or behind a carriage
return, end lines, a token or comment with `l` lines before its own comes behind line number `l` and
in front of line number `l + 1`, which is there. This holds also of a source that cannot be scanned to
its end. -/
theorem elements_complete_and_placed (source : String) (tokens : List (Token × List Problem))
    (htokens : tokens.map (·.1) <+: (scan source).tokens) :
    let lines := Line.all source.toList
    let es := elements tokens (scan source).comments lines
    es.filterMap Element.token? = tokens ∧
      es.filterMap Element.comment? = (scan source).comments ∧
      es.filterMap Element.line? = lines ∧
      (es.filter Element.isItem).Pairwise Element.Leads ∧
      ((∀ i, endsLineAt source.toList i = true → source.toList[i]? = some '\n') →
        ∀ before e behind, es = before ++ e :: behind → e.isItem = true →
          before.filterMap Element.line? = lines.take e.lineNumber ∧
          behind.filterMap Element.line? = lines.drop e.lineNumber ∧
          e.lineNumber < lines.length) := by
  intro lines es
  refine ⟨tokens_elements, comments_elements, lines_elements, ?_, ?_⟩
  · rw [items_elements]
    exact leads_scanned htokens
  · intro hfeed before e behind hsplit he
    obtain ⟨hbefore, hbehind⟩ :=
      lines_around (lineNumber_scanned htokens) (numbers_all source.toList) hsplit he
    refine ⟨hbefore, hbehind, ?_⟩
    have hitems : es.filter Element.isItem = itemsOf tokens (scan source).comments := items_elements
    have hmem : e ∈ itemsOf tokens (scan source).comments := by
      rw [← hitems, List.mem_filter, hsplit]
      exact ⟨List.mem_append_right before List.mem_cons_self, he⟩
    obtain ⟨c, hc, -, hline⟩ := exists_ahead_of_mem_itemsOf htokens hmem
    rw [hline]
    exact of_decide_eq_true (reaches_of_at hc.at_pos hfeed)

/-- A comment alone on the second of three lines, of which the last cannot be scanned to its end. -/
theorem elements_complete_and_placed_comment :
    let source := "a: 1\n# c\nb: @"
    let lines := Line.all source.toList
    let tokens := ((scan source).tokens.take 3).map fun t => (t, [])
    (scan source).error ≠ none ∧ tokens.length = 3 ∧ lines.length = 3 ∧
      ∃ before k behind, elements tokens (scan source).comments lines =
          before ++ .comment k :: behind ∧ k.start.line = 1 ∧
        before.filterMap Element.line? = lines.take 1 ∧
        behind.filterMap Element.line? = lines.drop 1 := by
  intro source lines tokens
  have htokens : tokens.map (·.1) <+: (scan source).tokens := by
    simp only [tokens, List.map_map]
    exact (List.map_id _).symm ▸ List.take_prefix 3 _
  have hfeed : ∀ i, endsLineAt source.toList i = true → source.toList[i]? = some '\n' :=
    feeds_of_lt (by decide +kernel)
  obtain ⟨-, hcomments, -, -, hplaced⟩ := elements_complete_and_placed source tokens htokens
  have hstarts : (scan source).comments.map (·.start.line) = [1] := by decide +kernel
  obtain ⟨k, hk, hline⟩ : ∃ k ∈ (scan source).comments, k.start.line = 1 :=
    List.mem_map.1 (hstarts ▸ List.mem_singleton_self 1)
  rw [← hcomments] at hk
  obtain ⟨e, he, hek⟩ := List.mem_filterMap.1 hk
  obtain rfl : e = .comment k := by
    cases e with
    | token t ps => cases hek
    | comment j => rw [Option.some.inj hek]
    | line l => cases hek
  obtain ⟨before, behind, hsplit⟩ := List.append_of_mem he
  obtain ⟨hbefore, hbehind, -⟩ := hplaced hfeed before _ behind hsplit rfl
  simp only [Element.lineNumber, hline] at hbefore hbehind
  exact ⟨by decide +kernel, by decide +kernel, by decide +kernel, before, k, behind, hsplit, hline,
    hbefore, hbehind⟩

end YamlLinter
