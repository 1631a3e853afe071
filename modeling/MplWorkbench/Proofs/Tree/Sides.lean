import MplWorkbench.Proofs.Reading.Names
import MplWorkbench.Proofs.Tree.Caret

/-! Both sides of a caret.

Only a scope starts where the node behind it does, and that node is a terminal,
the first child of the scope. So of the nodes that start together there are two at
most, and which of them is meant makes no more difference than between a terminal
and the scope that it opens.

`sides_parse`: what is around any offset of a text is found by a scan of all its
terminals. -/
namespace MplWorkbench

namespace Tree

variable {t : Tree} {text : String} {f : Forest} {stop : Position} {offset id : Nat}

/-- The scope that a node is the first child of, or else the node itself. The root is no scope. -/
def scopeFrom (t : Tree) (id : NodeId) : NodeId :=
  match t.parent? id with
  | some p => if p ≠ root ∧ t.firstChild? p = some id then p else id
  | none => id

/-- What a terminal on the right of a caret is taken for. -/
def onRight (t : Tree) (id : NodeId) : Reach → NodeId
  | .near => t.scopeFrom id
  | .far => id

/-- What a terminal on the left of a caret is taken for. -/
def onLeft (t : Tree) (id : NodeId) : Reach → NodeId
  | .near => id
  | .far => t.scopeFrom id

/-- What is around an offset in the tree of a text of so many bytes. -/
inductive Sides (t : Tree) (size offset : Nat) : Prop where
  /-- Up to the end of the text: `here` is the first terminal that ends past the offset, or the end
  of the text if there is none. -/
  | within {front back : List NodeId} {here : NodeId} : offset ≤ size →
      t.tokens = front ++ here :: back → (∀ k ∈ front, t.stop k ≤ offset) →
      (offset < t.stop here ∨ t.kind here = .eof ∧ back = []) →
      t.tokenAt? root offset = some here →
      (∀ right, t.right? root offset right = some (t.onRight here right)) →
      (∀ left right, t.around root offset left right =
        (if t.start here < offset then some (t.onRight here right)
          else front.getLast?.map (t.onLeft · left), some (t.onRight here right))) →
      Sides t size offset
  | past {front : List NodeId} {last : NodeId} : size < offset →
      t.tokens = front ++ [last] → t.kind last = .eof → t.tokenAt? root offset = none →
      (∀ right, t.right? root offset right = none) →
      (∀ left right, t.around root offset left right = (some last, none)) →
      Sides t size offset

theorem firstTogether_eq (id : NodeId) : t.firstTogether id =
    match t.prev? id with
    | none => id
    | some n => if t.start n = t.start id then t.firstTogether n else id := by
  rw [firstTogether]
  split <;> simp only [*]

namespace Grown

variable (h : t.Grown text f stop)
include h

/-! ### Nodes that start together -/

theorem prev?_succ (hpos : 1 ≤ id) (hlt : id + 1 < t.size) : t.prev? (id + 1) = some id :=
  (h.planted.straight.prev_iff (id + 1) id).2 ⟨hpos, rfl, t.size_eq ▸ hlt⟩

theorem prev?_one : t.prev? 1 = none := by
  refine Option.eq_none_iff_forall_ne_some.2 fun (p : Nat) hp => ?_
  have hbounds := (h.planted.straight.prev_iff 1 p).1 hp
  omega

/-- A scope begins with its first child, which is a terminal. -/
theorem first_of_inner (hid : t.isTerminal id = false) (hpos : 1 ≤ id) :
    t.isTerminal (id + 1) ∧ t.start (id + 1) = t.start id := by
  have hne : id ≠ root := Nat.ne_of_gt hpos
  have hscope := (h.framed.isScope_of_inner id (lt_size_of_inner hid) hne hid).1
  have hfirst := h.firstChild?_eq hid
  rw [firstChild?, ← Array.getElem?_toList] at hfirst
  have hsize := (lt_of_firstChild? (h.firstChild?_eq hid)).2
  have hterminal := h.isTerminal_of_kind hsize (Nat.succ_ne_zero id)
  obtain ⟨block, -, hopens, -⟩ := h.framed.scope id hscope
  unfold Opens at hopens
  split at hopens
  · obtain ⟨name, colon, rest, hchildren, hkind, hstart, -⟩ := hopens
    rw [hchildren] at hfirst
    obtain rfl := Option.some.inj hfirst
    exact ⟨hterminal (by rw [hkind]; rfl), hstart⟩
  · obtain ⟨opener, rest, hchildren, hkind, hstart⟩ := hopens
    rw [hchildren] at hfirst
    obtain rfl := Option.some.inj hfirst
    exact ⟨hterminal (by rw [hkind]; cases block <;> rfl), hstart⟩

/-- Nothing in front of a node starts with it, unless that is a scope. -/
theorem firstTogether_of_isTerminal (hid : t.isTerminal id) (hlt : id + 1 < t.size) :
    t.firstTogether (id + 1) = id + 1 := by
  have hpos := h.pos_of_isTerminal hid
  have hle : id ≤ f.size := by
    rw [h.size_eq] at hlt
    omega
  have hstart : t.start id < t.start (id + 1) := Nat.lt_of_lt_of_le (h.start_lt_stop hpos hle)
    (h.stop_le_start hid (Nat.lt_succ_self id) hlt)
  rw [firstTogether_eq, h.prev?_succ hpos hlt]
  exact if_neg (Nat.ne_of_lt hstart)

theorem firstTogether_one : t.firstTogether 1 = 1 := by
  rw [firstTogether_eq, h.prev?_one]

/-- In front of a scope there is a terminal, or nothing. -/
theorem eq_one_or_of_inner (hid : t.isTerminal id = false) (hpos : 1 ≤ id) :
    id = 1 ∨ ∃ m, id = m + 1 ∧ t.isTerminal m := by
  obtain ⟨m, rfl⟩ : ∃ m, id = m + 1 := ⟨id - 1, by omega⟩
  rcases Nat.eq_zero_or_pos m with rfl | hm
  · exact .inl rfl
  refine .inr ⟨m, rfl, ?_⟩
  cases hinner : t.isTerminal m with
  | true => rfl
  | false =>
    have hterminal := (h.first_of_inner hinner hm).1
    rw [hid] at hterminal
    contradiction

/-- Nothing in front of a scope starts with it. -/
theorem firstTogether_of_inner (hid : t.isTerminal id = false) (hpos : 1 ≤ id) (hlt : id < t.size) :
    t.firstTogether id = id := by
  rcases h.eq_one_or_of_inner hid hpos with rfl | ⟨m, rfl, hm⟩
  · exact h.firstTogether_one
  · exact h.firstTogether_of_isTerminal hm hlt

/-- A scope starts with the terminal behind it. -/
theorem firstTogether_succ_of_inner (hid : t.isTerminal id = false) (hpos : 1 ≤ id)
    (hlt : id + 1 < t.size) : t.firstTogether (id + 1) = id := by
  rw [firstTogether_eq, h.prev?_succ hpos hlt]
  show (if t.start id = t.start (id + 1) then t.firstTogether id else id + 1) = id
  rw [if_pos (h.first_of_inner hid hpos).2.symm,
    h.firstTogether_of_inner hid hpos (Nat.lt_of_succ_lt hlt)]

/-- In front of all nodes that start with a terminal stands the terminal before it. -/
theorem prev?_firstTogether (hid : t.isTerminal id) (hlt : id < t.size) :
    t.prev? (t.firstTogether id) = t.prevToken? id := by
  obtain ⟨m, rfl⟩ : ∃ m, id = m + 1 := ⟨id - 1, by have := h.pos_of_isTerminal hid; omega⟩
  rcases Nat.eq_zero_or_pos m with rfl | hm
  · rw [h.firstTogether_one, prevToken?, h.prev?_one, backward_none]
    rfl
  have hprev := h.prev?_succ hm hlt
  cases hinner : t.isTerminal m with
  | true =>
    rw [h.firstTogether_of_isTerminal hinner hlt, prevToken?, hprev, backward_some,
      List.find?_cons_of_pos hinner]
  | false =>
    rw [h.firstTogether_succ_of_inner hinner hm hlt, prevToken?, hprev, backward_some,
      List.find?_cons_of_neg (by simp [hinner])]
    rcases h.eq_one_or_of_inner hinner hm with rfl | ⟨k, rfl, hk⟩
    · rw [h.prev?_one, backward_none]
      rfl
    · rw [h.prev?_succ (h.pos_of_isTerminal hk) (Nat.lt_of_succ_lt hlt), backward_some,
        List.find?_cons_of_pos hk]

/-- No other node starts with a terminal behind it. -/
theorem lastTogether_eq (hid : t.isTerminal id) : t.lastTogether id = id := by
  have hpos := h.pos_of_isTerminal hid
  rw [lastTogether]
  split
  · rfl
  · next n hn =>
    obtain ⟨-, hsucc, hn⟩ := (h.planted.straight.next_iff id n).1 hn
    rw [show t.thread.size = t.size from t.size_eq] at hn
    have hle : id ≤ f.size := by
      rw [h.size_eq] at hn
      omega
    have hstart : t.start id < t.start n := Nat.lt_of_lt_of_le (h.start_lt_stop hpos hle)
      (h.stop_le_start hid (by omega) hn)
    exact if_neg (Nat.ne_of_gt hstart)

theorem firstTogether_eq_scopeFrom (hid : t.isTerminal id) (hlt : id < t.size) :
    t.firstTogether id = t.scopeFrom id := by
  obtain ⟨m, rfl⟩ : ∃ m, id = m + 1 := ⟨id - 1, by have := h.pos_of_isTerminal hid; omega⟩
  rcases Nat.eq_zero_or_pos m with rfl | hm
  · rw [h.firstTogether_one, scopeFrom]
    split
    · next p hp =>
      have hroot : p = root := Nat.lt_one_iff.1 (lt_of_parent? hp)
      rw [if_neg fun hscope => hscope.1 hroot]
    · rfl
  cases hinner : t.isTerminal m with
  | true =>
    rw [h.firstTogether_of_isTerminal hinner hlt, scopeFrom]
    split
    · next p _ =>
      rw [if_neg]
      rintro ⟨-, hfirst⟩
      -- the first child comes right behind its parent, and here that is a terminal
      have hp := inner_of_mem_children (Array.mem_of_getElem? hfirst)
      obtain rfl : p = m := Nat.succ.inj (Option.some.inj ((h.firstChild?_eq hp).symm.trans hfirst))
      rw [hinner] at hp
      contradiction
    · rfl
  | false =>
    have hfirst := h.firstChild?_eq hinner
    have hparent := h.planted.parent_eq (Array.mem_of_getElem? hfirst)
    rw [h.firstTogether_succ_of_inner hinner hm hlt, scopeFrom, hparent]
    exact (if_pos ⟨Nat.ne_of_gt hm, hfirst⟩).symm

theorem start_firstTogether (hid : t.isTerminal id) (hlt : id < t.size) :
    t.start (t.firstTogether id) = t.start id := by
  rw [h.firstTogether_eq_scopeFrom hid hlt, scopeFrom]
  split
  · split
    · next p _ hscope =>
      have hp := inner_of_mem_children (Array.mem_of_getElem? hscope.2)
      obtain rfl := Option.some.inj ((h.firstChild?_eq hp).symm.trans hscope.2)
      exact (h.first_of_inner hp (Nat.pos_of_ne_zero hscope.1)).2.symm
    · rfl
  · rfl

/-! ### Up to the end of the text -/

variable {here : NodeId}

theorem right?_eq (hid : t.isTerminal here) (hlt : here < t.size)
    (hhere : t.tokenAt? root offset = some here) (right : Reach) :
    t.right? root offset right = some (t.onRight here right) := by
  cases right with
  | near => rw [right?, hhere, Option.map_some, h.firstTogether_eq_scopeFrom hid hlt, onRight]
  | far => rw [right?, hhere, Option.map_some, h.lastTogether_eq hid, onRight]

theorem start_onRight (hid : t.isTerminal here) (hlt : here < t.size) (right : Reach) :
    t.start (t.onRight here right) = t.start here := by
  cases right with
  | near => rw [onRight, ← h.firstTogether_eq_scopeFrom hid hlt, h.start_firstTogether hid hlt]
  | far => rfl

/-- In front of what is on the right, whichever is meant, stands the terminal before. -/
theorem prev?_onRight (hid : t.isTerminal here) (hlt : here < t.size) (right : Reach) :
    t.prev? (if right = .far then t.firstTogether (t.onRight here right)
      else t.onRight here right) = t.prevToken? here := by
  rw [← h.prev?_firstTogether hid hlt]
  cases right with
  | near => rw [if_neg Reach.noConfusion, onRight, h.firstTogether_eq_scopeFrom hid hlt]
  | far => rw [if_pos rfl, onRight]

theorem map_firstTogether {before : Option NodeId}
    (hbefore : ∀ k ∈ before, t.isTerminal k ∧ k < t.size) (left : Reach) :
    (if left = .far then before.map t.firstTogether else before) =
      before.map (t.onLeft · left) := by
  cases left with
  | near => exact Option.map_id'.symm
  | far =>
    rw [if_pos rfl]
    refine Option.map_congr fun k hk => ?_
    obtain ⟨hk, hlt⟩ := hbefore k hk
    exact h.firstTogether_eq_scopeFrom hk hlt

theorem around_eq {front back : List NodeId} (htokens : t.tokens = front ++ here :: back)
    (hhere : t.tokenAt? root offset = some here) (left right : Reach) :
    t.around root offset left right =
      (if t.start here < offset then some (t.onRight here right)
        else front.getLast?.map (t.onLeft · left), some (t.onRight here right)) := by
  have hmem (k : NodeId) (hk : k ∈ front ++ here :: back) : t.isTerminal k ∧ k < t.size :=
    h.mem_tokens_iff.1 (htokens ▸ hk)
  obtain ⟨hid, hlt⟩ := hmem here (List.mem_append_right _ List.mem_cons_self)
  have hprev : t.prevToken? here = front.getLast? :=
    (h.planted.enumerated.token_links front here back htokens).2.1
  have hfront : ∀ k ∈ front.getLast?, t.isTerminal k ∧ k < t.size := fun k hk =>
    hmem k (List.mem_append_left _ (List.mem_of_getLast? hk))
  rw [around, h.right?_eq hid hlt hhere]
  show (if t.start (t.onRight here right) < offset then _ else _) = _
  rw [h.start_onRight hid hlt, h.prev?_onRight hid hlt, hprev]
  split
  · rfl
  · exact congrArg (·, _) (h.map_firstTogether hfront left)

theorem sides_within (hle : offset ≤ stop.offset) : t.Sides stop.offset offset := by
  obtain ⟨front, here, back, htokens, hhere, hfront, -⟩ := h.exists_tokenAt? hle
  have hmem : here ∈ t.tokens := htokens ▸ List.mem_append_right _ List.mem_cons_self
  obtain ⟨hid, hlt⟩ := h.mem_tokens_iff.1 hmem
  refine .within hle htokens hfront ?_ hhere (h.right?_eq hid hlt hhere) (h.around_eq htokens hhere)
  have hfound := h.tokenAt?_root hle ▸ hhere
  obtain ⟨-, hends, -⟩ := h.planted.enumerated.find?_tokens_eq_some_iff.1 hfound
  rcases Bool.or_eq_true_iff.1 hends with hstop | hkind
  · exact .inl (of_decide_eq_true hstop)
  refine .inr ⟨eq_of_beq hkind, List.eq_nil_iff_forall_not_mem.2 fun k hk => ?_⟩
  -- nothing is behind the end of the text
  have hordered := h.pairwise_tokens
  rw [htokens, List.pairwise_append, List.pairwise_cons] at hordered
  have hk' := h.mem_tokens_iff.1 (htokens ▸ List.mem_append_right _ (List.mem_cons_of_mem _ hk))
  exact h.kind_ne hid (h.le_of_lt (hordered.2.1.1 k hk).1 hk'.2) (eq_of_beq hkind)

/-! ### Past the end of the text -/

/-- No search halts at a node that ends in front of the offset. -/
theorem halts_of_past (hlt : stop.offset < offset) (hpos : 1 ≤ id) (hid : id < t.size) :
    t.halts offset id = false := by
  obtain ⟨hle, hstop⟩ := h.between hpos hid
  rw [Bool.eq_false_iff]
  simp only [halts, covers, Bool.or_eq_true, Bool.and_eq_true, decide_eq_true_eq, beq_iff_eq, ne_eq]
  omega

theorem tokenAt?_of_past (hlt : stop.offset < offset) : t.tokenAt? root offset = none := by
  have hstop : t.stop root = stop.offset := congrArg Span.stop h.framed.root_span
  have hnone : (t.children root).toList.find? (t.halts offset) = none := by
    refine List.find?_eq_none.2 fun c hc => ?_
    obtain ⟨hpos, hsize⟩ := lt_of_mem_children (Array.mem_toList_iff.1 hc)
    exact Bool.eq_false_iff.1 (h.halts_of_past hlt hpos hsize)
  have hback : decide (t.stop root = offset) = false := by
    rw [hstop]
    exact decide_eq_false (Nat.ne_of_lt hlt)
  have hdescend : t.descend root offset = root := by
    rw [descend_eq h.framed, hnone]
    rfl
  simp only [tokenAt?, hback, Bool.and_false, Bool.false_and, Bool.false_eq_true, if_false,
    hdescend, if_true]

theorem exists_tokens_eq : ∃ front, t.tokens = front ++ [f.size + 1] := by
  rw [h.planted.enumerated.tokens_eq, h.size_eq, List.range_succ, List.filter_append,
    List.filter_cons_of_pos h.end_eq.1]
  exact ⟨_, rfl⟩

theorem sides_past (hlt : stop.offset < offset) : t.Sides stop.offset offset := by
  obtain ⟨front, htokens⟩ := h.exists_tokens_eq
  have hnone := h.tokenAt?_of_past hlt
  have hright (right : Reach) : t.right? root offset right = none := by
    cases right <;> rw [right?, hnone, Option.map_none]
  refine .past hlt htokens h.end_eq.2.1 hnone hright fun left right => ?_
  rw [around, hright, h.lastToken?_root]

end Grown

end Tree

/-- What is around any offset of any text. -/
theorem sides_parse (text : String) (o : Options) (offset : Nat) :
    (parse text o).tree.Sides text.utf8ByteSize offset := by
  obtain ⟨f, stop, h, hstop⟩ := Reading.exists_grown text o
  rw [← hstop]
  rcases Nat.lt_or_ge stop.offset offset with hlt | hle
  · exact h.sides_past hlt
  · exact h.sides_within hle

end MplWorkbench
