import MplWorkbench.Tree.Walk

/-! Walks along the sequence.

A node that joins the sequence gets the next place in the arena, so the links
lead from each place to the one beside it (`Thread.Straight`). Walks along them
list the places in order, and walks to the terminals pass over the others
(`successors_find?`).

`token_links`: each terminal leads to those beside it in the list of all. -/
namespace MplWorkbench

/-! ### Links in the order of the arena -/

namespace Thread

variable {t : Thread} {first : Nat}

/-- From `first` on, each node is linked with the one that comes next in the arena. -/
structure Straight (t : Thread) (first : Nat) : Prop where
  first_le : first ≤ t.size
  first_iff : ∀ id : Nat, t.first? = some id ↔ id = first ∧ first < t.size
  last_iff : ∀ id : Nat, t.last? = some id ↔ first ≤ id ∧ id + 1 = t.size
  next_iff : ∀ id n : Nat, t.next? id = some n ↔ first ≤ id ∧ n = id + 1 ∧ n < t.size
  prev_iff : ∀ id p : Nat, t.prev? id = some p ↔ first ≤ p ∧ id = p + 1 ∧ id < t.size

/-- A root alone is outside of the sequence. -/
theorem straight_pass : empty.pass.Straight 1 := by
  have hlinks (id : Nat) : empty.pass.next? id = none ∧ empty.pass.prev? id = none := by
    cases id <;> exact ⟨rfl, rfl⟩
  have hsize : empty.pass.size = 1 := rfl
  refine ⟨Nat.le_refl _, fun id => ?_, fun id => ?_, fun id n => ?_, fun id p => ?_⟩
  · exact iff_of_false (fun h => nomatch h) (by omega)
  · exact iff_of_false (fun h => nomatch h) (by omega)
  · rw [(hlinks id).1]
    exact iff_of_false (fun h => nomatch h) (by omega)
  · rw [(hlinks id).2]
    exact iff_of_false (fun h => nomatch h) (by omega)

theorem next?_join (t : Thread) (id : Nat) :
    t.join.next? id = if t.last? = some id then some t.size else t.next? id := by
  rw [next?, join, Array.getElem?_push, size_linkNext]
  by_cases hid : id = t.links.size
  · have hlast : t.last? ≠ some id := fun h => Nat.ne_of_lt (t.last_lt id h) hid
    have hnone : t.next? id = none := by simp [next?, hid]
    rw [if_pos hid, if_neg hlast, hnone]
    rfl
  rw [if_neg hid, linkNext]
  cases hlast : t.last? with
  | none => rfl
  | some last =>
    dsimp only
    rw [Array.getElem?_modify]
    by_cases heq : last = id
    · subst heq
      rw [if_pos rfl, if_pos rfl, Array.getElem?_eq_getElem (t.last_lt last hlast)]
      rfl
    · rw [if_neg heq, if_neg (mt Option.some.inj heq)]
      rfl

theorem prev?_join (t : Thread) (id : Nat) :
    t.join.prev? id = if id = t.size then t.last? else t.prev? id := by
  rw [prev?, join, Array.getElem?_push, size_linkNext, ← size]
  by_cases hid : id = t.size
  · rw [if_pos hid, if_pos hid]
    rfl
  rw [if_neg hid, if_neg hid, linkNext]
  cases t.last? with
  | none => rfl
  | some last =>
    dsimp only
    rw [Array.getElem?_modify, prev?]
    split
    · cases t.links[id]? <;> rfl
    · rfl

theorem first?_join (t : Thread) :
    t.join.first? = if t.last?.isSome then t.first? else some t.size := rfl

theorem Straight.join (h : t.Straight first) : t.join.Straight first := by
  have hle := h.first_le
  have hsize := size_join t
  refine ⟨by omega, fun id => ?_, fun id => ?_, fun id n => ?_, fun id p => ?_⟩
  · rw [first?_join]
    cases hlast : t.last? with
    | some last =>
      have hlt := (h.last_iff last).1 hlast
      rw [Option.isSome_some, if_pos rfl, h.first_iff]
      omega
    | none =>
      have hend : t.size ≤ first := Nat.le_of_not_lt fun hlt => by
        have hsome := (h.last_iff (t.size - 1)).2 (by omega)
        rw [hlast] at hsome
        contradiction
      rw [Option.isSome_none, if_neg Bool.false_ne_true, @Option.some_inj Nat]
      omega
  · rw [show t.join.last? = some t.size from rfl, @Option.some_inj Nat]
    omega
  · rw [next?_join]
    split
    · next hlast =>
      have hid := (h.last_iff id).1 hlast
      rw [@Option.some_inj Nat]
      omega
    · next hlast =>
      have hid := mt (h.last_iff id).2 hlast
      rw [h.next_iff]
      omega
  · rw [prev?_join]
    split
    · next hid =>
      rw [h.last_iff]
      omega
    · next hid =>
      rw [h.prev_iff]
      omega

end Thread

namespace Tree

/-! ### Walks -/

section Successors

variable {rank : NodeId → Nat} {next : NodeId → Option NodeId}
  {h : ∀ {id n}, next id = some n → rank n < rank id} {id : NodeId} {first : Option NodeId}
  {front back : List NodeId}

@[simp] theorem successors_none : successors rank next h none = [] := by rw [successors]

theorem successors_some (id : NodeId) :
    successors rank next h (some id) = id :: successors rank next h (next id) := by
  rw [successors]

theorem head?_successors (first : Option NodeId) :
    (successors rank next h first).head? = first := by
  cases first with
  | none => rw [successors_none]; rfl
  | some id => rw [successors_some]; rfl

/-- What comes behind a node of a walk is the walk from there. -/
theorem successors_of_append (hwalk : successors rank next h first = front ++ id :: back) :
    successors rank next h (next id) = back := by
  induction front generalizing first with
  | nil =>
    cases first with
    | none => rw [successors_none] at hwalk; contradiction
    | some _ =>
      rw [successors_some] at hwalk
      obtain ⟨rfl, hback⟩ := List.cons.inj hwalk
      exact hback
  | cons x front ih =>
    cases first with
    | none => rw [successors_none] at hwalk; contradiction
    | some _ =>
      rw [successors_some] at hwalk
      exact ih (List.cons.inj hwalk).2

/-- The walk that goes on to the next node of some kind passes over all others. -/
theorem successors_find? {p : NodeId → Bool}
    {h' : ∀ {id n}, (successors rank next h (next id)).find? p = some n → rank n < rank id}
    (first : Option NodeId) :
    successors rank (fun id => (successors rank next h (next id)).find? p) h'
      ((successors rank next h first).find? p) = (successors rank next h first).filter p := by
  fun_induction successors rank next h first with
  | case1 => exact successors_none
  | case2 id ih =>
    cases hid : p id with
    | true => rw [List.find?_cons_of_pos hid, List.filter_cons_of_pos hid, successors_some, ih]
    | false =>
      rw [List.find?_cons_of_neg (by simp [hid]), List.filter_cons_of_neg (by simp [hid]), ih]

end Successors

variable {t : Tree} {first id : Nat} {front back : List NodeId} {k : NodeId}

@[simp] theorem onward_none : t.onward none = [] := by rw [onward, successors_none]

theorem onward_some (id : NodeId) : t.onward (some id) = id :: t.onward (t.next? id) := by
  rw [onward, successors_some, onward]

@[simp] theorem backward_none : t.backward none = [] := by rw [backward, successors_none]

theorem backward_some (id : NodeId) : t.backward (some id) = id :: t.backward (t.prev? id) := by
  rw [backward, successors_some, backward]

theorem onward_eq_range' (h : t.thread.Straight first) (n : Nat) (hid : first ≤ id)
    (hsize : id + (n + 1) = t.size) : t.onward (some id) = List.range' id (n + 1) := by
  have hthread := t.size_eq
  rw [← size] at hthread
  induction n generalizing id with
  | zero =>
    have hnone : t.next? id = none := by
      refine Option.eq_none_iff_forall_ne_some.2 fun n hn => ?_
      have hbounds := (h.next_iff id n).1 hn
      omega
    rw [onward_some, hnone, onward_none]
    rfl
  | succ n ih =>
    have hnext : t.next? id = some (id + 1) := (h.next_iff id (id + 1)).2 (by omega)
    rw [onward_some, hnext, ih (by omega) (by omega)]
    rfl

theorem backward_eq_range' (h : t.thread.Straight first) (n : Nat) (hid : id = first + n)
    (hsize : id < t.size) : t.backward (some id) = (List.range' first (n + 1)).reverse := by
  have hthread := t.size_eq
  rw [← size] at hthread
  induction n generalizing id with
  | zero =>
    have hnone : t.prev? id = none := by
      refine Option.eq_none_iff_forall_ne_some.2 fun p hp => ?_
      have hbounds := (h.prev_iff id p).1 hp
      omega
    rw [backward_some, hnone, backward_none, hid]
    rfl
  | succ n ih =>
    have hprev : t.prev? id = some (first + n) := (h.prev_iff id (first + n)).2 (by omega)
    have hconcat : List.range' first (n + 1 + 1) = List.range' first (n + 1) ++ [first + (n + 1)] :=
      List.range'_1_concat
    rw [backward_some, hprev, ih rfl (by omega), hconcat, List.reverse_append, hid]
    rfl

/-- The sequence goes through the arena, from its first node on. -/
theorem symbols_eq_range' (h : t.thread.Straight first) :
    t.symbols = List.range' first (t.size - first) := by
  have hthread := t.size_eq
  have hle := h.first_le
  rw [← size] at hthread
  rw [symbols]
  cases hfirst : t.thread.first? with
  | none =>
    have hend : t.size - first = 0 := by
      refine Nat.sub_eq_zero_of_le (Nat.le_of_not_lt fun hlt => ?_)
      have hsome := (h.first_iff first).2 ⟨rfl, by omega⟩
      rw [hfirst] at hsome
      contradiction
    rw [hend, onward_none]
    rfl
  | some id =>
    obtain ⟨rfl, hlt⟩ := (h.first_iff id).1 hfirst
    obtain ⟨n, hn⟩ : ∃ n, t.size - id = n + 1 := ⟨t.size - id - 1, by omega⟩
    rw [hn]
    exact onward_eq_range' h n (Nat.le_refl _) (by omega)

/-- From a node of the sequence the walks lead over what is on either side of it. -/
theorem walks_of_symbols_eq (h : t.thread.Straight first)
    (hsymbols : t.symbols = front ++ k :: back) :
    t.onward (t.next? k) = back ∧ t.backward (t.prev? k) = front.reverse := by
  have hwalk := hsymbols
  rw [symbols, onward] at hwalk
  refine ⟨successors_of_append hwalk, ?_⟩
  rw [symbols_eq_range' h, List.range'_eq_append_iff] at hsymbols
  obtain ⟨n, hn, rfl, hback⟩ := hsymbols
  obtain ⟨hk, hpos, -⟩ := List.range'_eq_cons_iff.1 hback.symm
  have hbackward : t.backward (some k) = (List.range' first (n + 1)).reverse :=
    backward_eq_range' h n (by omega) (by omega)
  rw [backward_some, List.range'_1_concat, List.reverse_append] at hbackward
  exact (List.cons.inj hbackward).2

/-! ### Terminals -/

/-- The terminals are those of the sequence. -/
theorem tokens_eq_filter (t : Tree) : t.tokens = t.symbols.filter t.isTerminal := by
  rw [symbols, onward, ← successors_find?]
  rfl

/-- Each terminal is linked to those beside it in the list of all. -/
theorem token_links (h : t.thread.Straight first) (htokens : t.tokens = front ++ k :: back) :
    t.nextToken? k = back.head? ∧ t.prevToken? k = front.getLast? ∧
      t.tokensBack k = k :: front.reverse := by
  have hterminal : t.isTerminal k := by
    have hmem : k ∈ t.tokens := htokens ▸ List.mem_append_right _ List.mem_cons_self
    rw [tokens_eq_filter] at hmem
    exact (List.mem_filter.1 hmem).2
  have hback : (t.backward (t.prev? k)).filter t.isTerminal = front.reverse := by
    have hfilter := htokens
    rw [tokens_eq_filter] at hfilter
    obtain ⟨before, rest, hsymbols, rfl, hrest⟩ := List.filter_eq_append_iff.1 hfilter
    obtain ⟨others, after, rfl, hothers, -, -⟩ := List.filter_eq_cons_iff.1 hrest
    have hnone : others.filter t.isTerminal = [] := List.filter_eq_nil_iff.2 hothers
    rw [← List.append_assoc] at hsymbols
    rw [(walks_of_symbols_eq h hsymbols).2, List.filter_reverse, List.filter_append, hnone,
      List.append_nil]
  refine ⟨?_, ?_, ?_⟩
  · rw [tokens, tokensOnward] at htokens
    rw [← successors_of_append htokens, head?_successors]
  · rw [prevToken?, ← List.head?_filter, hback, List.head?_reverse]
  · have hlast : t.lastToken? k = some k := by rw [lastToken?, if_pos hterminal]
    rw [tokensBack, hlast, successors_some, ← hback, backward, ← successors_find?]
    rfl

end Tree

end MplWorkbench
