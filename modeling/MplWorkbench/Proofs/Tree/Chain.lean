import Mathlib.Data.List.Chain
import MplWorkbench.Proofs.Reading.Names
import MplWorkbench.Proofs.Tree.Caret

/-! The nodes around an offset.

Of the nodes that a property holds of, let each stand in another such node or
directly in the root, and no two side by side. Then a walk down by the child that
has the property meets all of them (`Nests.chainAt_eq`). Such properties are to
contain an offset and, at the end of the text, to be unclosed.

`chained_parse`: the nodes that are around an offset, or around a span. -/
namespace MplWorkbench

namespace Span

variable {a b c : Span}

theorem contains_iff : a.contains b ↔ a.start ≤ b.start ∧ b.stop ≤ a.stop := by
  rw [contains, Bool.and_eq_true, decide_eq_true_iff, decide_eq_true_iff]

theorem contains_refl (a : Span) : a.contains a :=
  contains_iff.2 ⟨Nat.le_refl _, Nat.le_refl _⟩

theorem contains_trans (hab : a.contains b) (hbc : b.contains c) : a.contains c := by
  rw [contains_iff] at *
  exact ⟨Nat.le_trans hab.1 hbc.1, Nat.le_trans hbc.2 hab.2⟩

theorem contains_antisymm (hab : a.contains b) (hba : b.contains a) : a = b := by
  rw [contains_iff] at *
  have hstart := Nat.le_antisymm hab.1 hba.1
  have hstop := Nat.le_antisymm hba.2 hab.2
  cases a
  cases b
  simp_all

end Span

namespace Tree

variable {t : Tree} {text : String} {f : Forest} {stop : Position} {p q : NodeId → Bool}
  {size offset : Nat} {id c : Nat}

/-! ### Chains -/

/-- The first node stands directly in the root, and every other in the one before it. -/
def IsChainDown (t : Tree) (ids : List NodeId) : Prop :=
  (root :: ids).IsChain fun p c => t.parent? c = some p

/-- Where the chains of nodes lead in the tree of a text of so many bytes. -/
structure Chained (t : Tree) (size : Nat) : Prop where
  symbols_eq : t.symbols = List.range' 1 (t.size - 1)
  isChainDown : ∀ offset, t.IsChainDown (t.chainAt root offset)
  inside : ∀ offset < size, t.chainAt root offset =
    t.symbols.filter fun id => t.start id ≤ offset && offset < t.stop id
  at_unclosed_end : (∃ id ∈ t.symbols, t.isUnclosed id) →
    t.chainAt root size = t.symbols.filter t.isUnclosed
  at_closed_end : (∀ id ∈ t.symbols, t.isUnclosed id = false) →
    ∃ last, t.symbols.getLast? = some last ∧ t.kind last = .eof ∧ t.chainAt root size = [last]
  past : ∀ offset, size < offset → t.chainAt root offset = []
  around : ∀ s : Span, s.start < s.stop → s.stop ≤ size →
    t.IsChainDown (t.chainAround root s) ∧ t.chainAround root s =
      t.symbols.filter fun id => t.start id ≤ s.start && s.stop ≤ t.stop id

theorem chainAt_eq (t : Tree) (id : NodeId) (offset : Nat) : t.chainAt id offset =
    (t.childAt? id offset).elim [] fun c => c :: t.chainAt c offset := by
  rw [chainAt]
  split <;> simp only [*, Option.elim]

theorem isChain_chainAt (h : t.Framed size) (id : NodeId) (offset : Nat) :
    (id :: t.chainAt id offset).IsChain fun p c => t.parent? c = some p := by
  induction hsize : t.size - id using Nat.strongRecOn generalizing id with
  | ind n ih =>
    subst hsize
    rw [chainAt_eq]
    cases hc : t.childAt? id offset with
    | none => exact .singleton _
    | some c =>
      have hmem : c ∈ t.children id := Array.mem_of_getElem? (Option.filter_eq_some_iff.1 hc).1
      exact .cons_cons (h.parent_eq id c hmem) (ih _ (remaining_lt (lt_of_childAt? hc)) c rfl)

theorem lt_size_of_mem_chainAt (t : Tree) (id : NodeId) (offset : Nat) :
    ∀ n ∈ t.chainAt id offset, n < t.size := by
  induction hsize : t.size - id using Nat.strongRecOn generalizing id with
  | ind n ih =>
    subst hsize
    rw [chainAt_eq]
    cases hc : t.childAt? id offset with
    | none => exact fun _ hn => absurd hn List.not_mem_nil
    | some c =>
      have hbounds := lt_of_childAt? hc
      exact List.forall_mem_cons.2 ⟨hbounds.2, ih _ (remaining_lt hbounds) c rfl⟩

/-! ### Properties that nest -/

/-- The nodes with the property stand each in another or directly in the root, and no two of them
side by side. -/
structure Nests (t : Tree) (p : NodeId → Bool) : Prop where
  up : ∀ id ≠ root, ∀ c ∈ t.children id, p c → p id
  single : ∀ id, (t.children id).toList.Pairwise fun a b => p a → p b = false

namespace Nests

variable (h : t.Nests p)
include h

/-- There is nothing with the property below a node without it. -/
theorem filter_descendants (hne : id ≠ root) (hid : p id = false) :
    (t.descendants id).filter p = [] := by
  induction hsize : t.size - id using Nat.strongRecOn generalizing id with
  | ind n ih =>
    subst hsize
    rw [descendants_eq, List.filter_cons_of_neg (Bool.eq_false_iff.1 hid), List.filter_flatMap,
      List.flatMap_eq_nil_iff]
    intro c hc
    rw [Array.mem_toList_iff] at hc
    have hbounds := lt_of_mem_children hc
    have hpc : p c = false := Bool.eq_false_iff.2 fun hpc =>
      Bool.eq_false_iff.1 hid (h.up id hne c hc hpc)
    exact ih _ (remaining_lt hbounds) (Nat.ne_of_gt (Nat.zero_lt_of_lt hbounds.1)) hpc rfl

/-- A walk by the children with the property meets all nodes that have it. -/
theorem chainAt_eq (hchild : ∀ id, t.childAt? id offset = (t.children id).toList.find? p)
    (id : NodeId) :
    t.chainAt id offset = ((t.children id).toList.flatMap t.descendants).filter p := by
  induction hsize : t.size - id using Nat.strongRecOn generalizing id with
  | ind n ih =>
    subst hsize
    have hempty {cs : List NodeId} (hcs : ∀ c ∈ cs, c ∈ t.children id)
        (hnone : ∀ c ∈ cs, p c = false) :
        cs.flatMap (fun c => (t.descendants c).filter p) = [] := by
      refine List.flatMap_eq_nil_iff.2 fun c hc => h.filter_descendants ?_ (hnone c hc)
      exact Nat.ne_of_gt (Nat.zero_lt_of_lt (lt_of_mem_children (hcs c hc)).1)
    rw [Tree.chainAt_eq, hchild, List.filter_flatMap]
    cases hfound : (t.children id).toList.find? p with
    | none =>
      rw [List.find?_eq_none] at hfound
      exact (hempty (fun c hc => Array.mem_toList_iff.1 hc) fun c hc =>
        Bool.eq_false_iff.2 (hfound c hc)).symm
    | some c =>
      obtain ⟨hc, front, back, hchildren, hfront⟩ := List.find?_eq_some_iff_append.1 hfound
      have hmem (d : NodeId) (hd : d ∈ front ++ c :: back) : d ∈ t.children id :=
        Array.mem_toList_iff.1 (hchildren ▸ hd)
      have hsingle := h.single id
      rw [hchildren, List.pairwise_append, List.pairwise_cons] at hsingle
      have hnone := hempty (fun d hd => hmem d (List.mem_append_left _ hd)) fun d hd => by
        simpa using hfront d hd
      have hnone' := hempty
        (fun d hd => hmem d (List.mem_append_right _ (List.mem_cons_of_mem _ hd)))
        fun d hd => hsingle.2.1.1 d hd hc
      have hbelow := ih _ (remaining_lt (lt_of_mem_children
        (hmem c (List.mem_append_right _ List.mem_cons_self)))) c rfl
      rw [hchildren, List.flatMap_append, hnone, List.nil_append, List.flatMap_cons, hnone',
        List.append_nil, Tree.descendants_eq, List.filter_cons_of_pos hc, ← hbelow]
      rfl

end Nests

/-! ### The child that covers an offset -/

/-- A search among children finds the one that covers the offset. -/
theorem Framed.childAt?_eq (h : t.Framed size) (id : NodeId) (offset : Nat) :
    t.childAt? id offset = (t.children id).toList.find? (t.covers offset) := by
  rw [childAt?, h.getElem?_childPlace]
  cases hfound : (t.children id).toList.find? (t.halts offset) with
  | none =>
    rw [List.find?_eq_none] at hfound
    refine (List.find?_eq_none.2 fun c hc hcovers => hfound c hc ?_).symm
    rw [halts, hcovers, Bool.true_or]
  | some c =>
    obtain ⟨hc, front, back, hchildren, hfront⟩ := List.find?_eq_some_iff_append.1 hfound
    have hnone : front.find? (t.covers offset) = none := by
      refine List.find?_eq_none.2 fun d hd hcovers => ?_
      have hpassed := hfront d hd
      rw [halts, hcovers, Bool.true_or] at hpassed
      contradiction
    rw [hchildren, List.find?_append, hnone, Option.none_or]
    cases hcovers : t.covers offset c with
    | true => rw [Option.filter_some_pos hcovers, List.find?_cons_of_pos hcovers]
    | false =>
      rw [Option.filter_some_neg hcovers,
        List.find?_cons_of_neg (Bool.eq_false_iff.1 hcovers), eq_comm, List.find?_eq_none]
      -- the search halts in front of the offset, and what is behind begins no earlier
      intro d hd hcovers'
      have hsiblings := h.siblings id
      rw [hchildren, List.pairwise_append, List.pairwise_cons] at hsiblings
      have hmem : c ∈ (t.children id).toList :=
        hchildren ▸ List.mem_append_right _ List.mem_cons_self
      have hle := (h.within id c (Array.mem_toList_iff.1 hmem)).2.1
      have hbehind := hsiblings.2.1.1 d hd
      simp only [halts, hcovers, Bool.false_or, decide_eq_true_eq] at hc
      simp only [covers, Bool.and_eq_true, decide_eq_true_eq] at hcovers'
      simp only [covers, Bool.and_eq_false_iff, Bool.or_eq_false_iff, decide_eq_false_iff_not,
        beq_eq_false_iff_ne] at hcovers
      omega

/-- What holds only at the front is met before it ends. -/
theorem takeWhile_eq_filter {xs : List NodeId} (h : xs.Pairwise fun a b => p b → p a) :
    xs.takeWhile p = xs.filter p := by
  induction h with
  | nil => rfl
  | @cons x xs hx _ ih =>
    by_cases hp : p x
    · rw [List.takeWhile_cons_of_pos hp, List.filter_cons_of_pos hp, ih]
    · rw [List.takeWhile_cons_of_neg hp, List.filter_cons_of_neg hp, eq_comm,
        List.filter_eq_nil_iff]
      exact fun y hy hpy => hp (hx y hy hpy)

/-! ### Chains of grown trees -/

namespace Grown

variable (h : t.Grown text f stop)
include h

theorem flatMap_descendants : (t.children root).toList.flatMap t.descendants = t.symbols := by
  have hall := h.planted.enumerated.descendants_eq
  rw [descendants_eq, h.size_eq, List.range_eq_range', List.range'_succ] at hall
  rw [h.planted.enumerated.symbols_eq, h.size_eq]
  exact (List.cons.inj hall).2

theorem chainAt_root (hp : t.Nests p)
    (hchild : ∀ id, t.childAt? id offset = (t.children id).toList.find? p) :
    t.chainAt root offset = t.symbols.filter p := by
  rw [hp.chainAt_eq hchild, h.flatMap_descendants]

/-! #### Within the text -/

theorem nests_inside (offset : Nat) :
    t.Nests fun id => t.start id ≤ offset && offset < t.stop id where
  up id _ c hc hp := by
    have hwithin := h.framed.within id c hc
    simp only [Bool.and_eq_true, decide_eq_true_eq] at hp ⊢
    omega
  single id := by
    refine (h.framed.siblings id).imp fun {a b} hab hp => ?_
    simp only [Bool.and_eq_true, decide_eq_true_eq, Bool.and_eq_false_iff,
      decide_eq_false_iff_not] at hp ⊢
    omega

theorem chainAt_inside (hlt : offset < stop.offset) : t.chainAt root offset =
    t.symbols.filter fun id => t.start id ≤ offset && offset < t.stop id := by
  refine h.chainAt_root (h.nests_inside offset) fun id => ?_
  rw [h.framed.childAt?_eq]
  refine List.find?_congr fun c hc => ?_
  obtain ⟨hbounds, hsize⟩ := lt_of_mem_children (Array.mem_toList_iff.1 hc)
  exact h.covers_eq hlt (Nat.zero_lt_of_lt hbounds) hsize

/-- Each node of a chain is around all that follow. -/
theorem pairwise_chainAt (id : NodeId) (offset : Nat) :
    (t.chainAt id offset).Pairwise fun a b => (t.span a).contains (t.span b) := by
  have : Trans (fun a b => (t.span a).contains (t.span b) = true)
      (fun a b => (t.span a).contains (t.span b) = true)
      (fun a b => (t.span a).contains (t.span b) = true) := ⟨Span.contains_trans⟩
  refine List.IsChain.pairwise ((isChain_chainAt h.framed id offset).of_cons.imp ?_)
  intro a b hparent
  have hwithin := h.framed.within a b ((h.planted.mem_children_iff a b).2 hparent)
  exact Span.contains_iff.2 ⟨hwithin.1, hwithin.2.2⟩

theorem chainAround_eq {s : Span} (hlt : s.start < s.stop) (hle : s.stop ≤ stop.offset) :
    t.chainAround root s =
      t.symbols.filter fun id => t.start id ≤ s.start && s.stop ≤ t.stop id := by
  rw [chainAround, takeWhile_eq_filter, h.chainAt_inside (Nat.lt_of_lt_of_le hlt hle),
    List.filter_filter]
  · refine List.filter_congr fun id _ => ?_
    rw [Bool.eq_iff_iff]
    simp only [Bool.and_eq_true, decide_eq_true_eq]
    omega
  · refine (h.pairwise_chainAt root s.start).imp fun hab hb => ?_
    exact decide_eq_true (Nat.le_trans (of_decide_eq_true hb) (Span.contains_iff.1 hab).2)

theorem isChainDown_chainAround (s : Span) : t.IsChainDown (t.chainAround root s) := by
  have hchain := isChain_chainAt h.framed root s.start
  obtain ⟨rest, hrest⟩ : root :: t.chainAround root s <+: root :: t.chainAt root s.start :=
    List.cons_prefix_cons.2 ⟨rfl, List.takeWhile_prefix _⟩
  rw [← hrest] at hchain
  exact hchain.left_of_append

/-! #### At the end of the text -/

theorem isUnclosed_of_mem_children (hc : c ∈ t.children id) (hopen : t.isUnclosed c) :
    id = root ∨ t.isUnclosed id := by
  obtain ⟨p, front, rest, hchildren, -, hp⟩ := (h.trailsOff hopen).around
  have hmem : c ∈ t.children p :=
    Array.mem_toList_iff.1 (hchildren ▸ List.mem_append_right _ List.mem_cons_self)
  obtain rfl : p = id := Option.some.inj
    ((h.framed.parent_eq p c hmem).symm.trans (h.framed.parent_eq id c hc))
  exact hp

theorem bounds_of_isUnclosed (hopen : t.isUnclosed id) : 1 ≤ id ∧ id ≤ f.size := by
  have hscope := (Bool.and_eq_true_iff.1 hopen).1
  have hinner := inner_of_isScope hscope
  have hlt := lt_size_of_inner hinner
  have hsize := h.size_eq
  have hpos : 1 ≤ id := Nat.pos_of_ne_zero fun hzero => by
    rw [isScope, hzero, show 0 = root from rfl, h.framed.root_kind, Bool.and_comm] at hscope
    contradiction
  have hne : id ≠ f.size + 1 := by
    rintro rfl
    rw [h.end_eq.1] at hinner
    contradiction
  omega

theorem nests_isUnclosed : t.Nests t.isUnclosed where
  up _ hne _ hc hopen := (h.isUnclosed_of_mem_children hc hopen).resolve_left hne
  single id := by
    -- an unclosed scope reaches to the end of the text, and another begins in front of that
    refine (h.framed.siblings id).imp fun {a b} hab hopen => Bool.eq_false_iff.2 fun hopen' => ?_
    obtain ⟨hpos, hle⟩ := h.bounds_of_isUnclosed hopen'
    have hwidth := h.start_lt_stop hpos hle
    rw [h.stop_of_isUnclosed hopen] at hab
    rw [h.stop_of_isUnclosed hopen'] at hwidth
    exact Nat.not_lt.2 hab hwidth

/-- At the end of the text, a node covers what it leaves open. The last node covers it too. -/
theorem covers_end (hpos : 1 ≤ id) (hid : id < t.size) :
    t.covers stop.offset id = (t.isUnclosed id || id == f.size + 1) := by
  have hsize := h.size_eq
  have hbetween := h.between hpos hid
  rcases Nat.lt_or_eq_of_le (show id ≤ f.size + 1 by omega) with hlt | rfl
  · have hwidth := h.start_lt_stop hpos (Nat.le_of_lt_succ hlt)
    have hopen : t.isUnclosed id → t.stop id = stop.offset := h.stop_of_isUnclosed
    rw [Bool.eq_iff_iff, covers]
    simp only [Bool.or_eq_true, Bool.and_eq_true, decide_eq_true_eq, beq_iff_eq]
    constructor
    · rintro ⟨hstart, (hstop | ⟨hsame, hhere⟩) | ⟨hhere, hunclosed⟩⟩
      · omega
      · omega
      · exact .inl hunclosed
    · rintro (hunclosed | rfl)
      · have hend := hopen hunclosed
        exact ⟨by omega, .inr ⟨hend.symm, hunclosed⟩⟩
      · omega
  · have hspan := h.end_eq.2.2
    simp [covers, Tree.start, Tree.stop, hspan]

theorem find?_covers_end (id : NodeId) : (t.children id).toList.find? (t.covers stop.offset) =
    ((t.children id).toList.find? t.isUnclosed).or
      (if id = root then some (f.size + 1) else none) := by
  have hcovers {cs : List NodeId} (hcs : ∀ c ∈ cs, c ∈ t.children id ∧ c ≠ f.size + 1) :
      cs.find? (t.covers stop.offset) = cs.find? t.isUnclosed := by
    refine List.find?_congr fun c hc => ?_
    obtain ⟨hmem, hne⟩ := hcs c hc
    obtain ⟨hbounds, hsize⟩ := lt_of_mem_children hmem
    rw [h.covers_end (Nat.zero_lt_of_lt hbounds) hsize, beq_false_of_ne hne, Bool.or_false]
  have hroot := h.children_root
  by_cases hid : id = root
  · subst hid
    have hlt := h.planted.pairwise_children root
    have hend : t.covers stop.offset (f.size + 1) := by
      rw [h.covers_end (Nat.succ_pos _) (by rw [h.size_eq]; exact Nat.lt_succ_self _)]
      simp
    have hclosed : t.isUnclosed (f.size + 1) = false := isUnclosed_of_isTerminal h.end_eq.1
    rw [hroot, List.pairwise_append] at hlt
    rw [if_pos rfl, hroot, List.find?_append, List.find?_append, hcovers fun c hc => ⟨?_, ?_⟩,
      List.find?_cons_of_pos hend, List.find?_cons_of_neg (Bool.eq_false_iff.1 hclosed),
      List.find?_nil, Option.or_none]
    · exact Array.mem_toList_iff.1 (hroot ▸ List.mem_append_left _ hc)
    · exact Nat.ne_of_lt (hlt.2.2 c hc _ List.mem_cons_self)
  · rw [if_neg hid, Option.or_none]
    refine hcovers fun c hc => ⟨Array.mem_toList_iff.1 hc, ?_⟩
    rintro rfl
    have hmem : f.size + 1 ∈ t.children root :=
      Array.mem_toList_iff.1 (hroot ▸ List.mem_append_right _ List.mem_cons_self)
    have hparent := h.framed.parent_eq id _ (Array.mem_toList_iff.1 hc)
    exact hid (Option.some.inj (hparent.symm.trans (h.framed.parent_eq root _ hmem)))

/-- With an unclosed scope, there is one directly in the root. -/
theorem exists_unclosed_child (hopen : t.isUnclosed id) :
    ∃ c ∈ t.children root, t.isUnclosed c := by
  induction id using Nat.strongRecOn with
  | ind id ih =>
    have hlt := lt_size_of_inner (inner_of_isScope (Bool.and_eq_true_iff.1 hopen).1)
    obtain ⟨p, hmem⟩ :=
      h.framed.mem_children id hlt (Nat.ne_of_gt (h.bounds_of_isUnclosed hopen).1)
    rcases h.isUnclosed_of_mem_children hmem hopen with rfl | hp
    · exact ⟨id, hmem, hopen⟩
    · exact ih p (lt_of_mem_children hmem).1 hp

theorem chainAt_unclosed_end (hopen : t.isUnclosed id) :
    t.chainAt root stop.offset = t.symbols.filter t.isUnclosed := by
  refine h.chainAt_root h.nests_isUnclosed fun p => ?_
  rw [h.framed.childAt?_eq, h.find?_covers_end]
  by_cases hp : p = root
  · subst hp
    obtain ⟨c, hc, hopen'⟩ := h.exists_unclosed_child hopen
    obtain ⟨d, hd⟩ := Option.isSome_iff_exists.1
      (List.find?_isSome.2 ⟨c, Array.mem_toList_iff.2 hc, hopen'⟩)
    rw [hd, Option.some_or]
  · rw [if_neg hp, Option.or_none]

theorem chainAt_closed_end (hclosed : ∀ id ∈ t.symbols, t.isUnclosed id = false) :
    t.chainAt root stop.offset = [f.size + 1] := by
  have hnone : (t.children root).toList.find? t.isUnclosed = none := by
    refine List.find?_eq_none.2 fun c hc => ?_
    obtain ⟨hbounds, hsize⟩ := lt_of_mem_children (Array.mem_toList_iff.1 hc)
    exact Bool.eq_false_iff.1 (hclosed c (h.mem_symbols_iff.2 ⟨Nat.zero_lt_of_lt hbounds, hsize⟩))
  have hleaf : (t.children (f.size + 1)).toList = [] := by
    refine List.eq_nil_iff_forall_not_mem.2 fun c hc => ?_
    have hinner := inner_of_mem_children (Array.mem_toList_iff.1 hc)
    rw [h.end_eq.1] at hinner
    contradiction
  rw [chainAt_eq, h.framed.childAt?_eq, h.find?_covers_end, hnone, if_pos rfl, Option.none_or,
    Option.elim, chainAt_eq, h.framed.childAt?_eq, hleaf]
  rfl

theorem chainAt_past (hlt : stop.offset < offset) : t.chainAt root offset = [] := by
  have hnone : (t.children root).toList.find? (t.covers offset) = none := by
    refine List.find?_eq_none.2 fun c hc hcovers => ?_
    obtain ⟨hbounds, hsize⟩ := lt_of_mem_children (Array.mem_toList_iff.1 hc)
    have hbetween := h.between (Nat.zero_lt_of_lt hbounds) hsize
    simp only [covers, Bool.or_eq_true, Bool.and_eq_true, decide_eq_true_eq, beq_iff_eq] at hcovers
    omega
  rw [chainAt_eq, h.framed.childAt?_eq, hnone]
  rfl

theorem chained : t.Chained stop.offset where
  symbols_eq := h.planted.enumerated.symbols_eq
  isChainDown := isChain_chainAt h.framed root
  inside _ := h.chainAt_inside
  at_unclosed_end := fun ⟨_, _, hopen⟩ => h.chainAt_unclosed_end hopen
  at_closed_end hclosed := by
    refine ⟨f.size + 1, ?_, h.end_eq.2.1, h.chainAt_closed_end hclosed⟩
    have hcount : t.size - 1 = f.size + 1 := congrArg (· - 1) h.size_eq
    rw [h.planted.enumerated.symbols_eq, hcount, List.getLast?_range', if_neg (Nat.succ_ne_zero _)]
    exact congrArg some (Nat.add_sub_cancel_left 1 (f.size + 1))
  past _ := h.chainAt_past
  around s hlt hle := ⟨h.isChainDown_chainAround s, h.chainAround_eq hlt hle⟩

end Grown

end Tree

/-- The nodes around any offset or span of any text. -/
theorem chained_parse (text : String) (o : Options) :
    (parse text o).tree.Chained text.utf8ByteSize := by
  obtain ⟨f, stop, h, hstop⟩ := Reading.exists_grown text o
  exact hstop ▸ h.chained

end MplWorkbench
