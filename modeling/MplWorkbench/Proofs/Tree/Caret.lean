import Mathlib.Data.List.Find
import MplWorkbench.Proofs.Tree.Order
import MplWorkbench.Proofs.Tree.Search

/-! The terminal at a caret.

A descent goes down by the first child that ends past the offset. It lands at the
first terminal that does, or at a scope that goes on behind the last terminal in
it; what is meant is then the terminal after that one (`Lands`). Either way it is
what a scan of all terminals from left to right finds.

`Grown.tokenAt?_root`: the terminal at an offset is the first that ends past it. -/
namespace MplWorkbench

theorem Forest.size_pos {f : Forest} {base : Nat} (h : f.roots base ≠ []) : 0 < f.size := by
  cases f with
  | nil => exact absurd rfl h
  | leaf | branch => exact Nat.succ_pos _

namespace Tree

variable {t : Tree} {text : String} {f : Forest} {stop : Position} {parent : Option NodeId}
  {base bound first last offset size : Nat} {id c d m n : Nat}

/-! ### The last terminal of a node -/

theorem descendants_ne_nil (id : NodeId) : t.descendants id ≠ [] := by
  rw [descendants_eq]
  exact List.cons_ne_nil _ _

/-- Where every inner node has children, the last of all below a node is its last terminal. -/
theorem lastToken?_eq (hfull : ∀ id, t.isTerminal id = false → t.children id ≠ #[]) (id : NodeId) :
    t.lastToken? id = (t.descendants id).getLast? := by
  induction hsize : t.size - id using Nat.strongRecOn generalizing id with
  | ind n ih =>
    subst hsize
    rw [lastToken?, descendants_eq]
    split
    · next hid =>
      have hnone : (t.node id).children = none := Option.isNone_iff_eq_none.1 hid
      rw [children, Node.childIds, hnone]
      rfl
    · next hid =>
      have hne : (t.children id).toList ≠ [] := fun hnil =>
        hfull id (Bool.eq_false_iff.2 hid) (Array.toList_eq_nil_iff.1 hnil)
      obtain ⟨front, c, hchildren⟩ := (List.eq_nil_or_concat _).resolve_left hne
      rw [List.concat_eq_append] at hchildren
      have hlast : t.lastChild? id = some c := by
        rw [lastChild?, ← Array.getLast?_toList, hchildren, List.getLast?_concat]
      split
      · next hnone =>
        rw [hlast] at hnone
        contradiction
      · next c' hc' =>
        obtain rfl := Option.some.inj (hlast.symm.trans hc')
        rw [ih _ (remaining_lt (lt_of_lastChild? hlast)) c rfl, hchildren, List.flatMap_append,
          List.flatMap_singleton, ← List.cons_append,
          List.getLast?_append, List.getLast?_eq_some_getLast (descendants_ne_nil c),
          Option.some_or]

/-- The last terminal of a scope is the last node inside. -/
theorem Bears.lastToken?_eq (h : t.Bears (some base) (base + 1) f)
    (hfull : ∀ id, t.isTerminal id = false → t.children id ≠ #[])
    (hchildren : (t.children base).toList = f.roots (base + 1)) :
    t.lastToken? base = some (base + f.size) := by
  rw [Tree.lastToken?_eq hfull, descendants_eq, hchildren, h.descendants, ← List.range'_succ,
    List.getLast?_range', if_neg (Nat.succ_ne_zero _)]
  rfl

/-! ### Descents -/

/-- Where a descent to the offset lands, among the nodes from `base` up to `bound`. -/
structure Lands (t : Tree) (offset base bound d : Nat) : Prop where
  ge : base ≤ d
  lt : d < bound
  before : ∀ n, base ≤ n → n < d → t.isTerminal n → t.stop n ≤ offset
  lt_stop : t.isTerminal d → offset < t.stop d
  /-- The offset is behind all terminals in the scope, and in front of what follows it. -/
  scope : t.isTerminal d = false → ∃ k : Nat, t.lastToken? d = some k ∧ d < k ∧ k < bound ∧
    (∀ n, d ≤ n → n ≤ k → t.isTerminal n → t.stop n ≤ offset) ∧
    ∀ n, k < n → n < bound → offset < t.start n

theorem lands_of_isTerminal (hd : t.isTerminal d) (hlt : d < bound) (hstop : offset < t.stop d) :
    t.Lands offset d bound d where
  ge := Nat.le_refl _
  lt := hlt
  before _ hn hlt := absurd hlt (Nat.not_lt.2 hn)
  lt_stop _ := hstop
  scope hinner := absurd hd (Bool.eq_false_iff.1 hinner)

theorem lands_of_inner {k : Nat} (hd : t.isTerminal d = false) (hk : t.lastToken? d = some k)
    (hlt : d < k) (hbound : k < bound) (hle : ∀ n, d < n → n ≤ k → t.stop n ≤ offset)
    (hgt : ∀ n, k < n → n < bound → offset < t.start n) : t.Lands offset d bound d where
  ge := Nat.le_refl _
  lt := Nat.lt_trans hlt hbound
  before _ hn hlt := absurd hlt (Nat.not_lt.2 hn)
  lt_stop hterminal := absurd hterminal (Bool.eq_false_iff.1 hd)
  scope _ := by
    refine ⟨k, hk, hlt, hbound, fun n hn hle' hid => hle n (Nat.lt_of_le_of_ne hn ?_) hle', hgt⟩
    rintro rfl
    exact Bool.eq_false_iff.1 hd hid

theorem Lands.widen {base' bound' : Nat} (h : t.Lands offset base' bound' d) (hbase : base ≤ base')
    (hbound : bound' ≤ bound)
    (hbefore : ∀ n, base ≤ n → n < base' → t.isTerminal n → t.stop n ≤ offset)
    (hafter : ∀ n, bound' ≤ n → n < bound → offset < t.start n) : t.Lands offset base bound d where
  ge := Nat.le_trans hbase h.ge
  lt := Nat.lt_of_lt_of_le h.lt hbound
  before n hn hlt hid := by
    by_cases hn' : base' ≤ n
    · exact h.before n hn' hlt hid
    · exact hbefore n hn (Nat.lt_of_not_le hn') hid
  lt_stop := h.lt_stop
  scope hid := by
    obtain ⟨k, hk, hlt, hkb, hle, hgt⟩ := h.scope hid
    refine ⟨k, hk, hlt, Nat.lt_of_lt_of_le hkb hbound, hle, fun n hn hnb => ?_⟩
    by_cases hn' : n < bound'
    · exact hgt n hn hn'
    · exact hafter n (Nat.le_of_not_lt hn') hnb

/-- What a descent does that goes down by the first child that ends past the offset. -/
def DescendsBy (t : Tree) (offset : Nat) : Prop :=
  ∀ id, t.descend id offset =
    ((t.children id).toList.find? (offset < t.stop ·)).elim id (t.descend · offset)

/-- Nothing below nodes that all end up to the offset goes past it. -/
theorem Bears.stop_le (h : t.Bears parent base f) (hf : f.Spread first last)
    (hroots : ∀ c ∈ f.roots base, t.stop c ≤ offset) (hle : base ≤ n) (hlt : n < base + f.size) :
    t.stop n ≤ offset := by
  induction f generalizing parent base first last with
  | nil => exact absurd hlt (Nat.not_lt.2 hle)
  | leaf kind start stop next ih =>
    obtain ⟨hbase, hroots⟩ := List.forall_mem_cons.1 hroots
    rw [Forest.size] at hlt
    rcases Nat.eq_or_lt_of_le hle with rfl | hle
    · exact hbase
    · exact ih h.2 hf.2.2 hroots hle (by omega)
  | branch kind start stop inside next _ ih =>
    obtain ⟨hnode, hinside, hnext⟩ := h
    obtain ⟨-, hspread, hspread'⟩ := hf
    obtain ⟨hbase, hroots⟩ := List.forall_mem_cons.1 hroots
    rw [Forest.size] at hlt
    rcases Nat.eq_or_lt_of_le hle with rfl | hle
    · exact hbase
    by_cases hn : n < base + 1 + inside.size
    · rw [Tree.stop, span, hnode] at hbase
      exact Nat.le_trans (hinside.between hspread hle hn).2.2 hbase
    · exact ih hnext hspread' hroots (Nat.le_of_not_lt hn) (by omega)

/-- A descent that begins at the first of these nodes that ends past the offset. -/
theorem Bears.lands (hfull : ∀ id, t.isTerminal id = false → t.children id ≠ #[])
    (hdown : t.DescendsBy offset) (h : t.Bears parent base f) (hf : f.Spread first last)
    (hc : (f.roots base).find? (offset < t.stop ·) = some c) :
    t.Lands offset base (base + f.size) (t.descend c offset) := by
  induction f generalizing parent base first last c with
  | nil => contradiction
  | leaf kind start stop next ih =>
    obtain ⟨hnode, hnext⟩ := h
    have hleaf : t.isTerminal base := by rw [isTerminal, hnode]; rfl
    have hchildren : t.children base = #[] := by rw [children, hnode]; rfl
    rw [Forest.size]
    by_cases hbase : offset < t.stop base
    · rw [Forest.roots, List.find?_cons_of_pos (by simpa using hbase)] at hc
      obtain rfl := Option.some.inj hc
      have hhere : t.descend base offset = base := by
        rw [hdown, hchildren]
        rfl
      rw [hhere]
      exact lands_of_isTerminal hleaf (by omega) hbase
    · rw [Forest.roots, List.find?_cons_of_neg (by simpa using hbase)] at hc
      refine (ih hnext hf.2.2 hc).widen (Nat.le_succ _) (by omega) (fun n hn hlt _ => ?_)
        fun n hn hlt => by omega
      obtain rfl : n = base := by omega
      exact Nat.le_of_not_lt hbase
  | branch kind start stop inside next ihi ihn =>
    obtain ⟨hnode, hinside, hnext⟩ := h
    obtain ⟨-, hspread, hspread'⟩ := hf
    have hinner : t.isTerminal base = false := by rw [isTerminal, hnode]; rfl
    have hchildren : (t.children base).toList = inside.roots (base + 1) := by
      rw [children, hnode]
      rfl
    have hstop : t.stop base = stop := by rw [Tree.stop, span, hnode]; rfl
    rw [Forest.size]
    by_cases hbase : offset < t.stop base
    · rw [Forest.roots, List.find?_cons_of_pos (by simpa using hbase)] at hc
      obtain rfl := Option.some.inj hc
      have hafter (n : Nat) (hn : base + 1 + inside.size ≤ n)
          (hlt : n < base + (inside.size + next.size + 1)) : offset < t.start n :=
        Nat.lt_of_lt_of_le (hstop ▸ hbase) (hnext.between hspread' hn (by omega)).1
      rw [hdown, hchildren]
      cases hfound : (inside.roots (base + 1)).find? (offset < t.stop ·) with
      | some c' =>
        refine (ihi hinside hspread hfound).widen (Nat.le_succ _) (by omega)
          (fun n hn hlt hid => ?_) hafter
        obtain rfl : n = base := by omega
        rw [hinner] at hid
        contradiction
      | none =>
        have hroots : ∀ c ∈ inside.roots (base + 1), t.stop c ≤ offset := by simpa using hfound
        have hpos : 0 < inside.size := Forest.size_pos fun hnil =>
          hfull base hinner (Array.toList_eq_nil_iff.1 (hchildren.trans hnil))
        have hlast := hinside.lastToken?_eq hfull hchildren
        have hbelow (n : Nat) (hn : base < n) (hle : n ≤ base + inside.size) :
            t.stop n ≤ offset := hinside.stop_le hspread hroots hn (by omega)
        exact lands_of_inner hinner hlast (by omega) (by omega) hbelow
          fun n hn => hafter n (by omega)
    · rw [Forest.roots, List.find?_cons_of_neg (by simpa using hbase)] at hc
      refine (ihn hnext hspread' hc).widen (by omega) (by omega) (fun n hn hlt hid => ?_)
        fun n hn hlt => by omega
      rcases Nat.eq_or_lt_of_le hn with rfl | hn
      · exact Nat.le_of_not_lt hbase
      · rw [hstop] at hbase
        exact Nat.le_trans (hinside.between hspread hn hlt).2.2 (Nat.le_of_not_lt hbase)

/-! ### The terminal at an offset -/

theorem descend_eq (h : t.Framed size) (id : NodeId) : t.descend id offset =
    ((t.children id).toList.find? (t.halts offset)).elim id (t.descend · offset) := by
  rw [← h.getElem?_childPlace, descend]
  split <;> simp only [*, Option.elim]

namespace Grown

variable (h : t.Grown text f stop)
include h

/-- A node that ends in front of the end of the text is not empty. -/
theorem start_lt_stop_of_lt (hpos : 1 ≤ id) (hid : id < t.size) (hlt : t.stop id < stop.offset) :
    t.start id < t.stop id := by
  rw [h.size_eq] at hid
  by_cases hle : id ≤ f.size
  · exact h.start_lt_stop hpos hle
  · obtain rfl : id = f.size + 1 := by omega
    rw [Tree.stop, h.end_eq.2.2] at hlt
    exact absurd hlt (Nat.lt_irrefl _)

/-- In front of the end of the text, a node covers what it contains. -/
theorem covers_eq (hlt : offset < stop.offset) (hpos : 1 ≤ id) (hid : id < t.size) :
    t.covers offset id = (decide (t.start id ≤ offset) && decide (offset < t.stop id)) := by
  have hle := (h.between hpos hid).1
  have hempty := h.start_lt_stop_of_lt hpos hid
  have hopen : t.isUnclosed id → t.stop id = stop.offset := h.stop_of_isUnclosed
  rw [Bool.eq_iff_iff, covers]
  simp only [Bool.or_eq_true, Bool.and_eq_true, decide_eq_true_eq, beq_iff_eq]
  constructor
  · rintro ⟨hstart, (hstop | ⟨hsame, hhere⟩) | ⟨hhere, hunclosed⟩⟩
    · exact ⟨hstart, hstop⟩
    · omega
    · have hend := hopen hunclosed
      omega
  · rintro ⟨hstart, hstop⟩
    exact ⟨hstart, .inl (.inl hstop)⟩

/-- In front of the end of the text, a search halts at the nodes that end past the offset. -/
theorem halts_eq (hlt : offset < stop.offset) (hpos : 1 ≤ id) (hid : id < t.size) :
    t.halts offset id = decide (offset < t.stop id) := by
  have hle := (h.between hpos hid).1
  have hempty := h.start_lt_stop_of_lt hpos hid
  rw [Bool.eq_iff_iff, halts, h.covers_eq hlt hpos hid]
  simp only [Bool.or_eq_true, Bool.and_eq_true, decide_eq_true_eq]
  omega

theorem descendsBy (hlt : offset < stop.offset) : t.DescendsBy offset := by
  intro id
  rw [descend_eq h.framed, List.find?_congr fun c hc => ?_]
  obtain ⟨hid, hsize⟩ := lt_of_mem_children (Array.mem_toList_iff.1 hc)
  exact h.halts_eq hlt (Nat.lt_of_le_of_lt (Nat.zero_le _) hid) hsize

theorem lastToken?_root : t.lastToken? root = some (f.size + 1) := by
  rw [lastToken?_eq fun id hid => h.children_ne hid, h.planted.enumerated.descendants_eq,
    h.size_eq, List.range_succ, List.getLast?_concat]

/-- Terminals that end up to an offset are not the end of the text, if that comes later. -/
theorem passed (hn : t.isTerminal n) (hle : n ≤ f.size) (hstop : t.stop n ≤ offset) :
    (decide (offset < t.stop n) || t.kind n == .eof) = false := by
  rw [Bool.or_eq_false_iff, decide_eq_false_iff_not, beq_eq_false_iff_ne]
  exact ⟨Nat.not_lt.2 hstop, h.kind_ne hn hle⟩

theorem lands (hlt : offset < stop.offset) : t.Lands offset 1 t.size (t.descend root offset) := by
  have hroots : (f ++ .leaf .eof stop stop.offset .nil).roots 1 = f.roots 1 ++ [f.size + 1] := by
    rw [Forest.roots_append, Nat.add_comm 1]
    rfl
  -- the end of the text is a child of the root, and ends past the offset
  have hstop : t.stop (f.size + 1) = stop.offset := congrArg Span.stop h.end_eq.2.2
  obtain ⟨c, hc⟩ : ∃ c, (f.roots 1 ++ [f.size + 1]).find? (offset < t.stop ·) = some c := by
    refine Option.isSome_iff_exists.1 (List.find?_isSome.2
      ⟨_, List.mem_append_right _ List.mem_cons_self, ?_⟩)
    rw [hstop]
    exact decide_eq_true hlt
  rw [h.descendsBy hlt root, h.children_root, hc, h.planted.size_eq, Nat.add_comm]
  exact h.bears.lands (fun id hid => h.children_ne hid) (h.descendsBy hlt) h.spread_all
    (hroots ▸ hc)

/-- Where the text goes on behind a node, there is a terminal behind it. -/
theorem exists_nextToken? {k : Nat} (hpos : 1 ≤ k) (hk : k ≤ f.size) :
    ∃ n : Nat, t.nextToken? k = some n ∧ t.isTerminal n ∧ k < n ∧ n < t.size ∧
      ∀ m, k < m → m < n → t.isTerminal m = false := by
  have hsize := h.size_eq
  cases hn : t.nextToken? k with
  | some n => exact ⟨n, rfl, (h.planted.nextToken?_eq_some_iff hpos (by omega)).1 hn⟩
  | none =>
    have hend : f.size + 1 ∈ t.onward (t.next? k) := by
      rw [h.planted.onward_next? hpos (by omega), List.mem_range'_1]
      omega
    exact absurd h.end_eq.1 (List.find?_eq_none.1 hn _ hend)

/-- What is at an offset is the first terminal that ends past it, or the end of the text. -/
theorem tokenAt?_root (hle : offset ≤ stop.offset) : t.tokenAt? root offset =
    t.tokens.find? fun k => offset < t.stop k || t.kind k == .eof := by
  obtain ⟨hendTerminal, hendKind, hendSpan⟩ := h.end_eq
  have hsize := h.size_eq
  have hrootStop : t.stop root = stop.offset := congrArg Span.stop h.framed.root_span
  rw [eq_comm, tokenAt?, h.lastToken?_root]
  rcases Nat.eq_or_lt_of_le hle with rfl | hlt
  · have hchildren := h.children_ne h.isTerminal_root
    simp only [hrootStop, Option.any_some, hendKind, beq_self_eq_true, decide_true, Bool.and_true,
      Bool.true_and, Bool.not_eq_true', Array.isEmpty_eq_false_iff, ne_eq, hchildren,
      not_false_eq_true, if_true]
    refine h.planted.enumerated.find?_tokens_eq_some_iff.2
      ⟨hendTerminal, by simp [hendKind], by omega, fun m hm hid => ?_⟩
    exact h.passed hid (Nat.le_of_lt_succ hm) (h.between (h.pos_of_isTerminal hid) (by omega)).2
  · have hlands := h.lands hlt
    have hne : t.descend root offset ≠ root := Nat.ne_of_gt hlands.ge
    have hback : decide (t.stop root = offset) = false := by
      rw [hrootStop]
      exact decide_eq_false (Nat.ne_of_gt hlt)
    simp only [hback, Bool.and_false, Bool.false_and, Bool.false_eq_true, if_false, if_neg hne]
    generalize t.descend root offset = d at hlands
    cases hd : t.isTerminal d with
    | true =>
      rw [if_pos rfl]
      refine h.planted.enumerated.find?_tokens_eq_some_iff.2
        ⟨hd, by simp [hlands.lt_stop hd], hlands.lt, fun m hm hid => ?_⟩
      have hmd := hlands.lt
      exact h.passed hid (by omega) (hlands.before m (h.pos_of_isTerminal hid) hm hid)
    | false =>
      obtain ⟨k, hk, hdk, hks, hin, hout⟩ := hlands.scope hd
      have hkf : k ≤ f.size := Nat.le_of_not_lt fun hkf => by
        obtain rfl : k = f.size + 1 := by omega
        have hstop := hin _ (Nat.le_of_lt hdk) (Nat.le_refl _) hendTerminal
        exact Nat.not_lt.2 hstop (Nat.lt_of_lt_of_eq hlt (congrArg Span.stop hendSpan).symm)
      obtain ⟨n, hn, hid, hkn, hns, hnone⟩ :=
        h.exists_nextToken? (Nat.le_trans hlands.ge (Nat.le_of_lt hdk)) hkf
      have hstop : offset < t.stop n := Nat.lt_of_lt_of_le (hout n hkn hns)
        (h.between (h.pos_of_isTerminal hid) hns).1
      rw [if_neg Bool.false_ne_true, hk, Option.map_some, hn, Option.getD_some]
      refine h.planted.enumerated.find?_tokens_eq_some_iff.2
        ⟨hid, by simp [hstop], hns, fun m hm hid => ?_⟩
      have hmk : m ≤ k := Nat.le_of_not_lt fun hkm => Bool.eq_false_iff.1 (hnone m hkm hm) hid
      refine h.passed hid (by omega) ?_
      by_cases hmd : d ≤ m
      · exact hin m hmd hmk hid
      · exact hlands.before m (h.pos_of_isTerminal hid) (Nat.lt_of_not_le hmd) hid

/-! ### The terminals in order -/

theorem pairwise_tokens : t.tokens.Pairwise fun a b => a < b ∧ t.stop a ≤ t.start b := by
  rw [h.planted.enumerated.tokens_eq]
  refine (List.pairwise_lt_range.filter t.isTerminal).imp_of_mem fun {a b} ha hb hlt => ?_
  rw [List.mem_filter, List.mem_range] at ha hb
  exact ⟨hlt, h.stop_le_start ha.2 hlt hb.1⟩

theorem mem_tokens_iff : id ∈ t.tokens ↔ t.isTerminal id ∧ id < t.size :=
  h.planted.enumerated.mem_tokens_iff

theorem le_of_lt (hmn : m < n) (hlt : n < t.size) : m ≤ f.size := by
  rw [h.size_eq] at hlt
  omega

/-- The terminal at an offset among all terminals. -/
theorem exists_tokenAt? (hle : offset ≤ stop.offset) : ∃ front n back,
    t.tokens = front ++ n :: back ∧ t.tokenAt? root offset = some n ∧
      (∀ m ∈ front, t.stop m ≤ offset) ∧ ∀ m ∈ back, offset < t.start m := by
  have hsize := h.size_eq
  have hsome : (t.tokens.find? fun k => offset < t.stop k || t.kind k == .eof).isSome := by
    refine List.find?_isSome.2 ⟨f.size + 1, h.mem_tokens_iff.2 ⟨h.end_eq.1, by omega⟩, ?_⟩
    rw [h.end_eq.2.1, beq_self_eq_true, Bool.or_true]
  obtain ⟨n, hn⟩ := Option.isSome_iff_exists.1 hsome
  obtain ⟨hp, front, back, htokens, hfront⟩ := List.find?_eq_some_iff_append.1 hn
  refine ⟨front, n, back, htokens, (h.tokenAt?_root hle).trans hn, fun m hm => ?_, fun m hm => ?_⟩
  · have hpassed := hfront m hm
    simp only [Bool.not_or, Bool.and_eq_true, Bool.not_eq_true', decide_eq_false_iff_not] at hpassed
    exact Nat.le_of_not_lt hpassed.1
  · have hordered := h.pairwise_tokens
    rw [htokens, List.pairwise_append, List.pairwise_cons] at hordered
    obtain ⟨hnm, hstart⟩ := hordered.2.1.1 m hm
    have hmem (k : NodeId) (hk : k ∈ n :: back) : t.isTerminal k ∧ k < t.size :=
      h.mem_tokens_iff.1 (htokens ▸ List.mem_append_right _ hk)
    -- something follows the terminal, so it is not the end of the text
    have hkind : t.kind n ≠ .eof := h.kind_ne (hmem n List.mem_cons_self).1
      (h.le_of_lt hnm (hmem m (List.mem_cons_of_mem _ hm)).2)
    rw [Bool.or_eq_true, decide_eq_true_iff, beq_iff_eq] at hp
    exact Nat.lt_of_lt_of_le (hp.resolve_right hkind) hstart

end Grown

end Tree

end MplWorkbench
