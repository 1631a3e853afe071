import MplWorkbench.Proofs.Tree.Frame
import MplWorkbench.Tree.Locate

/-! Searching among children.

A search that halves the places gives the first that is not below, if all that
are below come first (`partitionPoint_spec`). The children of a node lie behind
each other, so those that are left behind by an offset come first, whatever the
offset is; and the search is then no more than a scan from left to right.

`Framed.getElem?_childPlace`: the child that a search ends at. -/
namespace MplWorkbench

/-! ### Halving -/

section Halving

variable {below : Nat → Bool}

/-- What is kept by halving: the place behind the sought one, if any, is the first of those left
that is not below. -/
theorem narrow_spec (hbelow : ∀ i j, i ≤ j → below j → below i) (base size : Nat)
    (hsize : 0 < size) : base ≤ narrow below base size ∧ narrow below base size < base + size ∧
      (narrow below base size = base ∨ below (narrow below base size)) ∧
      ∀ i, narrow below base size < i → i < base + size → below i = false := by
  induction size using Nat.strongRecOn generalizing base with
  | ind size ih =>
    rw [narrow]
    by_cases hone : 1 < size
    · rw [if_pos hone]
      have hhalf : size - size / 2 < size := by omega
      cases hmiddle : below (base + size / 2) with
      | true =>
        obtain ⟨hle, hlt, hplace, hafter⟩ := ih _ hhalf (base + size / 2) (by omega)
        simp only [hmiddle, if_true]
        refine ⟨by omega, by omega, .inr ?_, fun i hi hlast => hafter i hi (by omega)⟩
        exact hplace.elim (fun heq => by rwa [heq]) id
      | false =>
        obtain ⟨hle, hlt, hplace, hafter⟩ := ih _ hhalf base (by omega)
        simp only [hmiddle, Bool.false_eq_true, if_false]
        refine ⟨hle, by omega, hplace, fun i hi hlast => ?_⟩
        by_cases hi' : i < base + (size - size / 2)
        · exact hafter i hi hi'
        · exact Bool.eq_false_iff.2 fun h =>
            Bool.eq_false_iff.1 hmiddle (hbelow (base + size / 2) i (by omega) h)
    · rw [if_neg hone]
      exact ⟨Nat.le_refl _, by omega, .inl rfl, fun i hi hlast => by omega⟩

/-- If the places that are below come first, the search finds how many they are. -/
theorem partitionPoint_spec (hbelow : ∀ i j, i ≤ j → below j → below i) (size : Nat) :
    partitionPoint below size ≤ size ∧ (∀ i < partitionPoint below size, below i) ∧
      ∀ i, partitionPoint below size ≤ i → i < size → below i = false := by
  unfold partitionPoint
  split
  · next hnone => exact ⟨Nat.zero_le _, fun i hi => by omega, fun i _ hi => by omega⟩
  next hsome =>
  obtain ⟨-, hlt, hplace, hafter⟩ := narrow_spec hbelow 0 size (Nat.pos_of_ne_zero hsome)
  generalize narrow below 0 size = last at hlt hplace hafter
  rw [Nat.zero_add] at hlt
  dsimp only
  cases hlast : below last with
  | true =>
    rw [if_pos rfl]
    exact ⟨hlt, fun i hi => hbelow i last (Nat.le_of_lt_succ hi) hlast,
      fun i hi hsize => hafter i hi (by omega)⟩
  | false =>
    rw [if_neg Bool.false_ne_true]
    obtain rfl : last = 0 := hplace.resolve_right (Bool.eq_false_iff.1 hlast)
    refine ⟨Nat.zero_le _, fun i hi => absurd hi (Nat.not_lt_zero i), fun i _ hsize => ?_⟩
    rcases Nat.eq_zero_or_pos i with rfl | hpos
    · exact hlast
    · exact hafter i hpos (by omega)

/-- Searching a list by halves divides it into those that are below and the others. -/
theorem exists_partitionPoint {α : Type} {p : α → Bool} {xs : List α}
    (hxs : xs.Pairwise fun a b => p b → p a) :
    ∃ front back, xs = front ++ back ∧
      partitionPoint (fun i => xs[i]?.any p) xs.length = front.length ∧
      (∀ x ∈ front, p x = true) ∧ ∀ x ∈ back, p x = false := by
  have hbelow : ∀ i j : Nat, i ≤ j → xs[j]?.any p → xs[i]?.any p := by
    intro i j hij hj
    obtain ⟨b, hb, hpb⟩ := (Option.any_eq_true _ _).1 hj
    obtain ⟨hj, rfl⟩ := List.getElem?_eq_some_iff.1 hb
    rw [List.getElem?_eq_getElem (Nat.lt_of_le_of_lt hij hj)]
    rcases Nat.eq_or_lt_of_le hij with rfl | hij
    · exact hpb
    · exact List.pairwise_iff_getElem.1 hxs i j _ hj hij hpb
  obtain ⟨hle, hbefore, hafter⟩ := partitionPoint_spec hbelow xs.length
  generalize partitionPoint _ _ = n at hle hbefore hafter
  refine ⟨xs.take n, xs.drop n, (List.take_append_drop ..).symm,
    (List.length_take_of_le hle).symm, fun x hx => ?_, fun x hx => ?_⟩
  · obtain ⟨i, hi, rfl⟩ := List.mem_take_iff_getElem.1 hx
    have h := hbefore i (Nat.lt_of_lt_of_le hi (Nat.min_le_left ..))
    rwa [List.getElem?_eq_getElem] at h
  · obtain ⟨i, hi, rfl⟩ := List.mem_drop_iff_getElem.1 hx
    have h := hafter (n + i) (Nat.le_add_right ..) (Nat.add_comm n i ▸ hi)
    rwa [List.getElem?_eq_getElem] at h

/-- Searching a list by halves finds the first that is not below. -/
theorem getElem?_partitionPoint {α : Type} {p : α → Bool} {xs : List α}
    (hxs : xs.Pairwise fun a b => p b → p a) :
    xs[partitionPoint (fun i => xs[i]?.any p) xs.length]? = xs.find? (!p ·) := by
  obtain ⟨front, back, heq, hplace, hfront, hback⟩ := exists_partitionPoint hxs
  have hnone : front.find? (!p ·) = none := by
    rw [List.find?_eq_none]
    exact fun x hx => by simp [hfront x hx]
  rw [hplace, heq, List.getElem?_append_right (Nat.le_refl _), Nat.sub_self, List.find?_append,
    hnone, Option.none_or]
  cases back with
  | nil => rfl
  | cons x back => simp [hback x List.mem_cons_self]

end Halving

/-! ### Children -/

namespace Tree

variable {t : Tree} {size offset id c : Nat}

/-- The offset is in the node, or not past its start: a search does not go on behind the node. -/
def halts (t : Tree) (offset : Nat) (id : NodeId) : Bool :=
  t.covers offset id || offset ≤ t.start id

theorem not_halts (t : Tree) (offset : Nat) (id : NodeId) :
    (!t.halts offset id) = (!t.covers offset id && t.start id < offset) := by
  rw [halts, Bool.not_or, ← decide_not]
  congr 1
  exact decide_eq_decide.2 Nat.not_le

/-- What begins behind a node where the search halts is where it halts too. -/
theorem halts_of_le {d : NodeId} (h : t.halts offset c) (hle : t.start c ≤ t.stop c)
    (hd : t.stop c ≤ t.start d) : t.halts offset d := by
  suffices offset ≤ t.start d by simp [halts, this]
  simp only [halts, covers, Bool.or_eq_true, Bool.and_eq_true, decide_eq_true_eq, beq_iff_eq] at h
  omega

/-- The children where a search goes on come before those where it halts. -/
theorem Framed.pairwise_not_halts (h : t.Framed size) (id : NodeId) (offset : Nat) :
    (t.children id).toList.Pairwise fun a b =>
      (!t.halts offset b) = true → (!t.halts offset a) = true := by
  refine List.Pairwise.imp_of_mem (fun {a b} ha _ hab hb => ?_) (h.siblings id)
  have hle := (h.within id a (Array.mem_toList_iff.1 ha)).2.1
  rw [Bool.not_eq_true'] at hb ⊢
  exact Bool.eq_false_iff.2 fun ha => Bool.eq_false_iff.1 hb (halts_of_le ha hle hab)

/-- A search among children counts those where it goes on. -/
theorem childPlace_eq (t : Tree) (id : NodeId) (offset : Nat) :
    t.childPlace id offset = partitionPoint
      (fun i => (t.children id).toList[i]?.any (!t.halts offset ·)) (t.children id).toList.length := by
  unfold childPlace
  simp only [not_halts, Array.getElem?_toList, Array.length_toList]

/-- A search among children ends at the first where it halts. -/
theorem Framed.getElem?_childPlace (h : t.Framed size) (id : NodeId) (offset : Nat) :
    (t.children id)[t.childPlace id offset]? = (t.children id).toList.find? (t.halts offset) := by
  have hfound := getElem?_partitionPoint (h.pairwise_not_halts id offset)
  rw [← childPlace_eq, Array.getElem?_toList] at hfound
  simpa only [Bool.not_not] using hfound

end Tree

end MplWorkbench
