import MplWorkbench.Proofs.Reading.Framing
import MplWorkbench.Proofs.Tree.Chain

/-! Searches and scans.

A search among the children of a node halves them, and so is right only where
those that an offset has left behind come first. They do in the tree of a text:
a node that is left behind ends up to where the next begins, and an unclosed
scope, which covers its end too, has nothing but the end of the text behind it.

`scanned_parse`: what a search finds is what a scan from left to right finds. -/
namespace MplWorkbench

namespace Tree

variable {t : Tree} {size id c : Nat}

/-- A search among the children of any node is a scan of them. -/
structure Scanned (t : Tree) : Prop where
  covers_iff : ∀ (id : NodeId) (offset : Nat), ∀ c ∈ t.children id, t.covers offset c ↔
    (t.start c ≤ offset ∧ offset < t.stop c) ∨ (t.start c = offset ∧ t.stop c = offset) ∨
      (t.isUnclosed c ∧ t.stop c = offset)
  /-- What the search asks holds of the children up to the place that it finds, and of no others. -/
  divided : ∀ (id : NodeId) (offset : Nat), ∃ front back, (t.children id).toList = front ++ back ∧
    t.childPlace id offset = front.length ∧
    (∀ c ∈ front, (!t.covers offset c && t.start c < offset) = true) ∧
    ∀ c ∈ back, (!t.covers offset c && t.start c < offset) = false
  first : ∀ (id : NodeId) (offset : Nat),
    t.childAt? id offset = (t.children id).toList.find? (t.covers offset)

theorem covers_iff (hle : t.start c ≤ t.stop c) (offset : Nat) : t.covers offset c ↔
    (t.start c ≤ offset ∧ offset < t.stop c) ∨ (t.start c = offset ∧ t.stop c = offset) ∨
      (t.isUnclosed c ∧ t.stop c = offset) := by
  simp only [covers, Bool.and_eq_true, Bool.or_eq_true, decide_eq_true_eq, beq_iff_eq]
  constructor
  · rintro ⟨hstart, (hstop | hempty) | hopen⟩
    · exact .inl ⟨hstart, hstop⟩
    · exact .inr (.inl ⟨hempty.2, hempty.1.symm.trans hempty.2⟩)
    · exact .inr (.inr ⟨hopen.2, hopen.1.symm⟩)
  · rintro (hinside | hempty | hopen)
    · exact ⟨hinside.1, .inl (.inl hinside.2)⟩
    · exact ⟨Nat.le_of_eq hempty.1, .inl (.inr ⟨hempty.1.trans hempty.2.symm, hempty.1⟩)⟩
    · exact ⟨hopen.2 ▸ hle, .inr ⟨hopen.2.symm, hopen.1⟩⟩

theorem Framed.scanned (h : t.Framed size) : t.Scanned where
  covers_iff id offset c hc := covers_iff (h.within id c hc).2.1 offset
  divided id offset := by
    obtain ⟨front, back, hchildren, hplace, hfront, hback⟩ :=
      exists_partitionPoint (h.pairwise_not_halts id offset)
    rw [← childPlace_eq] at hplace
    simp only [not_halts] at hfront hback
    exact ⟨front, back, hchildren, hplace, hfront, hback⟩
  first id offset := h.childAt?_eq id offset

end Tree

/-- In the tree of any text, searching among children is scanning them. -/
theorem scanned_parse (text : String) (o : Options) : (parse text o).tree.Scanned :=
  (framed_parse text o).scanned

end MplWorkbench
