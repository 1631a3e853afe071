import MplWorkbench.Definition
import MplWorkbench.Proofs.Tree.Sides

/-! The name at a caret.

A caret touches a name from its start to right behind its end, so it may touch two
that stand side by side, one on the left and one on the right.

`Grown.nameAt?`: the name at a caret is the first that the caret touches. -/
namespace MplWorkbench

namespace Tree

variable {t : Tree} {text : String} {f : Forest} {stop : Position} {offset id : Nat}

/-- The caret touches the name. -/
def touches (t : Tree) (offset : Nat) (id : NodeId) : Bool :=
  (t.kind id).isName && t.start id ≤ offset && offset ≤ t.stop id

theorem touches_of_stop_lt (hlt : t.stop id < offset) : t.touches offset id = false := by
  rw [touches, decide_eq_false (Nat.not_le.2 hlt), Bool.and_false]

theorem touches_of_lt_start (hlt : offset < t.start id) : t.touches offset id = false := by
  rw [touches, decide_eq_false (Nat.not_le.2 hlt), Bool.and_false, Bool.false_and]

namespace Grown

variable (h : t.Grown text f stop)
include h

theorem nameAt?_of_le {ds : List Diagnostic} (hle : offset ≤ stop.offset) :
    Parse.nameAt? ⟨t, ds⟩ offset = t.tokens.find? (t.touches offset) := by
  obtain ⟨front, n, back, htokens, hn, hfront, hback⟩ := h.exists_tokenAt? hle
  have hordered := h.pairwise_tokens
  rw [htokens, List.pairwise_append, List.pairwise_cons] at hordered
  obtain ⟨hbefore, -, hacross⟩ := hordered
  have hnone : back.find? (t.touches offset) = none :=
    List.find?_eq_none.2 fun m hm => by simp [touches_of_lt_start (hback m hm)]
  have hall : t.tokens.find? (t.touches offset) = (front ++ [n]).find? (t.touches offset) := by
    rw [htokens, List.append_cons, List.find?_append, hnone, Option.or_none]
  have hname : Parse.nameAt? ⟨t, ds⟩ offset =
      ((if t.start n < offset then some n else front.getLast?).toList ++ [n]).find?
        (t.touches offset) := by
    unfold Parse.nameAt?
    simp only [h.around_eq htokens hn, onRight, onLeft, Option.map_id']
    rfl
  rw [hname, hall]
  by_cases hstart : t.start n < offset
  · have hpassed : front.find? (t.touches offset) = none := by
      refine List.find?_eq_none.2 fun m hm => ?_
      simp [touches_of_stop_lt (Nat.lt_of_le_of_lt (hacross m hm n List.mem_cons_self).2 hstart)]
    rw [if_pos hstart, List.find?_append, List.find?_append, hpassed]
    cases htouch : t.touches offset n <;> simp [htouch]
  · rw [if_neg hstart]
    rcases List.eq_nil_or_concat front with rfl | ⟨init, last, rfl⟩
    · rfl
    rw [List.concat_eq_append] at hbefore hacross hfront htokens ⊢
    have hmem : last ∈ init ++ [last] := List.mem_append_right _ List.mem_cons_self
    have hlast := h.mem_tokens_iff.1 (htokens ▸ List.mem_append_left _ hmem)
    have hn := h.mem_tokens_iff.1 (htokens ▸ List.mem_append_right _ List.mem_cons_self)
    have hwidth : t.start last < t.stop last := h.start_lt_stop (h.pos_of_isTerminal hlast.1)
      (h.le_of_lt (hacross last hmem n List.mem_cons_self).1 hn.2)
    have hpassed : init.find? (t.touches offset) = none := by
      refine List.find?_eq_none.2 fun m hm => ?_
      have hstop := ((List.pairwise_append.1 hbefore).2.2 m hm last List.mem_cons_self).2
      have hlt : t.stop m < offset := Nat.lt_of_le_of_lt hstop
        (Nat.lt_of_lt_of_le hwidth (hfront last hmem))
      simp [touches_of_stop_lt hlt]
    have hrest : (init ++ ([last] ++ [n])).find? (t.touches offset) =
        ([last] ++ [n]).find? (t.touches offset) := by
      rw [List.find?_append, hpassed, Option.none_or]
    rw [List.getLast?_concat, List.append_assoc, hrest]
    rfl

/-- Past the end of the text there is no name. -/
theorem nameAt?_of_past {ds : List Diagnostic} (hlt : stop.offset < offset) :
    Parse.nameAt? ⟨t, ds⟩ offset = none := by
  have hright : t.right? root offset .far = none := by rw [right?, h.tokenAt?_of_past hlt]; rfl
  have hend : (t.kind (f.size + 1)).isName = false := by rw [h.end_eq.2.1]; rfl
  simp [Parse.nameAt?, around, hright, h.lastToken?_root, hend]

/-- The name at a caret is the first, of all terminals, that the caret touches. -/
theorem nameAt? {ds : List Diagnostic} (offset : Nat) :
    Parse.nameAt? ⟨t, ds⟩ offset = t.tokens.find? (t.touches offset) := by
  rcases Nat.lt_or_ge stop.offset offset with hlt | hle
  · rw [h.nameAt?_of_past hlt, eq_comm, List.find?_eq_none]
    intro k hk
    obtain ⟨hid, hsize⟩ := h.mem_tokens_iff.1 hk
    have hstop := (h.between (h.pos_of_isTerminal hid) hsize).2
    simp [touches_of_stop_lt (Nat.lt_of_le_of_lt hstop hlt)]
  · exact h.nameAt?_of_le hle

end Grown

end Tree

end MplWorkbench
