import MplWorkbench.Tree.Arena

/-! The sequence of a tree.

Nodes join one sequence as they are made, each behind the one that joined before
it, and are linked to it in both directions. Links lead on and back in the order
of the arena, which is part of the type (`next_bounds`, `prev_lt`): every walk
along them ends. -/
namespace MplWorkbench

/-- The neighbours of a node in the sequence. A node outside of the sequence has none. -/
structure Links where
  prev : Option NodeId
  next : Option NodeId
deriving DecidableEq

def Links.leadTo (l : Links) (next : NodeId) : Links := { l with next := some next }

/-- Links lead back to before a node and on to behind it, up to `bound`. -/
def Threaded (bound : Nat) (links : Array Links) : Prop :=
  ∀ (i : Nat) (l : Links), links[i]? = some l →
    (∀ p, l.prev = some p → p < i) ∧ ∀ n, l.next = some n → i < n ∧ n < bound

namespace Threaded

variable {bound : Nat} {links : Array Links}

theorem mono {bound' : Nat} (h : Threaded bound links) (hle : bound ≤ bound') :
    Threaded bound' links := fun i l hl =>
  ⟨(h i l hl).1, fun n hn => ⟨((h i l hl).2 n hn).1, Nat.lt_of_lt_of_le ((h i l hl).2 n hn).2 hle⟩⟩

/-- A node that nothing follows may come to the end, behind any node that is there. -/
theorem push (h : Threaded bound links) {prev : Option NodeId}
    (hprev : ∀ p, prev = some p → p < links.size) : Threaded bound (links.push ⟨prev, none⟩) := by
  intro i l hl
  rw [Array.getElem?_push] at hl
  split at hl
  · next heq =>
    obtain rfl := Option.some.inj hl
    exact ⟨heq ▸ hprev, fun n hn => nomatch hn⟩
  · exact h i l hl

/-- A node may be followed by any that comes behind it. -/
theorem modify (h : Threaded bound links) {id n : NodeId} (hlt : id < n) (hn : n < bound) :
    Threaded bound (links.modify id (·.leadTo n)) := by
  intro i l hl
  rw [Array.getElem?_modify] at hl
  split at hl
  · next heq =>
    subst heq
    obtain ⟨l', hl', rfl⟩ := Option.map_eq_some_iff.1 hl
    exact ⟨(h id l' hl').1, fun m hm => Option.some.inj hm ▸ ⟨hlt, hn⟩⟩
  · exact h i l hl

end Threaded

structure Thread where
  /-- The links of each node, in the order of the arena. -/
  links : Array Links
  first? : Option NodeId
  last? : Option NodeId
  last_lt : ∀ id, last? = some id → id < links.size
  threaded : Threaded links.size links

namespace Thread

def empty : Thread := ⟨#[], none, none, fun _ h => (nomatch h), fun i l h => by simp at h⟩

def size (t : Thread) : Nat := t.links.size

def next? (t : Thread) (id : NodeId) : Option NodeId := t.links[id]?.bind (·.next)

def prev? (t : Thread) (id : NodeId) : Option NodeId := t.links[id]?.bind (·.prev)

theorem next_bounds {t : Thread} {id n : NodeId} (h : t.next? id = some n) :
    id < n ∧ n < t.size := by
  obtain ⟨l, hl, hn⟩ := Option.bind_eq_some_iff.1 h
  exact (t.threaded id l hl).2 n hn

theorem prev_lt {t : Thread} {id p : NodeId} (h : t.prev? id = some p) : p < id := by
  obtain ⟨l, hl, hp⟩ := Option.bind_eq_some_iff.1 h
  exact (t.threaded id l hl).1 p hp

/-- The links of the nodes there are, when the next node follows the last. -/
def linkNext (t : Thread) : Array Links :=
  match t.last? with
  | some last => t.links.modify last (·.leadTo t.links.size)
  | none => t.links

@[simp] theorem size_linkNext (t : Thread) : t.linkNext.size = t.links.size := by
  unfold linkNext
  split
  · exact Array.size_modify
  · rfl

theorem threaded_linkNext (t : Thread) : Threaded (t.links.size + 1) t.linkNext := by
  have hmono := t.threaded.mono (Nat.le_succ _)
  unfold linkNext
  split
  · next last hlast => exact hmono.modify (t.last_lt last hlast) (Nat.lt_succ_self _)
  · exact hmono

/-- The next node joins the sequence at its end. -/
def join (t : Thread) : Thread where
  links := t.linkNext.push ⟨t.last?, none⟩
  first? := if t.last?.isSome then t.first? else some t.links.size
  last? := some t.links.size
  last_lt id h := by simp [← Option.some.inj h]
  threaded := by
    simpa using t.threaded_linkNext.push (by simpa using t.last_lt)

/-- The next node stays outside of the sequence. -/
def pass (t : Thread) : Thread where
  links := t.links.push ⟨none, none⟩
  first? := t.first?
  last? := t.last?
  last_lt id h := by rw [Array.size_push]; exact Nat.lt_succ_of_lt (t.last_lt id h)
  threaded := by
    simpa using (t.threaded.mono (Nat.le_succ _)).push fun p (h : none = some p) => nomatch h

@[simp] theorem size_empty : empty.size = 0 := rfl

@[simp] theorem size_join (t : Thread) : t.join.size = t.size + 1 := by simp [join, size]

@[simp] theorem size_pass (t : Thread) : t.pass.size = t.size + 1 := by simp [pass, size]

end Thread

end MplWorkbench
