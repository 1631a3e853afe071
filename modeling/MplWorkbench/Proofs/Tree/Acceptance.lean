import Mathlib.Data.List.Basic
import Mathlib.Data.List.Induction
import MplWorkbench.Proofs.Tree.Enumeration

/-! Which streams of events are taken for a tree.

A builder looks only at the end at what it has: whether there are nodes, and how
many of them are open. What that says of the stream is told by the last event
that opened a node while none was open, or all were given up: a reset, which the
protocol asks for, or else a scope that comes without a reset or after the root
was left (`standing_eq_one_iff`). The second is a stream that ought to be refused,
and is not.

`finish_fed`: the answer of a builder to every stream that it gets through. -/
namespace MplWorkbench

namespace Event

/-! ### Counting what is open -/

def isReset : Event → Bool
  | .reset _ => true
  | _ => false

/-- A node is made for the event, other than by a reset. -/
def makesNode : Event → Bool
  | .enter kind _ => kind.isScope
  | .terminal _ _ _ => true
  | _ => false

/-- How many nodes are open after an event, if so many are before it. Where none is open, there is
none to leave. -/
def openedAfter (opened : Nat) : Event → Nat
  | .reset _ => 1
  | .enter kind _ => if kind.isScope then opened + 1 else opened
  | .leave kind _ => if kind.isScope then opened - 1 else opened
  | _ => opened

/-- How many nodes are open after a stream, the root included. -/
def standing (es : List Event) : Nat := es.foldl openedAfter 0

variable {opened depth : Nat} {e : Event} {es before since : List Event}

theorem standing_concat (es : List Event) (e : Event) :
    standing (es ++ [e]) = openedAfter (standing es) e := List.foldl_concat ..

theorem openedAfter_of_isReset (h : e.isReset) (opened : Nat) : openedAfter opened e = 1 := by
  cases e with
  | reset => rfl
  | enter | leave | terminal | report | complete => contradiction

theorem openedAfter_of_entersScope (h : e.entersScope) (opened : Nat) :
    openedAfter opened e = opened + 1 := by
  cases e with
  | enter kind start => exact if_pos h
  | reset | leave | terminal | report | complete => contradiction

theorem openedAfter_of_leavesScope (h : e.leavesScope) (opened : Nat) :
    openedAfter opened e = opened - 1 := by
  cases e with
  | leave kind stop => exact if_pos h
  | reset | enter | terminal | report | complete => contradiction

theorem openedAfter_of_plain (hreset : e.isReset = false) (henters : e.entersScope = false)
    (hleaves : e.leavesScope = false) (opened : Nat) : openedAfter opened e = opened := by
  cases e with
  | reset => contradiction
  | enter kind start => exact if_neg (Bool.eq_false_iff.1 henters)
  | leave kind stop => exact if_neg (Bool.eq_false_iff.1 hleaves)
  | terminal | report | complete => rfl

/-- An event does at most one of these. -/
theorem leavesScope_of_entersScope (h : e.entersScope) : e.leavesScope = false := by
  cases e with
  | enter => rfl
  | reset | leave | terminal | report | complete => contradiction

/-! ### The event that everything open stands in -/

/-- The event opens a node in which nothing else is open: it is a reset, or it enters a scope where
none is open. -/
def Founds (before : List Event) (e : Event) : Prop :=
  e.isReset ∨ e.entersScope ∧ standing before = 0

/-- Behind an event no other resets, none leaves what that event opened, and in the end so many
scopes are open. -/
structure Holds (depth : Nat) (since : List Event) : Prop where
  isReset_eq : ∀ e ∈ since, e.isReset = false
  le : ∀ front, front <+: since → front.countP leavesScope ≤ front.countP entersScope
  eq : since.countP entersScope = since.countP leavesScope + depth

theorem holds_zero_iff :
    Holds 0 since ↔ (∀ e ∈ since, e.isReset = false) ∧ Balanced since := by
  constructor
  · rintro ⟨hreset, hle, heq⟩
    exact ⟨hreset, fun front hfront => by simpa using hle front hfront, by omega⟩
  · rintro ⟨hreset, hle, heq⟩
    exact ⟨hreset, fun front hfront => by simpa using hle front hfront, by omega⟩

theorem holds_nil : Holds 0 [] := by
  refine ⟨fun e he => absurd he List.not_mem_nil, fun front hfront => ?_, rfl⟩
  rw [List.prefix_nil.1 hfront]
  exact Nat.le_refl _

theorem Holds.concat {depth' : Nat} (h : Holds depth since) (hreset : e.isReset = false)
    (hdepth : depth' + [e].countP leavesScope = depth + [e].countP entersScope) :
    Holds depth' (since ++ [e]) := by
  have heq := h.eq
  refine ⟨fun e' he' => ?_, fun front hfront => ?_, ?_⟩
  · rcases List.mem_append.1 he' with he' | he'
    · exact h.isReset_eq e' he'
    · exact List.mem_singleton.1 he' ▸ hreset
  · rcases List.prefix_concat_iff.1 hfront with rfl | hfront
    · rw [List.countP_append, List.countP_append]
      omega
    · exact h.le front hfront
  · rw [List.countP_append, List.countP_append]
    omega

/-- What is open at some place stands in the node of some event, and all scopes since have been
left but so many. -/
theorem exists_founds (depth : Nat) (h : standing es = depth + 1) :
    ∃ before e since, es = before ++ e :: since ∧ Founds before e ∧ Holds depth since := by
  induction es using List.reverseRecOn generalizing depth with
  | nil => contradiction
  | append_singleton es e ih =>
    rw [standing_concat] at h
    -- an event that founds nothing comes behind the one that does
    have later (depth' : Nat) (hreset : e.isReset = false) (hstanding : standing es = depth' + 1)
        (hdepth : depth + [e].countP leavesScope = depth' + [e].countP entersScope) :
        ∃ before e' since, es ++ [e] = before ++ e' :: since ∧ Founds before e' ∧
          Holds depth since := by
      obtain ⟨before, e', since, rfl, hfounds, hholds⟩ := ih depth' hstanding
      exact ⟨before, e', since ++ [e], by rw [List.append_assoc, List.cons_append], hfounds,
        hholds.concat hreset hdepth⟩
    by_cases hreset : e.isReset
    · rw [openedAfter_of_isReset hreset] at h
      obtain rfl : depth = 0 := by omega
      exact ⟨es, e, [], rfl, .inl hreset, holds_nil⟩
    replace hreset := Bool.eq_false_iff.2 hreset
    by_cases henters : e.entersScope
    · rw [openedAfter_of_entersScope henters] at h
      cases depth with
      | zero => exact ⟨es, e, [], rfl, .inr ⟨henters, by omega⟩, holds_nil⟩
      | succ depth =>
        refine later depth hreset (by omega) ?_
        simp [henters, leavesScope_of_entersScope henters]
    by_cases hleaves : e.leavesScope
    · rw [openedAfter_of_leavesScope hleaves] at h
      refine later (depth + 1) hreset (by omega) ?_
      simp [henters, hleaves]
    · rw [openedAfter_of_plain hreset (Bool.eq_false_iff.2 henters)
        (Bool.eq_false_iff.2 hleaves)] at h
      refine later depth hreset h ?_
      simp [henters, hleaves]

theorem Holds.standing_eq (hfounds : Founds before e) (h : Holds depth since) :
    standing (before ++ e :: since) = depth + 1 := by
  induction since using List.reverseRecOn generalizing depth with
  | nil =>
    obtain rfl : depth = 0 := by simpa using h.eq.symm
    rw [standing_concat]
    rcases hfounds with hreset | ⟨henters, hnone⟩
    · exact openedAfter_of_isReset hreset _
    · rw [openedAfter_of_entersScope henters, hnone]
  | append_singleton since e' ih =>
    have hreset : e'.isReset = false := h.isReset_eq e' (by simp)
    have hfront : ∀ e ∈ since, e.isReset = false := fun e he =>
      h.isReset_eq e (List.mem_append_left _ he)
    have heq := h.eq
    have hle := h.le since (List.prefix_append ..)
    rw [List.countP_append, List.countP_append] at heq
    have earlier (depth' : Nat)
        (hdepth : since.countP entersScope = since.countP leavesScope + depth') :
        standing (before ++ e :: since) = depth' + 1 :=
      ih ⟨hfront, fun front hbegins => h.le front (hbegins.trans (List.prefix_append ..)), hdepth⟩
    rw [← List.cons_append, ← List.append_assoc, standing_concat]
    by_cases henters : e'.entersScope
    · simp only [List.countP_singleton, henters, leavesScope_of_entersScope henters] at heq
      have hbefore := earlier (depth - 1) (by simp at heq; omega)
      rw [openedAfter_of_entersScope henters, hbefore]
      simp at heq
      omega
    by_cases hleaves : e'.leavesScope
    · have hbefore := earlier (depth + 1) (by simp [henters, hleaves] at heq; omega)
      rw [openedAfter_of_leavesScope hleaves, hbefore]
      rfl
    · have hbefore := earlier depth (by simp [henters, hleaves] at heq; omega)
      rw [openedAfter_of_plain hreset (Bool.eq_false_iff.2 henters)
        (Bool.eq_false_iff.2 hleaves), hbefore]

/-! ### Streams that keep to the protocol, and others -/

/-- There was a reset, and since the last one the stream leaves each scope that it enters, and no
other. -/
def Keeps (es : List Event) : Prop :=
  ∃ before text since, es = before ++ .reset text :: since ∧
    (∀ e ∈ since, e.isReset = false) ∧ Balanced since

/-- A scope is entered while no node is open, not even a root, and is the only one open in the
end. -/
def Uproots (es : List Event) : Prop :=
  ∃ before kind start since, es = before ++ .enter kind start :: since ∧ kind.isScope ∧
    standing before = 0 ∧ (∀ e ∈ since, e.isReset = false) ∧ Balanced since

/-- Nodes are made only where one is open to take them in. -/
def Rooted (es : List Event) : Prop :=
  ∀ before e since, es = before ++ e :: since → e.makesNode → standing before ≠ 0

theorem standing_eq_one_iff : standing es = 1 ↔ Keeps es ∨ Uproots es := by
  constructor
  · intro h
    obtain ⟨before, e, since, rfl, hfounds, hholds⟩ := exists_founds 0 h
    obtain ⟨hreset, hbalanced⟩ := holds_zero_iff.1 hholds
    cases e with
    | reset text => exact .inl ⟨before, text, since, rfl, hreset, hbalanced⟩
    | enter kind start =>
      obtain ⟨hscope, hnone⟩ := hfounds.resolve_left Bool.false_ne_true
      exact .inr ⟨before, kind, start, since, rfl, hscope, hnone, hreset, hbalanced⟩
    | leave | terminal | report | complete =>
      rcases hfounds with h | ⟨h, -⟩ <;> contradiction
  · rintro (⟨before, text, since, rfl, h⟩ | ⟨before, kind, start, since, rfl, hscope, hnone, h⟩)
    · exact (holds_zero_iff.2 h).standing_eq (.inl rfl)
    · exact (holds_zero_iff.2 h).standing_eq (.inr ⟨hscope, hnone⟩)

theorem Rooted.not_uproots (h : Rooted es) : ¬ Uproots es := by
  rintro ⟨before, kind, start, since, heq, hscope, hnone, -⟩
  exact h before _ since heq hscope hnone

/-- A stream that makes no node opens none. -/
theorem standing_eq_zero (hreset : ∀ e ∈ es, e.isReset = false)
    (hnode : ∀ e ∈ es, e.makesNode = false) : standing es = 0 := by
  induction es using List.reverseRecOn with
  | nil => rfl
  | append_singleton es e ih =>
    have hbefore := ih (fun e he => hreset e (List.mem_append_left _ he))
      fun e he => hnode e (List.mem_append_left _ he)
    have hlast := hnode e (by simp)
    rw [standing_concat, hbefore]
    cases e with
    | reset text =>
      have hnone := hreset (.reset text) (by simp)
      contradiction
    | enter kind start => exact if_neg (Bool.eq_false_iff.1 hlast)
    | leave kind stop =>
      rw [openedAfter]
      split <;> rfl
    | terminal | report | complete => rfl

/-- Without a reset there is nothing for a node to stand in. -/
theorem Rooted.makesNode_eq (h : Rooted es) (hreset : ∀ e ∈ es, e.isReset = false) :
    ∀ e ∈ es, e.makesNode = false := by
  induction es using List.reverseRecOn with
  | nil => exact fun e he => absurd he List.not_mem_nil
  | append_singleton es e ih =>
    have hfront : ∀ e ∈ es, e.isReset = false := fun e he => hreset e (List.mem_append_left _ he)
    have hbefore := ih
      (fun before e' since heq => h before e' (since ++ [e]) (by simp [heq])) hfront
    intro e' he'
    rcases List.mem_append.1 he' with he' | he'
    · exact hbefore e' he'
    · rw [List.mem_singleton.1 he', Bool.eq_false_iff]
      exact fun hnode => h es e [] rfl hnode (standing_eq_zero hfront hbefore)

end Event

open Event

/-! ### Builders -/

namespace Builder

variable {b b' : Builder} {e : Event} {es : List Event}

/-- An event opens and closes nodes as it is counted, and makes one if it is said to. -/
theorem feed_counts (h : b.feed e = .ok b') :
    b'.opened.length = openedAfter b.opened.length e ∧
      (b'.arena.size = 0 ↔ b.arena.size = 0 ∧ e.isReset = false ∧ e.makesNode = false) := by
  cases e with
  | reset text =>
    obtain rfl := Except.ok.inj h
    have hsize : (start text).arena.size = 1 := rfl
    exact ⟨rfl, by simp [hsize, isReset]⟩
  | report d | complete =>
    obtain rfl := Except.ok.inj h
    exact ⟨rfl, by simp [isReset, makesNode]⟩
  | enter kind start =>
    obtain rfl := Except.ok.inj h
    rw [openedAfter, makesNode]
    split
    · next hscope => simp [enter, hscope]
    · next hscope => simp [isReset, hscope]
  | terminal kind start stop =>
    rw [feed, terminal] at h
    split at h
    · obtain rfl := Except.ok.inj h
      exact ⟨rfl, by simp [makesNode]⟩
    · contradiction
  | leave kind stop =>
    rw [feed] at h
    rw [openedAfter]
    split at h
    · next hscope =>
      rw [if_pos hscope]
      unfold leave at h
      split at h
      · next hopened =>
        obtain rfl := Except.ok.inj h
        simp [hopened, isReset, makesNode]
      · next hopened =>
        obtain rfl := Except.ok.inj h
        simp [hopened, isReset, makesNode]
      · next hopened =>
        dsimp only at h
        split at h
        · obtain rfl := Except.ok.inj h
          simp [hopened, close, isReset, makesNode]
        · contradiction
    · next hscope =>
      obtain rfl := Except.ok.inj h
      rw [if_neg hscope]
      exact ⟨rfl, by simp [isReset, makesNode]⟩

/-- What a builder has after a stream. -/
theorem counts_of_fed (h : es.foldlM feed empty = .ok b) :
    b.opened.length = standing es ∧
      (b.arena.size = 0 ↔ ∀ e ∈ es, e.isReset = false ∧ e.makesNode = false) := by
  induction es using List.reverseRecOn generalizing b with
  | nil =>
    obtain rfl := Except.ok.inj h
    exact ⟨rfl, by simp [empty]⟩
  | append_singleton es e ih =>
    obtain ⟨b', hfront, hlast⟩ := exists_of_foldlM_append h
    obtain ⟨_, hfed, hnil⟩ := exists_of_foldlM_cons hlast
    obtain rfl := Except.ok.inj hnil
    obtain ⟨hopened, hsize⟩ := ih hfront
    obtain ⟨hopened', hsize'⟩ := feed_counts hfed
    rw [standing_concat, ← hopened, hsize', hsize]
    exact ⟨hopened', by simp [or_imp, forall_and, and_assoc, and_left_comm]⟩

theorem isOk_finish_iff : b.finish.isOk ↔ b.arena.size ≠ 0 ∧ b.opened.length = 1 := by
  unfold finish
  split
  · next hnone => simp [hnone, Except.isOk, Except.toBool]
  · split
    · next hsome hopened => simp [hopened, Except.isOk, Except.toBool]
    · next hsome hopened => simp [hsome, Decidable.not_not.1 hopened, Except.isOk, Except.toBool]

theorem finish_eq_notStarted_iff : b.finish = .error .notStarted ↔ b.arena.size = 0 := by
  unfold finish
  repeat' split
  all_goals simp_all

theorem finish_eq_unbalanced_iff (n : Nat) : b.finish = .error (.unbalanced n) ↔
    b.arena.size ≠ 0 ∧ b.opened.length = n ∧ n ≠ 1 := by
  unfold finish
  repeat' split
  all_goals simp_all
  all_goals omega

end Builder

/-! ### Streams -/

/-- What is answered to a stream. -/
structure Answers (es : List Event) (answer : Except BuildError Parse) : Prop where
  /-- There is a tree if the stream keeps to the protocol, and also if a scope takes the place of
  the root. -/
  isOk_iff : answer.isOk ↔ Keeps es ∨ Uproots es
  notStarted_iff : answer = .error .notStarted ↔
    ∀ e ∈ es, e.isReset = false ∧ e.makesNode = false
  unbalanced_iff : ∀ n, answer = .error (.unbalanced n) ↔
    (∃ e ∈ es, e.isReset ∨ e.makesNode) ∧ standing es = n ∧ n ≠ 1
  /-- Where nodes are made only under a root, the protocol is all that counts. -/
  isOk_iff_of_rooted : Rooted es → (answer.isOk ↔ Keeps es)
  notStarted_iff_of_rooted : Rooted es →
    (answer = .error .notStarted ↔ ∀ e ∈ es, e.isReset = false)
  unbalanced_of_rooted : Rooted es → (∃ e ∈ es, e.isReset) → ¬ Keeps es →
    ∃ n, answer = .error (.unbalanced n)

/-- The answer of a builder to a stream that it gets through. -/
theorem finish_fed {es : List Event} {b : Builder}
    (hfed : es.foldlM Builder.feed .empty = .ok b) : Answers es b.finish := by
  obtain ⟨hopened, hsize⟩ := Builder.counts_of_fed hfed
  have hnode : b.arena.size ≠ 0 ↔ ∃ e ∈ es, e.isReset ∨ e.makesNode := by
    rw [Ne, hsize]
    simp only [not_forall, exists_prop, ← Bool.not_eq_true, ← not_or, not_not]
  have hmade : standing es = 1 → b.arena.size ≠ 0 := by
    intro hone
    rw [hnode]
    rcases standing_eq_one_iff.1 hone with
      ⟨before, text, since, rfl, -⟩ | ⟨before, kind, start, since, rfl, hscope, -⟩
    · exact ⟨_, List.mem_append_right _ List.mem_cons_self, .inl rfl⟩
    · exact ⟨_, List.mem_append_right _ List.mem_cons_self, .inr hscope⟩
  have hok : b.finish.isOk ↔ Keeps es ∨ Uproots es := by
    rw [Builder.isOk_finish_iff, hopened, ← standing_eq_one_iff]
    exact ⟨fun h => h.2, fun h => ⟨hmade h, h⟩⟩
  have hnone : b.finish = .error .notStarted ↔
      ∀ e ∈ es, e.isReset = false ∧ e.makesNode = false := by
    rw [Builder.finish_eq_notStarted_iff, hsize]
  have hunbalanced (n : Nat) : b.finish = .error (.unbalanced n) ↔
      (∃ e ∈ es, e.isReset ∨ e.makesNode) ∧ standing es = n ∧ n ≠ 1 := by
    rw [Builder.finish_eq_unbalanced_iff, hnode, hopened]
  refine ⟨hok, hnone, hunbalanced, fun hrooted => ?_, fun hrooted => ?_,
    fun hrooted hreset hkeeps => ?_⟩
  · rw [hok, or_iff_left hrooted.not_uproots]
  · rw [hnone]
    exact ⟨fun h e he => (h e he).1, fun h e he => ⟨h e he, hrooted.makesNode_eq h e he⟩⟩
  · obtain ⟨e, he, hreset⟩ := hreset
    refine ⟨standing es, (hunbalanced _).2 ⟨⟨e, he, .inl hreset⟩, rfl, fun hone => ?_⟩⟩
    exact (standing_eq_one_iff.1 hone).elim hkeeps hrooted.not_uproots

/-- The root is left, and the object that is entered then is taken for one. -/
theorem finish_fed_uprooted :
    ∃ b, [.reset "", .leave .object 0, .enter .object .zero].foldlM Builder.feed .empty = .ok b ∧
      Answers [.reset "", .leave .object 0, .enter .object .zero] b.finish ∧ b.finish.isOk ∧
      ¬ Keeps [.reset "", .leave .object 0, .enter .object .zero] := by
  refine ⟨_, rfl, finish_fed rfl, rfl, ?_⟩
  rintro ⟨before, text, since, heq, -, hbalanced⟩
  cases before with
  | nil =>
    obtain ⟨-, rfl⟩ := List.cons.inj heq
    exact absurd hbalanced (by decide)
  | cons e before =>
    have hmem : Event.reset text ∈ [.leave .object 0, .enter .object .zero] :=
      (List.cons.inj heq).2 ▸ List.mem_append_right _ List.mem_cons_self
    simp at hmem

end MplWorkbench
