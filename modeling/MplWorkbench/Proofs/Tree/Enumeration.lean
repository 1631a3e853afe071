import MplWorkbench.Proofs.Tree.Frame
import MplWorkbench.Proofs.Tree.Growth

/-! Trees of any stream of events.

A stream need not come from reading a text. As long as it leaves the scopes that
it enters, and no more, a builder that gets through it has a tree: what is told
between the start and the end of a scope is told by such a stream again
(`Event.Nested`), and so it describes a forest. The parents, the sequence and the
numbers of the nodes then all give one order of the tree (`Tree.Enumerated`).

`enumerated_of_balanced`: what comes before the last reset leaves no trace, and
what comes after it gives such a tree. -/
namespace MplWorkbench

namespace Event

/-! ### Streams that leave what they enter -/

def entersScope : Event → Bool
  | .enter kind _ => kind.isScope
  | _ => false

def leavesScope : Event → Bool
  | .leave kind _ => kind.isScope
  | _ => false

def report? : Event → Option Diagnostic
  | .report d => some d
  | _ => none

/-- With so many scopes open, the events never leave more than are open, and all in the end. -/
structure LeavesAll (opened : Nat) (es : List Event) : Prop where
  le : ∀ front, front <+: es → front.countP leavesScope ≤ opened + front.countP entersScope
  eq : es.countP leavesScope = opened + es.countP entersScope

/-- The events leave each scope that they enter, and no other. -/
abbrev Balanced (es : List Event) : Prop := LeavesAll 0 es

theorem leavesAll_iff_take {opened : Nat} {es : List Event} : LeavesAll opened es ↔
    (∀ n < es.length, (es.take n).countP leavesScope ≤ opened + (es.take n).countP entersScope) ∧
      es.countP leavesScope = opened + es.countP entersScope := by
  refine ⟨fun h => ⟨fun n _ => h.le _ (List.take_prefix n es), h.eq⟩,
    fun h => ⟨fun front hfront => ?_, h.2⟩⟩
  rcases Nat.lt_or_ge front.length es.length with hlt | hge
  · rw [List.prefix_iff_eq_take.1 hfront]
    exact h.1 front.length hlt
  · rw [hfront.eq_of_length_le hge]
    exact Nat.le_of_eq h.2

instance (opened : Nat) (es : List Event) : Decidable (LeavesAll opened es) :=
  decidable_of_iff _ leavesAll_iff_take.symm

variable {opened : Nat} {e : Event} {es : List Event}

/-- After the first event some other number of scopes is open. -/
theorem LeavesAll.tail (h : LeavesAll opened (e :: es)) : ∃ opened',
    opened' + [e].countP leavesScope = opened + [e].countP entersScope ∧ LeavesAll opened' es := by
  have hle := h.le [e] (List.prefix_cons_iff.2 (.inr ⟨[], rfl, List.nil_prefix⟩))
  refine ⟨opened + [e].countP entersScope - [e].countP leavesScope, by omega,
    fun front hfront => ?_, ?_⟩
  · have hcons := h.le (e :: front) ((List.prefix_cons_inj e).2 hfront)
    rw [List.countP_cons, List.countP_cons] at hcons
    simp only [List.countP_singleton] at hle ⊢
    omega
  · have heq := h.eq
    rw [List.countP_cons, List.countP_cons] at heq
    simp only [List.countP_singleton] at hle ⊢
    omega

/-- Scopes stand inside of each other, or one behind the other. -/
inductive Nested : List Event → Prop where
  | nil : Nested []
  | plain {e : Event} {es : List Event} : e.entersScope = false → e.leavesScope = false →
      Nested es → Nested (e :: es)
  | scope {kind kind' : Kind} {start : Position} {stop : Nat} {inside es : List Event} :
      kind.isScope → kind'.isScope → Nested inside → Nested es →
      Nested (.enter kind start :: inside ++ .leave kind' stop :: es)

/-- The events go on nested between the ends of so many scopes. -/
def Unwinds : Nat → List Event → Prop
  | 0, es => Nested es
  | opened + 1, es => ∃ inside kind stop rest, es = inside ++ .leave kind stop :: rest ∧
      kind.isScope ∧ Nested inside ∧ Unwinds opened rest

theorem Unwinds.plain (h : Unwinds opened es) (he : e.entersScope = false)
    (he' : e.leavesScope = false) : Unwinds opened (e :: es) := by
  cases opened with
  | zero => exact .plain he he' h
  | succ opened =>
    obtain ⟨inside, kind, stop, rest, rfl, hkind, hinside, hrest⟩ := h
    exact ⟨e :: inside, kind, stop, rest, rfl, hkind, .plain he he' hinside, hrest⟩

theorem Unwinds.scope {kind : Kind} (h : Unwinds (opened + 1) es) (hkind : kind.isScope)
    (start : Position) : Unwinds opened (.enter kind start :: es) := by
  obtain ⟨inside, kind', stop, rest, rfl, hkind', hinside, hrest⟩ := h
  cases opened with
  | zero => exact .scope hkind hkind' hinside hrest
  | succ opened =>
    obtain ⟨more, kind'', stop'', rest, rfl, hkind'', hmore, hrest⟩ := hrest
    refine ⟨.enter kind start :: inside ++ .leave kind' stop :: more, kind'', stop'', rest, ?_,
      hkind'', .scope hkind hkind' hinside hmore, hrest⟩
    simp

theorem LeavesAll.unwinds (h : LeavesAll opened es) : Unwinds opened es := by
  induction es generalizing opened with
  | nil =>
    obtain rfl : opened = 0 := by simpa using h.eq.symm
    exact .nil
  | cons e es ih =>
    obtain ⟨opened', hcount, htail⟩ := h.tail
    have hunwinds := ih htail
    simp only [List.countP_singleton] at hcount
    have plain (he : e.entersScope = false) (he' : e.leavesScope = false) :
        Unwinds opened (e :: es) := by
      rw [he, he'] at hcount
      obtain rfl : opened' = opened := hcount
      exact hunwinds.plain he he'
    cases e with
    | reset | terminal | report | complete => exact plain rfl rfl
    | enter kind start =>
      cases hkind : kind.isScope with
      | false => exact plain hkind rfl
      | true =>
        rw [show (Event.enter kind start).entersScope = true from hkind] at hcount
        obtain rfl : opened' = opened + 1 := hcount
        exact hunwinds.scope hkind start
    | leave kind stop =>
      cases hkind : kind.isScope with
      | false => exact plain rfl hkind
      | true =>
        rw [show (Event.leave kind stop).leavesScope = true from hkind] at hcount
        obtain rfl : opened' + 1 = opened := hcount
        exact ⟨[], kind, stop, es, rfl, hkind, .nil, hunwinds⟩

end Event

open Event

/-! ### From the stream to the forest -/

theorem Describes.diagnostics_eq {es : List Event} {f : Forest} {ds : List Diagnostic}
    (h : Describes es f ds) : ds = es.filterMap report? := by
  induction h with
  | nil | report | complete | enterPlain | leavePlain | terminal => rfl
  | append _ _ ih ih' => rw [List.filterMap_append, ih, ih']
  | scope _ _ _ _ ih =>
    rw [List.cons_append, List.filterMap_cons_none rfl, List.filterMap_append, ih]
    exact (List.append_nil _).symm

variable {b b' : Builder} {outer : List NodeId} {front back : List Node} {n : Node} {e : Event}
  {es : List Event}

/-- An event that a builder gets through, and that is neither a reset nor about a scope. -/
theorem exists_describes_one (he : e.entersScope = false) (he' : e.leavesScope = false)
    (hreset : ∀ text, e ≠ .reset text) (hfed : b.feed e = .ok b') : ∃ f ds, Describes [e] f ds := by
  cases e with
  | reset text => exact absurd rfl (hreset text)
  | enter kind start => exact ⟨_, _, .enterPlain start he⟩
  | leave kind stop => exact ⟨_, _, .leavePlain stop he'⟩
  | report d => exact ⟨_, _, .report d⟩
  | complete => exact ⟨_, _, .complete⟩
  | terminal kind start stop =>
    rw [Builder.feed, Builder.terminal] at hfed
    split at hfed
    · next hle => exact ⟨_, _, .terminal kind hle⟩
    · contradiction

/-- Nested events that a builder gets through describe a forest. -/
theorem Event.Nested.exists_describes (h : Nested es) (hreset : ∀ e ∈ es, ∀ text, e ≠ .reset text)
    (hb : b.Holds outer front n back) (hfed : es.foldlM Builder.feed b = .ok b') :
    ∃ f ds, Describes es f ds := by
  induction h generalizing b b' outer front n back with
  | nil => exact ⟨_, _, .nil⟩
  | @plain e es he he' _ ih =>
    obtain ⟨hreset, hresets⟩ := List.forall_mem_cons.1 hreset
    obtain ⟨b₁, hfirst, hfed⟩ := Builder.exists_of_foldlM_cons hfed
    obtain ⟨f, ds, hone⟩ := exists_describes_one he he' hreset hfirst
    obtain ⟨b₂, hfed', hgrows⟩ := hone.feed hb
    obtain ⟨_, hfirst', hnil⟩ := Builder.exists_of_foldlM_cons hfed'
    obtain rfl := Except.ok.inj (hfirst.symm.trans hfirst')
    obtain rfl := Except.ok.inj hnil
    obtain ⟨g, ds', hrest⟩ := ih hresets hgrows.holds hfed
    exact ⟨_, _, hone.append hrest⟩
  | @scope kind kind' start stop inside es hkind hkind' _ _ ihi ihn =>
    have hresets : ∀ e ∈ inside ++ .leave kind' stop :: es, ∀ text, e ≠ .reset text :=
      fun e he => hreset e (List.mem_cons_of_mem _ he)
    have hentered : b.feed (.enter kind start) = .ok (b.enter kind start) := by
      rw [Builder.feed, hkind]
      rfl
    obtain ⟨_, hfirst, hfed⟩ := Builder.exists_of_foldlM_cons hfed
    obtain rfl := Except.ok.inj (hentered.symm.trans hfirst)
    obtain ⟨b₁, hinside, hfed⟩ := Builder.exists_of_foldlM_append hfed
    obtain ⟨f, ds, hdescribes⟩ := ihi (fun e he => hresets e (List.mem_append_left _ he))
      (hb.enter kind start) hinside
    obtain ⟨_, hinside', hgrows⟩ := hdescribes.feed (hb.enter kind start)
    obtain rfl := Except.ok.inj (hinside.symm.trans hinside')
    obtain ⟨b₂, hleft, hfed⟩ := Builder.exists_of_foldlM_cons hfed
    rw [Builder.feed, if_pos hkind', hb.leave_eq hgrows stop] at hleft
    split at hleft
    · next hle =>
      obtain rfl := Except.ok.inj hleft
      obtain ⟨g, ds', hrest⟩ := ihn
        (fun e he => hresets e (List.mem_append_right _ (List.mem_cons_of_mem _ he)))
        (hb.grows_close hgrows stop).holds hfed
      have hscope := (Describes.scope hkind hkind' hle hdescribes).append hrest
      rw [List.append_assoc] at hscope
      exact ⟨_, _, hscope⟩
    · contradiction

namespace Tree

/-! ### From the forest to the numbers -/

variable {t : Tree} {text : String} {f : Forest} {parent : Option NodeId} {base id : Nat}

theorem descendants_eq (id : NodeId) :
    t.descendants id = id :: (t.children id).toList.flatMap t.descendants := by
  rw [descendants]
  simp

/-- The nodes of a forest come in the order of the arena. -/
theorem Bears.descendants (h : t.Bears parent base f) :
    (f.roots base).flatMap t.descendants = List.range' base f.size := by
  induction f generalizing parent base with
  | nil => rfl
  | leaf kind start stop next ih =>
    obtain ⟨hnode, hnext⟩ := h
    have hchildren : (t.children base).toList = [] := by rw [children, hnode]; rfl
    rw [Forest.roots, List.flatMap_cons, ih hnext, descendants_eq, hchildren, Forest.size,
      List.range'_succ]
    rfl
  | branch kind start stop inside next ihi ihn =>
    obtain ⟨hnode, hinside, hnext⟩ := h
    have hchildren : (t.children base).toList = inside.roots (base + 1) := by
      rw [children, hnode]
      rfl
    rw [Forest.roots, List.flatMap_cons, ihn hnext, descendants_eq, hchildren, ihi hinside,
      Forest.size, List.range'_succ, List.cons_append, List.range'_append_1]

end Tree

theorem Forest.pairwise_roots (f : Forest) (base : Nat) :
    (∀ id ∈ f.roots base, base ≤ id) ∧ (f.roots base).Pairwise (· < ·) := by
  induction f generalizing base with
  | nil => simp [roots]
  | leaf _ _ _ next ih =>
    obtain ⟨hle, hlt⟩ := ih (base + 1)
    refine ⟨List.forall_mem_cons.2 ⟨Nat.le_refl _, fun id hid => Nat.le_of_succ_le (hle id hid)⟩,
      List.pairwise_cons.2 ⟨hle, hlt⟩⟩
  | branch _ _ _ inside next _ ih =>
    obtain ⟨hle, hlt⟩ := ih (base + 1 + inside.size)
    have hafter : ∀ id ∈ next.roots (base + 1 + inside.size), base < id := fun id hid =>
      Nat.lt_of_lt_of_le (Nat.lt_of_succ_le (Nat.le_add_right ..)) (hle id hid)
    exact ⟨List.forall_mem_cons.2 ⟨Nat.le_refl _, fun id hid => Nat.le_of_lt (hafter id hid)⟩,
      List.pairwise_cons.2 ⟨hafter, hlt⟩⟩

namespace Tree

variable {t : Tree} {text : String} {f : Forest} {id : Nat}

/-- The numbers of the nodes, their parents and children, and the sequence all give one order. -/
structure Enumerated (t : Tree) : Prop where
  descendants_eq : t.descendants root = List.range t.size
  symbols_eq : t.symbols = List.range' 1 (t.size - 1)
  next_eq : ∀ id : Nat, id ∈ t.symbols →
    t.next? id = if id + 1 < t.size then some (id + 1) else none
  prev_eq : ∀ id : Nat, id ∈ t.symbols → t.prev? id = if 1 < id then some (id - 1) else none
  mem_children_iff : ∀ id c, c ∈ t.children id ↔ t.parent? c = some id
  children_lt : ∀ id, (t.children id).toList.Pairwise (· < ·)
  tokens_eq : t.tokens = (List.range t.size).filter t.isTerminal
  next_iff_prev : ∀ a ∈ t.tokens, ∀ b ∈ t.tokens, t.nextToken? a = some b ↔ t.prevToken? b = some a
  token_links : ∀ front k back, t.tokens = front ++ k :: back →
    t.nextToken? k = back.head? ∧ t.prevToken? k = front.getLast? ∧
      t.tokensBack k = k :: front.reverse

theorem Enumerated.mem_tokens_iff (h : t.Enumerated) :
    id ∈ t.tokens ↔ t.isTerminal id ∧ id < t.size := by
  rw [h.tokens_eq, List.mem_filter, List.mem_range, and_comm]

theorem Planted.mem_children_iff (h : t.Planted text f) (id c : Nat) :
    c ∈ t.children id ↔ t.parent? c = some id := by
  refine ⟨h.parent_eq, fun hparent => ?_⟩
  have hlt : c < t.size := Nat.lt_of_not_le fun hle => by
    rw [parent?, node, Arena.node_eq_default hle] at hparent
    contradiction
  have hne : c ≠ root := by
    rintro rfl
    exact Nat.not_lt_zero id (lt_of_parent? hparent)
  obtain ⟨p, hp⟩ := h.exists_parent hlt hne
  obtain rfl := Option.some.inj ((h.parent_eq hp).symm.trans hparent)
  exact hp

theorem Planted.pairwise_children (h : t.Planted text f) (id : NodeId) :
    (t.children id).toList.Pairwise (· < ·) := by
  cases hterminal : t.isTerminal id with
  | true =>
    have hnone : (t.node id).children = none := Option.isNone_iff_eq_none.1 hterminal
    rw [children, Node.childIds, hnone]
    exact .nil
  | false =>
    rcases h.inner_cases hterminal with ⟨rfl, hholds⟩ | ⟨b, -, hholds⟩
    · exact hholds.children_eq ▸ (Forest.pairwise_roots ..).2
    · exact hholds.children_eq ▸ (Forest.pairwise_roots ..).2

theorem Planted.enumerated (h : t.Planted text f) : t.Enumerated := by
  have hsize := h.size_eq
  have hthread : t.thread.size = t.size := t.size_eq
  have hsymbols : t.symbols = List.range' 1 (t.size - 1) := symbols_eq_range' h.straight
  have hroot : t.isTerminal root = false := by
    rw [isTerminal, h.bears.1]
    rfl
  have hlinks : ∀ front k back, t.tokens = front ++ k :: back → _ :=
    fun _ _ _ htokens => token_links h.straight htokens
  constructor
  case descendants_eq =>
    have hall := h.bears.descendants
    rw [Forest.roots, Forest.roots, List.flatMap_singleton] at hall
    rw [hall, hsize, List.range_eq_range']
    rfl
  case symbols_eq => exact hsymbols
  case next_eq =>
    intro id hid
    have hbounds : 1 ≤ id ∧ id < 1 + (t.size - 1) := List.mem_range'_1.1 (hsymbols ▸ hid)
    split
    · exact (h.straight.next_iff id (id + 1)).2 (by omega)
    · refine Option.eq_none_iff_forall_ne_some.2 fun (n : Nat) hn => ?_
      have hn := (h.straight.next_iff id n).1 hn
      omega
  case prev_eq =>
    intro id hid
    have hbounds : 1 ≤ id ∧ id < 1 + (t.size - 1) := List.mem_range'_1.1 (hsymbols ▸ hid)
    split
    · exact (h.straight.prev_iff id (id - 1)).2 (by omega)
    · refine Option.eq_none_iff_forall_ne_some.2 fun (p : Nat) hp => ?_
      have hp := (h.straight.prev_iff id p).1 hp
      omega
  case mem_children_iff => exact h.mem_children_iff
  case children_lt => exact h.pairwise_children
  case tokens_eq =>
    have hrange : List.range t.size = root :: List.range' 1 (t.size - 1) := by
      rw [hsize, List.range_eq_range', List.range'_succ, Nat.add_sub_cancel]
      rfl
    rw [tokens_eq_filter, hsymbols, hrange, List.filter_cons_of_neg (by simp [hroot])]
  case token_links => exact hlinks
  case next_iff_prev =>
    intro a ha b hb
    obtain ⟨front, back, hfront⟩ := List.append_of_mem ha
    obtain ⟨front', back', hfront'⟩ := List.append_of_mem hb
    rw [(hlinks front a back hfront).1, (hlinks front' b back' hfront').2.1]
    constructor
    · intro hhead
      obtain ⟨rest, rfl⟩ := List.head?_eq_some_iff.1 hhead
      have hsplit : t.tokens = (front ++ [a]) ++ b :: rest := by simp [hfront]
      rw [← (hlinks front' b back' hfront').2.1, (hlinks _ b rest hsplit).2.1, List.getLast?_concat]
    · intro hlast
      obtain ⟨rest, rfl⟩ := List.getLast?_eq_some_iff.1 hlast
      have hsplit : t.tokens = rest ++ a :: b :: back' := by simp [hfront']
      rw [← (hlinks front a back hfront).1, (hlinks rest a _ hsplit).1, List.head?_cons]

end Tree

/-! ### Streams -/

/-- A builder that gets through a stream gives a tree, if since the last reset it leaves the scopes
that it enters. What comes before that reset does not matter. -/
theorem enumerated_of_balanced (before es : List Event) (text : String)
    (hreset : ∀ e ∈ es, ∀ text, e ≠ .reset text)
    (hfed : ∃ b, (before ++ .reset text :: es).foldlM Builder.feed .empty = .ok b)
    (hbalanced : Balanced es) :
    ∃ p, Parse.ofEvents? (before ++ .reset text :: es) = .ok p ∧
      Parse.ofEvents? (.reset text :: es) = .ok p ∧ p.text = text ∧ p.tree.Enumerated ∧
      p.diagnostics = es.filterMap report? := by
  obtain ⟨b, hfed⟩ := hfed
  obtain ⟨b₀, hbefore, hfed⟩ := Builder.exists_of_foldlM_append hfed
  have hsince := hfed
  obtain ⟨_, hstarted, hfed⟩ := Builder.exists_of_foldlM_cons hfed
  obtain rfl := Except.ok.inj hstarted
  obtain ⟨f, ds, hdescribes⟩ :=
    hbalanced.unwinds.exists_describes hreset (Builder.holds_start text) hfed
  obtain ⟨p, hp, hplanted, hds⟩ := exists_planted text hdescribes
  have hwhole : Parse.ofEvents? (before ++ .reset text :: es) = .ok p := by
    rw [← hp, Parse.ofEvents?, Parse.ofEvents?, List.foldlM_append, hbefore]
    rfl
  exact ⟨p, hwhole, hp, hplanted.text_eq, hplanted.enumerated, hds.trans hdescribes.diagnostics_eq⟩

/-- Events before the reset are void, a list may end an object, and a production that is no scope
may be left unentered. -/
theorem enumerated_scopes_of_other_kinds :
    ∃ p, Parse.ofEvents? ([.enter .code .zero, .terminal .comma .zero 1] ++ .reset "(a)b" ::
        [.leave .program 0, .enter .object .zero, .terminal .leftParen .zero 1,
          .report ⟨.name, ⟨1, 2⟩, "odd"⟩, .enter .label ⟨1, 0, 1⟩, .terminal .name ⟨1, 0, 1⟩ 2,
          .leave .label 2, .terminal .rightParen ⟨2, 0, 2⟩ 3, .leave .list 3,
          .terminal .name ⟨3, 0, 3⟩ 4, .complete]) = .ok p ∧
      Parse.ofEvents? (.reset "(a)b" ::
        [.leave .program 0, .enter .object .zero, .terminal .leftParen .zero 1,
          .report ⟨.name, ⟨1, 2⟩, "odd"⟩, .enter .label ⟨1, 0, 1⟩, .terminal .name ⟨1, 0, 1⟩ 2,
          .leave .label 2, .terminal .rightParen ⟨2, 0, 2⟩ 3, .leave .list 3,
          .terminal .name ⟨3, 0, 3⟩ 4, .complete]) = .ok p ∧
      p.text = "(a)b" ∧ p.tree.Enumerated ∧ p.diagnostics = [⟨.name, ⟨1, 2⟩, "odd"⟩] :=
  enumerated_of_balanced _ _ _ (by simp) ⟨_, rfl⟩ (by decide)

end MplWorkbench
