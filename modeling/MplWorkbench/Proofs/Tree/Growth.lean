import MplWorkbench.Proofs.Tree.Forest
import MplWorkbench.Tree.Builder

/-! What a builder makes of a stream of events.

`Describes` says that a piece of a stream tells of a forest: a terminal is a
leaf, and what is told between the start and the end of a scope stands inside a
branch. A builder that takes in such a piece puts exactly the nodes of the
forest at the end of its arena, under the node that is open, and nothing else
changes (`Describes.feed`).

`exists_planted`: a stream that announces a text and describes a forest gives the
tree of that forest. -/
namespace MplWorkbench

/-! ### Pieces of a stream -/

/-- The events tell of the forest, and raise the diagnostics. -/
inductive Describes : List Event → Forest → List Diagnostic → Prop where
  | nil : Describes [] .nil []
  | append {es es' : List Event} {f f' : Forest} {ds ds' : List Diagnostic} :
      Describes es f ds → Describes es' f' ds' → Describes (es ++ es') (f ++ f') (ds ++ ds')
  | report (d : Diagnostic) : Describes [.report d] .nil [d]
  | complete : Describes [.complete] .nil []
  | enterPlain {kind : Kind} (start : Position) : kind.isScope = false →
      Describes [.enter kind start] .nil []
  | leavePlain {kind : Kind} (stop : Nat) : kind.isScope = false →
      Describes [.leave kind stop] .nil []
  | terminal (kind : Kind) {start : Position} {stop : Nat} : start.offset ≤ stop →
      Describes [.terminal kind start stop] (.leaf kind start stop .nil) []
  | scope {kind kind' : Kind} {start : Position} {stop : Nat} {es : List Event} {f : Forest}
      {ds : List Diagnostic} : kind.isScope → kind'.isScope → start.offset ≤ stop →
      Describes es f ds →
      Describes (.enter kind start :: es ++ [.leave kind' stop]) (.branch kind start stop f .nil) ds

/-! ### Arenas -/

namespace Forest

theorem roots_append (f g : Forest) (base : Nat) :
    (f ++ g).roots base = f.roots base ++ g.roots (base + f.size) := by
  induction f generalizing base with
  | nil => rfl
  | leaf _ _ _ next ih =>
    have hplace : base + 1 + next.size = base + (next.size + 1) := by omega
    simp only [leaf_append, roots, ih, List.cons_append, size, hplace]
  | branch _ _ _ inside next _ ih =>
    have hplace : base + 1 + inside.size + next.size = base + (inside.size + next.size + 1) := by
      omega
    simp only [branch_append, roots, ih, List.cons_append, size, hplace]

theorem nodes_append (f g : Forest) (parent : Option NodeId) (base : Nat) :
    (f ++ g).nodes parent base = f.nodes parent base ++ g.nodes parent (base + f.size) := by
  induction f generalizing base with
  | nil => rfl
  | leaf _ _ _ next ih =>
    have hplace : base + 1 + next.size = base + (next.size + 1) := by omega
    simp only [leaf_append, nodes, ih, List.cons_append, size, hplace]
  | branch _ _ _ inside next _ ih =>
    have hplace : base + 1 + inside.size + next.size = base + (inside.size + next.size + 1) := by
      omega
    simp only [branch_append, nodes, ih, List.cons_append, List.append_assoc, size, hplace]

end Forest

/-- The node with more children, in order. -/
def Node.adoptAll (n : Node) (ids : List NodeId) : Node :=
  { n with children := n.children.map (· ++ ids.toArray) }

@[simp] theorem Node.adoptAll_nil (n : Node) : n.adoptAll [] = n := by
  cases n with
  | mk _ _ _ _ _ children => cases children <;> simp [adoptAll]

theorem Node.adoptAll_adoptAll (n : Node) (a b : List NodeId) :
    (n.adoptAll a).adoptAll b = n.adoptAll (a ++ b) := by
  cases n with
  | mk _ _ _ _ _ children => cases children <;> simp [adoptAll, Array.append_assoc]

theorem Node.adopt_eq (n : Node) (id : NodeId) : n.adopt id = n.adoptAll [id] := by
  cases n with
  | mk _ _ _ _ _ children => cases children <;> simp [adopt, adoptAll]

theorem modify_middle {α : Type} (front back : List α) (x : α) (f : α → α) :
    (front ++ x :: back).modify front.length f = front ++ f x :: back := by
  induction front with
  | nil => rfl
  | cons y ys ih => simp [ih]

namespace Arena

variable {a : Arena} {front back : List Node} {n : Node}

theorem size_of_toList (h : a.nodes.toList = front ++ n :: back) :
    a.size = front.length + 1 + back.length := by
  have := congrArg List.length h
  simp only [Array.length_toList, List.length_append, List.length_cons] at this
  rw [size, this]
  omega

/-- Where a new node goes: to the end, and into the children of its parent. -/
theorem toList_add (h : a.nodes.toList = front ++ n :: back) (kind : Kind) (start : Position)
    (stop : Nat) (inner : Bool) :
    (a.add kind ⟨start.offset, stop⟩ start (some front.length) inner).nodes.toList =
      front ++ n.adoptAll [a.size] ::
        (back ++ [.of kind start stop (some front.length) (if inner then some [] else none)]) := by
  have hlt : front.length < a.nodes.size := by
    rw [← size, size_of_toList h]
    omega
  have hnew : a.newNode kind ⟨start.offset, stop⟩ start (some front.length) inner =
      .of kind start stop (some front.length) (if inner then some [] else none) := by
    cases inner <;> simp [newNode, Node.of, hlt]
  simp only [add, adoptNext, hnew, Array.toList_push, Array.toList_modify, h, modify_middle,
    Node.adopt_eq, size, List.append_assoc, List.cons_append]

theorem toList_setSpan (h : a.nodes.toList = front ++ n :: back) (span : Span) :
    (a.setSpan front.length span).nodes.toList = front ++ { n with span } :: back := by
  simp only [setSpan, Array.toList_modify, h, modify_middle]

end Arena

/-! ### Builders -/

namespace Builder

/-- A stream that a builder gets through lets it through each of its two parts. -/
theorem exists_of_foldlM_append {es es' : List Event} {b b' : Builder}
    (h : (es ++ es').foldlM feed b = .ok b') :
    ∃ c, es.foldlM feed b = .ok c ∧ es'.foldlM feed c = .ok b' := by
  rw [List.foldlM_append] at h
  cases hfirst : es.foldlM feed b with
  | error => rw [hfirst] at h; contradiction
  | ok c =>
    rw [hfirst] at h
    exact ⟨c, rfl, h⟩

theorem exists_of_foldlM_cons {e : Event} {es : List Event} {b b' : Builder}
    (h : (e :: es).foldlM feed b = .ok b') :
    ∃ c, b.feed e = .ok c ∧ es.foldlM feed c = .ok b' := by
  rw [List.foldlM_cons] at h
  cases hfirst : b.feed e with
  | error => rw [hfirst] at h; contradiction
  | ok c =>
    rw [hfirst] at h
    exact ⟨c, rfl, h⟩

/-- The node `n` is open, inside the open nodes `outer`; in the arena, `front` is before it and
`back` after it. -/
structure Holds (b : Builder) (outer : List NodeId) (front : List Node) (n : Node)
    (back : List Node) : Prop where
  opened_eq : b.opened = front.length :: outer
  toList_eq : b.arena.nodes.toList = front ++ n :: back

/-- From `b` to `b'`, the forest has grown under the open node, and nothing else has changed. -/
structure Grows (b b' : Builder) (outer : List NodeId) (front : List Node) (n : Node)
    (back : List Node) (f : Forest) (ds : List Diagnostic) : Prop where
  holds : b'.Holds outer front (n.adoptAll (f.roots b.arena.size))
    (back ++ f.nodes (some front.length) b.arena.size)
  text_eq : b'.text = b.text
  straight : ∀ first, b.thread.Straight first → b'.thread.Straight first
  diagnostics_eq : b'.diagnostics.toList = b.diagnostics.toList ++ ds

variable {b b' b'' : Builder} {outer : List NodeId} {front back : List Node} {n : Node}
  {f f' : Forest} {ds ds' : List Diagnostic}

theorem holds_start (text : String) : (start text).Holds [] []
    (.of .program .zero (byteSize text.toList) none (some [])) [] := by
  refine ⟨rfl, ?_⟩
  simp [start, Arena.empty, Arena.add, Arena.adoptNext, Arena.newNode, Node.of, Position.zero]

theorem Holds.size_eq (h : b.Holds outer front n back) :
    b.arena.size = front.length + 1 + back.length := Arena.size_of_toList h.toList_eq

theorem Grows.size_eq (h : b.Grows b' outer front n back f ds) (hb : b.Holds outer front n back) :
    b'.arena.size = b.arena.size + f.size := by
  rw [h.holds.size_eq, hb.size_eq, List.length_append, Forest.length_nodes, ← Nat.add_assoc]

theorem Grows.trans (h : b.Grows b' outer front n back f ds) (hb : b.Holds outer front n back)
    (h' : b'.Grows b'' outer front (n.adoptAll (f.roots b.arena.size))
      (back ++ f.nodes (some front.length) b.arena.size) f' ds') :
    b.Grows b'' outer front n back (f ++ f') (ds ++ ds') where
  holds := by
    rw [Forest.roots_append, Forest.nodes_append, ← Node.adoptAll_adoptAll, ← List.append_assoc,
      ← h.size_eq hb]
    exact h'.holds
  text_eq := h'.text_eq.trans h.text_eq
  straight first hb := h'.straight first (h.straight first hb)
  diagnostics_eq := by rw [h'.diagnostics_eq, h.diagnostics_eq, List.append_assoc]

/-- What leaves the nodes alone grows nothing. -/
theorem Holds.grows_nil (hb : b.Holds outer front n back) (hopened : b'.opened = b.opened)
    (harena : b'.arena = b.arena) (htext : b'.text = b.text) (hthread : b'.thread = b.thread)
    (hds : b'.diagnostics.toList = b.diagnostics.toList ++ ds) :
    b.Grows b' outer front n back .nil ds where
  holds := by
    rw [Forest.roots, Forest.nodes, Node.adoptAll_nil, List.append_nil]
    exact ⟨hopened.trans hb.opened_eq, harena ▸ hb.toList_eq⟩
  text_eq := htext
  straight _ hb := hthread ▸ hb
  diagnostics_eq := hds

/-- What the open node takes in comes to the end of the arena. -/
theorem Holds.toList_add (hb : b.Holds outer front n back) (kind : Kind) (start : Position)
    (stop : Nat) (inner : Bool) : (b.add kind start stop inner).arena.nodes.toList =
      front ++ n.adoptAll [b.arena.size] ::
        (back ++ [.of kind start stop (some front.length) (if inner then some [] else none)]) := by
  rw [arena_add, hb.opened_eq, List.head?_cons]
  exact Arena.toList_add hb.toList_eq kind start stop inner

theorem Holds.terminal (hb : b.Holds outer front n back) (kind : Kind) {start : Position}
    {stop : Nat} (h : start.offset ≤ stop) :
    ∃ b', b.terminal kind start stop = .ok b' ∧
      b.Grows b' outer front n back (.leaf kind start stop .nil) [] :=
  ⟨b.add kind start stop false, if_pos h,
    ⟨hb.opened_eq, hb.toList_add kind start stop false⟩, rfl, fun _ hthread => hthread.join,
    (List.append_nil _).symm⟩

/-- A node that is taken in has the next place, behind all others. -/
theorem Holds.length_eq (hb : b.Holds outer front n back) :
    (front ++ n.adoptAll [b.arena.size] :: back).length = b.arena.size := by
  rw [hb.size_eq, List.length_append, List.length_cons]
  omega

/-- A new scope is open, and nothing is in it yet. -/
theorem Holds.enter (hb : b.Holds outer front n back) (kind : Kind) (start : Position) :
    (b.enter kind start).Holds (front.length :: outer)
      (front ++ n.adoptAll [b.arena.size] :: back)
      (.of kind start start.offset (some front.length) (some [])) [] := by
  refine ⟨?_, ?_⟩
  · rw [hb.length_eq, Builder.enter, hb.opened_eq]
  · rw [Builder.enter, hb.toList_add kind start start.offset true]
    simp

section Leave

variable {kind : Kind} {start : Position} (hb : b.Holds outer front n back)
  (hinside : (b.enter kind start).Grows b' (front.length :: outer)
    (front ++ n.adoptAll [b.arena.size] :: back)
    (.of kind start start.offset (some front.length) (some [])) [] f ds)
include hb hinside

theorem Holds.start_eq : (b'.arena.node b.arena.size).span.start = start.offset := by
  have hnode := Arena.node_of_toList hinside.holds.toList_eq
  rw [hb.length_eq] at hnode
  rw [hnode]
  rfl

/-- A scope ends unless that were before its start. -/
theorem Holds.leave_eq (stop : Nat) : b'.leave stop =
    if start.offset ≤ stop then .ok (b'.close b.arena.size (front.length :: outer) stop)
    else .error (.backwards ⟨start.offset, stop⟩) := by
  have hopened := hinside.holds.opened_eq
  rw [hb.length_eq] at hopened
  simp only [Builder.leave, hopened, hb.start_eq hinside]

/-- A scope that ends is a branch, with the forest that has grown in it. -/
theorem Holds.grows_close (stop : Nat) :
    b.Grows (b'.close b.arena.size (front.length :: outer) stop) outer front n back
      (.branch kind start stop f .nil) ds := by
  have hsize : (b.enter kind start).arena.size = b.arena.size + 1 := by
    rw [(hb.enter kind start).size_eq, hb.length_eq, List.length_nil, Nat.add_zero]
  have hset := Arena.toList_setSpan hinside.holds.toList_eq ⟨start.offset, stop⟩
  rw [hb.length_eq] at hset
  refine ⟨⟨rfl, ?_⟩, hinside.text_eq, fun first hthread => hinside.straight first hthread.join,
    hinside.diagnostics_eq⟩
  rw [arena_close, hb.start_eq hinside, hset, hsize]
  simp [Forest.roots, Forest.nodes, Node.adoptAll, Node.of]

end Leave

end Builder

/-- A builder that takes in a piece of a stream grows the forest of that piece. -/
theorem Describes.feed {es : List Event} {f : Forest} {ds : List Diagnostic}
    (h : Describes es f ds) {b : Builder} {outer : List NodeId} {front back : List Node} {n : Node}
    (hb : b.Holds outer front n back) :
    ∃ b', es.foldlM Builder.feed b = .ok b' ∧ b.Grows b' outer front n back f ds := by
  induction h generalizing b outer front back n with
  | nil => exact ⟨b, rfl, hb.grows_nil rfl rfl rfl rfl (List.append_nil _).symm⟩
  | append _ _ ih ih' =>
    obtain ⟨b₁, hfed, hgrows⟩ := ih hb
    obtain ⟨b₂, hfed', hgrows'⟩ := ih' hgrows.holds
    exact ⟨b₂, by rw [List.foldlM_append, hfed]; exact hfed', hgrows.trans hb hgrows'⟩
  | report d =>
    exact ⟨{ b with diagnostics := b.diagnostics.push d }, rfl,
      hb.grows_nil rfl rfl rfl rfl Array.toList_push⟩
  | complete => exact ⟨b, rfl, hb.grows_nil rfl rfl rfl rfl (List.append_nil _).symm⟩
  | enterPlain start hkind =>
    refine ⟨b, ?_, hb.grows_nil rfl rfl rfl rfl (List.append_nil _).symm⟩
    rw [List.foldlM_cons, Builder.feed, hkind]
    rfl
  | leavePlain stop hkind =>
    refine ⟨b, ?_, hb.grows_nil rfl rfl rfl rfl (List.append_nil _).symm⟩
    rw [List.foldlM_cons, Builder.feed, hkind]
    rfl
  | terminal kind hle =>
    obtain ⟨b', hfed, hgrows⟩ := hb.terminal kind hle
    exact ⟨b', by rw [List.foldlM_cons, Builder.feed, hfed]; rfl, hgrows⟩
  | @scope kind kind' start stop es f ds hkind hkind' hle _ ih =>
    obtain ⟨b₁, hfed, hgrows⟩ := ih (hb.enter kind start)
    have hleft := hb.leave_eq hgrows stop
    rw [if_pos hle] at hleft
    refine ⟨_, ?_, hb.grows_close hgrows stop⟩
    have hentered : b.feed (.enter kind start) = .ok (b.enter kind start) := by
      rw [Builder.feed, hkind]; rfl
    have hended : b₁.feed (Event.leave kind' stop) =
        .ok (b₁.close b.arena.size (front.length :: outer) stop) := by
      rw [Builder.feed, hkind', ← hleft]; rfl
    have htail : (es ++ [Event.leave kind' stop]).foldlM Builder.feed (b.enter kind start) =
        .ok (b₁.close b.arena.size (front.length :: outer) stop) := by
      rw [List.foldlM_append, hfed]
      show [Event.leave kind' stop].foldlM Builder.feed b₁ = _
      rw [List.foldlM_cons, hended]
      rfl
    rw [List.cons_append, List.foldlM_cons, hentered]
    exact htail

/-- A stream that announces a text and describes a forest gives a tree, that of the forest. -/
theorem exists_planted (text : String) {es : List Event} {f : Forest} {ds : List Diagnostic}
    (h : Describes es f ds) :
    ∃ p, Parse.ofEvents? (.reset text :: es) = .ok p ∧ p.tree.Planted text f ∧
      p.diagnostics = ds := by
  have hstart := Builder.holds_start text
  obtain ⟨b, hfed, hholds, htext, hstraight, hds⟩ := h.feed hstart
  have hsize : (Builder.start text).arena.size = 1 := hstart.size_eq
  have hsize' : b.arena.size ≠ 0 := by
    rw [hholds.size_eq]
    omega
  have hfinish : Parse.ofEvents? (.reset text :: es) =
      .ok ⟨⟨b.text, b.arena, b.thread, b.size_eq⟩, b.diagnostics.toList⟩ := by
    have hfold : (Event.reset text :: es).foldlM Builder.feed Builder.empty = .ok b := hfed
    simp [Parse.ofEvents?, hfold, Builder.finish, hsize', hholds.opened_eq, bind, Except.bind]
  refine ⟨_, hfinish, ⟨htext, hstraight 1 Thread.straight_pass, ?_⟩,
    by simpa [Builder.start] using hds⟩
  rw [hholds.toList_eq, hsize]
  simp [Forest.nodes, Node.adoptAll, Node.of, Tree.root]

theorem planted_of_describes {text : String} {es : List Event} {f : Forest} {ds : List Diagnostic}
    (h : Describes es f ds) {p : Parse} (hp : Parse.ofEvents? (.reset text :: es) = .ok p) :
    p.tree.Planted text f ∧ p.diagnostics = ds := by
  obtain ⟨p', hp', hplanted⟩ := exists_planted text h
  obtain rfl := Except.ok.inj (hp.symm.trans hp')
  exact hplanted

end MplWorkbench
