import MplWorkbench.Block
import MplWorkbench.Proofs.Tree.Forest

/-! How the nodes of a tree lie.

The children of a node lie inside its span, one behind the other. A scope begins
with its opening delimiter, and either ends with its closing one or, with every
scope around it, at the end of the text. All of that is told by what a node sees
of its children, their faces, so that it can be said of a forest (`Forest.Spread`,
`Forest.Frames`) and read off the arena.

`Planted.framed`: a tree lies as its forest does. -/
namespace MplWorkbench

namespace Forest

/-! ### Faces -/

/-- What the node around it sees of a node. -/
structure Face where
  kind : Kind
  span : Span
  /-- Is it a scope that nothing closes? -/
  unclosed : Bool
deriving DecidableEq

/-- The faces of the nodes side by side. -/
def faces : Forest → List Face
  | nil => []
  | leaf kind start stop next => ⟨kind, ⟨start.offset, stop⟩, false⟩ :: next.faces
  | branch kind start stop inside next =>
    ⟨kind, ⟨start.offset, stop⟩, isUnclosed kind inside⟩ :: next.faces

@[simp] theorem faces_append (f g : Forest) : (f ++ g).faces = f.faces ++ g.faces := by
  induction f with
  | nil => rfl
  | leaf _ _ _ _ ih => simp only [leaf_append, faces, ih, List.cons_append]
  | branch _ _ _ _ _ _ ih => simp only [branch_append, faces, ih, List.cons_append]

theorem kinds_eq (f : Forest) : f.kinds = f.faces.map (·.kind) := by
  induction f with
  | nil => rfl
  | leaf _ _ _ _ ih => rw [kinds, faces, List.map_cons, ih]
  | branch _ _ _ _ _ _ ih => rw [kinds, faces, List.map_cons, ih]

/-! ### Places -/

/-- From one offset to another the nodes lie behind each other, and so does what is inside them. -/
def Spread (first last : Nat) : Forest → Prop
  | nil => first ≤ last
  | leaf _ start stop next => first ≤ start.offset ∧ start.offset ≤ stop ∧ next.Spread stop last
  | branch _ start stop inside next =>
    first ≤ start.offset ∧ inside.Spread start.offset stop ∧ next.Spread stop last

section Spread

variable {first mid last : Nat} {f g : Forest}

theorem Spread.le (h : f.Spread first last) : first ≤ last := by
  induction f generalizing first last with
  | nil => exact h
  | leaf _ _ _ _ ih => exact Nat.le_trans h.1 (Nat.le_trans h.2.1 (ih h.2.2))
  | branch _ _ _ _ _ ihi ihn =>
    exact Nat.le_trans h.1 (Nat.le_trans (ihi h.2.1) (ihn h.2.2))

theorem Spread.of_le (h : f.Spread mid last) (hle : first ≤ mid) : f.Spread first last := by
  cases f with
  | nil => exact Nat.le_trans hle h
  | leaf => exact ⟨Nat.le_trans hle h.1, h.2⟩
  | branch => exact ⟨Nat.le_trans hle h.1, h.2⟩

theorem Spread.append (hf : f.Spread first mid) (hg : g.Spread mid last) :
    (f ++ g).Spread first last := by
  induction f generalizing first with
  | nil => exact hg.of_le hf
  | leaf _ _ _ _ ih => exact ⟨hf.1, hf.2.1, ih hf.2.2⟩
  | branch _ _ _ _ _ _ ih => exact ⟨hf.1, hf.2.1, ih hf.2.2⟩

theorem spread_leaf (kind : Kind) (start : Position) {stop : Nat} (hle : start.offset ≤ stop) :
    (leaf kind start stop nil).Spread start.offset stop :=
  ⟨Nat.le_refl _, hle, Nat.le_refl _⟩

/-- The faces lie in between, each the right way round. -/
theorem Spread.between (h : f.Spread first last) : ∀ a ∈ f.faces,
    first ≤ a.span.start ∧ a.span.start ≤ a.span.stop ∧ a.span.stop ≤ last := by
  induction f generalizing first with
  | nil => simp [faces]
  | leaf _ _ _ _ ih =>
    obtain ⟨hfirst, hle, hnext⟩ := h
    refine List.forall_mem_cons.2 ⟨⟨hfirst, hle, hnext.le⟩, fun a ha => ?_⟩
    obtain ⟨hstart, hrest⟩ := ih hnext a ha
    exact ⟨Nat.le_trans hfirst (Nat.le_trans hle hstart), hrest⟩
  | branch _ _ _ _ _ _ ih =>
    obtain ⟨hfirst, hinside, hnext⟩ := h
    refine List.forall_mem_cons.2 ⟨⟨hfirst, hinside.le, hnext.le⟩, fun a ha => ?_⟩
    obtain ⟨hstart, hrest⟩ := ih hnext a ha
    exact ⟨Nat.le_trans hfirst (Nat.le_trans hinside.le hstart), hrest⟩

theorem Spread.pairwise (h : f.Spread first last) :
    f.faces.Pairwise fun a b => a.span.stop ≤ b.span.start := by
  induction f generalizing first with
  | nil => exact .nil
  | leaf _ _ _ _ ih => exact .cons (fun b hb => (h.2.2.between b hb).1) (ih h.2.2)
  | branch _ _ _ _ _ _ ih => exact .cons (fun b hb => (h.2.2.between b hb).1) (ih h.2.2)

end Spread

/-! ### Scopes -/

/-- Neither an opening nor a closing delimiter is of this kind. -/
def isPlain (kind : Kind) : Bool := !kind.opensScope && !kind.closesScope

/-- What stands in front of the body of a block that begins at `start`. -/
inductive Heads (start : Nat) (block : Block) : List Face → Prop where
  | bracket {stop : Nat} : block.production ≠ .label →
      Heads start block [⟨block.opener, ⟨start, stop⟩, false⟩]
  | label {mid stop : Nat} : block.production = .label →
      Heads start block [⟨.name, ⟨start, mid⟩, false⟩, ⟨block.opener, ⟨mid, stop⟩, false⟩]

/-- The faces of what is inside a block, in a text of so many bytes. -/
inductive Frames (size : Nat) (block : Block) (span : Span) : List Face → Prop where
  | closed {head body : List Face} {closer : Nat} : Heads span.start block head →
      (∀ a ∈ body, isPlain a.kind) → (∀ a ∈ body, a.unclosed = false) →
      Frames size block span (head ++ (body ++ [⟨block.closer, ⟨closer, span.stop⟩, false⟩]))
  | unclosed {head body : List Face} : Heads span.start block head →
      (∀ a ∈ body, isPlain a.kind) → (∀ a ∈ body.dropLast, a.unclosed = false) →
      span.stop = size → Frames size block span (head ++ body)

/-- A node with what is inside it. -/
structure Branch where
  kind : Kind
  start : Position
  stop : Nat
  inside : Forest

namespace Branch

def span (b : Branch) : Span := ⟨b.start.offset, b.stop⟩

end Branch

/-- The inner nodes, in order. -/
def branches : Forest → List Branch
  | nil => []
  | leaf _ _ _ next => next.branches
  | branch kind start stop inside next =>
    ⟨kind, start, stop, inside⟩ :: (inside.branches ++ next.branches)

@[simp] theorem branches_append (f g : Forest) :
    (f ++ g).branches = f.branches ++ g.branches := by
  induction f with
  | nil => rfl
  | leaf _ _ _ _ ih => exact ih
  | branch _ _ _ _ _ _ ih =>
    simp only [branch_append, branches, ih, List.cons_append, List.append_assoc]

theorem Spread.inside {first last : Nat} {f : Forest} (h : f.Spread first last) :
    ∀ b ∈ f.branches, b.inside.Spread b.start.offset b.stop := by
  induction f generalizing first last with
  | nil => simp [branches]
  | leaf _ _ _ _ ih => exact ih h.2.2
  | branch _ _ _ _ _ ihi ihn =>
    refine List.forall_mem_cons.2 ⟨h.2.1, fun b hb => ?_⟩
    rcases List.mem_append.1 hb with hb | hb
    · exact ihi h.2.1 b hb
    · exact ihn h.2.2 b hb

/-- Each scope is the frame of a block. -/
def Framed (size : Nat) (f : Forest) : Prop :=
  ∀ b ∈ f.branches, ∃ block : Block, b.kind = block.production ∧
    Frames size block b.span b.inside.faces

/-- Of the nodes side by side, only the last may be unclosed. -/
def Settled (as : List Face) : Prop := ∀ a ∈ as.dropLast, a.unclosed = false

theorem settled_of_forall {as : List Face} (h : ∀ a ∈ as, a.unclosed = false) : Settled as :=
  fun a ha => h a (List.dropLast_subset as ha)

theorem Settled.append {as bs : List Face} (has : ∀ a ∈ as, a.unclosed = false)
    (hbs : Settled bs) : Settled (as ++ bs) := by
  cases bs with
  | nil =>
    rw [List.append_nil]
    exact settled_of_forall has
  | cons b bs =>
    intro a ha
    rw [List.dropLast_append_of_ne_nil (List.cons_ne_nil b bs)] at ha
    exact (List.mem_append.1 ha).elim (has a) (hbs a)

theorem Settled.cons {a : Face} {as : List Face} (ha : a.unclosed = false) (has : Settled as) :
    Settled (a :: as) :=
  has.append (List.forall_mem_singleton.2 ha)

/-- Nothing stands behind what is unclosed. -/
theorem Settled.eq_nil {as bs : List Face} {a : Face} (h : Settled (as ++ a :: bs))
    (ha : a.unclosed = true) : bs = [] := by
  cases bs with
  | nil => rfl
  | cons b bs =>
    refine absurd ha (Bool.eq_false_iff.1 (h a ?_))
    rw [List.dropLast_append_of_ne_nil (List.cons_ne_nil a _)]
    exact List.mem_append_right _ List.mem_cons_self

/-- How the nodes of a text of so many bytes lie, in front of its end. -/
structure Laid (size : Nat) (f : Forest) : Prop where
  spread : f.Spread 0 size
  plain : ∀ a ∈ f.faces, isPlain a.kind
  settled : Settled f.faces
  framed : f.Framed size

/-! ### Frames -/

section Frames

variable {size i : Nat} {block : Block} {span : Span} {as : List Face} {a : Face}

theorem Heads.unclosed_eq {start : Nat} (h : Heads start block as) :
    ∀ a ∈ as, a.unclosed = false := by
  cases h <;> simp

theorem Heads.closesScope_eq {start : Nat} (h : Heads start block as) :
    ∀ a ∈ as, a.kind.closesScope = false := by
  have hname : Kind.name.closesScope = false := rfl
  have hopener : block.opener.closesScope = false := by cases block <;> rfl
  cases h <;> simp [hname, hopener]

/-- The opening delimiter comes first, or right behind the name of a label. -/
theorem Heads.place {start : Nat} (h : Heads start block as) (hi : as[i]? = some a)
    (ha : a.kind.opensScope) : i = if block.production = .label then 1 else 0 := by
  cases h with
  | bracket hblock =>
    obtain ⟨hlt, -⟩ := List.getElem?_eq_some_iff.1 hi
    rw [if_neg hblock]
    exact Nat.lt_one_iff.1 hlt
  | label hblock =>
    rw [if_pos hblock]
    match i with
    | 0 =>
      obtain rfl := Option.some.inj hi
      contradiction
    | 1 => rfl

theorem Heads.ne_nil {start : Nat} (h : Heads start block as) : as ≠ [] := by
  cases h <;> exact List.cons_ne_nil _ _

theorem Frames.ne_nil (h : Frames size block span as) : as ≠ [] := by
  cases h with
  | closed hhead => exact fun heq => hhead.ne_nil (List.append_eq_nil_iff.1 heq).1
  | unclosed hhead => exact fun heq => hhead.ne_nil (List.append_eq_nil_iff.1 heq).1

theorem Frames.settled (h : Frames size block span as) : Settled as := by
  cases h with
  | closed hhead _ hbody =>
    refine settled_of_forall fun a ha => ?_
    rcases List.mem_append.1 ha with ha | ha
    · exact hhead.unclosed_eq a ha
    rcases List.mem_append.1 ha with ha | ha
    · exact hbody a ha
    · rw [List.mem_singleton.1 ha]
  | unclosed hhead _ hbody => exact .append hhead.unclosed_eq hbody

/-- Nothing closes a block in front of its body, or in the body. -/
theorem Heads.open_end {start : Nat} {body : List Face} (h : Heads start block as)
    (hbody : ∀ a ∈ body, isPlain a.kind) : ∀ a ∈ as ++ body, a.kind.closesScope = false := by
  intro a ha
  rcases List.mem_append.1 ha with ha | ha
  · exact h.closesScope_eq a ha
  · have hplain := hbody a ha
    simp only [isPlain, Bool.and_eq_true, Bool.not_eq_true'] at hplain
    exact hplain.2

/-- A frame with something unclosed in it is not closed itself. -/
theorem Frames.open_end (h : Frames size block span as) (ha : a ∈ as) (hopen : a.unclosed = true) :
    ∀ b ∈ as, b.kind.closesScope = false := by
  cases h with
  | closed hhead _ hbody =>
    exfalso
    rcases List.mem_append.1 ha with ha | ha
    · exact Bool.eq_false_iff.1 (hhead.unclosed_eq a ha) hopen
    rcases List.mem_append.1 ha with ha | ha
    · exact Bool.eq_false_iff.1 (hbody a ha) hopen
    · rw [List.mem_singleton.1 ha] at hopen
      contradiction
  | unclosed hhead hbody => exact hhead.open_end hbody

theorem not_mem_of_isPlain (has : ∀ a ∈ as, isPlain a.kind) (ha : a.kind.opensScope) :
    a ∉ as := by
  intro hmem
  have hplain := has a hmem
  rw [isPlain, ha] at hplain
  contradiction

theorem Frames.opener_place (h : Frames size block span as) (hi : as[i]? = some a)
    (ha : a.kind.opensScope) : i = if block.production = .label then 1 else 0 := by
  have hcloser : a.kind ≠ block.closer := by
    rintro heq
    rw [heq] at ha
    cases block <;> contradiction
  have inHead {head back : List Face} (hhead : Heads span.start block head)
      (hi : (head ++ back)[i]? = some a) (hback : a ∉ back) :
      i = if block.production = .label then 1 else 0 := by
    by_cases hlt : i < head.length
    · rw [List.getElem?_append_left hlt] at hi
      exact hhead.place hi ha
    · rw [List.getElem?_append_right (Nat.le_of_not_lt hlt)] at hi
      exact absurd (List.mem_of_getElem? hi) hback
  cases h with
  | closed hhead hbody =>
    refine inHead hhead hi fun hmem => ?_
    rcases List.mem_append.1 hmem with hmem | hmem
    · exact not_mem_of_isPlain hbody ha hmem
    · exact hcloser (by rw [List.mem_singleton.1 hmem])
  | unclosed hhead hbody => exact inHead hhead hi (not_mem_of_isPlain hbody ha)

theorem Frames.closer_place (h : Frames size block span as) (hi : as[i]? = some a)
    (ha : a.kind.closesScope) : i + 1 = as.length := by
  have front {head body : List Face} (hhead : Heads span.start block head)
      (hbody : ∀ a ∈ body, isPlain a.kind) : a ∉ head ++ body :=
    fun hmem => Bool.eq_false_iff.1 (hhead.open_end hbody a hmem) ha
  cases h with
  | @closed head body closer hhead hbody =>
    rw [← List.append_assoc] at hi ⊢
    by_cases hlt : i < (head ++ body).length
    · rw [List.getElem?_append_left hlt] at hi
      exact absurd (List.mem_of_getElem? hi) (front hhead hbody)
    · obtain ⟨hle, -⟩ := List.getElem?_eq_some_iff.1 hi
      rw [List.length_append, List.length_singleton] at hle ⊢
      omega
  | unclosed hhead hbody => exact absurd (List.mem_of_getElem? hi) (front hhead hbody)

end Frames

end Forest

/-! ### Nodes of a tree -/

namespace Tree

open Forest

/-- What the node around it sees of a node. -/
def face (t : Tree) (id : NodeId) : Face := ⟨t.kind id, t.span id, t.isUnclosed id⟩

/-- The scope begins with the opening delimiter of the block; a label, with its name and then the
colon. -/
def Opens (t : Tree) (id : NodeId) (block : Block) : Prop :=
  if block.production = .label then
    ∃ name colon rest, (t.children id).toList = name :: colon :: rest ∧
      t.kind name = .name ∧ t.start name = t.start id ∧
      t.kind colon = block.opener ∧ t.start colon = t.stop name
  else
    ∃ opener rest, (t.children id).toList = opener :: rest ∧
      t.kind opener = block.opener ∧ t.start opener = t.start id

/-- The scope ends with the closing delimiter of the block. -/
def Closes (t : Tree) (id : NodeId) (block : Block) : Prop :=
  ∃ front closer, (t.children id).toList = front ++ [closer] ∧
    t.kind closer = block.closer ∧ t.stop closer = t.stop id

/-- The text of so many bytes ends in the scope, and in every scope around it. -/
structure TrailsOff (t : Tree) (id : NodeId) (size : Nat) : Prop where
  open_end : ∀ c ∈ t.children id, (t.kind c).closesScope = false
  stop_eq : t.stop id = size
  around : ∃ p front rest, (t.children p).toList = front ++ id :: rest ∧
    (∀ c ∈ rest, t.kind c = .eof) ∧ (p = root ∨ t.isUnclosed p)

/-- How the nodes of the tree of a text of so many bytes lie. -/
structure Framed (t : Tree) (size : Nat) : Prop where
  root_kind : t.kind root = .program
  root_span : t.span root = ⟨0, size⟩
  root_last : (t.lastChild? root).map t.kind = some .eof
  isScope_of_inner : ∀ id < t.size, id ≠ root → t.isTerminal id = false →
    t.isScope id ∧ t.children id ≠ #[]
  /-- Every node is found below the root. -/
  mem_children : ∀ id < t.size, id ≠ root → ∃ p, id ∈ t.children p
  parent_eq : ∀ id, ∀ c ∈ t.children id, t.parent? c = some id
  within : ∀ id, ∀ c ∈ t.children id,
    t.start id ≤ t.start c ∧ t.start c ≤ t.stop c ∧ t.stop c ≤ t.stop id
  siblings : ∀ id, (t.children id).toList.Pairwise fun a b => t.stop a ≤ t.start b
  scope : ∀ id, t.isScope id → ∃ block : Block, t.kind id = block.production ∧
    t.Opens id block ∧ (t.Closes id block ∨ t.TrailsOff id size)
  /-- No other children are delimiters of blocks. -/
  opener_place : ∀ id i c, (t.children id)[i]? = some c → (t.kind c).opensScope →
    t.isScope id ∧ i = if t.kind id = .label then 1 else 0
  closer_place : ∀ id i c, (t.children id)[i]? = some c → (t.kind c).closesScope →
    t.isScope id ∧ i + 1 = (t.children id).size

variable {t : Tree} {text : String} {f : Forest} {parent : Option NodeId} {base id : Nat}

/-! ### From the forest to the tree -/

theorem isUnclosed_of_isTerminal (h : t.isTerminal id) : t.isUnclosed id = false := by
  rw [isUnclosed, isScope, h]
  rfl

theorem Bears.faces (h : t.Bears parent base f) : (f.roots base).map t.face = f.faces := by
  induction f generalizing parent base with
  | nil => rfl
  | leaf kind start stop next ih =>
    obtain ⟨hnode, hnext⟩ := h
    have hleaf : t.isTerminal base := by rw [isTerminal, hnode]; rfl
    rw [Forest.roots, List.map_cons, ih hnext, face, isUnclosed_of_isTerminal hleaf, Tree.kind,
      span, hnode]
    rfl
  | branch kind start stop inside next _ ih =>
    obtain ⟨hnode, hinside, hnext⟩ := h
    rw [Forest.roots, List.map_cons, ih hnext, face, isUnclosed_of_branch hnode hinside, Tree.kind,
      span, hnode]
    rfl

theorem Bears.parent_of_mem_roots (h : t.Bears parent base f) :
    ∀ c ∈ f.roots base, t.parent? c = parent := by
  induction f generalizing base with
  | nil => simp [Forest.roots]
  | leaf kind start stop next ih =>
    obtain ⟨hnode, hnext⟩ := h
    exact List.forall_mem_cons.2 ⟨by rw [parent?, hnode]; rfl, ih hnext⟩
  | branch kind start stop inside next _ ih =>
    obtain ⟨hnode, -, hnext⟩ := h
    exact List.forall_mem_cons.2 ⟨by rw [parent?, hnode]; rfl, ih hnext⟩

/-- A node of the forest stands side by side with the first, or inside another node. -/
theorem Bears.mem_roots_or (h : t.Bears parent base f) (hle : base ≤ id)
    (hlt : id < base + f.size) : id ∈ f.roots base ∨ ∃ p, id ∈ t.children p := by
  induction f generalizing parent base with
  | nil => exact absurd hlt (Nat.not_lt.2 hle)
  | leaf kind start stop next ih =>
    rcases Nat.eq_or_lt_of_le hle with rfl | hle
    · exact .inl List.mem_cons_self
    · refine (ih h.2 hle ?_).imp_left (List.mem_cons_of_mem _)
      rw [Forest.size] at hlt
      omega
  | branch kind start stop inside next ihi ihn =>
    obtain ⟨hnode, hinside, hnext⟩ := h
    rw [Forest.size] at hlt
    rcases Nat.eq_or_lt_of_le hle with rfl | hle
    · exact .inl List.mem_cons_self
    by_cases hid : id < base + 1 + inside.size
    · rcases ihi hinside hle hid with hroot | hchild
      · refine .inr ⟨base, ?_⟩
        rw [children, hnode]
        exact List.mem_toArray.2 hroot
      · exact .inr hchild
    · exact (ihn hnext (Nat.le_of_not_lt hid) (by omega)).imp_left (List.mem_cons_of_mem _)

/-- The arena holds the branch at this node, with what is inside right behind it. -/
structure Holds (t : Tree) (id : NodeId) (b : Branch) : Prop where
  node_eq : ∃ parent, t.node id =
    .of b.kind b.start b.stop parent (some (b.inside.roots (id + 1)))
  bears : t.Bears (some id) (id + 1) b.inside

/-- An inner node of the arena is a branch of the forest. -/
theorem Bears.exists_holds (h : t.Bears parent base f) (hle : base ≤ id)
    (hlt : id < base + f.size) (hinner : t.isTerminal id = false) :
    ∃ b ∈ f.branches, t.Holds id b := by
  induction f generalizing parent base with
  | nil => exact absurd hlt (Nat.not_lt.2 hle)
  | leaf kind start stop next ih =>
    obtain ⟨hnode, hnext⟩ := h
    rw [Forest.size] at hlt
    rcases Nat.eq_or_lt_of_le hle with rfl | hle
    · rw [isTerminal, hnode] at hinner
      contradiction
    · exact ih hnext hle (by omega)
  | branch kind start stop inside next ihi ihn =>
    obtain ⟨hnode, hinside, hnext⟩ := h
    rw [Forest.size] at hlt
    rcases Nat.eq_or_lt_of_le hle with rfl | hle
    · exact ⟨⟨kind, start, stop, inside⟩, List.mem_cons_self, ⟨parent, hnode⟩, hinside⟩
    by_cases hid : id < base + 1 + inside.size
    · obtain ⟨b, hb, hholds⟩ := ihi hinside hle hid
      exact ⟨b, List.mem_cons_of_mem _ (List.mem_append_left _ hb), hholds⟩
    · obtain ⟨b, hb, hholds⟩ := ihn hnext (Nat.le_of_not_lt hid) (by omega)
      exact ⟨b, List.mem_cons_of_mem _ (List.mem_append_right _ hb), hholds⟩

section Holds

variable {b : Branch}

theorem Holds.kind_eq (h : t.Holds id b) : t.kind id = b.kind := by
  obtain ⟨⟨_, hnode⟩, -⟩ := h
  rw [Tree.kind, hnode]
  rfl

theorem Holds.span_eq (h : t.Holds id b) : t.span id = b.span := by
  obtain ⟨⟨_, hnode⟩, -⟩ := h
  rw [Tree.span, hnode]
  rfl

theorem Holds.children_eq (h : t.Holds id b) : (t.children id).toList = b.inside.roots (id + 1) := by
  obtain ⟨⟨_, hnode⟩, -⟩ := h
  rw [children, hnode]
  rfl

theorem Holds.faces_eq (h : t.Holds id b) : (t.children id).toList.map t.face = b.inside.faces := by
  rw [h.children_eq]
  exact h.bears.faces

theorem Holds.parent_eq (h : t.Holds id b) : ∀ c ∈ t.children id, t.parent? c = some id := by
  intro c hc
  rw [← Array.mem_toList_iff, h.children_eq] at hc
  exact h.bears.parent_of_mem_roots c hc

/-- What holds of the faces inside the branch holds of the children of the node. -/
theorem Holds.forall_face (h : t.Holds id b) {p : Face → Prop} (hp : ∀ a ∈ b.inside.faces, p a) :
    ∀ c ∈ t.children id, p (t.face c) := by
  intro c hc
  refine hp _ ?_
  rw [← h.faces_eq]
  exact List.mem_map_of_mem (Array.mem_toList_iff.2 hc)

end Holds

theorem lt_size_of_inner (h : t.isTerminal id = false) : id < t.size := by
  refine Nat.lt_of_not_le fun hle => ?_
  have hnode : t.node id = default := by
    rw [Tree.node, Arena.node, Array.getD_eq_getD_getElem?, Array.getElem?_eq_none hle]
    rfl
  rw [isTerminal, hnode] at h
  contradiction

theorem inner_of_mem_children {c : NodeId} (h : c ∈ t.children id) : t.isTerminal id = false := by
  rw [children, Node.childIds] at h
  rw [isTerminal, Node.isTerminal]
  cases hchildren : (t.node id).children with
  | none => simp [hchildren] at h
  | some ids => rfl

theorem inner_of_isScope (h : t.isScope id) : t.isTerminal id = false :=
  by simpa using (Bool.and_eq_true_iff.1 h).1

/-- A scope none of whose children closes it is unclosed. -/
theorem isUnclosed_of_forall (hscope : t.isScope id)
    (h : ∀ c ∈ t.children id, (t.kind c).closesScope = false) : t.isUnclosed id := by
  have hlast : ((t.lastChild? id).any fun last => (t.kind last).closesScope) = false := by
    rw [Bool.eq_false_iff]
    intro hany
    obtain ⟨last, hlast, hcloses⟩ := (Option.any_eq_true _ _).1 hany
    exact Bool.eq_false_iff.1 (h last (Array.mem_of_back? hlast)) hcloses
  rw [isUnclosed, isClosed, hlast, hscope]
  rfl

/-! ### Trees of texts -/

/-- An inner node is the root or a branch of the forest under it. -/
theorem Planted.inner_cases (h : t.Planted text f) (hinner : t.isTerminal id = false) :
    (id = root ∧ t.Holds root ⟨.program, .zero, byteSize text.toList, f⟩) ∨
      ∃ b ∈ f.branches, t.Holds id b := by
  obtain ⟨hnode, hinside, -⟩ := h.bears
  rcases Nat.eq_zero_or_pos id with hid | hpos
  · exact .inl ⟨hid, ⟨none, hnode⟩, hinside⟩
  · have hlt := lt_size_of_inner hinner
    rw [h.size_eq] at hlt
    exact .inr (hinside.exists_holds hpos (by rw [root]; omega) hinner)

/-- Every node but the root is a child. -/
theorem Planted.exists_parent (h : t.Planted text f) (hlt : id < t.size) (hne : id ≠ root) :
    ∃ p, id ∈ t.children p := by
  obtain ⟨hnode, hinside, -⟩ := h.bears
  rw [h.size_eq] at hlt
  have hpos : 0 < id := Nat.pos_of_ne_zero hne
  rcases hinside.mem_roots_or hpos (by rw [root]; omega) with hroot | hchild
  · refine ⟨root, ?_⟩
    rw [children, hnode]
    exact List.mem_toArray.2 hroot
  · exact hchild

/-- The children of a node name it as their parent. -/
theorem Planted.parent_eq (h : t.Planted text f) {c : NodeId} (hc : c ∈ t.children id) :
    t.parent? c = some id := by
  rcases h.inner_cases (inner_of_mem_children hc) with ⟨rfl, hholds⟩ | ⟨b, -, hholds⟩
  · exact hholds.parent_eq c hc
  · exact hholds.parent_eq c hc

/-- The children of an inner node lie inside its span, one behind the other. -/
theorem Planted.spread (h : t.Planted text f) (hf : f.Spread 0 (byteSize text.toList))
    (hinner : t.isTerminal id = false) :
    (∀ c ∈ t.children id, t.start id ≤ t.start c ∧ t.start c ≤ t.stop c ∧ t.stop c ≤ t.stop id) ∧
      (t.children id).toList.Pairwise fun a b => t.stop a ≤ t.start b := by
  have held {id : NodeId} {b : Branch} (hholds : t.Holds id b)
      (hspread : b.inside.Spread b.start.offset b.stop) :
      (∀ c ∈ t.children id, t.start id ≤ t.start c ∧ t.start c ≤ t.stop c ∧ t.stop c ≤ t.stop id) ∧
        (t.children id).toList.Pairwise fun a b => t.stop a ≤ t.start b := by
    have hpairwise := hspread.pairwise
    rw [← hholds.faces_eq, List.pairwise_map] at hpairwise
    rw [start, Tree.stop, hholds.span_eq]
    exact ⟨hholds.forall_face hspread.between, hpairwise⟩
  rcases h.inner_cases hinner with ⟨rfl, hholds⟩ | ⟨b, hb, hholds⟩
  · exact held hholds hf
  · exact held hholds (hf.inside b hb)

section Laid

variable {stop : Position} {c : NodeId} {i : Nat} {block : Block}
  (h : t.Planted text (f ++ .leaf .eof stop stop.offset .nil)) (hf : f.Laid stop.offset)

/-- The face of the end of the text. -/
def endFace (stop : Nat) : Face := ⟨.eof, ⟨stop, stop⟩, false⟩

theorem faces_root (h : t.Planted text (f ++ .leaf .eof stop stop.offset .nil)) :
    (t.children root).toList.map t.face = f.faces ++ [endFace stop.offset] := by
  have hholds : t.Holds root ⟨.program, .zero, byteSize text.toList, _⟩ :=
    ⟨⟨none, h.bears.1⟩, h.bears.2.1⟩
  rw [hholds.faces_eq, faces_append]
  rfl

include h hf

/-- An inner node but the root is the frame of a block. -/
theorem Planted.exists_frames (hinner : t.isTerminal id = false) (hne : id ≠ root) :
    ∃ block : Block, t.kind id = block.production ∧
      Frames stop.offset block (t.span id) ((t.children id).toList.map t.face) := by
  rcases h.inner_cases hinner with ⟨hid, -⟩ | ⟨b, hb, hholds⟩
  · exact absurd hid hne
  · rw [branches_append] at hb
    obtain ⟨block, hkind, hframes⟩ := hf.framed b (by simpa [branches] using hb)
    exact ⟨block, hholds.kind_eq.trans hkind, hholds.span_eq ▸ hholds.faces_eq ▸ hframes⟩

/-- An unclosed node is the last child of its parent, apart from the end of the text, and leaves
the parent unclosed. -/
theorem Planted.last_of_unclosed {p : NodeId} {front rest : List NodeId}
    (hchildren : (t.children p).toList = front ++ id :: rest) (hid : t.isUnclosed id) :
    (∀ c ∈ rest, t.kind c = .eof) ∧ (p = root ∨ t.isUnclosed p) := by
  have hmem : id ∈ t.children p := by
    rw [← Array.mem_toList_iff, hchildren]
    exact List.mem_append_right _ List.mem_cons_self
  have hfaces : (t.children p).toList.map t.face =
      front.map t.face ++ t.face id :: rest.map t.face := by
    rw [hchildren, List.map_append, List.map_cons]
  by_cases hp : p = root
  · subst hp
    refine ⟨?_, .inl rfl⟩
    rw [faces_root h] at hfaces
    rcases List.eq_nil_or_concat rest with rfl | ⟨rest, last, rfl⟩
    · simp
    -- the end of the text is behind the node; nothing is between them
    rw [List.concat_eq_append, List.map_append, ← List.cons_append, ← List.append_assoc] at hfaces
    obtain ⟨hf', hlast⟩ := List.append_inj' hfaces rfl
    have hsettled := hf.settled
    rw [hf'] at hsettled
    have hnil : rest = [] := List.map_eq_nil_iff.1 (hsettled.eq_nil hid)
    have heof : t.kind last = .eof := congrArg Face.kind (List.singleton_inj.1 hlast).symm
    simp [hnil, heof]
  · have hinner := inner_of_mem_children hmem
    obtain ⟨block, hkind, hframes⟩ := h.exists_frames hf hinner hp
    have hopen := hframes.open_end (List.mem_map_of_mem (Array.mem_toList_iff.2 hmem)) hid
    have hsettled := hframes.settled
    rw [hfaces] at hsettled
    have hnil : rest = [] := List.map_eq_nil_iff.1 (hsettled.eq_nil hid)
    have hscope : t.isScope p := by
      rw [isScope, hinner, hkind, Block.isScope_production]
      rfl
    refine ⟨by simp [hnil], .inr (isUnclosed_of_forall hscope fun c hc => ?_)⟩
    exact hopen (t.face c) (List.mem_map_of_mem (Array.mem_toList_iff.2 hc))

omit h hf in
theorem opens_of_heads {as bs : List Face} (hhead : Heads (t.start id) block as)
    (hfaces : (t.children id).toList.map t.face = as ++ bs) : t.Opens id block := by
  obtain ⟨ids, rest, hids, has, -⟩ := List.map_eq_append_iff.1 hfaces
  cases hhead with
  | bracket hblock =>
    obtain ⟨opener, rfl, hopener⟩ := List.map_eq_singleton_iff.1 has
    rw [Opens, if_neg hblock]
    exact ⟨opener, rest, hids, congrArg Face.kind hopener,
      congrArg (fun a : Face => a.span.start) hopener⟩
  | @label mid _ hblock =>
    obtain ⟨name, ids, rfl, hname, has⟩ := List.map_eq_cons_iff.1 has
    obtain ⟨colon, rfl, hcolon⟩ := List.map_eq_singleton_iff.1 has
    have hmid : t.stop name = mid := congrArg (fun a : Face => a.span.stop) hname
    rw [Opens, if_pos hblock]
    exact ⟨name, colon, rest, hids, congrArg Face.kind hname,
      congrArg (fun a : Face => a.span.start) hname, congrArg Face.kind hcolon,
      hmid ▸ congrArg (fun a : Face => a.span.start) hcolon⟩

/-- A scope is opened as its block is, and closed as its block is unless the text ends in it. -/
theorem Planted.scope (hscope : t.isScope id) : ∃ block : Block, t.kind id = block.production ∧
    t.Opens id block ∧ (t.Closes id block ∨ t.TrailsOff id stop.offset) := by
  have hinner := inner_of_isScope hscope
  have hne : id ≠ root := by
    rintro rfl
    have hkind : t.kind root = .program := by
      rw [Tree.kind, h.bears.1]
      rfl
    rw [isScope, hkind, Bool.and_comm] at hscope
    contradiction
  obtain ⟨block, hkind, hframes⟩ := h.exists_frames hf hinner hne
  refine ⟨block, hkind, ?_⟩
  generalize hfaces : (t.children id).toList.map t.face = faces at hframes
  cases hframes with
  | closed hhead hbody =>
    refine ⟨opens_of_heads hhead hfaces, .inl ?_⟩
    rw [← List.append_assoc] at hfaces
    obtain ⟨front, ids, hids, -, hlast⟩ := List.map_eq_append_iff.1 hfaces
    obtain ⟨closer, rfl, hcloser⟩ := List.map_eq_singleton_iff.1 hlast
    exact ⟨front, closer, hids, congrArg Face.kind hcloser,
      congrArg (fun a : Face => a.span.stop) hcloser⟩
  | unclosed hhead hbody _ hstop =>
    have hopen : ∀ c ∈ t.children id, (t.kind c).closesScope = false := by
      intro c hc
      refine hhead.open_end hbody (t.face c) ?_
      rw [← hfaces]
      exact List.mem_map_of_mem (Array.mem_toList_iff.2 hc)
    obtain ⟨p, hp⟩ := h.exists_parent (lt_size_of_inner hinner) hne
    obtain ⟨front, rest, hchildren⟩ := List.append_of_mem (Array.mem_toList_iff.2 hp)
    have hlast := h.last_of_unclosed hf hchildren (isUnclosed_of_forall hscope hopen)
    exact ⟨opens_of_heads hhead hfaces, .inr ⟨hopen, hstop, p, front, rest, hchildren, hlast⟩⟩

/-- Only the frame of a block has a delimiter among its children. -/
theorem Planted.exists_frames_of_delimiter (hc : (t.children id)[i]? = some c)
    (hdelimiter : (t.kind c).opensScope ∨ (t.kind c).closesScope) :
    t.isScope id ∧ ∃ block : Block, t.kind id = block.production ∧
      Frames stop.offset block (t.span id) ((t.children id).toList.map t.face) := by
  have hmem : c ∈ t.children id := Array.mem_of_getElem? hc
  have hinner := inner_of_mem_children hmem
  have hne : id ≠ root := by
    rintro rfl
    have hface : t.face c ∈ (t.children root).toList.map t.face :=
      List.mem_map_of_mem (Array.mem_toList_iff.2 hmem)
    have hplain : isPlain (t.face c).kind := by
      rw [faces_root h] at hface
      rcases List.mem_append.1 hface with hface | hface
      · exact hf.plain _ hface
      · rw [List.mem_singleton.1 hface]
        rfl
    rw [face, isPlain] at hplain
    rcases hdelimiter with hc | hc <;> simp [hc] at hplain
  obtain ⟨block, hkind, hframes⟩ := h.exists_frames hf hinner hne
  refine ⟨?_, block, hkind, hframes⟩
  rw [isScope, hinner, hkind, Block.isScope_production]
  rfl

/-- The tree of a text lies as its forest does. -/
theorem Planted.framed (hstop : stop.offset = byteSize text.toList) : t.Framed stop.offset := by
  have hspread : (f ++ .leaf .eof stop stop.offset .nil).Spread 0 (byteSize text.toList) :=
    hstop ▸ hf.spread.append (spread_leaf .eof stop (Nat.le_refl _))
  have hspan : t.span root = ⟨0, stop.offset⟩ := by
    rw [hstop, Tree.span, h.bears.1]
    rfl
  have face_of_getElem? {id c : NodeId} {i : Nat} (hc : (t.children id)[i]? = some c) :
      ((t.children id).toList.map t.face)[i]? = some (t.face c) := by
    rw [List.getElem?_map, Array.getElem?_toList, hc]
    rfl
  constructor
  case root_kind =>
    rw [Tree.kind, h.bears.1]
    rfl
  case root_span => exact hspan
  case root_last =>
    have hlast := congrArg List.getLast? (faces_root h)
    rw [List.getLast?_map, List.getLast?_concat, Array.getLast?_toList] at hlast
    obtain ⟨last, hback, hface⟩ := Option.map_eq_some_iff.1 hlast
    rw [lastChild?, hback]
    exact congrArg some (congrArg Face.kind hface)
  case isScope_of_inner =>
    intro id _ hne hinner
    obtain ⟨block, hkind, hframes⟩ := h.exists_frames hf hinner hne
    refine ⟨by rw [isScope, hinner, hkind, Block.isScope_production]; rfl, fun hnone => ?_⟩
    exact hframes.ne_nil (by rw [hnone]; rfl)
  case mem_children => exact fun id hlt hne => h.exists_parent hlt hne
  case parent_eq => exact fun id c hc => h.parent_eq hc
  case within => exact fun id c hc => (h.spread hspread (inner_of_mem_children hc)).1 c hc
  case siblings =>
    intro id
    cases hinner : t.isTerminal id with
    | true =>
      rw [isTerminal, Node.isTerminal, Option.isNone_iff_eq_none] at hinner
      rw [children, Node.childIds, hinner]
      exact .nil
    | false => exact (h.spread hspread hinner).2
  case scope => exact fun id hscope => h.scope hf hscope
  case opener_place =>
    intro id i c hc hopens
    obtain ⟨hscope, block, hkind, hframes⟩ := h.exists_frames_of_delimiter hf hc (.inl hopens)
    rw [hkind]
    exact ⟨hscope, hframes.opener_place (face_of_getElem? hc) hopens⟩
  case closer_place =>
    intro id i c hc hcloses
    obtain ⟨hscope, block, -, hframes⟩ := h.exists_frames_of_delimiter hf hc (.inr hcloses)
    have hplace := hframes.closer_place (face_of_getElem? hc) hcloses
    rw [List.length_map, Array.length_toList] at hplace
    exact ⟨hscope, hplace⟩

end Laid

end Tree

end MplWorkbench
