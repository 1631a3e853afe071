import Mathlib.Data.List.Forall2
import Mathlib.Data.List.Induction
import MplWorkbench.Proofs.Label.Resolution

/-! The labels of a text.

A label begins with its name, and right behind that with its colon; and a colon is
nothing but the second child of a label. Labels are listed in the order of the
arena, which is the order of the terminals, so the labels that are listed and the
colons among the terminals belong to each other one by one, however the labels are
nested (`Grown.colons_eq`).

`exists_listed`: what is listed of the labels of a text, and the names that
completion offers. -/
namespace MplWorkbench

namespace Tree

variable {t : Tree} {text : String} {f : Forest} {stop : Position} {parent : Option NodeId}
  {base id name colon : Nat}

/-! ### Colons -/

def isColon (t : Tree) (id : NodeId) : Bool := t.kind id == .colon || t.kind id == .colonBang

/-- The terminals `:` and `:!`, in order. -/
def colons (t : Tree) : List NodeId := t.tokens.filter t.isColon

theorem isColon_iff : t.isColon id ↔ t.kind id = .colon ∨ t.kind id = .colonBang := by
  rw [isColon, Bool.or_eq_true, beq_iff_eq, beq_iff_eq]

/-- Only labels are opened by a colon. -/
theorem production_of_isColon {block : Block} (hkind : t.kind id = block.opener)
    (hcolon : t.isColon id) : block.production = .label := by
  rw [isColon, hkind] at hcolon
  revert hcolon
  cases block <;> decide

/-- The label is the one that the colon opens. -/
structure Belongs (t : Tree) (l : Label) (colon : NodeId) : Prop where
  /-- Right in front of the colon stands the name. -/
  named : ∃ front name back, t.tokens = front ++ name :: colon :: back ∧ t.kind name = .name ∧
    t.textOf name = .ok l.name ∧ t.span name = l.nameSpan ∧ (t.node name).line = l.line ∧
    (t.node name).column = l.column
  stop_eq : l.nameSpan.stop = t.start colon
  start_eq : l.span.start = l.nameSpan.start
  /-- The label is the scope that the colon stands in. -/
  scope : ∃ id, t.parent? colon = some id ∧ t.isLabel id ∧ t.span id = l.span
  reset_iff : l.reset ↔ t.kind colon = .colonBang

/-- Behind a first child that is a terminal comes the second. -/
theorem Bears.eq_succ_of_roots {a b : NodeId} {rest : List NodeId} (h : t.Bears parent base f)
    (hroots : f.roots base = a :: b :: rest) (ha : t.isTerminal a) : b = a + 1 := by
  cases f with
  | nil => contradiction
  | leaf kind start stop next =>
    obtain ⟨rfl, hnext⟩ := List.cons.inj hroots
    cases next with
    | nil => contradiction
    | leaf | branch => exact (List.cons.inj hnext).1.symm
  | branch kind start stop inside next =>
    obtain ⟨rfl, -⟩ := List.cons.inj hroots
    rw [isTerminal, h.1] at ha
    contradiction

namespace Grown

variable (h : t.Grown text f stop)
include h

theorem eq_succ_of_children {a b : NodeId} {rest : List NodeId}
    (hchildren : (t.children id).toList = a :: b :: rest) (ha : t.isTerminal a) : b = a + 1 := by
  have hinner : t.isTerminal id = false := inner_of_mem_children
    (Array.mem_toList_iff.1 (hchildren ▸ List.mem_cons_self))
  rcases h.planted.inner_cases hinner with ⟨rfl, hholds⟩ | ⟨_, -, hholds⟩
  · exact hholds.bears.eq_succ_of_roots (hholds.children_eq ▸ hchildren) ha
  · exact hholds.bears.eq_succ_of_roots (hholds.children_eq ▸ hchildren) ha

/-- A label begins with its name, and then comes its colon. -/
theorem exists_children_of_labelName? (hname : t.labelName? id = some name) :
    ∃ rest, (t.children id).toList = name :: (name + 1) :: rest ∧ t.start name = t.start id ∧
      t.isColon (name + 1) ∧ t.start (name + 1) = t.stop name := by
  have hlabel : t.kind id = .label := eq_of_beq (isLabel_of_labelName? hname)
  have hinner := inner_of_mem_children (mem_of_labelName? hname).1
  have hne : id ≠ root := by
    rintro rfl
    rw [h.framed.root_kind] at hlabel
    contradiction
  have hscope := (h.framed.isScope_of_inner id (lt_size_of_inner hinner) hne hinner).1
  obtain ⟨block, hkind, hopens, -⟩ := h.framed.scope id hscope
  rw [Opens, if_pos (hkind ▸ hlabel)] at hopens
  obtain ⟨name', colon, rest, hchildren, -, hstart, hcolon, hadjoin⟩ := hopens
  have hfirst : t.firstChild? id = some name' := by
    rw [firstChild?, ← Array.getElem?_toList, hchildren]
    rfl
  obtain rfl : name = name' := by
    rw [labelName?, if_pos (isLabel_of_labelName? hname), hfirst] at hname
    exact (Option.some.inj (Option.filter_eq_some_iff.1 hname).1).symm
  obtain rfl := h.eq_succ_of_children hchildren
    (h.mem_tokens_iff.1 (h.mem_tokens_of_labelName? hname)).1
  refine ⟨rest, hchildren, hstart, ?_, hadjoin⟩
  rw [isColon, hcolon]
  rw [hkind] at hlabel
  revert hlabel
  cases block <;> decide

/-- A colon is the second child of a label. -/
theorem exists_labelName?_of_isColon (hmem : colon ∈ t.tokens) (hcolon : t.isColon colon) :
    ∃ id name, t.labelName? id = some name ∧ colon = name + 1 := by
  obtain ⟨hterminal, hsize⟩ := h.mem_tokens_iff.1 hmem
  have hopens : (t.kind colon).opensScope := by
    rcases isColon_iff.1 hcolon with hkind | hkind <;> rw [hkind] <;> rfl
  obtain ⟨id, hid⟩ := h.framed.mem_children colon hsize
    (Nat.ne_of_gt (h.pos_of_isTerminal hterminal))
  obtain ⟨i, hi⟩ := Array.getElem?_of_mem hid
  obtain ⟨hscope, hplace⟩ := h.framed.opener_place id i colon hi hopens
  obtain ⟨block, hkind, hbegins, -⟩ := h.framed.scope id hscope
  rw [← Array.getElem?_toList] at hi
  unfold Opens at hbegins
  split at hbegins
  · next hlabel =>
    obtain ⟨name, colon', rest, hchildren, hname, -⟩ := hbegins
    rw [hchildren, hplace, if_pos (hkind.trans hlabel)] at hi
    obtain rfl : colon' = colon := Option.some.inj hi
    have hfirst : t.firstChild? id = some name := by
      rw [firstChild?, ← Array.getElem?_toList, hchildren]
      rfl
    have hfound : t.labelName? id = some name := by
      have hislabel : t.isLabel id := beq_iff_eq.2 (hkind.trans hlabel)
      rw [labelName?, if_pos hislabel, hfirst]
      exact Option.filter_some_pos (beq_iff_eq.2 hname)
    exact ⟨id, name, hfound, h.eq_succ_of_children hchildren
      (h.mem_tokens_iff.1 (h.mem_tokens_of_labelName? hfound)).1⟩
  · next hlabel =>
    -- the other blocks begin with their opening delimiter, and that is no colon
    obtain ⟨opener, rest, hchildren, hopener, -⟩ := hbegins
    rw [hchildren, hplace, if_neg (hkind ▸ hlabel)] at hi
    obtain rfl : opener = colon := Option.some.inj hi
    exact absurd (production_of_isColon hopener hcolon) hlabel

/-- The colons are what comes right behind the names of the labels that are listed. -/
theorem colons_eq : t.colons = t.labelNames.map fun names => names.2 + 1 := by
  have htokens : t.tokens.Pairwise (· < ·) := h.pairwise_tokens.imp And.left
  have hnames : (t.labelNames.map fun names => names.2 + 1).Pairwise (· < ·) :=
    List.pairwise_map.2 ((List.pairwise_map.1 h.pairwise_labelNames).imp Nat.succ_lt_succ)
  refine List.Pairwise.eq_of_mem_iff (htokens.filter _) hnames fun colon => ?_
  rw [colons, List.mem_filter, List.mem_map]
  constructor
  · rintro ⟨hmem, hcolon⟩
    obtain ⟨id, name, hname, rfl⟩ := h.exists_labelName?_of_isColon hmem hcolon
    exact ⟨(id, name), h.mem_labelNames_iff.2 hname, rfl⟩
  · rintro ⟨⟨id, name⟩, hmem, rfl⟩
    obtain ⟨rest, hchildren, -, hcolon, -⟩ :=
      h.exists_children_of_labelName? (labelName?_of_mem hmem)
    have hchild : name + 1 ∈ t.children id := Array.mem_toList_iff.1
      (hchildren ▸ List.mem_cons_of_mem _ List.mem_cons_self)
    have hscope : (t.kind (name + 1)).isScope = false := by
      rcases isColon_iff.1 hcolon with hkind | hkind <;> rw [hkind] <;> rfl
    have hsize := (lt_of_mem_children hchild).2
    exact ⟨h.mem_tokens_iff.2
      ⟨h.isTerminal_of_kind hsize (Nat.succ_ne_zero name) hscope, hsize⟩, hcolon⟩

/-- Terminals with numbers that follow each other stand behind each other. -/
theorem exists_tokens_adjacent (hid : id ∈ t.tokens) (hnext : id + 1 ∈ t.tokens) :
    ∃ front back, t.tokens = front ++ id :: (id + 1) :: back := by
  have hterminal := (h.mem_tokens_iff.1 hid).1
  obtain ⟨front, back, htokens⟩ := List.append_of_mem hnext
  have hprev := (h.planted.enumerated.token_links front (id + 1) back htokens).2.1
  rw [prevToken?, h.prev?_succ (h.pos_of_isTerminal hterminal) (h.mem_tokens_iff.1 hnext).2,
    backward_some, List.find?_cons_of_pos hterminal, eq_comm, List.getLast?_eq_some_iff] at hprev
  obtain ⟨front, rfl⟩ := hprev
  exact ⟨front, back, by rw [htokens, List.append_assoc, List.singleton_append]⟩

/-- A label that is listed is that of its colon. -/
theorem belongs_of_labelName? (htext : ∀ id < t.size, ∃ w, t.textOf id = .ok w)
    (hname : t.labelName? id = some name) : t.Belongs (t.labelAt id name) (name + 1) := by
  obtain ⟨rest, hchildren, hstart, hcolon, hadjoin⟩ := h.exists_children_of_labelName? hname
  have hlabel := isLabel_of_labelName? hname
  have hmem := h.mem_tokens_of_labelName? hname
  have hnext : name + 1 ∈ t.colons := by
    rw [h.colons_eq]
    exact List.mem_map_of_mem (f := fun names => names.2 + 1) (h.mem_labelNames_iff.2 hname)
  obtain ⟨front, back, htokens⟩ := h.exists_tokens_adjacent hmem (List.mem_filter.1 hnext).1
  have hreset : t.isReset id = (t.kind (name + 1) == .colonBang) := by
    rw [isReset, hlabel, Bool.true_and, ← Array.getElem?_toList, hchildren]
    rfl
  refine ⟨⟨front, name, back, htokens, (mem_of_labelName? hname).2, ?_, rfl, rfl, rfl⟩,
    hadjoin.symm, hstart.symm, ⟨id, ?_, hlabel, rfl⟩, ?_⟩
  · exact textOf_eq_word (htext name (h.mem_tokens_iff.1 hmem).2)
  · exact h.framed.parent_eq id _ (Array.mem_toList_iff.1
      (hchildren ▸ List.mem_cons_of_mem _ List.mem_cons_self))
  · rw [labelAt, hreset, beq_iff_eq]

end Grown

end Tree

/-! ### Names, each once -/

/-- The names where they come first: every repetition is left out. -/
def withoutRepetitions (names : List String) : List String :=
  (names.zipIdx.filter fun (name, i) => names.idxOf name = i).map (·.1)

theorem withoutRepetitions_concat (names : List String) (name : String) :
    withoutRepetitions (names ++ [name]) =
      withoutRepetitions names ++ if name ∈ names then [] else [name] := by
  have hfront : (names.zipIdx.filter fun (other, i) => (names ++ [name]).idxOf other = i) =
      names.zipIdx.filter fun (other, i) => names.idxOf other = i := by
    refine List.filter_congr fun (other, i) hmem => ?_
    have hidx : (names ++ [name]).idxOf other = names.idxOf other :=
      List.idxOf_append_of_mem (List.fst_mem_of_mem_zipIdx hmem)
    exact congrArg (fun k => decide (k = i)) hidx
  have hlast : (names ++ [name]).idxOf name = names.length ↔ name ∉ names := by
    by_cases hmem : name ∈ names
    · rw [List.idxOf_append_of_mem hmem]
      exact iff_of_false (Nat.ne_of_lt (List.idxOf_lt_length_of_mem hmem)) (not_not_intro hmem)
    · rw [List.idxOf_append, if_neg hmem]
      simp [hmem]
  rw [withoutRepetitions, List.zipIdx_append, List.filter_append, hfront, List.map_append]
  refine congrArg (withoutRepetitions names ++ ·) ?_
  by_cases hmem : name ∈ names <;> simp [hlast, hmem]

theorem eraseDups_eq (names : List String) : names.eraseDups = withoutRepetitions names := by
  induction names using List.reverseRecOn with
  | nil => rfl
  | append_singleton names name ih =>
    rw [List.eraseDups_append, ih, withoutRepetitions_concat]
    by_cases hmem : name ∈ names <;> simp [List.removeAll, List.eraseDups_cons, hmem]

/-! ### Labels of a text -/

/-- The labels of a text, each with its colon, and the names that completion offers. -/
structure Parse.Listed (p : Parse) (ls : List Label) : Prop where
  labels_eq : p.labels = .ok ls
  belongs : List.Forall₂ p.tree.Belongs ls p.tree.colons
  completions_eq : p.completions = .ok (withoutRepetitions (ls.map (·.name)))

/-- The labels of any text belong one by one to its colons. -/
theorem exists_listed (text : String) (o : Options) : ∃ ls, (parse text o).Listed ls := by
  obtain ⟨f, stop, h, -⟩ := Reading.exists_grown text o
  refine ⟨_, labels_parse text o, ?_, ?_⟩
  · rw [h.colons_eq, List.forall₂_map_left_iff, List.forall₂_map_right_iff, List.forall₂_same]
    exact fun names hmem => h.belongs_of_labelName? (fun _ => exists_textOf_parse text o)
      (Tree.labelName?_of_mem hmem)
  · rw [Parse.completions, labels_parse, ← eraseDups_eq]
    rfl

-- a label inside of another, and a name that is declared again
example : (parse "a: (b:! 1) ; a: 2" default).completions.toOption = some ["a", "b"] := by
  decide +kernel

end MplWorkbench
