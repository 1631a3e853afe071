import Mathlib.Logic.Function.Iterate
import MplWorkbench.Proofs.Reading.Spelling
import MplWorkbench.Proofs.Tree.Chain
import MplWorkbench.Selection

/-! Expanding a selection.

The nodes around a selection stand in each other, so the last of them that is not
the selection itself is the smallest (`enclosing_parse`). Line breaks and the end
of the text are passed over, but of these only a CRLF can be around anything but
itself, and only around a part of itself.

Whatever is selected, even nothing or what is not there, expanding it selects a
unit: the root, or a node that is neither a line break nor the end. From a unit
each step leads to one that stands in front of it in the arena. So the whole text
is selected at last, and then for good (`expands_parse`). -/
namespace MplWorkbench

namespace Tree

/-- The node is around the span, and is more than that. -/
structure Around (t : Tree) (s : Span) (id : NodeId) : Prop where
  lt_size : id < t.size
  contains : (t.span id).contains s
  span_ne : t.span id ≠ s

/-- The span is that of the smallest node around `s`, or else the whole. -/
def IsSmallestAround (t : Tree) (whole s u : Span) : Prop :=
  (∃ id, t.Around s id ∧ u = t.span id ∧
      ∀ m, t.Around s m → (t.span m).contains (t.span id)) ∨
    (∀ id, ¬ t.Around s id) ∧ u = whole

/-- Expansion may select the node. -/
def IsUnit (t : Tree) (id : NodeId) : Prop := (t.kind id).isLineBreak = false ∧ t.kind id ≠ .eof

/-- A line break that is around the span is the span itself. -/
def Unbroken (t : Tree) (s : Span) : Prop :=
  ∀ id < t.size, (t.kind id).isLineBreak → (t.span id).contains s → t.span id = s

namespace Grown

variable {p : Parse} {text : String} {f : Forest} {stop : Position} {s : Span} {id m : Nat}
  (h : p.tree.Grown text f stop)
include h

/-! ### Around a span -/

theorem contains_root (hid : id < p.tree.size) :
    (p.tree.span root).contains (p.tree.span id) := by
  rw [Span.contains_iff, h.framed.root_span]
  refine ⟨Nat.zero_le _, ?_⟩
  by_cases hzero : id = root
  · rw [hzero, h.framed.root_span]
  · exact (h.between (Nat.pos_of_ne_zero hzero) hid).2

theorem isUnit_root : p.tree.IsUnit root := by
  rw [IsUnit, h.framed.root_kind]
  exact ⟨rfl, Kind.noConfusion⟩

theorem isTerminal_of_isLineBreak (hid : id < p.tree.size)
    (hbreak : (p.tree.kind id).isLineBreak) : p.tree.isTerminal id := by
  refine h.isTerminal_of_kind hid ?_ ?_
  · rintro rfl
    exact Bool.eq_false_iff.1 h.isUnit_root.1 hbreak
  · revert hbreak
    cases p.tree.kind id <;> simp [Kind.isLineBreak, Kind.isScope]

/-- Every unit has a width, the root of an empty text apart. -/
theorem start_lt_stop_of_isUnit (hunit : p.tree.IsUnit id) (hpos : 1 ≤ id)
    (hid : id < p.tree.size) : p.tree.start id < p.tree.stop id := by
  have hsize := h.size_eq
  refine h.start_lt_stop hpos (Nat.le_of_not_lt fun hgt => hunit.2 ?_)
  obtain rfl : id = f.size + 1 := by omega
  exact h.end_eq.2.1

theorem stop_le_start_of_eof (hid : id < p.tree.size) (hkind : p.tree.kind id = .eof) :
    p.tree.stop id ≤ p.tree.start id := by
  have hsize := h.size_eq
  have hne : id ≠ root := by
    rintro rfl
    exact h.isUnit_root.2 hkind
  have hterminal := h.isTerminal_of_kind hid hne (by rw [hkind]; rfl)
  have hgt : ¬ id ≤ f.size := fun hle => h.kind_ne hterminal hle hkind
  obtain rfl : id = f.size + 1 := by omega
  rw [Tree.stop, Tree.start, h.end_eq.2.2]

variable (hlt : s.start < s.stop) (hle : s.stop ≤ stop.offset)
include hlt

/-- What is around a span of some width, and more than that, is a unit. -/
theorem isUnit_of_around (hbreak : p.tree.Unbroken s) (hid : p.tree.Around s id) :
    p.tree.IsUnit id := by
  refine ⟨Bool.eq_false_iff.2 fun hline => ?_, fun heof => ?_⟩
  · exact hid.span_ne (hbreak id hid.lt_size hline hid.contains)
  · have hempty := h.stop_le_start_of_eof hid.lt_size heof
    obtain ⟨hstart, hstop⟩ := Span.contains_iff.1 hid.contains
    exact Nat.not_lt.2 hempty (Nat.lt_of_le_of_lt hstart (Nat.lt_of_lt_of_le hlt hstop))

include hle

theorem mem_chainAround_iff : id ∈ p.tree.chainAround root s ↔
    (1 ≤ id ∧ id < p.tree.size) ∧ (p.tree.span id).contains s := by
  rw [h.chainAround_eq hlt hle, List.mem_filter, h.mem_symbols_iff]
  rfl

theorem pairwise_chainAround : (p.tree.chainAround root s).Pairwise fun a b =>
    a < b ∧ (p.tree.span a).contains (p.tree.span b) := by
  refine List.Pairwise.and ?_ ((h.pairwise_chainAt root s.start).sublist
    (List.takeWhile_sublist _))
  rw [h.chainAround_eq hlt hle, h.planted.enumerated.symbols_eq]
  exact (List.pairwise_lt_range' 1).filter _

/-- Of two nodes around a span, the first in the arena is around the other. -/
theorem contains_of_lt (hpos : 1 ≤ m) (hmid : m < id) (hid : id < p.tree.size)
    (hm : (p.tree.span m).contains s) (hs : (p.tree.span id).contains s) :
    (p.tree.span m).contains (p.tree.span id) := by
  have hmem := (h.mem_chainAround_iff hlt hle).2 ⟨⟨hpos, Nat.lt_trans hmid hid⟩, hm⟩
  have hmem' := (h.mem_chainAround_iff hlt hle).2 ⟨⟨Nat.zero_lt_of_lt hmid, hid⟩, hs⟩
  have hpairs := h.pairwise_chainAround hlt hle
  obtain ⟨front, back, hchain⟩ := List.append_of_mem hmem
  rw [hchain, List.pairwise_append, List.pairwise_cons] at hpairs
  rw [hchain] at hmem'
  rcases List.mem_append.1 hmem' with hid' | hid'
  · exact absurd (hpairs.2.2 id hid' m List.mem_cons_self).1 (Nat.lt_asymm hmid)
  · rcases List.mem_cons.1 hid' with rfl | hid'
    · exact absurd hmid (Nat.lt_irrefl _)
    · exact (hpairs.2.1.1 id hid').2

/-! ### The smallest unit -/

omit hle in
/-- What is around a span offers itself. -/
theorem unitOf?_of_around (hbreak : p.tree.Unbroken s) (hid : p.tree.Around s id) :
    p.unitOf? s id = some (p.tree.span id) := by
  obtain ⟨hline, heof⟩ := h.isUnit_of_around hlt hbreak hid
  simp [Parse.unitOf?, hid.span_ne, hid.contains, hline, heof]

omit h hlt hle in
theorem span_eq_of_unitOf? {u : Span} (hunit : p.unitOf? s id = some u) : p.tree.span id ≠ s := by
  intro hspan
  simp [Parse.unitOf?, hspan] at hunit

/-- Expansion selects the smallest of the nodes around. -/
theorem isSmallestAround_enclosing (hbreak : p.tree.Unbroken s) :
    p.tree.IsSmallestAround (p.tree.span root) s (p.enclosing s) := by
  have hmem {m : Nat} (hm : p.tree.Around s m) (hne : m ≠ root) :
      m ∈ (p.tree.chainAround root s).reverse := List.mem_reverse.2
    ((h.mem_chainAround_iff hlt hle).2 ⟨⟨Nat.pos_of_ne_zero hne, hm.lt_size⟩, hm.contains⟩)
  cases hfound : (p.tree.chainAround root s).reverse.findSome? (p.unitOf? s) with
  | none =>
    have henclosing : p.enclosing s = p.tree.span root := by rw [Parse.enclosing, hfound]; rfl
    have honly {m : Nat} (hm : p.tree.Around s m) : m = root := by
      by_contra hne
      have hnone := List.findSome?_eq_none_iff.1 hfound m (hmem hm hne)
      rw [h.unitOf?_of_around hlt hbreak hm] at hnone
      contradiction
    by_cases hroot : p.tree.Around s root
    · refine .inl ⟨root, hroot, henclosing, fun m hm => ?_⟩
      rw [honly hm]
      exact Span.contains_refl _
    · exact .inr ⟨fun id hid => hroot (honly hid ▸ hid), henclosing⟩
  | some u =>
    have henclosing : p.enclosing s = u := by rw [Parse.enclosing, hfound]; rfl
    obtain ⟨front, id, back, hchain, hunit, hfront⟩ := List.findSome?_eq_some_iff.1 hfound
    have hid : id ∈ p.tree.chainAround root s := by
      rw [← List.mem_reverse, hchain]
      exact List.mem_append_right _ List.mem_cons_self
    obtain ⟨⟨-, hsize⟩, hcontains⟩ := (h.mem_chainAround_iff hlt hle).1 hid
    have haround : p.tree.Around s id := ⟨hsize, hcontains, span_eq_of_unitOf? hunit⟩
    have hspan := Option.some.inj (hunit.symm.trans (h.unitOf?_of_around hlt hbreak haround))
    refine .inl ⟨id, haround, henclosing.trans hspan, fun m hm => ?_⟩
    by_cases hroot : m = root
    · exact hroot ▸ h.contains_root hsize
    -- in the chain, what is behind the first that fits is around it, and nothing else fits
    have hpairs := List.pairwise_reverse.2 (h.pairwise_chainAround hlt hle)
    have hm' := hmem hm hroot
    rw [hchain, List.pairwise_append, List.pairwise_cons] at hpairs
    rw [hchain] at hm'
    rcases List.mem_append.1 hm' with hm' | hm'
    · have hnone := hfront m hm'
      rw [h.unitOf?_of_around hlt hbreak hm] at hnone
      contradiction
    · rcases List.mem_cons.1 hm' with rfl | hm'
      · exact Span.contains_refl _
      · exact (hpairs.2.1.1 m hm').2

/-! ### From unit to unit -/

omit hlt hle

/-- Whatever is selected, expansion selects a unit. -/
theorem exists_isUnit (s : Span) :
    ∃ id < p.tree.size, p.tree.IsUnit id ∧ p.enclosing s = p.tree.span id := by
  have hsize := h.size_eq
  cases hfound : (p.tree.chainAround root s).reverse.findSome? (p.unitOf? s) with
  | none =>
    have hpos : root < p.tree.size := by rw [hsize]; exact Nat.succ_pos _
    exact ⟨root, hpos, h.isUnit_root, by rw [Parse.enclosing, hfound]; rfl⟩
  | some u =>
    have henclosing : p.enclosing s = u := by rw [Parse.enclosing, hfound]; rfl
    obtain ⟨id, hid, hunit⟩ := List.exists_of_findSome?_eq_some hfound
    have hlt : id < p.tree.size := lt_size_of_mem_chainAt p.tree root s.start id
      (List.takeWhile_subset _ (List.mem_reverse.1 hid))
    rw [henclosing]
    unfold Parse.unitOf? at hunit
    dsimp only at hunit
    split at hunit
    · contradiction
    · split at hunit
      · obtain ⟨k, hk, rfl⟩ := Option.map_eq_some_iff.1 hunit
        obtain ⟨hprev, hcomment⟩ := Option.filter_eq_some_iff.1 hk
        have hkind : p.tree.kind k = .comment :=
          eq_of_beq (Bool.and_eq_true_iff.1 hcomment).1
        refine ⟨k, Nat.lt_trans (lt_of_prevToken? hprev) hlt, ?_, rfl⟩
        rw [IsUnit, hkind]
        exact ⟨rfl, Kind.noConfusion⟩
      · next hline =>
        split at hunit
        · contradiction
        · next heof =>
          exact ⟨id, hlt, ⟨Bool.eq_false_iff.2 hline, heof⟩, (Option.some.inj hunit).symm⟩

/-- A line break around a unit would be inside it. -/
theorem unbroken_of_isUnit (hpos : 1 ≤ id) (hid : id < p.tree.size) (hunit : p.tree.IsUnit id) :
    p.tree.Unbroken (p.tree.span id) := by
  intro m hm hbreak hcontains
  have hwidth := h.start_lt_stop_of_isUnit hunit hpos hid
  have hterminal := h.isTerminal_of_isLineBreak hm hbreak
  rcases Nat.lt_trichotomy m id with hlt | rfl | hlt
  · -- a terminal in front of the unit ends where that begins
    have hapart := h.stop_le_start hterminal hlt hid
    have hstop := (Span.contains_iff.1 hcontains).2
    exact absurd (Nat.lt_of_lt_of_le hwidth hstop) (Nat.not_lt.2 hapart)
  · rfl
  · have hself := Span.contains_refl (p.tree.span id)
    have hinside := h.contains_of_lt hwidth (h.between hpos hid).2 hpos hlt hm hself hcontains
    exact Span.contains_antisymm hcontains hinside

/-- From a unit that is not all of the text, expansion leads to one in front of it that is more. -/
theorem exists_smaller (hid : id < p.tree.size) (hunit : p.tree.IsUnit id)
    (hne : p.tree.span id ≠ p.tree.span root) : ∃ m < id, p.tree.IsUnit m ∧
      p.enclosing (p.tree.span id) = p.tree.span m ∧ p.tree.Around (p.tree.span id) m := by
  have hpos : 1 ≤ id := Nat.pos_of_ne_zero fun hzero => hne (congrArg p.tree.span hzero)
  have hwidth := h.start_lt_stop_of_isUnit hunit hpos hid
  have hle := (h.between hpos hid).2
  have hbreak := h.unbroken_of_isUnit hpos hid hunit
  have hself := Span.contains_refl (p.tree.span id)
  rcases h.isSmallestAround_enclosing hwidth hle hbreak with ⟨m, hm, heq, -⟩ | ⟨hnone, -⟩
  · refine ⟨m, Nat.lt_of_not_le fun hge => ?_, h.isUnit_of_around hwidth hbreak hm, heq, hm⟩
    rcases Nat.eq_or_lt_of_le hge with rfl | hlt
    · exact hm.span_ne rfl
    · have hinside := h.contains_of_lt hwidth hle hpos hlt hm.lt_size hself hm.contains
      exact hm.span_ne (Span.contains_antisymm hm.contains hinside)
  · have hroot : root < p.tree.size := Nat.zero_lt_of_lt hid
    exact absurd ⟨hroot, h.contains_root hid, hne.symm⟩ (hnone root)

/-- All of the text is expanded to itself. -/
theorem enclosing_root : p.enclosing (p.tree.span root) = p.tree.span root := by
  have hsame {m : Nat} (hm : m < p.tree.size)
      (hcontains : (p.tree.span m).contains (p.tree.span root)) :
      p.tree.span m = p.tree.span root := Span.contains_antisymm hcontains (h.contains_root hm)
  obtain ⟨id, hid, hunit, heq⟩ := h.exists_isUnit (p.tree.span root)
  by_contra hne
  rw [heq] at hne
  have hpos : 1 ≤ id := Nat.pos_of_ne_zero fun hzero => hne (congrArg p.tree.span hzero)
  have hwidth := h.start_lt_stop_of_isUnit hunit hpos hid
  have hspan := h.framed.root_span
  have hlt : (p.tree.span root).start < (p.tree.span root).stop := by
    rw [hspan]
    exact Nat.lt_of_le_of_lt (Nat.zero_le _) (Nat.lt_of_lt_of_le hwidth (h.between hpos hid).2)
  have hle : (p.tree.span root).stop ≤ stop.offset := by rw [hspan]
  have hbreak : p.tree.Unbroken (p.tree.span root) := fun m hm _ => hsame hm
  rcases h.isSmallestAround_enclosing hlt hle hbreak with ⟨m, hm, -, -⟩ | ⟨-, hroot⟩
  · exact hm.span_ne (hsame hm.lt_size hm.contains)
  · exact hne (heq.symm.trans hroot)

/-- After so many steps the unit that is selected stands that far in front, or is all of the
text. -/
theorem exists_iterate (s : Span) (k : Nat) :
    ∃ id < p.tree.size, p.tree.IsUnit id ∧ p.enclosing^[k + 1] s = p.tree.span id ∧
      (id + k < p.tree.size ∨ id = root) := by
  induction k with
  | zero =>
    obtain ⟨id, hid, hunit, heq⟩ := h.exists_isUnit s
    exact ⟨id, hid, hunit, heq, .inl hid⟩
  | succ k ih =>
    obtain ⟨id, hid, hunit, heq, hfar⟩ := ih
    rw [Function.iterate_succ_apply', heq]
    by_cases hroot : p.tree.span id = p.tree.span root
    · rw [hroot, h.enclosing_root]
      exact ⟨root, Nat.zero_lt_of_lt hid, h.isUnit_root, rfl, .inr rfl⟩
    · obtain ⟨m, hm, hunit', heq', -⟩ := h.exists_smaller hid hunit hroot
      have hfar' : id + k < p.tree.size := hfar.resolve_right fun hzero =>
        hroot (congrArg p.tree.span hzero)
      exact ⟨m, Nat.lt_trans hm hid, hunit', heq', .inl (by omega)⟩

theorem iterate_enclosing (s : Span) : p.enclosing^[p.tree.size] s = p.tree.span root := by
  have hsize := h.size_eq
  obtain ⟨id, -, -, heq, hfar⟩ := h.exists_iterate s (f.size + 1)
  have hzero : id = root := by
    rcases hfar with hfar | hzero
    · exact Nat.eq_zero_of_le_zero (by omega)
    · exact hzero
  rw [hsize, heq, hzero]

end Grown

end Tree

/-! ### Expansion in a text -/

/-- A line break of one character that is around something is that. -/
theorem unbroken_parse {text : String} {o : Options} {s : Span} (hlt : s.start < s.stop)
    (hwhole : ∀ id ∈ (parse text o).tree.tokens, (parse text o).tree.kind id = .crlf →
      ((parse text o).tree.span id).contains s → (parse text o).tree.span id = s) :
    (parse text o).tree.Unbroken s := by
  obtain ⟨f, stop, h, -⟩ := Reading.exists_grown text o
  intro id hid hline hcontains
  have hmem := h.mem_tokens_iff.2 ⟨h.isTerminal_of_isLineBreak hid hline, hid⟩
  have hlone {x : Char} (hx : x.utf8Size = 1)
      (hspelling : Lexeme.spelling? ((parse text o).tree.kind id) = some [x]) :
      (parse text o).tree.span id = s := by
    have hstop := stop_of_spelling? hmem hspelling
    rw [byteSize_cons, byteSize_nil, hx] at hstop
    obtain ⟨hstart, hend⟩ := Span.contains_iff.1 hcontains
    change (parse text o).tree.start id ≤ s.start at hstart
    change s.stop ≤ (parse text o).tree.stop id at hend
    refine Span.contains_antisymm hcontains (Span.contains_iff.2 ?_)
    show s.start ≤ (parse text o).tree.start id ∧ (parse text o).tree.stop id ≤ s.stop
    omega
  have hkinds : (parse text o).tree.kind id = .lf ∨ (parse text o).tree.kind id = .crlf ∨
      (parse text o).tree.kind id = .cr := by
    revert hline
    cases (parse text o).tree.kind id <;> simp [Kind.isLineBreak]
  rcases hkinds with hkind | hkind | hkind
  · exact hlone (x := '\n') rfl (by rw [hkind]; rfl)
  · exact hwhole id hmem hkind hcontains
  · exact hlone (x := '\r') rfl (by rw [hkind]; rfl)

/-- A selection within a text that is no proper part of a CRLF is expanded to the smallest node
around it, and else to all of the text. -/
theorem enclosing_parse (text : String) (o : Options) {s : Span} (hlt : s.start < s.stop)
    (hle : s.stop ≤ text.utf8ByteSize)
    (hwhole : ∀ id ∈ (parse text o).tree.tokens, (parse text o).tree.kind id = .crlf →
      ((parse text o).tree.span id).contains s → (parse text o).tree.span id = s) :
    (parse text o).tree.IsSmallestAround ⟨0, text.utf8ByteSize⟩ s ((parse text o).enclosing s) := by
  obtain ⟨f, stop, h, hstop⟩ := Reading.exists_grown text o
  rw [← hstop, ← h.framed.root_span]
  exact h.isSmallestAround_enclosing hlt (hstop ▸ hle) (unbroken_parse hlt hwhole)

theorem enclosing_parse_lineBreak :
    (∀ id ∈ (parse "(a\r\n)" ⟨256⟩).tree.tokens, (parse "(a\r\n)" ⟨256⟩).tree.kind id = .crlf →
      ((parse "(a\r\n)" ⟨256⟩).tree.span id).contains ⟨2, 4⟩ →
        (parse "(a\r\n)" ⟨256⟩).tree.span id = ⟨2, 4⟩) ∧
      (parse "(a\r\n)" ⟨256⟩).tree.IsSmallestAround ⟨0, 5⟩ ⟨2, 4⟩
        ((parse "(a\r\n)" ⟨256⟩).enclosing ⟨2, 4⟩) :=
  have hwhole : ∀ id ∈ (parse "(a\r\n)" ⟨256⟩).tree.tokens,
      (parse "(a\r\n)" ⟨256⟩).tree.kind id = .crlf →
        ((parse "(a\r\n)" ⟨256⟩).tree.span id).contains ⟨2, 4⟩ →
          (parse "(a\r\n)" ⟨256⟩).tree.span id = ⟨2, 4⟩ := by decide +kernel
  ⟨hwhole, enclosing_parse "(a\r\n)" ⟨256⟩ (by decide) (by decide) hwhole⟩

theorem Parse.getLast?_expansions {p : Parse} {whole s : Span} {k limit : Nat}
    (hwhole : p.enclosing whole = whole) (hk : p.enclosing^[k + 1] s = whole) (hlt : k < limit) :
    (p.expansions limit s).getLast? = some whole := by
  induction limit generalizing s k with
  | zero => exact absurd hlt (Nat.not_lt_zero k)
  | succ limit ih =>
    rw [expansions]
    by_cases hnext : p.enclosing (p.enclosing s) = p.enclosing s
    · rw [if_pos hnext, ← hk, Function.iterate_succ_apply, Function.iterate_fixed hnext]
      rfl
    · cases k with
      | zero =>
        have hsame : p.enclosing s = whole := hk
        rw [hsame] at hnext
        exact absurd hwhole hnext
      | succ k =>
        have hrest : p.enclosing^[k + 1] (p.enclosing s) = whole := hk
        rw [if_neg hnext, List.getLast?_cons, ih hrest (Nat.lt_of_succ_lt_succ hlt)]
        rfl

/-- Expanding a selection again and again. -/
structure Parse.Expands (p : Parse) (whole s : Span) : Prop where
  /-- From the first expansion on, each selects more, up to the whole. -/
  grows : ∀ k, 1 ≤ k → p.enclosing^[k] s ≠ whole →
    (p.enclosing^[k + 1] s).contains (p.enclosing^[k] s) ∧
      p.enclosing^[k + 1] s ≠ p.enclosing^[k] s
  ends : ∃ k, 1 ≤ k ∧ k ≤ p.tree.size ∧ ∀ m ≥ k, p.enclosing^[m] s = whole
  /-- So the list of all expansions ends in the whole, if it is not cut off. -/
  last : ∀ limit ≥ p.tree.size, (p.expansions limit s).getLast? = some whole

/-- Any selection is expanded to all of the text at last, and each time to more. -/
theorem expands_parse (text : String) (o : Options) (s : Span) :
    (parse text o).Expands ⟨0, text.utf8ByteSize⟩ s := by
  obtain ⟨f, stop, h, hstop⟩ := Reading.exists_grown text o
  have hsize := h.size_eq
  have hpos : 1 ≤ (parse text o).tree.size := by omega
  have hwhole := h.iterate_enclosing s
  rw [← hstop, ← h.framed.root_span]
  refine ⟨fun k hk hne => ?grows, ⟨_, hpos, Nat.le_refl _, fun m hm => ?ends⟩,
    fun limit hlimit => ?last⟩
  case grows =>
    obtain ⟨k, rfl⟩ := Nat.exists_eq_add_of_le' hk
    obtain ⟨id, hid, hunit, heq, -⟩ := h.exists_iterate s k
    rw [Function.iterate_succ_apply' _ (k + 1), heq]
    obtain ⟨m, -, -, heq', haround⟩ := h.exists_smaller hid hunit (heq ▸ hne)
    rw [heq']
    exact ⟨haround.contains, haround.span_ne⟩
  case ends =>
    obtain ⟨k, rfl⟩ := Nat.exists_eq_add_of_le' hm
    rw [Function.iterate_add_apply, hwhole, Function.iterate_fixed h.enclosing_root]
  case last =>
    rw [hsize] at hwhole
    exact Parse.getLast?_expansions h.enclosing_root hwhole (by omega)

-- from the line break to the comment that it ends
example : (parse "(a # b\n)" default).expansions 9 ⟨6, 6⟩ = [⟨3, 6⟩, ⟨0, 8⟩] := by
  decide +kernel

end MplWorkbench
