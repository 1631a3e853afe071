import MplWorkbench.Proofs.Reading.Spelling
import MplWorkbench.Proofs.Tree.Chain
import MplWorkbench.Selection

/-! The words of a text.

The innermost node at an offset is the terminal that holds it, if one does
(`Grown.innermostAt?_eq`); so a word is a part of one terminal. Of an accessed name,
each access mark is a part, and so is what stands behind the marks, unless that is
empty. Every other word is all of its terminal, as if it had no marks.

`words_parse`: the words divide up the terminals that have any. -/
namespace MplWorkbench

/-- Names, numbers and delimiters of blocks. -/
def Kind.isWord (kind : Kind) : Bool :=
  kind.isName || kind == .number || kind == .real || kind.opensScope || kind.closesScope

/-! ### Parts of a terminal -/

section Parts

variable {kind : Kind} {s u : Span} {marks offset n : Nat}

/-- Each mark is a part of its own, and what stands behind the marks is another. -/
theorem accessPart_eq (hmarks : s.start + marks ≤ s.stop) : accessPart marks s offset =
    if offset < s.start + marks then ⟨offset, offset + 1⟩ else ⟨s.start + marks, s.stop⟩ := by
  have hmin : min marks (s.stop - s.start) = marks := by omega
  rw [accessPart, hmin]

/-- The part at an offset holds it, and lies within the whole. -/
theorem accessPart_around (marks : Nat) (hle : s.start ≤ offset) (hlt : offset < s.stop) :
    (accessPart marks s offset).start ≤ offset ∧ offset < (accessPart marks s offset).stop ∧
      s.contains (accessPart marks s offset) := by
  rw [Span.contains_iff, accessPart]
  split
  · exact ⟨Nat.le_refl _, Nat.lt_succ_self _, hle, hlt⟩
  · next hmark =>
    exact ⟨Nat.le_of_not_lt hmark, hlt, Nat.le_add_right .., Nat.le_refl _⟩

/-- At every offset that the part holds, it is the part. -/
theorem accessPart_same (hle : (accessPart marks s offset).start ≤ n)
    (hlt : n < (accessPart marks s offset).stop) :
    accessPart marks s n = accessPart marks s offset := by
  unfold accessPart at hle hlt ⊢
  dsimp only at hle hlt ⊢
  by_cases hmark : offset < s.start + min marks (s.stop - s.start)
  · rw [if_pos hmark] at hle hlt
    obtain rfl : n = offset := Nat.le_antisymm (Nat.le_of_lt_succ hlt) hle
    rfl
  · rw [if_neg hmark] at hle hlt ⊢
    rw [if_neg (Nat.not_lt.2 hle)]

/-- The parts are the marks, one by one, and what stands behind them if there is anything. -/
theorem exists_accessPart_iff (hmarks : s.start + marks ≤ s.stop) :
    (∃ n, (s.start ≤ n ∧ n < s.stop) ∧ u = accessPart marks s n) ↔
      (∃ i < marks, u = ⟨s.start + i, s.start + i + 1⟩) ∨
        s.start + marks < s.stop ∧ u = ⟨s.start + marks, s.stop⟩ := by
  simp only [accessPart_eq hmarks]
  constructor
  · rintro ⟨n, ⟨hle, hlt⟩, rfl⟩
    split
    · refine .inl ⟨n - s.start, by omega, ?_⟩
      rw [Nat.add_sub_cancel' hle]
    · exact .inr ⟨by omega, rfl⟩
  · rintro (⟨i, hi, rfl⟩ | ⟨hlt, rfl⟩)
    · refine ⟨s.start + i, by omega, ?_⟩
      rw [if_pos (Nat.add_lt_add_left hi _)]
    · refine ⟨s.start + marks, ⟨Nat.le_add_right .., hlt⟩, ?_⟩
      rw [if_neg (Nat.lt_irrefl _)]

/-- What has no marks is one part. -/
theorem wordIn?_eq (hle : s.start ≤ offset) : wordIn? kind s offset =
    if kind.isWord then some (accessPart kind.sigilSize s offset) else none := by
  have hwhole : accessPart 0 s offset = s := by
    rw [accessPart, Nat.zero_min, Nat.add_zero, if_neg (Nat.not_lt.2 hle)]
  cases kind <;> simp [wordIn?, Kind.isWord, Kind.isName, Kind.opensScope, Kind.closesScope,
    Kind.sigilSize, hwhole]

end Parts

namespace Tree

variable {t : Tree} {text : String} {f : Forest} {stop : Position} {id offset : Nat}

/-! ### The terminal at an offset -/

theorem covers_of_mem_chainAt (t : Tree) (id : NodeId) (offset : Nat) :
    ∀ n ∈ t.chainAt id offset, t.covers offset n := by
  induction hsize : t.size - id using Nat.strongRecOn generalizing id with
  | ind n ih =>
    subst hsize
    rw [chainAt_eq]
    cases hc : t.childAt? id offset with
    | none => exact fun _ hn => absurd hn List.not_mem_nil
    | some c =>
      exact List.forall_mem_cons.2 ⟨(Option.filter_eq_some_iff.1 hc).2,
        ih _ (remaining_lt (lt_of_childAt? hc)) c rfl⟩

/-- The terminal holds the offset. -/
structure HasAt (t : Tree) (offset : Nat) (id : NodeId) : Prop where
  mem_tokens : id ∈ t.tokens
  start_le : t.start id ≤ offset
  lt_stop : offset < t.stop id

namespace Grown

section Terminal

variable (h : t.Grown text f stop)
include h

/-- The terminal that holds an offset is the innermost node there. -/
theorem innermostAt?_eq (hid : t.HasAt offset id) : t.innermostAt? root offset = some id := by
  obtain ⟨hterminal, hsize⟩ := h.mem_tokens_iff.1 hid.mem_tokens
  have hpos := h.pos_of_isTerminal hterminal
  have hchain := h.chainAt_inside (Nat.lt_of_lt_of_le hid.lt_stop (h.between hpos hsize).2)
  have hmem : id ∈ t.chainAt root offset := by
    rw [hchain, List.mem_filter, h.mem_symbols_iff]
    simp [hpos, hsize, hid.start_le, hid.lt_stop]
  have hordered : (t.chainAt root offset).Pairwise (· < ·) := by
    rw [hchain, h.planted.enumerated.symbols_eq]
    exact (List.pairwise_lt_range' 1).filter _
  obtain ⟨front, last, hlast⟩ : ∃ front last, t.chainAt root offset = front ++ [last] :=
    ⟨_, _, (List.dropLast_append_getLast (List.ne_nil_of_mem hmem)).symm⟩
  rw [hlast] at hmem hordered
  rcases List.mem_append.1 hmem with hfront | hfront
  · -- what comes behind the terminal begins behind the offset
    have hlt := (List.pairwise_append.1 hordered).2.2 id hfront last List.mem_cons_self
    have hcovers := covers_of_mem_chainAt t root offset last
      (hlast ▸ List.mem_append_right _ List.mem_cons_self)
    have hstart : t.start last ≤ offset := of_decide_eq_true (Bool.and_eq_true_iff.1 hcovers).1
    have hbehind := h.stop_le_start hterminal hlt
      (lt_size_of_mem_chainAt t root offset last
        (hlast ▸ List.mem_append_right _ List.mem_cons_self))
    exact absurd (Nat.lt_of_le_of_lt (Nat.le_trans hbehind hstart) hid.lt_stop) (Nat.lt_irrefl _)
  · rw [innermostAt?, hlast, List.getLast?_concat, List.mem_singleton.1 hfront]

/-- A terminal that is the innermost node at an offset holds it, or is the end of the text. -/
theorem hasAt_of_innermostAt? (hid : t.innermostAt? root offset = some id)
    (hterminal : t.isTerminal id) (hkind : t.kind id ≠ .eof) : t.HasAt offset id := by
  have hmem := List.mem_of_getLast? hid
  have hsize : id < t.size := lt_size_of_mem_chainAt t root offset id hmem
  have hcovers := covers_of_mem_chainAt t root offset id hmem
  have hne : id ≠ f.size + 1 := by
    rintro rfl
    exact hkind h.end_eq.2.1
  have htotal := h.size_eq
  have hwidth := h.start_lt_stop (h.pos_of_isTerminal hterminal) (by omega)
  rw [covers, isUnclosed_of_isTerminal hterminal] at hcovers
  simp only [Bool.and_false, Bool.or_false, Bool.and_eq_true, Bool.or_eq_true, decide_eq_true_eq,
    beq_iff_eq] at hcovers
  exact ⟨h.mem_tokens_iff.2 ⟨hterminal, hsize⟩, hcovers.1, by omega⟩

/-- Only one terminal holds an offset. -/
theorem eq_of_hasAt {id' : NodeId} (hid : t.HasAt offset id) (hid' : t.HasAt offset id') :
    id = id' :=
  Option.some.inj ((h.innermostAt?_eq hid).symm.trans (h.innermostAt?_eq hid'))

end Terminal

/-- The word at an offset is a part of the terminal that holds the offset. -/
theorem wordAt?_eq_some_iff {p : Parse} {u : Span} (h : p.tree.Grown text f stop) :
    p.wordAt? offset = some u ↔ ∃ id, p.tree.HasAt offset id ∧ (p.tree.kind id).isWord ∧
      u = accessPart (p.tree.kind id).sigilSize (p.tree.span id) offset := by
  have hword {id : NodeId} (hid : p.tree.innermostAt? root offset = some id) :
      p.wordAt? offset =
        if p.tree.isTerminal id then wordIn? (p.tree.kind id) (p.tree.span id) offset
        else none := by
    rw [Parse.wordAt?, hid]
    rfl
  constructor
  · intro hsome
    cases hid : p.tree.innermostAt? root offset with
    | none =>
      rw [Parse.wordAt?, hid] at hsome
      contradiction
    | some id =>
      rw [hword hid] at hsome
      split at hsome
      · next hterminal =>
        have hkind : p.tree.kind id ≠ .eof := by
          intro heof
          rw [heof] at hsome
          contradiction
        have hat := h.hasAt_of_innermostAt? hid hterminal hkind
        rw [wordIn?_eq hat.start_le] at hsome
        split at hsome
        · next hisWord => exact ⟨id, hat, hisWord, (Option.some.inj hsome).symm⟩
        · contradiction
      · contradiction
  · rintro ⟨id, hat, hisWord, rfl⟩
    rw [hword (h.innermostAt?_eq hat), if_pos (h.mem_tokens_iff.1 hat.mem_tokens).1,
      wordIn?_eq hat.start_le, if_pos hisWord]

/-- The word at an offset that a name, number or delimiter holds. -/
theorem wordAt?_eq_some_iff_of_hasAt {p : Parse} {u : Span} (h : p.tree.Grown text f stop)
    (hid : p.tree.HasAt offset id) (hisWord : (p.tree.kind id).isWord) :
    p.wordAt? offset = some u ↔
      u = accessPart (p.tree.kind id).sigilSize (p.tree.span id) offset := by
  rw [h.wordAt?_eq_some_iff]
  constructor
  · rintro ⟨id', hid', -, rfl⟩
    rw [h.eq_of_hasAt hid hid']
  · rintro rfl
    exact ⟨id, hid, hisWord, rfl⟩

end Grown

end Tree

/-! ### Words of a text -/

/-- How the words lie in a text. -/
structure Parse.Divided (p : Parse) : Prop where
  isSome_iff : ∀ offset, (p.wordAt? offset).isSome ↔ ∃ id ∈ p.tree.tokens,
    (p.tree.kind id).isWord ∧ p.tree.start id ≤ offset ∧ offset < p.tree.stop id
  /-- A word is around its offset, and within the terminal that holds it. -/
  around : ∀ offset u, p.wordAt? offset = some u → u.start ≤ offset ∧ offset < u.stop ∧
    ∃ id ∈ p.tree.tokens, (p.tree.kind id).isWord ∧
      (p.tree.start id ≤ offset ∧ offset < p.tree.stop id) ∧ (p.tree.span id).contains u
  same : ∀ offset u, p.wordAt? offset = some u →
    ∀ n, u.start ≤ n → n < u.stop → p.wordAt? n = some u
  /-- The words in a terminal are its access marks, byte by byte, and its bare name if it has one;
  what is no accessed name has no marks. -/
  parts : ∀ id ∈ p.tree.tokens, (p.tree.kind id).isWord → ∃ bare : String,
    p.tree.textOf id = .ok (.ofList (Lexeme.accessMark (p.tree.kind id)) ++ bare) ∧
    sliceOf? p.text ⟨p.tree.start id + (p.tree.kind id).sigilSize, p.tree.stop id⟩ = some bare ∧
    ∀ u, (∃ n, (p.tree.start id ≤ n ∧ n < p.tree.stop id) ∧ p.wordAt? n = some u) ↔
      (∃ i < (p.tree.kind id).sigilSize,
        u = ⟨p.tree.start id + i, p.tree.start id + i + 1⟩) ∨
      bare ≠ "" ∧ u = ⟨p.tree.start id + (p.tree.kind id).sigilSize, p.tree.stop id⟩

theorem byteSize_pos_iff {cs : List Char} : 0 < byteSize cs ↔ String.ofList cs ≠ "" := by
  rw [← String.toList_ofList (l := cs), byteSize_toList, String.ofList_toList,
    Nat.pos_iff_ne_zero, ne_eq, String.utf8ByteSize_eq_zero_iff]

/-- A terminal is its access mark and then its bare name. -/
theorem exists_bare_parse {text : String} {o : Options} {id : NodeId}
    (hid : id ∈ (parse text o).tree.tokens) (hkind : (parse text o).tree.kind id ≠ .someError) :
    ∃ bare : List Char,
      (parse text o).tree.textOf id =
        .ok (.ofList (Lexeme.accessMark ((parse text o).tree.kind id) ++ bare)) ∧
      slice? text.toList ⟨(parse text o).tree.start id + ((parse text o).tree.kind id).sigilSize,
        (parse text o).tree.stop id⟩ = some bare ∧
      (parse text o).tree.stop id = (parse text o).tree.start id +
        ((parse text o).tree.kind id).sigilSize + byteSize bare := by
  obtain ⟨w, a, e, ha, hw, hstart, hstop, htext, hbefits, -⟩ := exists_takes hid hkind
  obtain ⟨bare, rfl⟩ := hbefits.exists_bare
  obtain ⟨m, hmark, hbare⟩ := hw.split
  have hin := ((Cursor.in_ofText text.toList).reaches ha).takes hmark
  have hmid : m.offset = (parse text o).tree.start id + ((parse text o).tree.kind id).sigilSize := by
    rw [hmark.offset_eq, Lexeme.byteSize_accessMark]
    exact congrArg (·.offset + _) hstart
  refine ⟨bare, htext, ?_, ?_⟩
  · rw [← hmid, ← hstop]
    exact hbare.slice?_eq hin
  · rw [← hmid, ← hstop]
    exact hbare.offset_eq

/-- The words of any text divide up its names, numbers and delimiters. -/
theorem words_parse (text : String) (o : Options) : (parse text o).Divided := by
  obtain ⟨f, stop, h, -⟩ := Reading.exists_grown text o
  refine ⟨fun offset => ?some, fun offset u hu => ?around, fun offset u hu n hle hlt => ?same,
    fun id hid hisWord => ?parts⟩
  case some =>
    rw [Option.isSome_iff_exists]
    constructor
    · rintro ⟨u, hu⟩
      obtain ⟨id, hat, hisWord, -⟩ := h.wordAt?_eq_some_iff.1 hu
      exact ⟨id, hat.mem_tokens, hisWord, hat.start_le, hat.lt_stop⟩
    · rintro ⟨id, hid, hisWord, hle, hlt⟩
      exact ⟨_, h.wordAt?_eq_some_iff.2 ⟨id, ⟨hid, hle, hlt⟩, hisWord, rfl⟩⟩
  case around =>
    obtain ⟨id, hat, hisWord, rfl⟩ := h.wordAt?_eq_some_iff.1 hu
    obtain ⟨hle, hlt, hcontains⟩ := accessPart_around _ hat.start_le hat.lt_stop
    exact ⟨hle, hlt, id, hat.mem_tokens, hisWord, ⟨hat.start_le, hat.lt_stop⟩, hcontains⟩
  case same =>
    obtain ⟨id, hat, hisWord, rfl⟩ := h.wordAt?_eq_some_iff.1 hu
    obtain ⟨-, -, hcontains⟩ := accessPart_around ((parse text o).tree.kind id).sigilSize
      hat.start_le hat.lt_stop
    obtain ⟨hstart, hstop⟩ := Span.contains_iff.1 hcontains
    have hat' : (parse text o).tree.HasAt n id :=
      ⟨hat.mem_tokens, Nat.le_trans hstart hle, Nat.lt_of_lt_of_le hlt hstop⟩
    exact (h.wordAt?_eq_some_iff_of_hasAt hat' hisWord).2 (accessPart_same hle hlt).symm
  case parts =>
    have hkind : (parse text o).tree.kind id ≠ .someError := by
      intro heq
      rw [heq] at hisWord
      contradiction
    obtain ⟨bare, htext, hslice, hstop⟩ := exists_bare_parse hid hkind
    have hmarks : ((parse text o).tree.span id).start + ((parse text o).tree.kind id).sigilSize ≤
        ((parse text o).tree.span id).stop := Nat.le.intro hstop.symm
    have hempty : String.ofList bare ≠ "" ↔ (parse text o).tree.start id +
        ((parse text o).tree.kind id).sigilSize < (parse text o).tree.stop id := by
      rw [hstop, Nat.lt_add_right_iff_pos, byteSize_pos_iff]
    refine ⟨.ofList bare, ?_, ?_, fun u => ?_⟩
    · rw [htext, String.ofList_append]
    · rw [sliceOf?_eq, Parse.text, h.planted.text_eq, hslice]
      rfl
    · rw [hempty]
      refine Iff.trans (exists_congr fun n => and_congr_right fun hn => ?_)
        (exists_accessPart_iff hmarks)
      exact h.wordAt?_eq_some_iff_of_hasAt ⟨hid, hn.1, hn.2⟩ hisWord

-- a mark, another mark, the name; and nothing at the blank
example : [0, 1, 2, 3, 4].map (parse ".@bc )" default).wordAt? =
    [some ⟨0, 1⟩, some ⟨1, 2⟩, some ⟨2, 4⟩, some ⟨2, 4⟩, none] := by
  decide +kernel

end MplWorkbench
