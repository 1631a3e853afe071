import MplWorkbench.Proofs.Lexeme.Shape
import MplWorkbench.Proofs.Reading.Terminals
import MplWorkbench.Proofs.Text.Encoding

/-! Reading loses nothing.

The terminals of a story lie behind each other, with only spaces between them and
nothing left over (`Tiles`). Each rule of the grammar and each recovery from a
defect lays down the terminals for what it reads, so whole stories do
(`Reads.tiles`).

`lossless_parse`: the terminals of a tree and the spaces between them are the
text. Since no terminal but the end is empty, and each block opens with one, a tree
has no more than two nodes a byte (`size_parse_le`). -/
namespace MplWorkbench

open Cursor

/-! ### Tilings -/

/-- From the first cursor to the second there are these terminals, with spaces around them. -/
inductive Tiles : Cursor → List Forest.Terminal → Cursor → Prop where
  | done {c d : Cursor} {gap : List Char} : c.Takes gap d → (∀ x ∈ gap, isSpace x) → Tiles c [] d
  | terminal {c s e d : Cursor} {gap word : List Char} {kind : Kind} {stop : Nat}
      {ts : List Forest.Terminal} : c.Takes gap s → (∀ x ∈ gap, isSpace x) → s.Takes word e →
      word ≠ [] → stop = e.offset → Tiles e ts d → Tiles c (⟨kind, s.position, stop⟩ :: ts) d

namespace Tiles

variable {c d e s : Cursor} {ts ts' : List Forest.Terminal} {gap word text : List Char}

theorem refl (c : Cursor) : Tiles c [] c := .done (.refl c) (by simp)

/-- Spaces in front of a tiling. -/
theorem space (hgap : c.Takes gap d) (hspace : ∀ x ∈ gap, isSpace x) (h : Tiles d ts e) :
    Tiles c ts e := by
  have hboth {gap' : List Char} (hspace' : ∀ x ∈ gap', isSpace x) : ∀ x ∈ gap ++ gap', isSpace x :=
    fun x hx => (List.mem_append.1 hx).elim (hspace x) (hspace' x)
  cases h with
  | done hgap' hspace' => exact .done (hgap.trans hgap') (hboth hspace')
  | terminal hgap' hspace' hword hne hstop hnext =>
    exact .terminal (hgap.trans hgap') (hboth hspace') hword hne hstop hnext

theorem append (h : Tiles c ts d) (h' : Tiles d ts' e) : Tiles c (ts ++ ts') e := by
  induction h with
  | done hgap hspace => exact h'.space hgap hspace
  | terminal hgap hspace hword hne hstop _ ih => exact .terminal hgap hspace hword hne hstop (ih h')

/-- A terminal right at the cursor. -/
theorem single (kind : Kind) (hword : c.Takes word e) (hne : word ≠ []) :
    Tiles c [⟨kind, c.position, e.offset⟩] e :=
  .terminal (.refl c) (by simp) hword hne rfl (.refl e)

theorem reaches (h : Tiles c ts d) : c.Reaches d := by
  induction h with
  | done hgap => exact hgap.reaches
  | terminal hgap _ hword _ _ _ ih => exact hgap.reaches.trans (hword.reaches.trans ih)

theorem start_ge (h : Tiles c ts d) : ∀ t ∈ ts, c.offset ≤ t.start.offset := by
  induction h with
  | done => simp
  | @terminal c s e d _ _ _ _ _ hgap _ hword _ _ _ ih =>
    have hs : c.offset ≤ s.offset := hgap.reaches.offset_le
    intro t ht
    rcases List.mem_cons.1 ht with rfl | ht
    · exact hs
    · exact Nat.le_trans hs (Nat.le_trans hword.reaches.offset_le (ih t ht))

/-- Each terminal ends before the next begins. -/
theorem pairwise (h : Tiles c ts d) : ts.Pairwise fun a b => a.stop ≤ b.start.offset := by
  induction h with
  | done => exact .nil
  | terminal _ _ _ _ hstop hnext ih => exact .cons (fun t ht => hstop ▸ hnext.start_ge t ht) ih

theorem nonempty (h : Tiles c ts d) : ∀ t ∈ ts, t.start.offset < t.stop := by
  induction h with
  | done => simp
  | terminal _ _ hword hne hstop _ ih =>
    intro t ht
    rcases List.mem_cons.1 ht with rfl | ht
    · exact hstop ▸ hword.offset_lt hne
    · exact ih t ht

/-- Each terminal takes a byte. -/
theorem length_le (h : Tiles c ts d) : c.offset + ts.length ≤ d.offset := by
  induction h with
  | done hgap => exact hgap.reaches.offset_le
  | @terminal c s e d _ _ _ _ ts hgap _ hword hne _ _ ih =>
    have hs : c.offset ≤ s.offset := hgap.reaches.offset_le
    have he : s.offset < e.offset := hword.offset_lt hne
    rw [List.length_cons]
    omega

theorem stop_le (h : Tiles c ts d) : ∀ t ∈ ts, t.stop ≤ d.offset := by
  induction h with
  | done => simp
  | terminal _ _ _ _ hstop hnext ih =>
    intro t ht
    rcases List.mem_cons.1 ht with rfl | ht
    · exact hstop ▸ hnext.reaches.offset_le
    · exact ih t ht

/-- A byte in no terminal is that of a space. -/
theorem isSpaceByte (h : Tiles c ts d) (hc : In text c) {n : Nat} {byte : UInt8}
    (hbyte : (utf8 text)[n]? = some byte) (hle : c.offset ≤ n) (hlt : n < d.offset) :
    (∃ t ∈ ts, t.start.offset ≤ n ∧ n < t.stop) ∨ MplWorkbench.isSpaceByte byte := by
  have between {c s : Cursor} {gap : List Char} (hc : In text c) (hgap : c.Takes gap s)
      (hspace : ∀ x ∈ gap, isSpace x) (hle : c.offset ≤ n) (hlt : n < s.offset) :
      MplWorkbench.isSpaceByte byte := by
    rw [hc.getElem?_utf8 hgap hle hlt] at hbyte
    exact isSpaceByte_of_mem hspace (List.mem_of_getElem? hbyte)
  induction h with
  | done hgap hspace => exact .inr (between hc hgap hspace hle hlt)
  | @terminal c s e d gap word _ _ ts hgap hspace hword _ hstop _ ih =>
    by_cases hs : n < s.offset
    · exact .inr (between hc hgap hspace hle hs)
    by_cases he : n < e.offset
    · exact .inl ⟨_, List.mem_cons_self, Nat.le_of_not_lt hs, hstop ▸ he⟩
    · refine (ih ((hc.takes hgap).takes hword) (Nat.le_of_not_lt he) hlt).imp_left ?_
      rintro ⟨t, ht, hin⟩
      exact ⟨t, List.mem_cons_of_mem _ ht, hin⟩

/-- The text of a tiling: that of its terminals, each behind its spaces, and the last spaces. -/
theorem pieces (h : Tiles c ts d) (hc : In text c) :
    ∃ (pieces : List (List Char × List Char)) (gap : List Char),
      ts.map (fun t => slice? text t.span) = (pieces.map Prod.snd).map some ∧
      (∀ p ∈ pieces, ∀ x ∈ p.1, isSpace x) ∧ (∀ x ∈ gap, isSpace x) ∧
      c.rest = pieces.flatMap (fun p => p.1 ++ p.2) ++ gap ++ d.rest := by
  induction h with
  | @done c d gap hgap hspace => exact ⟨[], gap, rfl, by simp, hspace, hgap.rest_eq⟩
  | @terminal c s e d gap word _ _ ts hgap hspace hword _ hstop _ ih =>
    have hs := hc.takes hgap
    obtain ⟨pieces, last, hslices, hspaces, hlast, hrest⟩ := ih (hs.takes hword)
    refine ⟨(gap, word) :: pieces, last, ?_, ?_, hlast, ?_⟩
    · rw [List.map_cons, List.map_cons, List.map_cons, hslices, Forest.Terminal.span, hstop]
      exact congrArg (· :: _) (hword.slice?_eq hs)
    · intro p hp
      rcases List.mem_cons.1 hp with rfl | hp
      · exact hspace
      · exact hspaces p hp
    · rw [hgap.rest_eq, hword.rest_eq, hrest, List.flatMap_cons]
      simp only [List.append_assoc]

end Tiles

/-! ### Stories tile -/

namespace Reading

variable {limit depth : Nat} {around : List Block} {fresh again : Bool} {block : Block}
  {c d opener : Cursor} {l : Lexeme} {f : Forest} {ds : List Diagnostic}

theorem Yields.covers (h : Yields limit depth fresh c l again) : Lexeme.Covers c l := by
  have hadvances := h.advances
  have hrest := h.rest_ne_nil
  cases h with
  | comment ho => exact Lexeme.comment_covers (announces_comment_iff.1 ho)
  | lineBreak =>
    refine hadvances.covers hrest ?_
    rcases Lexeme.lineBreak_cases c with ⟨-, h⟩ | ⟨-, h⟩ | h <;> rw [h] <;> rfl
  | member =>
    refine hadvances.covers hrest ?_
    rcases Lexeme.member_cases c with ⟨after, -, h⟩ | ⟨-, h⟩ <;> rw [h] <;> rfl
  | number => exact hadvances.covers hrest (Lexeme.number_sensible c).stop_eq
  | access => exact hadvances.covers hrest (Lexeme.access_sensible c).stop_eq
  | stray => cases fresh <;> exact hadvances.covers hrest rfl
  | comma | quoted | raw | name | region => exact hadvances.covers hrest rfl

theorem Yields.tiles (h : Yields limit depth fresh c l again) :
    Tiles c [⟨l.kind, c.position, l.stop⟩] l.after := by
  obtain ⟨word, gap, e, hword, hne, hstop, hgap, hspace⟩ := h.covers
  exact .terminal (.refl c) (by simp) hword hne hstop (.done hgap hspace)

theorem Begins.tiles (h : Begins fresh c block opener) :
    Tiles c (heading block c opener).terminals (opener.skip block.openerLength) := by
  have hne : block.opening ≠ [] := by cases block <;> exact List.cons_ne_nil _ _
  have hopener := Tiles.single block.opener h.takes hne
  cases h with
  | bracket ho =>
    rw [heading, if_neg (announces_bracket_iff.1 ho).1]
    exact hopener
  | label ho hcolon =>
    obtain ⟨x, w, hname⟩ := (Lexeme.reaches_plainName c).takes_of_advance ho.rest_ne_nil
    rw [heading, if_pos (production_labelAt _)]
    exact (Tiles.single .name hname (List.cons_ne_nil _ _)).append hopener

theorem Reads.tiles (h : Reads limit around fresh c f ds d) : Tiles c f.terminals d := by
  induction h with
  | stop => exact .refl _
  | blank hspace _ ih =>
    obtain ⟨x, r, hx, hspace⟩ := rest_eq_of_isAt hspace
    exact ih.space (takes_advance hx) (by simpa using hspace)
  | take _ hl _ ih => exact hl.tiles.append ih
  | @closed _ _ block _ _ d e f f' _ _ _ hb _ _ hend _ ihi ihn =>
    obtain ⟨x, r, hx, -⟩ := rest_eq_of_isAt hend
    have hcloser := Tiles.single block.closer (takes_advance hx) (List.cons_ne_nil _ _)
    rw [Forest.terminals, Forest.terminals_append, Forest.terminals_append]
    exact ((hb.tiles.append ihi).append hcloser).append ihn
  | unclosed _ hb _ _ _ ih =>
    rw [Forest.terminals, Forest.terminals_append, Forest.terminals, List.append_nil]
    exact hb.tiles.append ih

/-! ### No terminal in front of the end of the text stands for it -/

/-- The kinds of the terminals that are no delimiters of blocks. -/
def lexemeKinds : List Kind :=
  [.lf, .crlf, .cr, .nameMember, .nameReadMember, .nameWriteMember, .comment, .comma, .string,
    .number, .real, .name, .nameRead, .nameWrite, .someError]

theorem Yields.kind_mem (h : Yields limit depth fresh c l again) : l.kind ∈ lexemeKinds := by
  have sensible {start : Position} {kinds : List Kind} (hl : Lexeme.Sensible start kinds l)
      (hkinds : ∀ kind ∈ kinds ++ [.someError], kind ∈ lexemeKinds) : l.kind ∈ lexemeKinds :=
    hkinds _ hl.kind_mem
  have hstring : Kind.string ∈ lexemeKinds := by decide
  have hname : Kind.name ∈ lexemeKinds := by decide
  have herror : Kind.someError ∈ lexemeKinds := by decide
  cases h with
  | lineBreak =>
    rcases Lexeme.lineBreak_cases c with ⟨-, h⟩ | ⟨-, h⟩ | h <;> rw [h]
    · exact (by decide : Kind.lf ∈ lexemeKinds)
    · exact (by decide : Kind.crlf ∈ lexemeKinds)
    · exact (by decide : Kind.cr ∈ lexemeKinds)
  | member =>
    have hmark : (Lexeme.memberMark c).1 ∈ lexemeKinds := by
      rcases Lexeme.memberMark_cases c with ⟨h, -⟩ | ⟨h | h, -⟩ <;> rw [h] <;> decide
    rcases Lexeme.member_cases c with ⟨after, -, h⟩ | ⟨-, h⟩ <;> rw [h] <;> exact hmark
  | number => exact sensible (Lexeme.number_sensible c) (by decide)
  | access => exact sensible (Lexeme.access_sensible c) (by decide)
  | stray => cases fresh <;> exact herror
  | comment => exact (by decide : Kind.comment ∈ lexemeKinds)
  | comma => exact (by decide : Kind.comma ∈ lexemeKinds)
  | quoted => exact hstring
  | raw => exact hstring
  | name => exact hname
  | region => exact herror

theorem TakenAt.kind_ne_eof {u : Forest.Terminal} (h : TakenAt limit c u) : u.kind ≠ .eof := by
  cases h with
  | lexeme hl =>
    have hkinds : ∀ kind ∈ lexemeKinds, kind ≠ .eof := by decide
    exact hkinds _ hl.kind_mem
  | name => exact Kind.noConfusion
  | @opener block => cases block <;> exact Kind.noConfusion
  | @closer block => cases block <;> exact Kind.noConfusion

theorem Reads.kind_ne_eof (h : Reads limit around fresh c f ds d) :
    ∀ t ∈ f.terminals, t.kind ≠ .eof := by
  intro u hu
  obtain ⟨a, -, htaken⟩ := h.meets u hu
  exact htaken.kind_ne_eof

end Reading

/-! ### Trees lose nothing -/

/-- The terminals of the tree are the text, spaces and tabs aside. -/
structure Tree.Lossless (t : Tree) (text : String) : Prop where
  increasing : t.tokens.Pairwise fun a b => t.stop a ≤ t.start b
  ends : ∃ front last, t.tokens = front ++ [last] ∧
    (∀ id ∈ front, t.start id < t.stop id ∧ t.kind id ≠ .eof) ∧
    t.kind last = .eof ∧ t.span last = .empty text.utf8ByteSize
  blank : ∀ n byte, text.toUTF8.data[n]? = some byte →
    (∃ id ∈ t.tokens, t.start id ≤ n ∧ n < t.stop id) ∨ isSpaceByte byte
  /-- Each piece is what stands before a terminal and the text of the terminal. -/
  interleaved : ∃ pieces : List (String × String),
    t.tokens.map t.textOf = pieces.map (fun p => .ok p.2) ∧
    (∀ p ∈ pieces, ∀ x ∈ p.1.toList, x = ' ' ∨ x = '\t') ∧
    text = String.join (pieces.map fun p => p.1 ++ p.2)

namespace Tree.Planted

variable {t : Tree} {text : String} {f : Forest} {c : Cursor}

theorem textOf_eq (h : t.Planted text f) {id : NodeId} {w : List Char}
    (hw : slice? text.toList (t.terminalAt id).span = some w) : t.textOf id = .ok (.ofList w) := by
  have hslice : sliceOf? t.text (t.span id) = some (.ofList w) := by
    rw [h.text_eq, sliceOf?_eq]
    exact congrArg (Option.map String.ofList) hw
  rw [textOf, hslice]

/-- The terminals that are slices have these texts. -/
theorem map_textOf (h : t.Planted text f) {ids : List NodeId} {words : List (List Char)}
    (hwords : (ids.map t.terminalAt).map (fun u => slice? text.toList u.span) = words.map some) :
    ids.map t.textOf = words.map fun w => .ok (.ofList w) := by
  induction ids generalizing words with
  | nil =>
    obtain rfl := List.map_eq_nil_iff.1 hwords.symm
    rfl
  | cons id ids ih =>
    cases words with
    | nil => exact absurd hwords (List.cons_ne_nil _ _)
    | cons w words =>
      obtain ⟨hw, hrest⟩ := List.cons.inj hwords
      rw [List.map_cons, List.map_cons, h.textOf_eq hw, ih hrest]

section Tiled

variable (h : t.Planted text (f ++ .leaf .eof c.position c.offset .nil))
include h

theorem map_terminalAt :
    t.tokens.map t.terminalAt = f.terminals ++ [⟨.eof, c.position, c.offset⟩] := by
  rw [h.tokens_eq, Forest.terminals_append]
  rfl

/-- The tokens are the terminals of the story, and the end, which is empty. -/
theorem map_textOf_tokens (hin : In text.toList c) {words : List (List Char)}
    (hwords : f.terminals.map (fun u => slice? text.toList u.span) = words.map some) :
    t.tokens.map t.textOf = (words.map fun w => .ok (.ofList w)) ++ [.ok ""] := by
  have hall : (t.tokens.map t.terminalAt).map (fun u => slice? text.toList u.span) =
      (words ++ [[]]).map some := by
    rw [h.map_terminalAt, List.map_append, List.map_append, hwords]
    exact congrArg (_ ++ [·]) ((Takes.refl c).slice?_eq hin)
  rw [h.map_textOf hall, List.map_append]
  rfl

/-- A text that is tiled to its end is the terminals of its tree and the spaces between them. -/
theorem interleaved (htiles : Tiles (.ofText text.toList) f.terminals c) (hend : c.rest = []) :
    ∃ pieces : List (String × String),
      t.tokens.map t.textOf = pieces.map (fun p => .ok p.2) ∧
      (∀ p ∈ pieces, ∀ x ∈ p.1.toList, x = ' ' ∨ x = '\t') ∧
      text = String.join (pieces.map fun p => p.1 ++ p.2) := by
  have hin := in_ofText text.toList
  obtain ⟨pieces, gap, hwords, hspaces, hgap, hrest⟩ := htiles.pieces hin
  rw [hend, List.append_nil] at hrest
  refine ⟨(pieces ++ [(gap, [])]).map fun (gap, word) => (.ofList gap, .ofList word), ?_, ?_, ?_⟩
  · rw [h.map_textOf_tokens (hin.reaches htiles.reaches) hwords, List.map_append, List.map_append,
      List.map_map, List.map_map]
    rfl
  · intro p hp x hx
    obtain ⟨⟨gap', word⟩, hpiece, rfl⟩ := List.mem_map.1 hp
    rw [String.toList_ofList] at hx
    have hspace : isSpace x := by
      rcases List.mem_append.1 hpiece with hpiece | hpiece
      · exact hspaces _ hpiece x hx
      · obtain ⟨rfl, -⟩ := Prod.mk.inj (List.mem_singleton.1 hpiece)
        exact hgap x hx
    exact (Bool.or_eq_true_iff.1 hspace).imp eq_of_beq eq_of_beq
  · apply String.toList_inj.1
    have hall : text.toList = pieces.flatMap (fun p => p.1 ++ p.2) ++ gap := hrest
    rw [String.toList_join, List.map_map, List.flatMap_map, hall]
    simp

theorem lossless (htiles : Tiles (.ofText text.toList) f.terminals c) (hend : c.rest = [])
    (heof : ∀ u ∈ f.terminals, u.kind ≠ .eof) : t.Lossless text := by
  have hin := in_ofText text.toList
  have hlast : c.offset = byteSize text.toList := (hin.reaches htiles.reaches).offset_eq hend
  have htokens := h.map_terminalAt
  refine ⟨?increasing, ?ends, ?blank, h.interleaved htiles hend⟩
  case increasing =>
    have hall : (t.tokens.map t.terminalAt).Pairwise fun a b => a.stop ≤ b.start.offset := by
      rw [htokens, List.pairwise_append]
      refine ⟨htiles.pairwise, List.pairwise_singleton _ _, fun u hu v hv => ?_⟩
      rw [List.mem_singleton.1 hv]
      exact htiles.stop_le u hu
    exact List.pairwise_map.1 hall
  case ends =>
    obtain ⟨front, back, heq, hfront, hback⟩ := List.map_eq_append_iff.1 htokens
    obtain ⟨last, rfl, hlastAt⟩ := List.map_eq_singleton_iff.1 hback
    have hu {id : NodeId} (hid : id ∈ front) : t.terminalAt id ∈ f.terminals :=
      hfront ▸ List.mem_map_of_mem hid
    have hspan : t.span last = ⟨c.offset, c.offset⟩ := congrArg Forest.Terminal.span hlastAt
    refine ⟨front, last, heq, fun id hid => ?_, ?_, ?_⟩
    · exact ⟨htiles.nonempty _ (hu hid), heof _ (hu hid)⟩
    · show (t.terminalAt last).kind = .eof
      rw [hlastAt]
    · rw [hspan, ← byteSize_toList, ← hlast]
      rfl
  case blank =>
    intro n byte hbyte
    rw [getElem?_toUTF8] at hbyte
    have hlt : n < c.offset := by
      rw [hlast, ← length_utf8]
      exact (List.getElem?_eq_some_iff.1 hbyte).1
    refine (htiles.isSpaceByte hin hbyte (Nat.zero_le n) hlt).imp_left ?_
    rintro ⟨u, hu, hrange⟩
    obtain ⟨id, hid, rfl⟩ := List.mem_map.1 (htokens ▸ List.mem_append_left _ hu)
    exact ⟨id, hid, hrange⟩

end Tiled

end Tree.Planted

theorem lossless_parse (text : String) (o : Options) : (parse text o).tree.Lossless text := by
  obtain ⟨f, ds, d, h⟩ := Reading.exists_reads o.nestingLimit [] true (.ofText text.toList)
  exact (Reading.parse_of_reads h).1.lossless h.tiles h.rest_eq_nil h.kind_ne_eof

/-! ### Trees have no more than two nodes a byte -/

namespace Reading

theorem size_heading (block : Block) (c opener : Cursor) :
    (heading block c opener).size = (heading block c opener).terminals.length ∧
      0 < (heading block c opener).size := by
  unfold heading
  split <;> exact ⟨rfl, Nat.succ_pos _⟩

/-- Each branch is counted with the terminal that opens it. -/
theorem Reads.size_le {limit : Nat} {around : List Block} {fresh : Bool} {c d : Cursor} {f : Forest}
    {ds : List Diagnostic} (h : Reads limit around fresh c f ds d) :
    f.size ≤ 2 * f.terminals.length := by
  induction h with
  | stop => exact Nat.zero_le _
  | blank _ _ ih => exact ih
  | take _ _ _ ih =>
    rw [Forest.size, Forest.terminals, List.length_cons]
    omega
  | @closed _ _ block c opener d _ _ _ _ _ _ _ _ _ _ _ ihi ihn =>
    obtain ⟨hheading, -⟩ := size_heading block c opener
    have hclosing : (closing block d).size = 1 ∧ (closing block d).terminals.length = 1 := ⟨rfl, rfl⟩
    simp only [Forest.size, Forest.terminals, Forest.size_append, Forest.terminals_append,
      List.length_append]
    omega
  | @unclosed _ _ block c opener _ _ _ _ _ _ _ _ ih =>
    obtain ⟨hheading, hpos⟩ := size_heading block c opener
    simp only [Forest.size, Forest.terminals, Forest.size_append, Forest.terminals_append,
      List.length_append, List.length_nil]
    omega

end Reading

/-- The root and the end aside, each node has a byte of its own or that of its opening delimiter. -/
theorem size_parse_le (text : String) (o : Options) :
    (parse text o).tree.size ≤ 2 * text.utf8ByteSize + 2 := by
  obtain ⟨f, ds, d, h⟩ := Reading.exists_reads o.nestingLimit [] true (.ofText text.toList)
  have hplanted := (Reading.parse_of_reads h).1
  have hnodes := h.size_le
  have hterminals : 0 + f.terminals.length ≤ d.offset := h.tiles.length_le
  have hend := ((in_ofText text.toList).reaches h.reaches).offset_eq h.rest_eq_nil
  rw [hplanted.size_eq, Forest.size_append, ← byteSize_toList]
  simp only [Forest.size]
  omega

/-- Blocks without an end have as many nodes as there can be. -/
example : (parse "[[[" ⟨256⟩).tree.size = 2 * 3 + 2 := by decide +kernel

/-- The places of all nodes are told by 32 bits. -/
theorem lt_uint32_of_lt_size {text : String} {o : Options} {id : NodeId}
    (h : 2 * text.utf8ByteSize + 2 ≤ UInt32.size) (hid : id < (parse text o).tree.size) :
    id < UInt32.size :=
  Nat.lt_of_lt_of_le hid (Nat.le_trans (size_parse_le text o) h)

end MplWorkbench
