import MplWorkbench.Proofs.Lexeme.Spelling
import MplWorkbench.Proofs.Reading.Recognition
import MplWorkbench.Proofs.Reading.Totality

/-! Terminals tell the truth about their text.

Wherever a terminal was taken, between other things or in front of what makes no
sense, its text befits its kind (`TakenAt.spelled`). So an error aside, the kinds of
the terminals of a tree say how these are spelled (`truthful_parse`).

Numbers and reals are known by that: they are exactly the literals of their
languages (`numerals_parse`). -/
namespace MplWorkbench

open Cursor

namespace Reading

open Forest Lexeme

variable {limit depth : Nat} {fresh again : Bool} {c : Cursor} {l : Lexeme} {u : Terminal}

/-! ### First characters -/

/-- A number begins with a digit, or with a sign and a digit. -/
theorem Announces.isAt_sign (h : Announces fresh c .number) : (sign c).isAt isDigit := by
  obtain ⟨-, x, hx, hnumber⟩ := h.spaced trivial Opening.noConfusion
  have hat (p : Char → Bool) : c.isAt p = p x := by rw [isAt, hx]; rfl
  rcases spaced_eq_number_iff.1 hnumber with hdigit | ⟨hsign, hnext⟩
  · rw [sign, hat, isSign_eq_false_of_isDigit hdigit, if_neg Bool.false_ne_true, hat]
    exact hdigit
  · rw [sign, hat, if_pos hsign, isAt, current, rest_advance]
    exact hnext

theorem Announces.exists_takes_name (h : Announces fresh c .word) :
    ∃ w, c.Takes w (plainName c) ∧ IsName w := by
  have hspaced : Opening.word.IsSpaced := trivial
  obtain ⟨x, hx, -, ho⟩ := h
  obtain ⟨-, hnone, hword⟩ := (fst_classify_eq_iff_of_isSpaced hspaced Opening.noConfusion).1 ho
  have hcases := spaced_eq_word_iff.1 hword
  have hbegins : beginsName x := by
    rcases hcases with ⟨rfl | rfl, -⟩ | ⟨hsign, -⟩ | ⟨hletter, -⟩
    · decide
    · decide
    · rcases Bool.or_eq_true_iff.1 hsign with heq | heq <;> rw [eq_of_beq heq] <;> decide
    · rw [beginsName, hletter, Bool.or_true]
  have hraw : x ≠ '«' := by
    rintro rfl
    rcases hcases with ⟨hmark | hmark, -⟩ | ⟨hsign, -⟩ | ⟨-, hne⟩ <;> contradiction
  obtain ⟨w, hw, hname⟩ := exists_takes_plainName (c := c) (by rw [isAt, hx]; exact hbegins)
  have hhead : w.head? = some x := by
    have hfirst := hname.beginsName
    cases w with
    | nil => contradiction
    | cons y w => rwa [current, hw.rest_eq] at hx
  refine ⟨w, hw, hname.isName ?_ ?_ ?_⟩ <;> rw [hhead]
  · rintro ⟨⟩
    contradiction
  · rintro ⟨⟩
    contradiction
  · exact fun heq => hraw (Option.some.inj heq)

/-! ### Terminals of a story -/

/-- From the cursor to its end, the terminal has a text that befits it, and a lone carriage return
has no line feed behind it. -/
def Spelled (c : Cursor) (u : Terminal) : Prop :=
  ∃ w e, c.Takes w e ∧ e.offset = u.stop ∧ Befits u.kind w ∧
    (u.kind = .cr → e.isAt (· == '\n') = false)

theorem spelled_of_befits {w : List Char} {e : Cursor} {kind : Kind} {start : Position}
    (hw : c.Takes w e) (h : Befits kind w) (hkind : kind ≠ .cr) :
    Spelled c ⟨kind, start, e.offset⟩ := ⟨w, e, hw, rfl, h, fun heq => absurd heq hkind⟩

/-- A terminal that ends where reading goes on, and is no line break. -/
theorem spelled_of_exists {kinds : List Kind} (hstop : l.stop = l.after.offset)
    (hkind : l.kind ∈ kinds) (hkinds : .cr ∉ kinds) {start : Position}
    (h : ∃ w, c.Takes w l.after ∧ Befits l.kind w) : Spelled c ⟨l.kind, start, l.stop⟩ := by
  obtain ⟨w, hw, hbefits⟩ := h
  rw [hstop]
  exact spelled_of_befits hw hbefits fun heq => hkinds (heq ▸ hkind)

theorem spelled_string {x : Char} (hx : x = '"' ∨ x = '«') (hc : c.isAt (· == x))
    (hafter : c.advance.Reaches l.after) {start : Position} :
    Spelled c ⟨.string, start, l.after.offset⟩ := by
  obtain ⟨y, r, hy, heq⟩ := rest_eq_of_isAt hc
  obtain rfl := eq_of_beq heq
  obtain ⟨w, hw⟩ := hafter.takes
  exact spelled_of_befits ((takes_advance hy).trans hw) (.string hx) Kind.noConfusion

theorem Yields.spelled (h : Yields limit depth fresh c l again) (hl : l.kind ≠ .someError) :
    Spelled c ⟨l.kind, c.position, l.stop⟩ := by
  cases h with
  | lineBreak hbreak =>
    obtain ⟨w, hw, hbefits, hfeed⟩ := exists_takes_lineBreak hbreak
    refine ⟨w, _, hw, ?_, hbefits, hfeed⟩
    rcases lineBreak_cases c with ⟨-, h⟩ | ⟨-, h⟩ | h <;> rw [h] <;> rfl
  | member ho =>
    have hkind : (memberMark c).1 ∈ [Kind.nameMember, .nameReadMember, .nameWriteMember] := by
      rcases memberMark_cases c with ⟨h, -⟩ | ⟨h | h, -⟩ <;> rw [h] <;> decide
    have hmember : (Lexeme.member c).stop = (Lexeme.member c).after.offset ∧
        (Lexeme.member c).kind = (memberMark c).1 := by
      rcases member_cases c with ⟨after, -, h⟩ | ⟨-, h⟩ <;> rw [h] <;> exact ⟨rfl, rfl⟩
    exact spelled_of_exists hmember.1 (hmember.2 ▸ hkind) (by decide)
      (exists_takes_member (announces_member_iff.1 ho))
  | comment ho =>
    obtain ⟨w, gap, e, hw, hstop, -, -, hbreaks, hlast⟩ :=
      comment_takes (announces_comment_iff.1 ho)
    rw [hstop]
    exact spelled_of_befits hw (.comment hbreaks hlast) Kind.noConfusion
  | comma ho =>
    obtain ⟨x, r, hx, heq⟩ := rest_eq_of_isAt (announces_comma_iff.1 ho)
    obtain rfl := eq_of_beq heq
    exact spelled_of_befits (takes_advance hx) (.fixed rfl) Kind.noConfusion
  | quoted ho => exact spelled_string (.inl rfl) ho.quoted.2 (quoted_advances c).reaches
  | raw ho => exact spelled_string (.inr rfl) ho.raw.2 (raw_advances c).reaches
  | number ho =>
    have hnumber := number_sensible c
    exact spelled_of_exists hnumber.stop_eq hnumber.kind_mem (by decide)
      (exists_takes_number ho.isAt_sign hl)
  | access ho =>
    have haccess := access_sensible c
    exact spelled_of_exists haccess.stop_eq haccess.kind_mem (by decide)
      (exists_takes_access ho.access.2)
  | name ho =>
    obtain ⟨w, hw, hname⟩ := ho.exists_takes_name
    exact spelled_of_befits hw (.name hname) Kind.noConfusion
  | stray => cases fresh <;> exact absurd rfl hl
  | region => exact absurd rfl hl

theorem TakenAt.spelled (h : TakenAt limit c u) (hu : u.kind ≠ .someError) : Spelled c u := by
  cases h with
  | lexeme hl => exact hl.spelled hu
  | name ho =>
    obtain ⟨w, hw, hname⟩ := ho.exists_takes_name
    exact spelled_of_befits hw (.name hname) Kind.noConfusion
  | @opener block body hbody =>
    have hspelling : spelling? block.opener = some block.opening := by cases block <;> rfl
    exact spelled_of_befits hbody (.fixed hspelling) (by cases block <;> exact Kind.noConfusion)
  | @closer block hend =>
    obtain ⟨x, r, hx, heq⟩ := rest_eq_of_isAt hend
    have hspelling : spelling? block.closer = some [x] := by
      rw [eq_of_beq heq]
      cases block <;> rfl
    exact spelled_of_befits (takes_advance hx) (.fixed hspelling)
      (by cases block <;> exact Kind.noConfusion)

end Reading

/-! ### Terminals of a tree -/

/-- Reading a text comes by each terminal of its tree, which is spelled as its kind tells. -/
theorem exists_spelled {text : String} {o : Options} {id : NodeId}
    (hid : id ∈ (parse text o).tree.tokens) (hkind : (parse text o).tree.kind id ≠ .someError) :
    ∃ a, (ofText text.toList).Reaches a ∧
      a.position = ((parse text o).tree.terminalAt id).start ∧
      Reading.Spelled a ((parse text o).tree.terminalAt id) := by
  obtain ⟨f, ds, d, h⟩ := Reading.exists_reads o.nestingLimit [] true (.ofText text.toList)
  have hmem := List.mem_map_of_mem (f := (parse text o).tree.terminalAt) hid
  rw [(Reading.parse_of_reads h).1.map_terminalAt] at hmem
  rcases List.mem_append.1 hmem with hmem | hmem
  · obtain ⟨a, ha, htaken⟩ := h.meets _ hmem
    exact ⟨a, ha, htaken.position_eq, htaken.spelled hkind⟩
  · rw [List.mem_singleton.1 hmem]
    exact ⟨d, h.reaches, rfl, Reading.spelled_of_befits (.refl d) (.fixed rfl) Kind.noConfusion⟩

/-- The text of a terminal, between the cursors where it begins and ends. -/
theorem exists_takes {text : String} {o : Options} {id : NodeId}
    (hid : id ∈ (parse text o).tree.tokens) (hkind : (parse text o).tree.kind id ≠ .someError) :
    ∃ w a e, (ofText text.toList).Reaches a ∧ a.Takes w e ∧
      a.position = ((parse text o).tree.terminalAt id).start ∧
      e.offset = (parse text o).tree.stop id ∧ (parse text o).tree.textOf id = .ok (.ofList w) ∧
      Lexeme.Befits ((parse text o).tree.kind id) w ∧
      ((parse text o).tree.kind id = .cr → e.isAt (· == '\n') = false) := by
  obtain ⟨f, ds, d, h⟩ := Reading.exists_reads o.nestingLimit [] true (.ofText text.toList)
  obtain ⟨a, ha, hstart, w, e, hw, hstop, hbefits, hfeed⟩ := exists_spelled hid hkind
  refine ⟨w, a, e, ha, hw, hstart, hstop, ?_, hbefits, hfeed⟩
  refine (Reading.parse_of_reads h).1.textOf_eq ?_
  rw [Forest.Terminal.span, ← hstart, ← hstop]
  exact hw.slice?_eq ((in_ofText text.toList).reaches ha)

theorem stop_of_spelling? {text : String} {o : Options} {id : NodeId} {w : List Char}
    (hid : id ∈ (parse text o).tree.tokens)
    (hw : Lexeme.spelling? ((parse text o).tree.kind id) = some w) :
    (parse text o).tree.stop id = (parse text o).tree.start id + byteSize w := by
  have hkind : (parse text o).tree.kind id ≠ .someError := by
    intro heq
    rw [heq] at hw
    contradiction
  obtain ⟨v, a, e, -, hv, hstart, hstop, -, hbefits, -⟩ := exists_takes hid hkind
  obtain rfl := hbefits.eq_of_spelling? hw
  rw [← hstop, hv.offset_eq]
  exact congrArg (·.offset + byteSize v) hstart

/-- The character that a slice of a text begins with is the one at the cursor there. -/
theorem Cursor.In.isAt_of_slice? {text : List Char} {c : Cursor} {x : Char} {stop : Nat}
    (hc : In text c) (h : slice? text ⟨c.offset, stop⟩ = some [x]) : c.isAt (· == x) := by
  obtain ⟨before, htext, hoffset⟩ := hc
  obtain ⟨front, back, htext', hstart, -⟩ := slice?_eq_some_iff.1 h
  have hsplit := splitAt?_append before c.rest
  have hsplit' : splitAt? text c.offset = some (front, x :: back) := by
    rw [splitAt?_eq_some_iff, htext', List.append_assoc]
    exact ⟨rfl, hstart⟩
  rw [← htext, ← hoffset, hsplit', Option.some_inj, Prod.mk.injEq] at hsplit
  rw [isAt_of_rest_eq hsplit.2.symm]
  exact beq_self_eq_true x

namespace Tree

variable {t : Tree} {id : NodeId}

/-- The bare name is what stands behind the access mark. -/
theorem bareName_of_textOf {bare : List Char}
    (h : t.textOf id = .ok (.ofList (Lexeme.accessMark (t.kind id) ++ bare))) :
    t.bareName id = .ok (.ofList bare) := by
  rw [bareName, h]
  dsimp only [bind, Except.bind]
  rw [String.toList_ofList, ← Lexeme.byteSize_accessMark, splitAt?_append]
  rfl

/-- The kinds of the terminals say how these are spelled. -/
structure Truthful (t : Tree) : Prop where
  befits : ∀ id ∈ t.tokens, t.kind id ≠ .someError →
    ∃ w, t.textOf id = .ok (.ofList w) ∧ Lexeme.Befits (t.kind id) w
  /-- Behind a lone carriage return stands no line feed. -/
  lone : ∀ id ∈ t.tokens, t.kind id = .cr →
    slice? t.text.toList ⟨t.stop id, t.stop id + 1⟩ ≠ some ['\n']
  /-- The bare name lacks the access mark, and no more. -/
  bare : ∀ id ∈ t.tokens, (t.kind id).isName → ∃ bare : String,
    t.textOf id = .ok (.ofList (Lexeme.accessMark (t.kind id)) ++ bare) ∧
      t.bareName id = .ok bare
  marked : ∀ id ∈ t.tokens, 0 < (t.kind id).sigilSize → t.bareName id ≠ t.textOf id

end Tree

theorem truthful_parse (text : String) (o : Options) : (parse text o).tree.Truthful := by
  let t := (parse text o).tree
  have hbare {id : NodeId} (hid : id ∈ t.tokens) (hname : (t.kind id).isName) :
      ∃ bare, t.textOf id = .ok (.ofList (Lexeme.accessMark (t.kind id) ++ bare)) := by
    have hkind : t.kind id ≠ .someError := by
      intro heq
      rw [heq] at hname
      contradiction
    obtain ⟨w, -, -, -, -, -, -, htext, hbefits, -⟩ := exists_takes hid hkind
    obtain ⟨bare, rfl⟩ := hbefits.exists_bare
    exact ⟨bare, htext⟩
  refine ⟨fun id hid hkind => ?befits, fun id hid hkind hfeed => ?lone,
    fun id hid hname => ?bare, fun id hid hsize heq => ?marked⟩
  case befits =>
    obtain ⟨w, -, -, -, -, -, -, htext, hbefits, -⟩ := exists_takes hid hkind
    exact ⟨w, htext, hbefits⟩
  case lone =>
    have hne : t.kind id ≠ .someError := by rw [hkind]; exact Kind.noConfusion
    obtain ⟨f, ds, d, h⟩ := Reading.exists_reads o.nestingLimit [] true (.ofText text.toList)
    obtain ⟨w, a, e, ha, hw, -, hstop, -, -, hlone⟩ := exists_takes hid hne
    have hin : In text.toList e := ((in_ofText text.toList).reaches ha).takes hw
    rw [← hstop, (Reading.parse_of_reads h).1.text_eq] at hfeed
    exact Bool.eq_false_iff.1 (hlone hkind) (hin.isAt_of_slice? hfeed)
  case bare =>
    obtain ⟨bare, htext⟩ := hbare hid hname
    refine ⟨.ofList bare, ?_, Tree.bareName_of_textOf htext⟩
    rw [← String.ofList_append]
    exact htext
  case marked =>
    have hname : (t.kind id).isName := by
      revert hsize
      cases t.kind id <;> first | exact fun _ => rfl | exact fun h => absurd h (by decide)
    obtain ⟨bare, htext⟩ := hbare hid hname
    rw [Tree.bareName_of_textOf htext, htext, Except.ok.injEq, String.ofList_inj] at heq
    rw [← Lexeme.byteSize_accessMark, List.self_eq_append_left.1 heq] at hsize
    exact absurd hsize (Nat.lt_irrefl 0)

/-! ### Numbers -/

/-- The terminals of the kind are the words of the language: in every text each of them is one,
and a word by itself is read as one, without a defect. -/
structure Recognizes (o : Options) (kind : Kind) (language : List Char → Prop) : Prop where
  sound : ∀ text, ∀ id ∈ (parse text o).tree.tokens, (parse text o).tree.kind id = kind →
    ∃ word : String, (parse text o).tree.textOf id = .ok word ∧ language word.toList
  complete : ∀ word : String, language word.toList → (parse word o).diagnostics = [] ∧
    (parse word o).tree.tokens.map
        (fun id => ((parse word o).tree.kind id, (parse word o).tree.span id)) =
      [(kind, ⟨0, word.utf8ByteSize⟩), (.eof, .empty word.utf8ByteSize)]

/-- A terminal that is spelled right is read as what it is, if nothing else is there. -/
theorem parse_of_spells {kind : Kind} {word : String} (hw : Lexeme.Spells kind word.toList)
    (o : Options) : (parse word o).diagnostics = [] ∧
      (parse word o).tree.tokens.map
          (fun id => ((parse word o).tree.kind id, (parse word o).tree.span id)) =
        [(kind, ⟨0, word.utf8ByteSize⟩), (.eof, .empty word.utf8ByteSize)] := by
  obtain ⟨e, hall, hend⟩ : ∃ e, (ofText word.toList).Takes word.toList e ∧ e.rest = [] :=
    ⟨_, takes_skip (List.append_nil _).symm, by rw [rest_skip]; exact List.drop_length⟩
  have hoffset : e.offset = word.utf8ByteSize := by
    rw [((in_ofText word.toList).takes hall).offset_eq hend, byteSize_toList]
  have hstops : Lexeme.stops kind word.toList e.rest := by
    rw [hend, Lexeme.stops]
    split <;> rfl
  have hreads : Reading.Reads o.nestingLimit [] true (ofText word.toList)
      (.leaf kind .zero e.offset .nil) [] e :=
    Reading.reads_of_spells hw (.inl rfl) hall hstops (.stop (.inl hend))
  obtain ⟨hplanted, hclean⟩ := Reading.parse_of_reads hreads
  refine ⟨hclean, ?_⟩
  have htokens := congrArg (List.map fun u => (u.kind, u.span)) hplanted.map_terminalAt
  rw [List.map_map] at htokens
  refine htokens.trans ?_
  show [(kind, Span.mk 0 e.offset), (Kind.eof, .empty e.offset)] = _
  rw [hoffset]

theorem recognizes_of_befits (o : Options) {kind : Kind} {language : List Char → Prop}
    (hkind : kind ≠ .someError) (hsound : ∀ w, Lexeme.Befits kind w → language w)
    (hcomplete : ∀ w, language w → Lexeme.Spells kind w) : Recognizes o kind language where
  sound text id hid heq := by
    obtain ⟨w, -, -, -, -, -, -, htext, hbefits, -⟩ := exists_takes hid (heq ▸ hkind)
    exact ⟨.ofList w, htext, String.toList_ofList.symm ▸ hsound w (heq ▸ hbefits)⟩
  complete word hword := parse_of_spells (hcomplete _ hword) o

/-- Numbers and reals are their literals, in every text. -/
theorem numerals_parse (o : Options) :
    Recognizes o .number Lexeme.IsNumber ∧ Recognizes o .real Lexeme.IsReal :=
  ⟨recognizes_of_befits o Kind.noConfusion (fun _ h => h.numeral.1 rfl) fun _ => .number,
    recognizes_of_befits o Kind.noConfusion (fun _ h => h.numeral.2 rfl) fun _ => .real⟩

end MplWorkbench
