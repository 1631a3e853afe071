import MplWorkbench.Proofs.Lexeme.Recognition
import MplWorkbench.Proofs.Reading.Descent

/-! What is spelled right is read as such.

The first character of a terminal, and the one after it, announce the right
opening: no name is taken for a number, no mark for a label. So a terminal that
is spelled right, and ends where it should, is a step of the story without a
defect (`Spells.reads`), and so is the heading of a block (`begins_label`). -/
namespace MplWorkbench.Reading

open Cursor Lexeme

variable {limit : Nat} {around : List Block} {fresh : Bool} {c d m : Cursor} {kind : Kind}
  {v w r : List Char} {x : Char} {f : Forest} {o : Opening}

/-! ### Openings -/

theorem unspaced?_eq_none (h : x ∉ reserved) (hne : x ≠ ',') : Opening.unspaced? x = none := by
  refine Option.eq_none_iff_forall_ne_some.2 fun o ho => ?_
  rcases unspaced?_eq_some_iff.1 ho with ⟨b, -, rfl, -⟩ | ⟨rfl, -⟩ | ⟨rfl, -⟩ | ⟨rfl, -⟩
  · exact h (by cases b <;> decide)
  · exact h (by decide)
  · exact h (by decide)
  · exact hne rfl

theorem announces_spaced (hc : c.rest = x :: r) (hblank : isBlank x = false)
    (hnone : Opening.unspaced? x = none) : Announces true c (Opening.spaced x r.head?) := by
  refine ⟨x, by rw [current, hc]; rfl, hblank, ?_⟩
  rw [fst_classify, hnone, following, hc]
  rfl

/-- Letters and digits announce spaced expressions, the comma aside. -/
theorem announces_of_not_mem (h : x ∉ reserved) (hne : x ≠ ',') (hc : c.rest = x :: r) :
    Announces true c (Opening.spaced x r.head?) := by
  have hblank : isBlank x = false :=
    Bool.eq_false_iff.2 fun hblank => h (mem_reserved_of_isBlank hblank)
  exact announces_spaced hc hblank (unspaced?_eq_none h hne)

theorem announces_sign (hx : isSign x) (hc : c.rest = x :: r) :
    Announces true c (Opening.spaced x r.head?) := by
  rcases Bool.or_eq_true_iff.1 hx with hx | hx <;> obtain rfl := eq_of_beq hx
  · exact announces_spaced hc rfl rfl
  · exact announces_spaced hc rfl rfl

/-- No delimiter that closes something announces anything. -/
theorem Announces.closes_eq_false (h : Announces fresh c o) (ho : o ≠ .stray) :
    closes around c = false := by
  obtain ⟨x, hx, -, heq⟩ := h
  cases around with
  | nil => rfl
  | cons block around =>
    have hne : x ≠ block.closingChar := by
      rintro rfl
      refine ho (heq.symm.trans ?_)
      rw [fst_classify]
      cases block <;> cases fresh <;> rfl
    simpa [closes, isAt, hx] using hne

/-- A mark announces an access, or the label it names. -/
theorem announces_mark (hx : x = '@' ∨ x = '!') (hc : c.rest = x :: r) :
    Announces true c (if r.head? = some ':' then .word else .access) := by
  rcases hx with rfl | rfl
  · exact announces_spaced hc rfl rfl
  · exact announces_spaced hc rfl rfl

theorem announces_member_name (hw : IsMemberName w) (hcomma : w.head? ≠ some ',')
    (hraw : w.head? ≠ some '«') (h : c.Takes w d) (hd : d.isAt isDigit = false) :
    Announces true c .word := by
  have hsigned {x : Char} {r : List Char} (hx : isSign x) (hr : r.head?.any isDigit = false)
      (hc : c.rest = x :: r) : Announces true c .word := by
    have hword : Opening.spaced x r.head? = .word :=
      spaced_eq_word_iff.2 (.inr (.inl ⟨hx, Bool.eq_false_iff.1 hr⟩))
    rw [← hword]
    exact announces_sign hx hc
  cases hw with
  | sign hx => exact hsigned hx hd h.rest_eq
  | @signed x y w hx hy hw =>
    have hdigit : isDigit y = false := by
      refine Bool.eq_false_iff.2 fun hdigit => ?_
      rcases Bool.or_eq_true_iff.1 hy with hy | hy
      · exact Bool.eq_false_iff.1 (isLetter_eq_false_of_isDigit hdigit) hy
      · exact Bool.eq_false_iff.1 (isSign_eq_false_of_isDigit hdigit) hy
    have hnext : (y :: (w ++ d.rest)).head?.any isDigit = false := hdigit
    exact hsigned hx hnext h.rest_eq
  | @letters x w hx hw =>
    have hne : x ≠ ',' := fun heq => hcomma (congrArg some heq)
    have hne' : x ≠ '«' := fun heq => hraw (congrArg some heq)
    have hword : Opening.spaced x (w ++ d.rest).head? = .word :=
      spaced_eq_word_iff.2 (.inr (.inr ⟨hx, hne'⟩))
    rw [← hword]
    exact announces_of_not_mem (not_mem_reserved_of_isLetter hx) hne h.rest_eq

/-- A number begins with a digit, or with a sign and a digit. -/
theorem announces_number (hw : IsHex w ∨ IsSigned w) (h : c.Takes w d) :
    Announces true c .number := by
  have hdigit {x : Char} {r : List Char} (hx : isDigit x) (hc : c.rest = x :: r) :
      Announces true c .number := by
    have hne : x ≠ ',' := by
      rintro rfl
      contradiction
    have hnumber : Opening.spaced x r.head? = .number := spaced_eq_number_iff.2 (.inl hx)
    rw [← hnumber]
    exact announces_of_not_mem (not_mem_reserved_of_isDigit hx) hne hc
  rcases hw with hw | hw
  · cases hw with
    | digits => exact hdigit (x := '0') rfl h.rest_eq
  · cases hw with
    | unsigned hw =>
      obtain ⟨x, r, rfl, hx⟩ := hw.isDigit
      exact hdigit hx h.rest_eq
    | @signed x w hx hw =>
      obtain ⟨y, r, rfl, hy⟩ := hw.isDigit
      have hnumber : Opening.spaced x (y :: (r ++ d.rest)).head? = .number :=
        spaced_eq_number_iff.2 (.inr ⟨hx, hy⟩)
      rw [← hnumber]
      exact announces_sign hx h.rest_eq

theorem announces_of_isNumber (hw : IsNumber w) (h : c.Takes w d) : Announces true c .number := by
  cases hw with
  | whole hw => exact announces_number hw h
  | signed hw =>
    obtain ⟨m, hm, -⟩ := h.split
    exact announces_number hw hm
  | unsigned hw =>
    obtain ⟨m, hm, -⟩ := h.split
    exact announces_number (hw.imp_right .unsigned) hm

theorem announces_of_isReal (hw : IsReal w) (h : c.Takes w d) : Announces true c .number := by
  cases hw with
  | fraction hw =>
    obtain ⟨m₂, h, -⟩ := h.split
    obtain ⟨m₁, h, -⟩ := h.split
    obtain ⟨m, hm, -⟩ := h.split
    exact announces_number hw hm
  | exponent hw =>
    obtain ⟨m₁, h, -⟩ := h.split
    obtain ⟨m, hm, -⟩ := h.split
    exact announces_number (.inr hw) hm

/-! ### Terminals -/

/-- The story of a terminal that is read in full, up to what follows. -/
theorem reads_take {l : Lexeme} (ho : Announces fresh c o) (hstray : o ≠ .stray)
    (hl : Yields limit around.length fresh c l false) (heq : l = .upTo m kind [])
    (hnext : Reads limit around false m f [] d) :
    Reads limit around fresh c (.leaf kind c.position m.offset f) [] d := by
  subst heq
  exact .take (ho.closes_eq_false hstray) hl hnext

theorem reads_name (hw : IsName w) (h : c.Takes w m) (hm : m.isAt (goesOn .name w) = false)
    (hnext : Reads limit around false m f [] d) :
    Reads limit around true c (.leaf .name c.position m.offset f) [] d := by
  cases hw with
  | @mark x hx =>
    have hgoes : goesOn .name [x] = fun y => y == ':' || beginsName y := by
      funext y
      rcases hx with rfl | rfl <;> rfl
    rw [hgoes, isAt_or, Bool.or_eq_false_iff] at hm
    have hcolon : ¬ m.rest.head? = some ':' := by
      intro hhead
      simp [isAt, current, hhead] at hm
    have hc : c.rest = x :: m.rest := h.rest_eq
    have ho := announces_mark hx hc
    rw [if_neg hcolon] at ho
    exact reads_take ho Opening.noConfusion (.access ho) (access_mark h hm.2) hnext
  | member hw hcomma hraw =>
    have hgoes : goesOn .name w = fun y => y == ':' || isNameChar y := by
      funext y
      obtain ⟨x, v, rfl, hx⟩ := hw.head
      obtain ⟨hmark, -⟩ := isMark_eq_false hx
      simp_all [goesOn]
    rw [hgoes, isAt_or, Bool.or_eq_false_iff] at hm
    obtain ⟨hcolon, hname⟩ := hm
    have hdigit : m.isAt isDigit = false :=
      isAt_eq_false_mono (fun y hy => by simp [isNameChar, hy]) hname
    have hplain : plainName c = m :=
      plainName_eq (.member hw) h (by rwa [goesOnPlain_of_isMemberName hw])
    have ho := announces_member_name hw hcomma hraw h hdigit
    have hl : Yields limit around.length true c (.upTo (plainName c) .name []) false :=
      .name ho (by rwa [hplain])
    exact reads_take ho Opening.noConfusion hl (by rw [hplain]) hnext

theorem reads_access (hx : x = '@' ∨ x = '!') (hw : IsPlainName w) (h : c.Takes (x :: w) m)
    (hm : m.isAt (goesOnPlain w) = false) (hnext : Reads limit around false m f [] d) :
    Reads limit around true c
      (.leaf (if x = '@' then .nameRead else .nameWrite) c.position m.offset f) [] d := by
  have hc : c.rest = x :: (w ++ m.rest) := h.rest_eq
  have hcolon : ¬ (w ++ m.rest).head? = some ':' := by
    intro hhead
    have hbegins := hw.beginsName
    cases w with
    | nil => contradiction
    | cons y w =>
      obtain rfl := Option.some.inj hhead
      contradiction
  have ho := announces_mark hx hc
  rw [if_neg hcolon] at ho
  exact reads_take ho Opening.noConfusion (.access ho) (access_eq hx hw h hm) hnext

theorem reads_member {named : Cursor} (hmark : memberMark c = (kind, named)) (hw : IsMemberName w)
    (hc : c.isAt (· == '.')) (h : named.Takes w m) (hm : m.isAt isNameChar = false)
    (hnext : Reads limit around false m f [] d) :
    Reads limit around fresh c (.leaf kind c.position m.offset f) [] d := by
  have ho : Announces fresh c .member := announces_member_iff.2 hc
  exact reads_take ho Opening.noConfusion (.member ho) (member_eq hmark hw h hm) hnext

/-! ### Behind a comment

Reading a comment goes on at the end of its line, past the spaces there. Told from the end of the
comment, the story is the same. -/

theorem Announces.isAt_isBlank (h : Announces fresh c o) : c.isAt isBlank = false := by
  obtain ⟨x, hx, hblank, -⟩ := h
  rw [isAt, hx]
  exact hblank

theorem Begins.isAt_isBlank {block : Block} {opener : Cursor} (h : Begins fresh c block opener) :
    c.isAt isBlank = false := by
  cases h with
  | bracket ho => exact ho.isAt_isBlank
  | label ho => exact ho.isAt_isBlank

/-- The only terminals at blanks are line breaks. -/
theorem Yields.of_isAt_isBlank {depth : Nat} {again : Bool} {l : Lexeme}
    (h : Yields limit depth fresh c l again) (hc : c.isAt isBlank) :
    c.isAt isBreak ∧ ∀ fresh', Yields limit depth fresh' c l again := by
  cases h with
  | lineBreak hbreak => exact ⟨hbreak, fun _ => .lineBreak hbreak⟩
  | region hb => exact absurd hc (Bool.eq_false_iff.1 hb.isAt_isBlank)
  | name ho => exact absurd hc (Bool.eq_false_iff.1 ho.isAt_isBlank)
  | member ho | comment ho | comma ho | quoted ho | raw ho | number ho | access ho | stray ho =>
    exact absurd hc (Bool.eq_false_iff.1 ho.isAt_isBlank)

theorem Yields.isAt_isSpace {depth : Nat} {again : Bool} {l : Lexeme}
    (h : Yields limit depth fresh c l again) : c.isAt isSpace = false := by
  refine Bool.eq_false_iff.2 fun hspace => ?_
  have hblank : c.isAt isBlank := isAt_mono (fun _ => isBlank_of_isSpace) hspace
  obtain ⟨x, r, hx, hbreak⟩ := rest_eq_of_isAt (h.of_isAt_isBlank hblank).1
  rw [isAt_of_rest_eq hx, isSpace_eq_false_of_isBreak hbreak] at hspace
  contradiction

variable {ds : List Diagnostic}

theorem Reads.of_isAt_isSpace (h : Reads limit around fresh c f ds d) (hc : c.isAt isSpace) :
    Reads limit around true c.advance f ds d := by
  have hblank : c.isAt isBlank := isAt_mono (fun x => isBlank_of_isSpace) hc
  cases h with
  | stop hstop =>
    rcases hstop with hend | hend
    · exact absurd hend (rest_ne_nil_of_isAt hc)
    · exact absurd hend (Bool.eq_false_iff.1 (closes_eq_false_of_isBlank hblank))
  | blank _ hnext => exact hnext
  | take _ hl => exact absurd hc (Bool.eq_false_iff.1 hl.isAt_isSpace)
  | closed _ hb => exact absurd hblank (Bool.eq_false_iff.1 hb.isAt_isBlank)
  | unclosed _ hb => exact absurd hblank (Bool.eq_false_iff.1 hb.isAt_isBlank)

/-- At the end of a line, it does not matter whether an expression may begin. -/
theorem Reads.of_line_end (h : Reads limit around fresh c f ds d)
    (hc : c.rest = [] ∨ c.isAt isBreak) (fresh' : Bool) : Reads limit around fresh' c f ds d := by
  rcases hc with hend | hbreak
  · cases h with
    | stop hstop => exact .stop hstop
    | blank hspace => exact absurd hend (rest_ne_nil_of_isAt hspace)
    | take _ hl => exact absurd hend hl.rest_ne_nil
    | closed _ hb => exact absurd hend hb.rest_ne_nil
    | unclosed _ hb => exact absurd hend hb.rest_ne_nil
  · have hblank : c.isAt isBlank := isAt_mono (fun x => isBlank_of_isBreak) hbreak
    cases h with
    | stop hstop => exact .stop hstop
    | blank hspace hnext => exact .blank hspace hnext
    | take hopen hl hnext => exact .take hopen ((hl.of_isAt_isBlank hblank).2 fresh') hnext
    | closed _ hb => exact absurd hblank (Bool.eq_false_iff.1 hb.isAt_isBlank)
    | unclosed _ hb => exact absurd hblank (Bool.eq_false_iff.1 hb.isAt_isBlank)

theorem Reads.skipWhile_isSpace {rest : List Char} {p : Position}
    (h : Reads limit around fresh ⟨rest, p⟩ f ds d)
    (hline : (rest.dropWhile isSpace).head?.all isBreak) (fresh' : Bool) :
    Reads limit around fresh' (skipWhile ⟨rest, p⟩ isSpace) f ds d := by
  induction rest generalizing fresh p with
  | nil => exact h.of_line_end (.inl rfl) fresh'
  | cons x xs ih =>
    by_cases hspace : isSpace x
    · have hat : isAt ⟨x :: xs, p⟩ isSpace := hspace
      rw [List.dropWhile_cons_of_pos hspace] at hline
      rw [skipWhile_of_isAt hat]
      exact ih (h.of_isAt_isSpace hat) hline
    · rw [List.dropWhile_cons_of_neg hspace] at hline
      rw [skipWhile, skipFrom, if_neg hspace]
      exact h.of_line_end (.inr hline) fresh'

/-! ### Items -/

/-- A terminal that is spelled right, where it may begin, is read up to what follows. -/
theorem reads_of_spells (hw : Spells kind w) (hfresh : fresh = true ∨ isUnspaced kind)
    (h : c.Takes w m) (hstops : stops kind w m.rest) (hnext : Reads limit around false m f [] d) :
    Reads limit around fresh c (.leaf kind c.position m.offset f) [] d := by
  have hgoes (hkind : kind ≠ .comment) : m.isAt (goesOn kind w) = false := by
    rw [stops, if_neg hkind] at hstops
    exact Bool.not_eq_true' _ ▸ hstops
  have hdot {w : List Char} (h : c.Takes ('.' :: w) m) : c.isAt (· == '.') := h.isAt
  cases hw with
  | name hw =>
    obtain rfl := hfresh.resolve_right (by decide)
    exact reads_name hw h (hgoes (by decide)) hnext
  | nameRead hw =>
    obtain rfl := hfresh.resolve_right (by decide)
    exact reads_access (.inl rfl) hw h (hgoes (by decide)) hnext
  | nameWrite hw =>
    obtain rfl := hfresh.resolve_right (by decide)
    exact reads_access (.inr rfl) hw h (hgoes (by decide)) hnext
  | nameMember hw =>
    exact reads_member (memberMark_plain hw h) hw (hdot h) h.tail (hgoes (by decide)) hnext
  | nameReadMember hw =>
    exact reads_member (memberMark_read h) hw (hdot h) h.tail.tail (hgoes (by decide)) hnext
  | nameWriteMember hw =>
    exact reads_member (memberMark_write h) hw (hdot h) h.tail.tail (hgoes (by decide)) hnext
  | number hw =>
    obtain rfl := hfresh.resolve_right (by decide)
    have ho := announces_of_isNumber hw h
    exact reads_take ho Opening.noConfusion (.number ho) (number_eq hw h (hgoes (by decide))) hnext
  | real hw =>
    obtain rfl := hfresh.resolve_right (by decide)
    have ho := announces_of_isReal hw h
    have heq := number_eq_real hw h (hgoes (by decide))
    exact reads_take ho Opening.noConfusion (.number ho) heq hnext
  | quoted hw =>
    obtain rfl := hfresh.resolve_right (by decide)
    have ho : Announces true c .quoted := announces_spaced h.rest_eq rfl rfl
    exact reads_take ho Opening.noConfusion (.quoted ho) (quoted_eq hw h) hnext
  | raw hw =>
    obtain rfl := hfresh.resolve_right (by decide)
    have ho : Announces true c .raw := announces_spaced h.rest_eq rfl rfl
    exact reads_take ho Opening.noConfusion (.raw ho) (raw_eq hw h) hnext
  | comma =>
    have ho : Announces fresh c .comma := announces_comma_iff.2 h.isAt
    exact reads_take ho Opening.noConfusion (.comma ho) (by rw [single, h.advance_eq]) hnext
  | comment hw hlast =>
    have ho : Announces fresh c .comment := announces_comment_iff.2 h.isAt
    have heq := comment_eq hw hlast h hstops
    have hl : Yields limit around.length fresh c _ false := .comment ho
    rw [heq] at hl
    have hafter := hnext.skipWhile_isSpace hstops false
    exact .take (ho.closes_eq_false Opening.noConfusion) hl hafter

theorem begins_label (hw : IsName w) (h : c.Takes w m) (hm : m.isAt (· == ':')) :
    Begins true c (labelAt m) m := by
  have hrest : ∃ r, m.rest = ':' :: r := by
    obtain ⟨x, r, hx, heq⟩ := rest_eq_of_isAt hm
    exact ⟨r, by rw [hx, eq_of_beq heq]⟩
  obtain ⟨r, hr⟩ := hrest
  have hcolon (w : List Char) : goesOnPlain w ':' = false := by
    unfold goesOnPlain
    repeat' split
    all_goals rfl
  have hgoes : m.isAt (goesOnPlain w) = false := (isAt_of_rest_eq hr).trans (hcolon w)
  have hbegins (ho : Announces true c .word) (hplain : plainName c = m) :
      Begins true c (labelAt m) m := by
    subst hplain
    exact .label ho hm
  cases hw with
  | @mark x hx =>
    have hc : c.rest = x :: m.rest := h.rest_eq
    have ho := announces_mark hx hc
    rw [hr, List.head?_cons, if_pos rfl] at ho
    exact hbegins ho (plainName_eq (.mark hx) h hgoes)
  | member hw hcomma hraw =>
    have hdigit : m.isAt isDigit = false := (isAt_of_rest_eq hr).trans rfl
    have ho := announces_member_name hw hcomma hraw h hdigit
    exact hbegins ho (plainName_eq (.member hw) h hgoes)

end MplWorkbench.Reading
