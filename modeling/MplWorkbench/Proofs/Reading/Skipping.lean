import MplWorkbench.Proofs.Lexeme.Words
import MplWorkbench.Proofs.Reading.Descent

/-! Skipping agrees with reading.

A block that is nested too deep is skipped by a scanner of its own, which counts
delimiters and knows of nothing but comments and strings. Piece by piece it goes
where reading goes, as long as reading meets no defect: it stands where a
terminal ends, it takes a string for one exactly where one may begin, and its
count is the number of blocks of this form around it.

`Reads.skipRegion`: along a story without diagnostics, skipping reaches its end
with the count it had. So it ends a region at the delimiter that closes the block
(`Begins.skipRegion_eq`). -/
namespace MplWorkbench

open Cursor

namespace Lexeme

variable {c d : Cursor} {x : Char} {r : List Char} {target : Block} {n : Nat} {separated : Bool}

/-! ### Comments and strings -/

theorem skipQuotedFrom_cons (xs : List Char) (p : Position) (hquote : x ≠ '"')
    (hescape : x ≠ '\\') :
    skipQuotedFrom (x :: xs) p = skipQuotedFrom xs (p.past x xs.head?) := by
  rw [skipQuotedFrom]
  · exact hquote
  · exact fun hx _ => hescape hx
  · exact fun _ _ hx _ => hescape hx

theorem skipQuotedFrom_eq (rest : List Char) (p : Position) :
    skipQuotedFrom rest p = (quotedInterior rest p).after := by
  fun_induction quotedInterior rest p with
  | case1 => rfl
  | case2 => rfl
  | case3 => rfl
  | case4 x xs p inside hbreak ih =>
    have hx : x ≠ '"' ∧ x ≠ '\\' := by
      rcases Bool.or_eq_true_iff.1 hbreak with hx | hx <;> rw [eq_of_beq hx] <;> decide
    rw [skipQuotedFrom_cons xs inside hx.1 hx.2] at ih
    rw [skipQuotedFrom]
    exact ih
  | case5 x xs p inside _ ih => rw [skipQuotedFrom]; exact ih
  | case6 xs p ih =>
    rw [skipQuotedFrom_cons xs p (by decide) (by decide)]
    exact ih
  | case7 x xs p hquote hlone hescape hreturn ih =>
    have hx : x ≠ '\\' := by
      rintro rfl
      cases xs with
      | nil => exact hlone rfl rfl
      | cons y ys => exact hescape y ys rfl rfl
    rw [skipQuotedFrom_cons xs p hquote hx]
    exact ih

theorem skipRawFrom_cons (depth : Nat) (xs : List Char) (p : Position) (hopen : x ≠ '«')
    (hclose : x ≠ '»') :
    skipRawFrom depth (x :: xs) p = skipRawFrom depth xs (p.past x xs.head?) := by
  rw [skipRawFrom]
  · exact hopen
  · exact hclose

theorem skipRawFrom_eq (depth : Nat) (rest : List Char) (p : Position) :
    skipRawFrom depth rest p = (rawInterior depth rest p).after := by
  fun_induction rawInterior depth rest p with
  | case1 => rfl
  | case2 depth xs p ih => rw [skipRawFrom, ih]
  | case3 depth xs p after hdepth => rw [skipRawFrom, if_pos hdepth]
  | case4 depth xs p after hdepth ih => rw [skipRawFrom, if_neg hdepth, ih]
  | case5 depth xs p ih =>
    rw [skipRawFrom_cons depth xs p (by decide) (by decide)]
    exact ih
  | case6 depth x xs p hopen hclose _ ih => rw [skipRawFrom_cons depth xs p hopen hclose, ih]

theorem skipQuoted_eq (c : Cursor) : skipQuoted c = (quoted c).after := skipQuotedFrom_eq _ _

theorem skipRaw_eq (c : Cursor) : skipRaw c = (raw c).after := skipRawFrom_eq _ _ _

theorem skipComment_eq (c : Cursor) : skipComment c = (comment c).after := by
  have hbody (stop : Nat) (rest : List Char) (p : Position) :
      (commentBody stop rest p).2 = skipFrom (fun x => !isBreak x) rest p := by
    induction rest generalizing stop p with
    | nil => rfl
    | cons x xs ih =>
      rw [commentBody, skipFrom]
      by_cases hx : isBreak x
      · simp [hx]
      · simp only [hx, Bool.not_false, if_true]
        exact ih _ _
  exact (hbody _ _ _).symm

/-! ### One piece at a time -/

/-- The first characters of the delimiters of blocks. -/
def delimiters : List Char := ['{', '}', '(', ')', '[', ']', ':', ';']

theorem openingChar_mem (block : Block) : block.openingChar ∈ delimiters := by
  cases block <;> decide

theorem closingChar_mem (block : Block) : block.closingChar ∈ delimiters := by
  cases block <;> decide

theorem skipRegion_of_rest_eq_nil (h : c.rest = []) : skipRegion target n separated c = c := by
  unfold skipRegion
  split
  · rfl
  · next heq => rw [h] at heq; contradiction

theorem skipRegion_of_rest_eq (h : c.rest = x :: r) :
    skipRegion target n separated c =
      if x = target.openingChar then
        skipRegion target (n + 1) (separates x) (skipElement separated c)
      else if x = target.closingChar then
        if n ≤ 1 then skipElement separated c
        else skipRegion target (n - 1) (separates x) (skipElement separated c)
      else skipRegion target n (separates x) (skipElement separated c) := by
  rw [skipRegion]
  split
  · next hc => rw [h] at hc; contradiction
  · next hc =>
    rw [h] at hc
    obtain ⟨rfl, -⟩ := List.cons.inj hc
    rfl

/-- What begins with no delimiter leaves the count as it is. -/
theorem skipRegion_of_not_mem (h : c.rest = x :: r) (hx : x ∉ delimiters) :
    skipRegion target n separated c =
      skipRegion target n (separates x) (skipElement separated c) := by
  have hopening : x ≠ target.openingChar := fun heq => hx (heq ▸ openingChar_mem target)
  have hclosing : x ≠ target.closingChar := fun heq => hx (heq ▸ closingChar_mem target)
  rw [skipRegion_of_rest_eq h, if_neg hopening, if_neg hclosing]

/-- A single character, which begins no comment, no string and no `:!`. -/
theorem skipElement_eq_advance (h : c.rest = x :: r) (hx : x ∉ ['#', '"', ':'])
    (hraw : separated = true → x ≠ '«') : skipElement separated c = c.advance := by
  have hcomment : c.isAt (· == '#') = false := by
    rw [isAt_of_rest_eq h, beq_eq_false_iff_ne]
    rintro rfl
    exact hx (by decide)
  have hquote : c.isAt (· == '"') = false := by
    rw [isAt_of_rest_eq h, beq_eq_false_iff_ne]
    rintro rfl
    exact hx (by decide)
  have hcolon : c.isAt (· == ':') = false := by
    rw [isAt_of_rest_eq h, beq_eq_false_iff_ne]
    rintro rfl
    exact hx (by decide)
  have hopen : (separated && c.isAt (· == '«')) = false := by
    cases separated with
    | false => rfl
    | true => rw [isAt_of_rest_eq h, Bool.true_and, beq_eq_false_iff_ne]; exact hraw rfl
  simp only [skipElement, skipPiece, hcomment, hquote, hcolon, hopen, Bool.and_false,
    Bool.false_and, Bool.false_eq_true, if_false]

/-- No character of a word is a delimiter, or begins a comment or a quoted string. -/
theorem not_mem_of_isWordChar (hx : isWordChar x) :
    x ∉ delimiters ∧ x ∉ ['#', '"', ':'] ∧ separates x = false := by
  have hnone {w : List Char} (hw : ∀ y ∈ w, y ∈ reserved ∧ y ∉ ['+', '-', '.', '@', '!']) : x ∉ w :=
    fun hmem => (hw x hmem).2 (mem_of_isWordChar hx (hw x hmem).1)
  refine ⟨hnone (forall_mem_of_all (by decide)), hnone (forall_mem_of_all (by decide)), ?_⟩
  refine Bool.eq_false_iff.2 fun hsep => ?_
  have hmem : x ∈ [' ', '\t', '\n', '\r', '{', '(', '[', ':'] := by
    simpa [separates, isBlank, or_assoc] using hsep
  exact hnone (forall_mem_of_all (by decide)) hmem

/-- In the middle of a word, skipping takes its characters one by one. -/
theorem skipRegion_passes (h : Passes isWordChar c d) :
    skipRegion target n false c = skipRegion target n false d := by
  obtain ⟨w, hw, hp⟩ := h
  induction w generalizing c with
  | nil => rw [← hw.skip_eq]; rfl
  | cons x xs ih =>
    have hx : c.rest = x :: (xs ++ d.rest) := hw.rest_eq
    obtain ⟨hdelimiter, hquote, hseparates⟩ := not_mem_of_isWordChar (hp x List.mem_cons_self)
    rw [skipRegion_of_not_mem hx hdelimiter, hseparates,
      skipElement_eq_advance hx hquote Bool.noConfusion]
    exact ih hw.tail fun y hy => hp y (List.mem_cons_of_mem _ hy)

/-- A word is passed over whole, where it does not begin as a raw string. -/
theorem skipRegion_word (hx : c.isAt fun x => isWordChar x && x != '«')
    (h : Passes isWordChar c d) (hd : c.advance.Reaches d) :
    skipRegion target n separated c = skipRegion target n false d := by
  obtain ⟨x, r, hrest, hchar⟩ := rest_eq_of_isAt hx
  obtain ⟨hword, hraw⟩ := Bool.and_eq_true_iff.1 hchar
  obtain ⟨hdelimiter, hquote, hseparates⟩ := not_mem_of_isWordChar hword
  have hne : c.rest ≠ [] := by
    rw [hrest]
    exact List.cons_ne_nil _ _
  rw [skipRegion_of_not_mem hrest hdelimiter, hseparates,
    skipElement_eq_advance hrest hquote fun _ => bne_iff_ne.1 hraw]
  exact skipRegion_passes (h.of_reaches hne hd).2

theorem skipRegion_blank (h : c.isAt isBlank) :
    skipRegion target n separated c = skipRegion target n true c.advance := by
  obtain ⟨x, r, hx, hblank⟩ := rest_eq_of_isAt h
  have hnone {w : List Char} (hw : ∀ y ∈ w, isBlank y = false) : x ∉ w :=
    fun hmem => Bool.eq_false_iff.1 (hw x hmem) hblank
  have hraw : x ≠ '«' := by
    rintro rfl
    contradiction
  have hseparates : separates x = true := by simp [separates, hblank]
  rw [skipRegion_of_not_mem hx (hnone (forall_mem_of_all (by decide))), hseparates,
    skipElement_eq_advance hx (hnone (forall_mem_of_all (by decide))) fun _ => hraw]

theorem skipRegion_lineBreak (h : c.isAt isBreak) :
    skipRegion target n separated c = skipRegion target n true (lineBreak c).after := by
  rw [skipRegion_blank (isAt_mono (fun x => isBlank_of_isBreak) h)]
  rcases lineBreak_cases c with ⟨-, heq⟩ | ⟨hnext, heq⟩ | heq <;> rw [heq]
  · rfl
  · have hfeed : c.advance.isAt isBlank := by
      rw [isAt, current, rest_advance, ← following, hnext]
      rfl
    exact skipRegion_blank hfeed
  · rfl

/-! ### Literals and comments are passed over whole -/

theorem skipRegion_comment (h : c.isAt (· == '#')) :
    skipRegion target n separated c = skipRegion target n false (comment c).after := by
  obtain ⟨x, r, hx, heq⟩ := rest_eq_of_isAt h
  obtain rfl := eq_of_beq heq
  rw [skipRegion_of_not_mem hx (by decide), skipElement, if_pos h, skipComment_eq]
  rfl

theorem skipRegion_quoted (h : c.isAt (· == '"')) :
    skipRegion target n true c = skipRegion target n false (quoted c).after := by
  obtain ⟨x, r, hx, heq⟩ := rest_eq_of_isAt h
  obtain rfl := eq_of_beq heq
  have hhash : c.isAt (· == '#') = false := isAt_of_rest_eq hx
  rw [skipRegion_of_not_mem hx (by decide), skipElement, if_neg (Bool.eq_false_iff.1 hhash),
    Bool.true_and, if_pos h, skipQuoted_eq]
  rfl

theorem skipRegion_raw (h : c.isAt (· == '«')) :
    skipRegion target n true c = skipRegion target n false (raw c).after := by
  obtain ⟨x, r, hx, heq⟩ := rest_eq_of_isAt h
  obtain rfl := eq_of_beq heq
  have hhash : c.isAt (· == '#') = false := isAt_of_rest_eq hx
  have hquote : c.isAt (· == '"') = false := isAt_of_rest_eq hx
  rw [skipRegion_of_not_mem hx (by decide), skipElement, if_neg (Bool.eq_false_iff.1 hhash),
    Bool.true_and, if_neg (Bool.eq_false_iff.1 hquote), Bool.true_and, if_pos h, skipRaw_eq]
  rfl

end Lexeme

namespace Reading

open Lexeme (isWordChar delimiters separates skipElement skipRegion_of_rest_eq
  skipRegion_of_not_mem skipRegion_word skipRegion_blank skipElement_eq_advance)

variable {limit depth : Nat} {around : List Block} {fresh again : Bool} {block target : Block}
  {c d opener : Cursor} {l : Lexeme} {f : Forest} {ds : List Diagnostic} {n : Nat}
  {separated : Bool}

/-! ### Terminals -/

/-- Skipping passes a terminal without defects as one piece, or as the pieces it is made of. -/
theorem Yields.skipRegion_eq (h : Yields limit depth fresh c l again)
    (hclean : l.diagnostics = []) :
    Lexeme.skipRegion target n fresh c = Lexeme.skipRegion target n again l.after := by
  have hreaches := h.advances.reaches
  have announced {o : Opening} (ho : Announces fresh c o)
      (hword : o = .number ∨ o = .access ∨ o = .word) (hpass : Passes isWordChar c l.after) :
      Lexeme.skipRegion target n fresh c = Lexeme.skipRegion target n false l.after :=
    skipRegion_word (ho.isAt_wordChar hword) hpass hreaches
  have wordChar {o : Opening} (ho : Announces fresh c o)
      (hword : o = .number ∨ o = .access ∨ o = .word) : c.isAt isWordChar :=
    isAt_mono (fun x hx => (Bool.and_eq_true_iff.1 hx).1) (ho.isAt_wordChar hword)
  cases h with
  | lineBreak hbreak => exact Lexeme.skipRegion_lineBreak hbreak
  | member ho =>
    have hdot := announces_member_iff.1 ho
    exact skipRegion_word (isAt_of_eq hdot (by decide))
      (Lexeme.passes_member (isAt_of_eq hdot (by decide))) hreaches
  | comma ho =>
    have hcomma := announces_comma_iff.1 ho
    exact skipRegion_word (isAt_of_eq hcomma (by decide))
      (passes_advance (isAt_of_eq hcomma (by decide))) hreaches
  | comment ho => exact Lexeme.skipRegion_comment (announces_comment_iff.1 ho)
  | quoted ho =>
    obtain ⟨rfl, hquote⟩ := ho.quoted
    exact Lexeme.skipRegion_quoted hquote
  | raw ho =>
    obtain ⟨rfl, hopen⟩ := ho.raw
    exact Lexeme.skipRegion_raw hopen
  | number ho => exact announced ho (.inl rfl) (Lexeme.passes_number c)
  | access ho =>
    exact announced ho (.inr (.inl rfl)) (Lexeme.passes_access (wordChar ho (.inr (.inl rfl))))
  | name ho =>
    exact announced ho (.inr (.inr rfl)) (Lexeme.passes_plainName (wordChar ho (.inr (.inr rfl))))
  | stray => cases fresh <;> exact absurd hclean (List.cons_ne_nil _ _)
  | region => exact absurd hclean (List.cons_ne_nil _ _)

/-! ### Delimiters -/

/-- Skipping takes an opening delimiter as one piece. -/
theorem Begins.skipElement_eq (h : Begins fresh c block opener) :
    skipElement separated opener = opener.skip block.openerLength := by
  obtain ⟨x, r, hx, heq⟩ := rest_eq_of_isAt h.opener_isAt
  cases h with
  | bracket ho =>
    have hblock := (announces_bracket_iff.1 ho).1
    rw [eq_of_beq heq] at hx
    cases block <;> first
      | exact skipElement_eq_advance hx (by decide) fun _ => by decide
      | exact absurd rfl hblock
  | label _ hcolon =>
    have hother {y : Char} (hy : y ≠ ':') : (Lexeme.plainName c).isAt (· == y) = false := by
      rw [isAt_of_rest_eq hx, eq_of_beq heq, openingChar_labelAt, beq_eq_false_iff_ne]
      exact hy.symm
    have hreset : (Lexeme.plainName c).looksAt [':', '!'] =
        (Lexeme.plainName c).advance.isAt (· == '!') := by
      obtain ⟨y, r, hrest, hy⟩ := rest_eq_of_isAt hcolon
      obtain rfl := eq_of_beq hy
      rw [looksAt, isAt, current, rest_advance, hrest]
      cases r with
      | nil => rfl
      | cons z zs => simp [List.isPrefixOf, BEq.comm (a := z)]
    simp only [skipElement, hother (show '#' ≠ ':' by decide), hother (show '"' ≠ ':' by decide),
      hother (show '«' ≠ ':' by decide), Bool.and_false, Bool.false_eq_true, if_false,
      Lexeme.skipPiece, hcolon, Bool.true_and, labelAt, hreset]
    split <;> rfl

/-- Past an opening delimiter of this form the count is one more. -/
theorem Begins.skipRegion_opener (h : Begins fresh c block opener) :
    Lexeme.skipRegion target n separated opener =
      Lexeme.skipRegion target (if block.openingChar = target.openingChar then n + 1 else n) true
        (opener.skip block.openerLength) := by
  obtain ⟨x, r, hx, heq⟩ := rest_eq_of_isAt h.opener_isAt
  obtain rfl := eq_of_beq heq
  have hseparates : separates block.openingChar = true := by cases block <;> rfl
  have hclosing : block.openingChar ≠ target.closingChar := by
    cases block <;> cases target <;> decide
  rw [skipRegion_of_rest_eq hx, if_neg hclosing, h.skipElement_eq, hseparates]
  split <;> rfl

/-- Skipping passes what is in front of the body of a block. -/
theorem Begins.skipRegion_body (h : Begins fresh c block opener) :
    Lexeme.skipRegion target n fresh c =
      Lexeme.skipRegion target (if block.openingChar = target.openingChar then n + 1 else n) true
        (opener.skip block.openerLength) := by
  have hopener (separated : Bool) : Lexeme.skipRegion target n separated opener = _ :=
    h.skipRegion_opener
  cases h with
  | bracket => exact hopener fresh
  | label ho =>
    have hchar := ho.isAt_wordChar (.inr (.inr rfl))
    have hword : c.isAt isWordChar := isAt_mono (fun x hx => (Bool.and_eq_true_iff.1 hx).1) hchar
    rw [skipRegion_word hchar (Lexeme.passes_plainName hword) (Lexeme.reaches_plainName c)]
    exact hopener false

theorem openingChar_eq_iff (block target : Block) :
    block.openingChar = target.openingChar ↔ block.closingChar = target.closingChar := by
  cases block <;> cases target <;> decide

/-- Past a closing delimiter of this form the count is one less, and at the last one the region
ends. -/
theorem skipRegion_closing (h : d.isAt (· == block.closingChar)) :
    Lexeme.skipRegion target n separated d =
      if block.openingChar = target.openingChar then
        if n ≤ 1 then d.advance else Lexeme.skipRegion target (n - 1) false d.advance
      else Lexeme.skipRegion target n false d.advance := by
  obtain ⟨x, r, hx, heq⟩ := rest_eq_of_isAt h
  obtain rfl := eq_of_beq heq
  have hopening : block.closingChar ≠ target.openingChar := by
    cases block <;> cases target <;> decide
  have hquote : block.closingChar ∉ ['#', '"', ':'] ∧ block.closingChar ≠ '«' := by
    cases block <;> decide
  have hseparates : separates block.closingChar = false := by cases block <;> rfl
  rw [skipRegion_of_rest_eq hx, if_neg hopening,
    skipElement_eq_advance hx hquote.1 fun _ => hquote.2, hseparates]
  simp only [openingChar_eq_iff]

/-! ### Stories -/

/-- Along a story without diagnostics, skipping comes to its end with the count it had. -/
theorem Reads.skipRegion_eq (h : Reads limit around fresh c f ds d) (hclean : ds = [])
    (hn : 1 ≤ n) :
    ∃ separated, Lexeme.skipRegion target n fresh c = Lexeme.skipRegion target n separated d := by
  induction h generalizing n with
  | stop => exact ⟨_, rfl⟩
  | blank hspace _ ih =>
    obtain ⟨separated, heq⟩ := ih hclean hn
    exact ⟨separated, (skipRegion_blank (isAt_mono (fun x => isBlank_of_isSpace) hspace)).trans heq⟩
  | take _ hl _ ih =>
    obtain ⟨hl', hclean'⟩ := List.append_eq_nil_iff.1 hclean
    obtain ⟨separated, heq⟩ := ih hclean' hn
    exact ⟨separated, (hl.skipRegion_eq hl').trans heq⟩
  | @closed _ _ block c opener d e _ _ _ _ _ hb _ _ hend _ ihi ihn =>
    obtain ⟨hinside, hnext⟩ := List.append_eq_nil_iff.1 hclean
    obtain ⟨after, hafter⟩ := ihn hnext hn
    rw [hb.skipRegion_body]
    by_cases hform : block.openingChar = target.openingChar
    · have hcount : 1 ≤ n + 1 := by omega
      obtain ⟨separated, heq⟩ := ihi hinside hcount
      have hmore : ¬ n + 1 ≤ 1 := by omega
      refine ⟨after, ?_⟩
      rw [if_pos hform, heq, skipRegion_closing hend, if_pos hform, if_neg hmore,
        Nat.add_sub_cancel, hafter]
    · obtain ⟨separated, heq⟩ := ihi hinside hn
      refine ⟨after, ?_⟩
      rw [if_neg hform, heq, skipRegion_closing hend, if_neg hform, hafter]
  | unclosed => exact absurd hclean (List.append_ne_nil_of_right_ne_nil _ (List.cons_ne_nil _ _))

/-- A region ends behind the delimiter that closes its block. -/
theorem Begins.skipRegion_eq (h : Begins fresh c block opener)
    (hbody : Reads limit (block :: around) true (opener.skip block.openerLength) f [] d)
    (hend : d.isAt (· == block.closingChar)) :
    Lexeme.skipRegion block 0 true opener = d.advance := by
  have hcount : 1 ≤ 0 + 1 := Nat.le_refl 1
  obtain ⟨separated, heq⟩ := hbody.skipRegion_eq rfl hcount
  rw [h.skipRegion_opener, if_pos rfl, heq, skipRegion_closing hend, if_pos rfl, if_pos hcount]

end Reading

end MplWorkbench
