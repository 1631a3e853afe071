import MplWorkbench.Proofs.Lexeme.Numbers
import MplWorkbench.Proofs.Lexeme.Words

/-! Terminals are read as they are spelled.

A name is read to its end if no character of names follows it, and likewise each
other terminal: what `Vocabulary` says of its spelling and of what follows is
what the reading of it needs. A string is read to the quote that ends it,
whatever follows; a comment to the end of its line. -/
namespace MplWorkbench.Lexeme

open Cursor

variable {c d : Cursor} {w : List Char} {x : Char}

/-! ### Names -/

theorem isNameChar_of_isLetter_or_isSign (h : isLetter x || isSign x) : isNameChar x := by
  rcases Bool.or_eq_true_iff.1 h with h | h <;> simp [isNameChar, h]

theorem memberName?_eq (hw : IsMemberName w) (h : c.Takes w d) (hd : d.isAt isNameChar = false) :
    memberName? c = some d := by
  have hnext : d.isAt (fun x => isLetter x || isSign x) = false :=
    isAt_eq_false_mono (fun x => isNameChar_of_isLetter_or_isSign) hd
  cases hw with
  | sign hx =>
    rw [memberName?, h.isAt, if_pos hx, signedName, h.advance_eq, hnext]
    rfl
  | signed hx hy hw =>
    rw [memberName?, h.isAt, if_pos hx, signedName, h.tail.isAt, if_pos hy,
      h.tail.tail.skipWhile_eq hw hd]
  | @letters x w hx hw =>
    rw [memberName?, h.isAt, isSign_eq_false_of_isLetter hx, h.isAt, hx,
      h.tail.skipWhile_eq hw hd]
    rfl

theorem IsMemberName.head (hw : IsMemberName w) : ∃ x v, w = x :: v ∧ (isLetter x || isSign x) := by
  cases hw with
  | sign hx => exact ⟨_, _, rfl, by rw [hx, Bool.or_true]⟩
  | signed hx => exact ⟨_, _, rfl, by rw [hx, Bool.or_true]⟩
  | letters hx => exact ⟨_, _, rfl, by rw [hx, Bool.true_or]⟩

/-- No mark begins a member name. -/
theorem isMark_eq_false (h : isLetter x || isSign x) :
    (x == '@' || x == '!') = false ∧ (x == '.') = false := by
  have hmarks : ∀ x ∈ ['@', '!', '.'], (isLetter x || isSign x) = false :=
    forall_mem_of_all (by decide)
  have hx : x ∉ ['@', '!', '.'] := fun hx => Bool.eq_false_iff.1 (hmarks x hx) h
  simp_all

/-- A member name is read as a plain name too. -/
theorem plainName_of_memberName? (hc : c.isAt fun x => isLetter x || isSign x)
    (h : memberName? c = some d) : plainName c = d := by
  obtain ⟨x, r, hx, hp⟩ := rest_eq_of_isAt hc
  obtain ⟨hmark, hdot⟩ := isMark_eq_false hp
  rw [plainName, isAt_of_rest_eq hx, hmark, isAt_of_rest_eq hx, hdot]
  unfold memberName? at h
  by_cases hsign : c.isAt isSign
  · rw [if_pos hsign] at h
    rw [if_pos hsign]
    exact Option.some.inj h
  · have hletter : c.isAt isLetter := by
      rw [isAt_of_rest_eq hx] at hsign ⊢
      exact (Bool.or_eq_true_iff.1 hp).resolve_right hsign
    rw [if_neg hsign, if_pos hletter] at h
    rw [if_neg hsign]
    exact Option.some.inj h

theorem goesOnPlain_of_isMemberName (hw : IsMemberName w) : goesOnPlain w = isNameChar := by
  funext y
  obtain ⟨x, v, rfl, hx⟩ := hw.head
  obtain ⟨hmark, hdot⟩ := isMark_eq_false hx
  have hne : x ≠ '@' ∧ x ≠ '!' ∧ x ≠ '.' := by simp_all
  simp [goesOnPlain, hne]

theorem plainName_eq (hw : IsPlainName w) (h : c.Takes w d)
    (hd : d.isAt (goesOnPlain w) = false) : plainName c = d := by
  cases hw with
  | mark hx =>
    have hmark : c.isAt (fun x => x == '@' || x == '!') = true := by
      rw [h.isAt]
      rcases hx with rfl | rfl <;> rfl
    rw [plainName, if_pos hmark, h.advance_eq]
  | @dots w hw =>
    have hdots : goesOnPlain ('.' :: w) = (· == '.') := by
      funext x
      simp [goesOnPlain]
    rw [hdots] at hd
    rw [plainName, h.isAt, h.isAt]
    exact h.tail.skipWhile_eq (fun x hx => beq_iff_eq.2 (hw x hx)) hd
  | member hw =>
    rw [goesOnPlain_of_isMemberName hw] at hd
    have hname := memberName?_eq hw h hd
    obtain ⟨x, v, rfl, hx⟩ := hw.head
    exact plainName_of_memberName? (h.isAt.trans hx) hname

/-! ### Accesses and members -/

theorem IsPlainName.beginsName (hw : IsPlainName w) : w.head?.any beginsName := by
  cases hw with
  | mark hx => rcases hx with rfl | rfl <;> rfl
  | dots => rfl
  | member hw =>
    obtain ⟨x, v, rfl, hx⟩ := hw.head
    show beginsName x
    rcases Bool.or_eq_true_iff.1 hx with hx | hx
    · rw [beginsName, hx, Bool.or_true]
    · rcases Bool.or_eq_true_iff.1 hx with hx | hx <;> rw [eq_of_beq hx] <;> decide

theorem access_eq (hx : x = '@' ∨ x = '!') (hw : IsPlainName w) (h : c.Takes (x :: w) d)
    (hd : d.isAt (goesOnPlain w) = false) :
    access c = upTo d (if x = '@' then .nameRead else .nameWrite) [] := by
  have hbegins : c.advance.isAt beginsName := by
    have hhead := hw.beginsName
    cases w with
    | nil => contradiction
    | cons y w => exact h.tail.isAt.trans hhead
  rw [access]
  rw [if_pos hbegins, plainName_eq hw h.tail hd, h.isAt]
  rcases hx with rfl | rfl <;> rfl

/-- A lone mark is a name. -/
theorem access_mark (h : c.Takes [x] d) (hd : d.isAt beginsName = false) :
    access c = upTo d .name [] := by
  rw [access]
  rw [h.advance_eq, hd]
  rfl

theorem member_eq {kind : Kind} {named : Cursor} (hmark : memberMark c = (kind, named))
    (hw : IsMemberName w) (h : named.Takes w d) (hd : d.isAt isNameChar = false) :
    member c = upTo d kind [] := by
  rw [member, hmark]
  dsimp only
  rw [memberName?_eq hw h hd]

theorem memberMark_plain (hw : IsMemberName w) (h : c.Takes ('.' :: w) d) :
    memberMark c = (.nameMember, c.advance) := by
  obtain ⟨x, v, rfl, hx⟩ := hw.head
  obtain ⟨hmark, -⟩ := isMark_eq_false hx
  obtain ⟨hread, hwrite⟩ := Bool.or_eq_false_iff.1 hmark
  rw [memberMark]
  rw [h.tail.isAt, hread, h.tail.isAt, hwrite]
  rfl

theorem memberMark_read (h : c.Takes ('.' :: '@' :: w) d) :
    memberMark c = (.nameReadMember, c.advance.advance) := by
  rw [memberMark]
  rw [h.tail.isAt]
  rfl

theorem memberMark_write (h : c.Takes ('.' :: '!' :: w) d) :
    memberMark c = (.nameWriteMember, c.advance.advance) := by
  rw [memberMark]
  rw [h.tail.isAt, h.tail.isAt]
  rfl

/-! ### Strings -/

theorem isBreak_eq_false_of_isEscape (h : isEscape x) : isBreak x = false := by
  refine Bool.eq_false_iff.2 fun hx => ?_
  rcases Bool.or_eq_true_iff.1 hx with hx | hx <;> rw [eq_of_beq hx] at h <;>
    exact absurd h (by decide)

theorem quotedInterior_eq (hw : IsQuoted w) {rest : List Char} {p : Position}
    (h : Takes ⟨rest, p⟩ w d) : quotedInterior rest p = ⟨[], true, d⟩ := by
  obtain rfl : rest = w ++ d.rest := h.rest_eq
  induction hw generalizing p with
  | close =>
    rw [← h.skip_eq]
    rfl
  | @escape x w hx hw ih =>
    have hnone : escapeDiagnostics p x = [] := if_pos hx
    rw [List.cons_append, List.cons_append, quotedInterior, hnone,
      isBreak_eq_false_of_isEscape hx]
    exact congrArg (Interior.report []) (ih h.tail.tail)
  | @crlf w hw ih =>
    have hnone : returnDiagnostics p ('\n' :: (w ++ d.rest)) = [] := if_pos rfl
    rw [List.cons_append, List.cons_append, quotedInterior, hnone, quotedInterior]
    · exact congrArg (Interior.report []) (ih h.tail.tail)
    all_goals simp
  | @char x w hquote hslash hreturn hw ih =>
    rw [List.cons_append, quotedInterior]
    · exact ih h.tail
    · exact hquote
    · exact fun heq _ => hslash heq
    · exact fun _ _ heq _ => hslash heq
    · exact hreturn

theorem rawInterior_eq {depth : Nat} (hw : IsRaw depth w) {rest : List Char} {p : Position}
    (h : Takes ⟨rest, p⟩ w d) : rawInterior (depth + 1) rest p = ⟨[], true, d⟩ := by
  obtain rfl : rest = w ++ d.rest := h.rest_eq
  induction hw generalizing p with
  | close =>
    rw [← h.skip_eq]
    rfl
  | inner hw ih =>
    rw [List.cons_append, rawInterior]
    exact ih h.tail
  | @outer depth w hw ih =>
    have hmore : ¬ depth + 1 + 1 ≤ 1 := by omega
    rw [List.cons_append, rawInterior, if_neg hmore]
    exact ih h.tail
  | @crlf depth w hw ih =>
    have hnone : returnDiagnostics p ('\n' :: (w ++ d.rest)) = [] := if_pos rfl
    rw [List.cons_append, List.cons_append, rawInterior, hnone, rawInterior]
    · exact congrArg (Interior.report []) (ih h.tail.tail)
    all_goals simp
  | @char depth x w hopen hclose hreturn hw ih =>
    rw [List.cons_append, rawInterior]
    · exact ih h.tail
    · exact hopen
    · exact hclose
    · exact hreturn

theorem quoted_eq (hw : IsQuoted w) (h : c.Takes ('"' :: w) d) : quoted c = upTo d .string [] := by
  have hinside : quotedInterior c.advance.rest c.advance.position = ⟨[], true, d⟩ :=
    quotedInterior_eq hw h.tail
  rw [quoted, hinside]
  rfl

theorem raw_eq (hw : IsRaw 0 w) (h : c.Takes ('«' :: w) d) : raw c = upTo d .string [] := by
  have hinside : rawInterior 1 c.advance.rest c.advance.position = ⟨[], true, d⟩ :=
    rawInterior_eq hw h.tail
  rw [raw, hinside]
  rfl

/-! ### Comments -/

/-- After the last character of a comment, only spaces are left in the line. -/
theorem commentBody_spaces {stop : Nat} {rest : List Char} {p : Position}
    (h : (rest.dropWhile isSpace).head?.all isBreak) :
    commentBody stop rest p = (stop, skipWhile ⟨rest, p⟩ isSpace) := by
  induction rest generalizing p with
  | nil => rfl
  | cons x xs ih =>
    by_cases hspace : isSpace x
    · have hbreak : isBreak x = false :=
        Bool.eq_false_iff.2 fun hb => Bool.eq_false_iff.1 (isSpace_eq_false_of_isBreak hb) hspace
      have hblank : (x == ' ' || x == '\t') = true := hspace
      rw [List.dropWhile_cons_of_pos hspace] at h
      have hat : isAt ⟨x :: xs, p⟩ isSpace := hspace
      rw [commentBody, hbreak, skipWhile_of_isAt hat]
      dsimp only
      rw [hblank]
      exact ih h
    · rw [List.dropWhile_cons_of_neg hspace] at h
      have hbreak : isBreak x := h
      rw [commentBody, if_pos hbreak, skipWhile, skipFrom, if_neg hspace]

/-- Reading a comment that is spelled right goes on at the end of the line. -/
theorem commentBody_eq {stop : Nat} {rest : List Char} {p : Position} (h : Takes ⟨rest, p⟩ w d)
    (hw : ∀ z ∈ w, isBreak z = false) (hlast : ∀ z ∈ w.getLast?, isSpace z = false)
    (hstop : w = [] → stop = d.offset) (hd : (d.rest.dropWhile isSpace).head?.all isBreak) :
    commentBody stop rest p = (d.offset, d.skipWhile isSpace) := by
  induction w generalizing stop rest p with
  | nil =>
    obtain rfl := h.eq_of_nil
    rw [hstop rfl]
    exact commentBody_spaces hd
  | cons x w ih =>
    obtain rfl : rest = x :: (w ++ d.rest) := h.rest_eq
    obtain ⟨hbreak, hw⟩ := List.forall_mem_cons.1 hw
    rw [commentBody, hbreak]
    refine ih h.tail hw (fun z hz => hlast z ?_) fun hnil => ?_
    · rw [List.getLast?_cons, hz]
      rfl
    · subst hnil
      have hspace : (x == ' ' || x == '\t') = false := hlast x rfl
      rw [hspace, ← h.advance_eq]
      rfl

theorem comment_eq (hw : ∀ z ∈ w, isBreak z = false) (hlast : ∀ z ∈ w.getLast?, isSpace z = false)
    (h : c.Takes ('#' :: w) d) (hd : (d.rest.dropWhile isSpace).head?.all isBreak) :
    comment c = ⟨.comment, [], d.offset, d.skipWhile isSpace⟩ := by
  have hbody : commentBody c.advance.offset c.advance.rest c.advance.position =
      (d.offset, d.skipWhile isSpace) := by
    refine commentBody_eq h.tail hw hlast (fun hnil => ?_) hd
    subst hnil
    rw [h.advance_eq]
  rw [comment, hbody]

/-! ### What follows a terminal -/

variable {kind : Kind}

theorem isWordChar_of_goesOn (h : goesOn kind w x) : isWordChar x ∨ x = ':' := by
  have hname (h : isNameChar x) : isWordChar x ∨ x = ':' := .inl (isWordChar_of_isNameChar h)
  have hplain (h : goesOnPlain w.tail x) : isWordChar x ∨ x = ':' := by
    unfold goesOnPlain at h
    split at h
    · contradiction
    · split at h
      · exact .inl (by rw [eq_of_beq h]; rfl)
      · exact hname h
  have hnumber (h : isNumberChar x) : isWordChar x ∨ x = ':' := hname (Bool.and_eq_true_iff.1 h).1
  unfold goesOn at h
  split at h
  · rcases Bool.or_eq_true_iff.1 h with h | h
    · exact .inr (eq_of_beq h)
    · split at h
      · exact .inl (isWordChar_of_beginsName h)
      · exact hname h
  · exact hplain h
  · exact hplain h
  · exact hname h
  · exact hname h
  · exact hname h
  · rcases Bool.or_eq_true_iff.1 h with h | h
    · exact hnumber h
    · exact .inl (by rw [eq_of_beq (Bool.and_eq_true_iff.1 h).1]; rfl)
  · exact hnumber h
  · contradiction

/-- A blank ends every terminal but a comment. -/
theorem stops_of_isBlank (hkind : kind ≠ .comment) (hx : isBlank x) (w rest : List Char) :
    stops kind w (x :: rest) := by
  rw [stops, if_neg hkind]
  show (!goesOn kind w x) = true
  cases hgoes : goesOn kind w x with
  | false => rfl
  | true =>
    rcases isWordChar_of_goesOn hgoes with hword | rfl
    · have hmem := mem_of_isWordChar hword (mem_reserved_of_isBlank hx)
      have hmarks : ∀ x ∈ ['+', '-', '.', '@', '!'], isBlank x = false :=
        forall_mem_of_all (by decide)
      exact absurd hx (Bool.eq_false_iff.1 (hmarks x hmem))
    · contradiction

/-- A line break ends every terminal. -/
theorem stops_of_isBreak (hx : isBreak x) (kind : Kind) (w rest : List Char) :
    stops kind w (x :: rest) := by
  by_cases hkind : kind = .comment
  · rw [stops, if_pos hkind,
      List.dropWhile_cons_of_neg (Bool.eq_false_iff.1 (isSpace_eq_false_of_isBreak hx))]
    exact hx
  · exact stops_of_isBlank hkind (isBlank_of_isBreak hx) w rest

end MplWorkbench.Lexeme
