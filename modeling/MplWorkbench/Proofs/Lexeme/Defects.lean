import MplWorkbench.Proofs.Lexeme.Shape
import MplWorkbench.Proofs.Tree.Blemish

/-! What lexemes report.

Reading a lexeme reports what shows in it, once each: a string its lone carriage
returns, its bad escapes and that it has no end, a member that it has no name, an
error terminal itself. The scanners for strings take escapes as pairs; what shows
is told character by character, from whether the one before escapes it. -/
namespace MplWorkbench.Lexeme

open Cursor Blemish

/-! ### Inside quotes -/

theorem returnDiagnostics_matches (p : Position) (xs : List Char) :
    Matches (if xs.head? ≠ some '\n' then [⟨some .cr, ⟨p.offset, p.offset + 1⟩⟩] else [])
      (returnDiagnostics p xs) := by
  unfold returnDiagnostics
  by_cases h : xs.head? = some '\n'
  · rw [if_pos h, if_neg (not_not_intro h)]
    exact .nil
  · rw [if_neg h, if_pos h]
    exact .single ⟨rfl, fun kind hkind => (Option.some.inj hkind).symm ▸ rfl⟩

theorem escapeDiagnostics_matches (p : Position) (x : Char) :
    Matches (escapeBlemishes p.offset (some x)) (escapeDiagnostics p x) := by
  unfold escapeDiagnostics
  show Matches (if isEscape x then [] else if isBreak x then [_] else [_]) _
  split
  · exact .nil
  · split <;> exact .single ⟨rfl, fun kind hkind => (Option.some.inj hkind).symm ▸ rfl⟩

theorem takes_one (x : Char) (xs : List Char) (p : Position) :
    Takes ⟨x :: xs, p⟩ [x] ⟨xs, p.past x xs.head?⟩ := takes_advance rfl

theorem loneReturns_cons {x : Char} (h : x ≠ '\r') (offset : Nat) (w : List Char) :
    loneReturns offset (x :: w) = loneReturns (offset + x.utf8Size) w := by
  have hreturn : ¬ (x = '\r' ∧ w.head? ≠ some '\n') := fun hx => h hx.1
  rw [loneReturns, if_neg hreturn, List.nil_append]

theorem loneReturns_return (offset : Nat) (w : List Char) :
    loneReturns offset ('\r' :: w) =
      (if w.head? ≠ some '\n' then [⟨some .cr, ⟨offset, offset + 1⟩⟩] else []) ++
        loneReturns (offset + '\r'.utf8Size) w := by
  simp only [loneReturns, true_and]

theorem isEscaping_of_ne {x : Char} (h : x ≠ '\\') (escaped : Bool) :
    isEscaping escaped x = false := by
  simp [isEscaping, h]

theorem badEscapes_cons {x : Char} (h : x ≠ '\\') (escaped : Bool) (offset : Nat) (w : List Char) :
    badEscapes escaped offset (x :: w) = badEscapes false (offset + x.utf8Size) w := by
  rw [badEscapes, isEscaping_of_ne h]
  rfl

theorem hasQuote_cons {x : Char} (hquote : x ≠ '"') (hescape : x ≠ '\\') (escaped : Bool)
    (w : List Char) : hasQuote escaped (x :: w) = hasQuote false w := by
  rw [hasQuote, isEscaping_of_ne hescape, beq_false_of_ne hquote]
  rfl

/-- An escaped character neither ends a string nor escapes the next. -/
theorem scan_escaped (x : Char) (offset : Nat) (w : List Char) :
    hasQuote true (x :: w) = hasQuote false w ∧
      badEscapes true offset (x :: w) = badEscapes false (offset + x.utf8Size) w := by
  have hescaping : isEscaping true x = false := Bool.and_false _
  constructor
  · rw [hasQuote, hescaping, Bool.not_true, Bool.and_false, Bool.false_or]
  · rw [badEscapes, hescaping]
    rfl

/-- The interior of a quoted string takes these characters, and tells what shows in them. -/
structure QuotedAs (rest : List Char) (p : Position) (i : Interior) (w : List Char) : Prop where
  takes : Takes ⟨rest, p⟩ w i.after
  head_eq : w.head? = rest.head?
  closed_eq : i.closed = hasQuote false w
  matches_eq : Matches (loneReturns p.offset w ++ badEscapes false p.offset w) i.diagnostics

theorem exists_quotedAs (rest : List Char) (p : Position) :
    ∃ w, QuotedAs rest p (quotedInterior rest p) w := by
  fun_induction quotedInterior rest p with
  | case1 p => exact ⟨[], .refl _, rfl, rfl, .nil⟩
  | case2 xs p => exact ⟨['"'], takes_one '"' xs p, rfl, rfl, .nil⟩
  | case3 p => exact ⟨['\\'], takes_one '\\' [] p, rfl, rfl, .nil⟩
  | case4 x xs p inside hbreak ih =>
    -- the line break is looked at once more, so it is what the interior goes on with
    obtain ⟨w, htakes, hhead, hclosed, hmatches⟩ := ih
    have hx : x ≠ '"' ∧ x ≠ '\\' := by
      rcases Bool.or_eq_true_iff.1 hbreak with hx | hx <;> rw [eq_of_beq hx] <;> decide
    obtain ⟨w', rfl⟩ : ∃ w', w = x :: w' := by
      cases w with
      | nil => exact absurd hhead (by simp)
      | cons y ys =>
        obtain rfl := Option.some.inj hhead
        exact ⟨ys, rfl⟩
    refine ⟨'\\' :: x :: w', (takes_one '\\' (x :: xs) p).trans htakes, rfl, ?_, ?_⟩
    · rw [Interior.closed_report, hclosed, hasQuote_cons hx.1 hx.2]
      exact (hasQuote_cons hx.1 hx.2 true w').symm
    · rw [badEscapes_cons hx.2, Position.offset_past] at hmatches
      have hall := (escapeDiagnostics_matches p x).append hmatches
      rw [loneReturns_cons (by decide), badEscapes, badEscapes_cons hx.2]
      exact hall.of_perm (List.perm_append_comm_assoc _ _ _)
  | case5 x xs p inside hbreak ih =>
    obtain ⟨w, htakes, hhead, hclosed, hmatches⟩ := ih
    refine ⟨'\\' :: x :: w, ((takes_one '\\' (x :: xs) p).trans (takes_one x xs inside)).trans
      htakes, rfl, ?_, ?_⟩
    · rw [Interior.closed_report, hclosed]
      exact (scan_escaped x 0 w).1.symm
    · have hreturn : x ≠ '\r' := by
        rintro rfl
        exact hbreak rfl
      rw [Position.offset_past, Position.offset_past] at hmatches
      have hall := (escapeDiagnostics_matches p x).append hmatches
      have hescaping : isEscaping false '\\' = true := rfl
      rw [loneReturns_cons (by decide), loneReturns_cons hreturn, badEscapes, hescaping,
        (scan_escaped x _ w).2]
      exact hall.of_perm (List.perm_append_comm_assoc _ _ _)
  | case6 xs p ih =>
    obtain ⟨w, htakes, hhead, hclosed, hmatches⟩ := ih
    refine ⟨'\r' :: w, (takes_one '\r' xs p).trans htakes, rfl, ?_, ?_⟩
    · rw [Interior.closed_report, hclosed]
      rfl
    · have hall := (returnDiagnostics_matches p xs).append hmatches
      rw [loneReturns_return, badEscapes_cons (by decide), hhead, List.append_assoc]
      rw [Position.offset_past] at hall
      exact hall
  | case7 x xs p hquote hlone hescape hreturn ih =>
    obtain ⟨w, htakes, hhead, hclosed, hmatches⟩ := ih
    have hx : x ≠ '\\' := by
      rintro rfl
      cases xs with
      | nil => exact hlone rfl rfl
      | cons y ys => exact hescape y ys rfl rfl
    refine ⟨x :: w, (takes_one x xs p).trans htakes, rfl, ?_, ?_⟩
    · rw [hclosed, hasQuote_cons hquote hx]
    · rw [Position.offset_past] at hmatches
      rw [loneReturns_cons hreturn, badEscapes_cons hx]
      exact hmatches

/-! ### Inside raw strings -/

/-- The interior of a raw string takes these characters, and tells what shows in them. It ends where
it has closed as often as it has opened. -/
structure RawAs (depth : Nat) (rest : List Char) (p : Position) (i : Interior) (w : List Char) :
    Prop where
  takes : Takes ⟨rest, p⟩ w i.after
  head_eq : w.head? = rest.head?
  closed_iff : i.closed = true ↔ depth + w.count '«' = w.count '»'
  matches_eq : Matches (loneReturns p.offset w) i.diagnostics

theorem exists_rawAs {depth : Nat} (rest : List Char) (p : Position) (hdepth : 1 ≤ depth) :
    ∃ w, RawAs depth rest p (rawInterior depth rest p) w := by
  fun_induction rawInterior depth rest p with
  | case1 depth p =>
    refine ⟨[], .refl _, rfl, ?_, .nil⟩
    simp only [List.count_nil, Bool.false_eq_true, false_iff]
    omega
  | case2 depth xs p ih =>
    obtain ⟨w, htakes, hhead, hclosed, hmatches⟩ := ih (by omega)
    refine ⟨'«' :: w, (takes_one '«' xs p).trans htakes, rfl, ?_, ?_⟩
    · rw [hclosed, List.count_cons_self, List.count_cons_of_ne (by decide)]
      omega
    · rw [Position.offset_past] at hmatches
      rw [loneReturns_cons (by decide)]
      exact hmatches
  | case3 depth xs p after hone =>
    refine ⟨['»'], takes_one '»' xs p, rfl, ?_, .nil⟩
    have hcount : ['»'].count '«' = 0 ∧ ['»'].count '»' = 1 := by decide
    rw [hcount.1, hcount.2]
    simp only [true_iff]
    omega
  | case4 depth xs p after hmore ih =>
    obtain ⟨w, htakes, hhead, hclosed, hmatches⟩ := ih (by omega)
    refine ⟨'»' :: w, (takes_one '»' xs p).trans htakes, rfl, ?_, ?_⟩
    · rw [hclosed, List.count_cons_self, List.count_cons_of_ne (by decide)]
      omega
    · rw [Position.offset_past] at hmatches
      rw [loneReturns_cons (by decide)]
      exact hmatches
  | case5 depth xs p ih =>
    obtain ⟨w, htakes, hhead, hclosed, hmatches⟩ := ih hdepth
    refine ⟨'\r' :: w, (takes_one '\r' xs p).trans htakes, rfl, ?_, ?_⟩
    · rw [Interior.closed_report, hclosed, List.count_cons_of_ne (by decide),
        List.count_cons_of_ne (by decide)]
    · have hall := (returnDiagnostics_matches p xs).append hmatches
      rw [Position.offset_past] at hall
      rw [loneReturns_return, hhead]
      exact hall
  | case6 depth x xs p hopen hclose hreturn ih =>
    obtain ⟨w, htakes, hhead, hclosed, hmatches⟩ := ih hdepth
    refine ⟨x :: w, (takes_one x xs p).trans htakes, rfl, ?_, ?_⟩
    · rw [hclosed, List.count_cons_of_ne hopen, List.count_cons_of_ne hclose]
    · rw [Position.offset_past] at hmatches
      rw [loneReturns_cons hreturn]
      exact hmatches

/-! ### Lexemes -/

variable {c : Cursor} {l : Lexeme} {x : Char} {r : List Char}

/-- In any text, the lexeme at `c` reports what shows in its terminal. -/
def Reports (c : Cursor) (l : Lexeme) : Prop :=
  ∀ text : List Char, In text c →
    Matches (Forest.terminalBlemishes l.kind ⟨c.offset, l.stop⟩ (slice? text ⟨c.offset, l.stop⟩))
      l.diagnostics

theorem reports_upTo {kind : Kind} (c after : Cursor) (h : Forest.isSpotless kind) :
    Reports c (upTo after kind []) := by
  intro text _
  rw [show (upTo after kind []).kind = kind from rfl, Forest.terminalBlemishes_of_isSpotless h]
  exact .nil

theorem reports_defective (c : Cursor) (defect : Defect) (after : Cursor) :
    Reports c (defective c.position defect after) :=
  fun _ _ => .single ⟨rfl, fun _ hkind => nomatch hkind⟩

theorem Sensible.reports {kinds : List Kind} (h : Sensible c.position kinds l)
    (hkinds : ∀ kind ∈ kinds, Forest.isSpotless kind) : Reports c l := by
  rcases h with ⟨kind, hkind, heq⟩ | ⟨defect, heq⟩ <;> rw [heq]
  · exact reports_upTo c _ (hkinds kind hkind)
  · exact reports_defective c defect _

theorem comment_reports (c : Cursor) : Reports c (comment c) := fun _ _ => .nil

theorem stray_reports (fresh : Bool) (c : Cursor) : Reports c (stray fresh c) := by
  cases fresh
  · exact reports_defective c .noSeparator _
  · exact reports_defective c .noExpression _

theorem lineBreak_reports (hc : c.isAt isBreak) : Reports c (lineBreak c) := by
  rcases lineBreak_cases c with ⟨-, heq⟩ | ⟨-, heq⟩ | heq <;> rw [heq]
  · exact reports_upTo c _ (by decide)
  · exact reports_upTo c _ (by decide)
  · intro text _
    obtain ⟨x, r, hx, hbreak⟩ := rest_eq_of_isAt hc
    have hsize : x.utf8Size = 1 := by
      rcases Bool.or_eq_true_iff.1 hbreak with hx | hx <;> rw [eq_of_beq hx] <;> rfl
    refine .single ⟨?_, fun kind hkind => (Option.some.inj hkind).symm ▸ rfl⟩
    show (⟨c.offset, c.offset + 1⟩ : Span) = ⟨c.offset, c.advance.offset⟩
    rw [offset_advance hx, hsize]

/-! ### Members -/

/-- What shows in a member access is told by what is behind its mark. -/
theorem terminalBlemishes_member (c : Cursor) (span : Span) (bare : List Char) :
    Forest.terminalBlemishes (memberMark c).1 span (some (accessMark (memberMark c).1 ++ bare)) =
      if bare = [] then [⟨some .name, .empty span.stop⟩] else [] := by
  have hbare : Forest.bare (memberMark c).1 (accessMark (memberMark c).1 ++ bare) = bare := by
    rw [Forest.bare, ← byteSize_accessMark, splitAt?_append]
  rcases memberMark_cases c with ⟨hkind, -⟩ | ⟨hkind | hkind, -⟩ <;> rw [hkind] at hbare ⊢ <;>
    simp only [Forest.terminalBlemishes, Option.map_some, hbare, Option.some_inj]

/-- A member access reports that it lacks a name exactly when it is nothing but its mark. -/
theorem member_reports (hc : c.isAt (· == '.')) : Reports c (member c) := by
  intro text hin
  have hmark := memberMark_takes hc
  rcases member_cases c with ⟨after, hname, heq⟩ | ⟨hnone, heq⟩ <;> rw [heq]
  · have hrest : (memberMark c).2.rest ≠ [] := by
      intro hnil
      simp [memberName?, isAt, current, hnil] at hname
    obtain ⟨y, ys, hbare⟩ := (reaches_memberName? hname).takes_of_advance hrest
    show Matches (Forest.terminalBlemishes (memberMark c).1 ⟨c.offset, after.offset⟩
      (slice? text ⟨c.offset, after.offset⟩)) []
    rw [(hmark.trans hbare).slice?_eq hin, terminalBlemishes_member,
      if_neg (List.cons_ne_nil _ _)]
    exact .nil
  · show Matches (Forest.terminalBlemishes (memberMark c).1 ⟨c.offset, (memberMark c).2.offset⟩
      (slice? text ⟨c.offset, (memberMark c).2.offset⟩)) _
    rw [hmark.slice?_eq hin, ← List.append_nil (accessMark _), terminalBlemishes_member, if_pos rfl]
    exact .single ⟨rfl, fun kind hkind => (Option.some.inj hkind).symm ▸ rfl⟩

/-! ### Strings -/

/-- The end of a string is reported after what is inside, if it is missing. -/
theorem stringOf_reports {start : Position} {unterminated : Defect} {i : Interior}
    {word : List Char} {inside : List Blemish} {closed : Prop} [Decidable closed]
    (hstart : start = c.position) (hword : c.Takes word i.after)
    (htoken : unterminated.token = .string)
    (hblemishes : stringBlemishes c.offset word =
      inside ++ if closed then [] else [⟨some .string, .empty c.offset⟩])
    (hclosed : i.closed = true ↔ closed) (hinside : Matches inside i.diagnostics) :
    Reports c (stringOf start unterminated i) := by
  intro text hin
  show Matches (stringBlemishes c.offset ((slice? text ⟨c.offset, i.after.offset⟩).getD [])) _
  rw [hword.slice?_eq hin, Option.getD_some, hblemishes]
  refine hinside.append ?_
  by_cases h : closed
  · rw [if_pos h, if_pos (hclosed.2 h)]
    exact .nil
  · rw [if_neg h, if_neg (mt hclosed.1 h)]
    subst hstart
    exact .single ⟨rfl, fun kind hkind => (Option.some.inj hkind).symm ▸ htoken⟩

theorem quoted_reports (hc : c.isAt (· == '"')) : Reports c (quoted c) := by
  obtain ⟨x, r, hx, heq⟩ := rest_eq_of_isAt hc
  obtain rfl := eq_of_beq heq
  obtain ⟨w, htakes, -, hclosed, hmatches⟩ :=
    exists_quotedAs c.advance.rest c.advance.position
  have hoffset : c.advance.position.offset = c.offset + 1 := offset_advance hx
  rw [hoffset] at hmatches
  have hword : c.Takes ('"' :: w) _ := (takes_advance hx).trans htakes
  have htoken : Defect.unterminatedString.token = .string := rfl
  refine stringOf_reports rfl hword htoken ?_ (by rw [hclosed]) hmatches
  rw [stringBlemishes, loneReturns_cons (by decide), List.append_assoc]
  rfl

theorem raw_reports (hc : c.isAt (· == '«')) : Reports c (raw c) := by
  obtain ⟨x, r, hx, heq⟩ := rest_eq_of_isAt hc
  obtain rfl := eq_of_beq heq
  obtain ⟨w, htakes, -, hclosed, hmatches⟩ :=
    exists_rawAs c.advance.rest c.advance.position (Nat.le_refl 1)
  have hoffset : c.advance.position.offset = c.offset + '«'.utf8Size := offset_advance hx
  rw [hoffset] at hmatches
  have hword : c.Takes ('«' :: w) _ := (takes_advance hx).trans htakes
  have htoken : Defect.unterminatedRawString.token = .string := rfl
  refine stringOf_reports rfl hword htoken ?_ hclosed hmatches
  show loneReturns c.offset ('«' :: w) ++ (if ('«' :: w).count '«' = ('«' :: w).count '»' then []
    else [⟨some .string, .empty c.offset⟩]) = _
  rw [loneReturns_cons (by decide), List.count_cons_self, List.count_cons_of_ne (by decide),
    Nat.add_comm 1]

/-! ### Where defects show -/

variable {e : Cursor} {w : List Char}

theorem between_loneReturns (h : c.Takes w e) :
    ∀ b ∈ loneReturns c.offset w, c.Between e b.span := by
  induction w generalizing c with
  | nil => simp [loneReturns]
  | cons x xs ih =>
    have hx : c.rest = x :: (xs ++ e.rest) := h.rest_eq
    have hnext : c.advance.Takes xs e := h.tail
    have hoffset := offset_advance hx
    intro b hb
    rcases List.mem_append.1 hb with hhere | hlater
    · by_cases hreturn : x = '\r' ∧ xs.head? ≠ some '\n'
      · rw [if_pos hreturn] at hhere
        have hone : c.advance.offset = c.offset + 1 := by rw [hoffset, hreturn.1]; rfl
        rw [List.mem_singleton.1 hhere]
        exact ⟨c, c.advance, .refl c, reaches_advance c, hnext.reaches, by rw [hone]⟩
      · rw [if_neg hreturn] at hhere
        contradiction
    · rw [← hoffset] at hlater
      exact (ih hnext b hlater).of_reaches (reaches_advance c)

theorem between_escapeBlemishes (h : c.advance.Takes w e)
    (hone : c.advance.offset = c.offset + 1) :
    ∀ b ∈ escapeBlemishes c.offset w.head?, c.Between e b.span := by
  intro b hb
  cases w with
  | nil => contradiction
  | cons y ys =>
    have hy : c.advance.rest = y :: (ys ++ e.rest) := h.rest_eq
    have hstart := reaches_advance c
    change b ∈ (if isEscape y then [] else if isBreak y then [_] else [_]) at hb
    split at hb
    · contradiction
    · split at hb
      · rw [List.mem_singleton.1 hb]
        exact ⟨c, c.advance, .refl c, hstart, h.reaches, by rw [hone]⟩
      · rw [List.mem_singleton.1 hb]
        refine ⟨c, c.advance.advance, .refl c, hstart.trans (reaches_advance _), h.tail.reaches, ?_⟩
        rw [offset_advance hy, hone]

theorem between_badEscapes {escaped : Bool} (h : c.Takes w e) :
    ∀ b ∈ badEscapes escaped c.offset w, c.Between e b.span := by
  induction w generalizing c escaped with
  | nil => simp [badEscapes]
  | cons x xs ih =>
    have hx : c.rest = x :: (xs ++ e.rest) := h.rest_eq
    have hnext : c.advance.Takes xs e := h.tail
    have hoffset := offset_advance hx
    intro b hb
    rcases List.mem_append.1 hb with hhere | hlater
    · by_cases hescape : isEscaping escaped x
      · rw [if_pos hescape] at hhere
        have hback : x = '\\' := eq_of_beq (Bool.and_eq_true_iff.1 hescape).1
        have hone : c.advance.offset = c.offset + 1 := by rw [hoffset, hback]; rfl
        exact between_escapeBlemishes hnext hone b hhere
      · rw [if_neg hescape] at hhere
        contradiction
    · rw [← hoffset] at hlater
      exact (ih hnext b hlater).of_reaches (reaches_advance c)

theorem between_stringBlemishes (h : c.Takes w e) :
    ∀ b ∈ stringBlemishes c.offset w, c.Between e b.span := by
  have hend {p : Prop} [Decidable p] {b : Blemish}
      (hb : b ∈ if p then [] else [⟨some .string, .empty c.offset⟩]) : c.Between e b.span := by
    split at hb
    · contradiction
    · rw [List.mem_singleton.1 hb]
      exact between_start h.reaches
  intro b hb
  rcases List.mem_append.1 hb with hreturn | hother
  · exact between_loneReturns h b hreturn
  · split at hother
    · next inside =>
      have hquote : c.rest = '"' :: (inside ++ e.rest) := h.rest_eq
      have hone : c.advance.offset = c.offset + 1 := offset_advance hquote
      rw [← hone] at hother
      rcases List.mem_append.1 hother with hescape | hmissing
      · exact (between_badEscapes h.tail b hescape).of_reaches (reaches_advance c)
      · exact hend hmissing
    · exact hend hother

theorem between_terminalBlemishes {kind : Kind} (h : c.Takes w e) :
    ∀ b ∈ Forest.terminalBlemishes kind ⟨c.offset, e.offset⟩ (some w), c.Between e b.span := by
  have hwhole : c.Between e ⟨c.offset, e.offset⟩ := ⟨c, e, .refl c, h.reaches, .refl e, rfl⟩
  have hmissing {p : Prop} [Decidable p] {b : Blemish}
      (hb : b ∈ if p then [⟨some .name, .empty e.offset⟩] else []) : c.Between e b.span := by
    split at hb
    · rw [List.mem_singleton.1 hb]
      exact between_stop h.reaches
    · contradiction
  intro b hb
  unfold Forest.terminalBlemishes at hb
  split at hb
  · rw [List.mem_singleton.1 hb]
    exact hwhole
  · rw [List.mem_singleton.1 hb]
    exact hwhole
  · exact hmissing hb
  · exact hmissing hb
  · exact hmissing hb
  · exact between_stringBlemishes h b hb
  · contradiction

end MplWorkbench.Lexeme
