import MplWorkbench.Lexeme.Region
import MplWorkbench.Proofs.Lexeme.InStep
import MplWorkbench.Proofs.Lexeme.Shape
import MplWorkbench.Proofs.Text.Setting

/-! Terminals among other text.

A line feed is in no name and in no number, and it ends comments and defects that
go on to a blank. So the text and the same text in a setting are in step, and
these are read in the setting as they are read alone. A string
goes on until it is closed, and a region until it is balanced; what comes behind
the text matters to them only if the text alone leaves them open, and then they
have a defect. -/
namespace MplWorkbench

/-- The lexeme in the setting. -/
def Lexeme.moved (l : Lexeme) (m : Setting) : Lexeme :=
  ⟨l.kind, l.diagnostics.map (·.moved m.bytes), l.stop + m.bytes, l.after.moved m⟩

namespace Lexeme

open Cursor

variable {c d : Cursor} {m : Setting} {p : Char → Bool}

theorem moved_upTo (after : Cursor) (kind : Kind) (ds : List Diagnostic) (m : Setting) :
    (upTo after kind ds).moved m = upTo (after.moved m) kind (ds.map (·.moved m.bytes)) := rfl

/-! ### Names, numbers, and text that makes no sense -/

/-- A text and the same text in a setting are in step: what is asked for is neither the line feed
behind the text nor the carriage return in front of one. -/
theorem inStep_moved (m : Setting) : InStep fun c c' => c' = c.moved m where
  isAt_eq h hp := by
    subst h
    exact isAt_moved hp.2.2.1
  advance h hp hat := by
    subst h
    exact advance_moved_of_isAt hat hp.2.2.2

theorem Alike.eq_moved {start : Position} {l l' : Lexeme}
    (h : Alike (fun c c' => c' = c.moved m) start (start.moved m.bytes m.lines) l l') :
    l' = l.moved m := by
  cases h with
  | upTo _ hd | defective _ hd | missing _ _ hd =>
    subst hd
    rfl

theorem plainName_moved (h : c.isAt p) (hp : Solid p) :
    plainName (c.moved m) = (plainName c).moved m := inStep_plainName (inStep_moved m) rfl hp h

theorem access_moved (h : c.isAt p) (hp : Solid p) : access (c.moved m) = (access c).moved m :=
  (alike_access (inStep_moved m) rfl hp h c.position _).eq_moved

theorem member_moved (h : c.isAt (· == '.')) : member (c.moved m) = (member c).moved m :=
  (alike_member (inStep_moved m) rfl h c.position _).eq_moved

theorem number_moved (c : Cursor) (m : Setting) : number (c.moved m) = (number c).moved m :=
  (alike_number (inStep_moved m) rfl).eq_moved

theorem single_moved (kind : Kind) (h : c.isAt p) (hp : Solid p) :
    single kind (c.moved m) = (single kind c).moved m :=
  (alike_single (inStep_moved m) rfl kind hp h c.position _).eq_moved

theorem stray_moved (fresh : Bool) (h : c.isAt p) (hp : Solid p) :
    stray fresh (c.moved m) = (stray fresh c).moved m :=
  (alike_stray (inStep_moved m) rfl fresh hp h).eq_moved

/-! ### Comments and line breaks -/

theorem commentBody_moved (stop : Nat) (rest : List Char) (position : Position) (m : Setting) :
    commentBody (stop + m.bytes) (rest ++ m.after) (position.moved m.bytes m.lines) =
      ((commentBody stop rest position).1 + m.bytes,
        (commentBody stop rest position).2.moved m) := by
  induction rest generalizing stop position with
  | nil =>
    rcases m.after_eq with h | h
    · simp [commentBody, Cursor.moved, h]
    · obtain ⟨r, hr⟩ := List.head?_eq_some_iff.1 h
      have hbreak : isBreak '\n' := rfl
      simp [commentBody, Cursor.moved, hr, hbreak]
  | cons x r ih =>
    rw [List.cons_append, commentBody, commentBody]
    by_cases hx : isBreak x
    · rw [if_pos hx, if_pos hx]
      rfl
    · have hne : x ≠ '\r' := by
        rintro rfl
        exact hx rfl
      rw [if_neg hx, if_neg hx]
      dsimp only
      rw [m.past_eq position (.inl hne), ← ih]
      split <;> rfl

theorem comment_moved (h : c.isAt (· == '#')) : comment (c.moved m) = (comment c).moved m := by
  unfold comment
  dsimp only
  rw [advance_moved_of_isAt h (by decide), offset_moved, rest_moved, position_moved,
    commentBody_moved]
  rfl

theorem returnDiagnostics_moved (position : Position) {rest : List Char}
    (h : m.after = [] ∨ rest ≠ []) :
    returnDiagnostics (position.moved m.bytes m.lines) (rest ++ m.after) =
      (returnDiagnostics position rest).map (·.moved m.bytes) := by
  have hstop : position.offset + m.bytes + 1 = position.offset + 1 + m.bytes := by omega
  rw [returnDiagnostics, returnDiagnostics, m.head?_eq h]
  split
  · rfl
  · simp only [List.map_cons, List.map_nil, Diagnostic.moved, Span.moved, Defect.within,
      Position.moved, hstop]

/-- A carriage return at the end of the text alone is a defect. -/
theorem lineBreak_moved (h : c.isAt isBreak)
    (hclean : m.after = [] ∨ (lineBreak c).diagnostics = []) :
    lineBreak (c.moved m) = (lineBreak c).moved m := by
  obtain ⟨x, r, hx, hbreak⟩ := rest_eq_of_isAt h
  have hx' : (c.moved m).rest = x :: (r ++ m.after) := by rw [rest_moved, hx, List.cons_append]
  rcases Bool.or_eq_true_iff.1 hbreak with heq | heq
  · obtain rfl := eq_of_beq heq
    have hat : c.isAt (· == '\n') := isAt_of_rest_eq hx
    rw [lineBreak_feed hx, lineBreak_feed hx', advance_moved_of_isAt hat (by decide)]
    rfl
  obtain rfl := eq_of_beq heq
  have hne : m.after = [] ∨ r ≠ [] := by
    refine hclean.imp_right fun hnone => ?_
    rintro rfl
    rw [lineBreak_return hx] at hnone
    contradiction
  have hadvance : (c.moved m).advance = c.advance.moved m := by
    refine advance_moved (hne.imp_right fun hr => ?_)
    rw [hx]
    exact ⟨List.cons_ne_nil _ _, fun heq => hr (List.cons.inj heq).2⟩
  rw [lineBreak_return hx, lineBreak_return hx', m.head?_eq hne, hadvance]
  split
  · next hnext =>
    have hat : c.advance.isAt (· == '\n') := by
      rw [isAt, current, rest_advance, hx, List.tail_cons, hnext]
      rfl
    rw [advance_moved_of_isAt hat (by decide)]
    rfl
  · rw [moved_upTo, ← returnDiagnostics_moved _ hne]
    rfl

/-! ### Strings -/

/-- The inside of a string, in the setting. -/
def Interior.moved (i : Interior) (m : Setting) : Interior :=
  ⟨i.diagnostics.map (·.moved m.bytes), i.closed, i.after.moved m⟩

theorem report_moved (i : Interior) (ds : List Diagnostic) (m : Setting) :
    (i.report ds).moved m = (i.moved m).report (ds.map (·.moved m.bytes)) := by
  rw [Interior.report, Interior.moved, List.map_append]
  rfl

theorem escapeDiagnostics_moved (position : Position) (x : Char) (m : Setting) :
    escapeDiagnostics (position.moved m.bytes m.lines) x =
      (escapeDiagnostics position x).map (·.moved m.bytes) := by
  have hone : position.offset + m.bytes + 1 = position.offset + 1 + m.bytes := by omega
  have hboth : position.offset + m.bytes + 1 + x.utf8Size =
      position.offset + 1 + x.utf8Size + m.bytes := by omega
  unfold escapeDiagnostics
  split
  · rfl
  · split
    · simp only [List.map_cons, List.map_nil, Diagnostic.moved, Span.moved, Defect.within,
        Position.moved, hone]
    · simp only [List.map_cons, List.map_nil, Diagnostic.moved, Span.moved, Defect.within,
        Position.moved, hboth]

theorem quotedInterior_moved (rest : List Char) (position : Position)
    (h : m.after = [] ∨ (quotedInterior rest position).closed) :
    quotedInterior (rest ++ m.after) (position.moved m.bytes m.lines) =
      (quotedInterior rest position).moved m := by
  fun_induction quotedInterior rest position with
  | case1 p =>
    have hafter : m.after = [] := h.resolve_right Bool.false_ne_true
    simp [quotedInterior, Interior.moved, Cursor.moved, hafter]
  | case2 xs p =>
    have hpast := m.past_eq p (x := '"') (r := xs) (.inl (by decide))
    simp only [List.cons_append, quotedInterior, hpast]
    rfl
  | case3 p =>
    have hafter : m.after = [] := h.resolve_right Bool.false_ne_true
    simp [quotedInterior, Interior.moved, Cursor.moved, hafter, Position.moved_past]
  | case4 x xs p inside hx ih =>
    have hinside : (p.moved m.bytes m.lines).past '\\' (some x) = inside.moved m.bytes m.lines :=
      Position.moved_past ..
    simp only [List.cons_append] at ih ⊢
    rw [quotedInterior, hinside]
    simp only [if_pos hx]
    rw [ih h, report_moved, escapeDiagnostics_moved]
  | case5 x xs p inside hx ih =>
    have hinside : (p.moved m.bytes m.lines).past '\\' (some x) = inside.moved m.bytes m.lines :=
      Position.moved_past ..
    have hne : x ≠ '\r' := by
      rintro rfl
      exact hx rfl
    simp only [List.cons_append]
    rw [quotedInterior, hinside, m.past_eq inside (.inl hne)]
    simp only [if_neg hx]
    rw [ih h, report_moved, escapeDiagnostics_moved]
  | case6 xs p ih =>
    have hne : m.after = [] ∨ xs ≠ [] := by
      refine h.imp_right fun h => ?_
      rintro rfl
      contradiction
    rw [List.cons_append, quotedInterior, m.past_eq p (.inr hne), returnDiagnostics_moved _ hne,
      ih h, report_moved]
  | case7 x xs p hquote hslash hslash' hreturn ih =>
    have hne : x ≠ '\\' := by
      rintro rfl
      cases xs with
      | nil => exact hslash rfl rfl
      | cons y ys => exact hslash' y ys rfl rfl
    rw [List.cons_append, quotedInterior, m.past_eq p (.inl hreturn), ih h]
    · exact hquote
    · exact fun heq _ => hne heq
    · exact fun _ _ heq _ => hne heq
    · exact hreturn

theorem rawInterior_moved (depth : Nat) (rest : List Char) (position : Position)
    (h : m.after = [] ∨ (rawInterior depth rest position).closed) :
    rawInterior depth (rest ++ m.after) (position.moved m.bytes m.lines) =
      (rawInterior depth rest position).moved m := by
  fun_induction rawInterior depth rest position with
  | case1 depth p =>
    have hafter : m.after = [] := h.resolve_right Bool.false_ne_true
    simp [rawInterior, Interior.moved, Cursor.moved, hafter]
  | case2 depth xs p ih =>
    rw [List.cons_append, rawInterior, m.past_eq p (.inl (by decide)), ih h]
  | case3 depth xs p after hdepth =>
    rw [List.cons_append, rawInterior, m.past_eq p (.inl (by decide)), if_pos hdepth]
    rfl
  | case4 depth xs p after hdepth ih =>
    rw [List.cons_append, rawInterior, m.past_eq p (.inl (by decide)), if_neg hdepth, ih h]
  | case5 depth xs p ih =>
    have hne : m.after = [] ∨ xs ≠ [] := by
      refine h.imp_right fun h => ?_
      rintro rfl
      contradiction
    rw [List.cons_append, rawInterior, m.past_eq p (.inr hne), returnDiagnostics_moved _ hne,
      ih h, report_moved]
  | case6 depth x xs p hopen hclose hreturn ih =>
    rw [List.cons_append, rawInterior, m.past_eq p (.inl hreturn), ih h]
    · exact hopen
    · exact hclose
    · exact hreturn

theorem stringOf_moved (start : Position) (unterminated : Defect) (i : Interior) (m : Setting) :
    stringOf (start.moved m.bytes m.lines) unterminated (i.moved m) =
      (stringOf start unterminated i).moved m := by
  unfold stringOf
  rw [moved_upTo, List.map_append]
  cases i with
  | mk ds closed after => cases closed <;> rfl

/-- A string without defects is closed. -/
theorem closed_of_stringOf {start : Position} {unterminated : Defect} {i : Interior}
    (h : (stringOf start unterminated i).diagnostics = []) : i.closed := by
  cases hi : i.closed with
  | true => rfl
  | false =>
    have hnone := (List.append_eq_nil_iff.1 h).2
    rw [hi] at hnone
    contradiction

theorem quoted_moved (h : c.isAt (· == '"'))
    (hclean : m.after = [] ∨ (quoted c).diagnostics = []) :
    quoted (c.moved m) = (quoted c).moved m := by
  unfold quoted at hclean ⊢
  rw [advance_moved_of_isAt h (by decide), rest_moved, position_moved, position_moved,
    quotedInterior_moved _ _ (hclean.imp_right closed_of_stringOf), stringOf_moved]

theorem raw_moved (h : c.isAt (· == '«')) (hclean : m.after = [] ∨ (raw c).diagnostics = []) :
    raw (c.moved m) = (raw c).moved m := by
  unfold raw at hclean ⊢
  rw [advance_moved_of_isAt h (by decide), rest_moved, position_moved, position_moved,
    rawInterior_moved _ _ _ (hclean.imp_right closed_of_stringOf), stringOf_moved]

end Lexeme

end MplWorkbench
