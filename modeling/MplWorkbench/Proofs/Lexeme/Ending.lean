import MplWorkbench.Proofs.Lexeme.Spelling
import MplWorkbench.Proofs.Reading.Skipping

/-! Where literals end.

A string goes to the first place that ends it, whichever way it is read: a quote
with an even number of backslashes before it, or the `»` that closes as many as
were opened. What ends a string is told of the characters behind its opening
delimiter (`EndsQuoted`, `EndsRaw`), and character by character: taking one
changes what is still to come (`Stops.cons`).

`stopsAlike`: reading a literal and skipping it come to the same place, and which
place that is. -/
namespace MplWorkbench

namespace Cursor

variable {ends ends' : List Char → Prop} {c d : Cursor} {x : Char} {r : List Char} {closed : Bool}

/-- Reading on from `c` comes to `d`: past the first characters that `ends` holds of, or to the end
of the text where it holds of none. -/
inductive Stops (ends : List Char → Prop) (c : Cursor) : Bool → Cursor → Prop where
  | closed {w : List Char} {d : Cursor} : c.Takes w d → ends w →
      (∀ v, v <+: w → ends v → v = w) → Stops ends c true d
  | unclosed {w : List Char} {d : Cursor} : c.Takes w d → d.rest = [] →
      (∀ v, v <+: w → ¬ ends v) → Stops ends c false d

/-- The first character is only taken, if neither nothing nor that character is an end. -/
theorem Stops.cons (hx : c.rest = x :: r) (hnil : ¬ ends []) (hends : ∀ w, ends (x :: w) ↔ ends' w)
    (h : Stops ends' c.advance closed d) : Stops ends c closed d := by
  have hfirst : c.Takes [x] c.advance := takes_advance hx
  cases h with
  | @closed w _ hw hend hleast =>
    refine .closed (hfirst.trans hw) ((hends w).2 hend) fun v hv hendv => ?_
    rcases List.prefix_cons_iff.1 hv with rfl | ⟨u, rfl, hu⟩
    · exact absurd hendv hnil
    · exact congrArg (x :: ·) (hleast u hu ((hends u).1 hendv))
  | @unclosed w _ hw hrest hnone =>
    refine .unclosed (hfirst.trans hw) hrest fun v hv hendv => ?_
    rcases List.prefix_cons_iff.1 hv with rfl | ⟨u, rfl, hu⟩
    · exact hnil hendv
    · exact hnone u hu ((hends u).1 hendv)

/-- The first character is an end. -/
theorem stops_advance (hx : c.rest = x :: r) (hnil : ¬ ends []) (hend : ends [x]) :
    Stops ends c true c.advance := by
  refine .closed (takes_advance hx) hend fun v hv hendv => ?_
  rcases List.prefix_cons_iff.1 hv with rfl | ⟨u, rfl, hu⟩
  · exact absurd hendv hnil
  · rw [List.prefix_nil.1 hu]

theorem stops_of_rest_eq_nil (hrest : c.rest = []) (hnil : ¬ ends []) : Stops ends c false c := by
  refine .unclosed (.refl c) hrest fun v hv hendv => ?_
  rw [List.prefix_nil.1 hv] at hendv
  exact hnil hendv

end Cursor

namespace Lexeme

open Cursor

variable {c : Cursor} {x : Char} {w : List Char} {depth : Nat}

/-! ### Quoted strings -/

/-- The number of backslashes that a text ends in. -/
def backslashes (w : List Char) : Nat := (w.reverse.takeWhile (· == '\\')).length

/-- Behind an opening quote, these characters are a string with its end. -/
def EndsQuoted (w : List Char) : Prop := ∃ v, w = v ++ ['"'] ∧ backslashes v % 2 = 0

/-- A text of backslashes only goes on the run in front of it. -/
theorem backslashes_append (v w : List Char) : backslashes (v ++ w) =
    if backslashes w = w.length then backslashes v + backslashes w else backslashes w := by
  rw [backslashes, List.reverse_append, List.takeWhile_append, List.length_reverse]
  show List.length (if backslashes w = w.length then _ else _) = _
  split
  · next hall =>
    rw [List.length_append, List.length_reverse, ← hall, Nat.add_comm]
    rfl
  · rfl

theorem backslashes_cons (hx : x ≠ '\\') (w : List Char) :
    backslashes (x :: w) = backslashes w := by
  have hnone : backslashes [x] = 0 := by simp [backslashes, hx]
  rw [← List.singleton_append, backslashes_append, hnone, Nat.zero_add, ite_self]

/-- A pair of a backslash and what it escapes does not change what is escaped behind it. -/
theorem backslashes_escape (x : Char) (w : List Char) :
    backslashes ('\\' :: x :: w) % 2 = backslashes w % 2 := by
  have hpair : backslashes ['\\', x] % 2 = 0 := by
    by_cases hx : x = '\\' <;> simp [backslashes, hx]
  rw [show '\\' :: x :: w = ['\\', x] ++ w from rfl, backslashes_append]
  split
  · rw [Nat.add_mod, hpair, Nat.zero_add, Nat.mod_mod]
  · rfl

theorem not_endsQuoted_nil : ¬ EndsQuoted [] := by
  rintro ⟨v, hv, -⟩
  exact List.append_ne_nil_of_right_ne_nil v (List.cons_ne_nil _ _) hv.symm

theorem eq_quote_of_endsQuoted (h : EndsQuoted [x]) : x = '"' := by
  obtain ⟨v, hv, -⟩ := h
  have hlast := congrArg List.getLast? hv
  rw [List.getLast?_concat] at hlast
  exact Option.some.inj hlast

theorem endsQuoted_cons (hquote : x ≠ '"') (hescape : x ≠ '\\') (w : List Char) :
    EndsQuoted (x :: w) ↔ EndsQuoted w := by
  constructor
  · rintro ⟨v, hv, heven⟩
    cases v with
    | nil => exact absurd (List.cons.inj hv).1 hquote
    | cons y v =>
      obtain ⟨rfl, rfl⟩ := List.cons.inj hv
      exact ⟨v, rfl, by rwa [backslashes_cons hescape] at heven⟩
  · rintro ⟨v, rfl, heven⟩
    exact ⟨x :: v, rfl, by rwa [backslashes_cons hescape]⟩

theorem endsQuoted_escape (x : Char) (w : List Char) :
    EndsQuoted ('\\' :: x :: w) ↔ EndsQuoted w := by
  constructor
  · rintro ⟨v, hv, heven⟩
    match v with
    | [] => exact absurd (List.cons.inj hv).2 (List.cons_ne_nil _ _)
    | [y] =>
      obtain ⟨rfl, -⟩ := List.cons.inj hv
      contradiction
    | y :: z :: v =>
      simp only [List.cons_append, List.cons.injEq] at hv
      obtain ⟨rfl, rfl, rfl⟩ := hv
      exact ⟨v, rfl, by rwa [backslashes_escape] at heven⟩
  · rintro ⟨v, rfl, heven⟩
    exact ⟨'\\' :: x :: v, rfl, by rwa [backslashes_escape]⟩

theorem report_report (ds ds' : List Diagnostic) (i : Interior) :
    (i.report ds').report ds = i.report (ds ++ ds') := by
  simp only [Interior.report, List.append_assoc]

/-- Behind a character that is neither a quote nor a backslash, the interior goes on as it began. -/
theorem quotedInterior_cons (hquote : x ≠ '"') (hescape : x ≠ '\\') (xs : List Char)
    (p : Position) : ∃ ds, quotedInterior (x :: xs) p =
      (quotedInterior xs (p.past x xs.head?)).report ds := by
  by_cases hreturn : x = '\r'
  · subst hreturn
    exact ⟨returnDiagnostics p xs, rfl⟩
  · refine ⟨[], ?_⟩
    rw [quotedInterior]
    · rfl
    · exact hquote
    · exact fun hx _ => hescape hx
    · exact fun _ _ hx _ => hescape hx
    · exact hreturn

/-- A backslash takes the character that it escapes with it, be it a line break or not. -/
theorem quotedInterior_escape (x : Char) (xs : List Char) (p : Position) :
    ∃ ds, quotedInterior ('\\' :: x :: xs) p =
      (quotedInterior xs ((p.past '\\' (some x)).past x xs.head?)).report ds := by
  rw [quotedInterior]
  split
  · next hbreak =>
    have hx : x ≠ '"' ∧ x ≠ '\\' := by
      rcases Bool.or_eq_true_iff.1 hbreak with hx | hx <;> rw [eq_of_beq hx] <;> decide
    obtain ⟨ds, hinterior⟩ := quotedInterior_cons hx.1 hx.2 xs (p.past '\\' (some x))
    rw [hinterior, report_report]
    exact ⟨_, rfl⟩
  · exact ⟨_, rfl⟩

/-- What the interior of a quoted string comes to, and whether it is closed there. -/
theorem quotedInterior_stops (rest : List Char) (p : Position) :
    Stops EndsQuoted ⟨rest, p⟩ (quotedInterior rest p).closed (quotedInterior rest p).after := by
  have hslash : ¬ EndsQuoted ['\\'] := fun h => absurd (eq_quote_of_endsQuoted h) (by decide)
  induction rest, p using skipQuotedFrom.induct with
  | case1 p => exact stops_of_rest_eq_nil rfl not_endsQuoted_nil
  | case2 xs p => exact stops_advance rfl not_endsQuoted_nil ⟨[], rfl, rfl⟩
  | case3 p =>
    exact .cons rfl not_endsQuoted_nil (fun _ => Iff.rfl) (stops_of_rest_eq_nil rfl hslash)
  | case4 x xs p ih =>
    obtain ⟨ds, hinterior⟩ := quotedInterior_escape x xs p
    rw [hinterior]
    -- the backslash is taken first, and then the character after it
    exact .cons rfl not_endsQuoted_nil (fun _ => Iff.rfl)
      (.cons rfl hslash (endsQuoted_escape x) ih)
  | case5 x xs p hquote hlone hescape ih =>
    have hx : x ≠ '\\' := by
      rintro rfl
      cases xs with
      | nil => exact hlone rfl rfl
      | cons y ys => exact hescape y ys rfl rfl
    obtain ⟨ds, hinterior⟩ := quotedInterior_cons hquote hx xs p
    rw [hinterior]
    exact .cons rfl not_endsQuoted_nil (endsQuoted_cons hquote hx) ih

/-! ### Raw strings -/

/-- Behind `depth` opening `«`, these characters are a raw string with its end: it has closed as
often as it has opened. -/
def EndsRaw (depth : Nat) (w : List Char) : Prop :=
  w.getLast? = some '»' ∧ depth + w.count '«' = w.count '»'

theorem not_endsRaw_nil (depth : Nat) : ¬ EndsRaw depth [] := fun h => nomatch h.1

theorem endsRaw_open (depth : Nat) (w : List Char) :
    EndsRaw depth ('«' :: w) ↔ EndsRaw (depth + 1) w := by
  rw [EndsRaw, EndsRaw, List.count_cons_self, List.count_cons_of_ne (by decide)]
  cases w with
  | nil => simp
  | cons y w => rw [List.getLast?_cons_cons, Nat.add_right_comm, Nat.add_assoc]

theorem endsRaw_close (hdepth : 1 < depth) (w : List Char) :
    EndsRaw depth ('»' :: w) ↔ EndsRaw (depth - 1) w := by
  rw [EndsRaw, EndsRaw, List.count_cons_self, List.count_cons_of_ne (by decide)]
  cases w with
  | nil =>
    have hne : depth ≠ 1 := Nat.ne_of_gt hdepth
    simp [hne]
  | cons y w =>
    rw [List.getLast?_cons_cons]
    refine and_congr_right fun _ => ?_
    omega

theorem endsRaw_cons (hopen : x ≠ '«') (hclose : x ≠ '»') (depth : Nat) (w : List Char) :
    EndsRaw depth (x :: w) ↔ EndsRaw depth w := by
  rw [EndsRaw, EndsRaw, List.count_cons_of_ne hopen, List.count_cons_of_ne hclose]
  cases w with
  | nil => simp [hclose]
  | cons y w => rw [List.getLast?_cons_cons]

/-- What the interior of a raw string comes to, and whether it is closed there. -/
theorem rawInterior_stops (hdepth : 1 ≤ depth) (rest : List Char) (p : Position) :
    Stops (EndsRaw depth) ⟨rest, p⟩ (rawInterior depth rest p).closed
      (rawInterior depth rest p).after := by
  fun_induction rawInterior depth rest p with
  | case1 depth p => exact stops_of_rest_eq_nil rfl (not_endsRaw_nil depth)
  | case2 depth xs p ih =>
    exact .cons rfl (not_endsRaw_nil depth) (endsRaw_open depth) (ih (by omega))
  | case3 depth xs p after hone =>
    obtain rfl : depth = 1 := by omega
    exact stops_advance rfl (not_endsRaw_nil 1) ⟨rfl, rfl⟩
  | case4 depth xs p after hmore ih =>
    exact .cons rfl (not_endsRaw_nil depth) (endsRaw_close (by omega)) (ih (by omega))
  | case5 depth xs p ih =>
    exact .cons rfl (not_endsRaw_nil depth) (endsRaw_cons (by decide) (by decide) depth) (ih hdepth)
  | case6 depth x xs p hopen hclose _ ih =>
    exact .cons rfl (not_endsRaw_nil depth) (endsRaw_cons hopen hclose depth) (ih hdepth)

/-! ### Missing ends -/

/-- Of what is told here, nothing says that a string has no end. -/
def Endless (ds : List Diagnostic) : Prop := ∀ d ∈ ds,
  d.message ≠ Defect.unterminatedString.message ∧
    d.message ≠ Defect.unterminatedRawString.message

theorem Endless.append {ds ds' : List Diagnostic} (h : Endless ds) (h' : Endless ds') :
    Endless (ds ++ ds') :=
  fun d hd => (List.mem_append.1 hd).elim (h d) (h' d)

theorem endless_nil : Endless [] := fun _ hd => absurd hd List.not_mem_nil

theorem endless_within {defect : Defect} (span : Span)
    (h : defect.message ≠ Defect.unterminatedString.message ∧
      defect.message ≠ Defect.unterminatedRawString.message) : Endless [defect.within span] :=
  List.forall_mem_singleton.2 h

theorem endless_returnDiagnostics (p : Position) (xs : List Char) :
    Endless (returnDiagnostics p xs) := by
  unfold returnDiagnostics
  split
  · exact endless_nil
  · exact endless_within _ (by decide)

theorem endless_escapeDiagnostics (p : Position) (x : Char) :
    Endless (escapeDiagnostics p x) := by
  unfold escapeDiagnostics
  split
  · exact endless_nil
  · split
    · exact endless_within _ (by decide)
    · exact endless_within _ (by decide)

theorem endless_quotedInterior (rest : List Char) (p : Position) :
    Endless (quotedInterior rest p).diagnostics := by
  fun_induction quotedInterior rest p with
  | case1 => exact endless_nil
  | case2 => exact endless_nil
  | case3 => exact endless_nil
  | case4 x xs p inside _ ih => exact (endless_escapeDiagnostics p x).append ih
  | case5 x xs p inside _ ih => exact (endless_escapeDiagnostics p x).append ih
  | case6 xs p ih => exact (endless_returnDiagnostics p xs).append ih
  | case7 x xs p _ _ _ _ ih => exact ih

theorem endless_rawInterior (depth : Nat) (rest : List Char) (p : Position) :
    Endless (rawInterior depth rest p).diagnostics := by
  fun_induction rawInterior depth rest p with
  | case1 => exact endless_nil
  | case2 _ _ _ ih => exact ih
  | case3 => exact endless_nil
  | case4 _ _ _ _ _ ih => exact ih
  | case5 depth xs p ih => exact (endless_returnDiagnostics p xs).append ih
  | case6 _ _ _ _ _ _ _ ih => exact ih

/-- That the string has no end is told once if it has none, and never if it has one. -/
def TellsEnd (start : Nat) (unterminated : Defect) (closed : Bool) (l : Lexeme) : Prop :=
  l.diagnostics.filter (·.message = unterminated.message) =
    if closed then [] else [unterminated.missingAt start]

theorem stringOf_tellsEnd (start : Position) {unterminated : Defect} {i : Interior}
    (h : ∀ d ∈ i.diagnostics, d.message ≠ unterminated.message) :
    TellsEnd start.offset unterminated i.closed (stringOf start unterminated i) := by
  have hnone : i.diagnostics.filter (·.message = unterminated.message) = [] :=
    List.filter_eq_nil_iff.2 fun d hd => by simpa using h d hd
  show List.filter _ (i.diagnostics ++ _) = _
  rw [List.filter_append, hnone, List.nil_append]
  cases i.closed with
  | true => rfl
  | false => simp [Defect.missingAt, Defect.within]

/-! ### Literals -/

/-- Reading and skipping a literal come to the same place, whatever stands at the cursor in the
place of its opening delimiter: to the end of the string, or of the line. -/
structure StopsAlike (c : Cursor) : Prop where
  quoted_eq : (quoted c).after = skipQuoted c
  quoted_stops : ∃ closed, c.advance.Stops EndsQuoted closed (skipQuoted c) ∧
    TellsEnd c.offset .unterminatedString closed (quoted c)
  raw_eq : (raw c).after = skipRaw c
  raw_stops : ∃ closed, c.advance.Stops (EndsRaw 1) closed (skipRaw c) ∧
    TellsEnd c.offset .unterminatedRawString closed (raw c)
  comment_eq : (comment c).after = skipComment c
  comment_stops : ∃ w, c.advance.Takes w (skipComment c) ∧ (∀ x ∈ w, x ≠ '\n' ∧ x ≠ '\r') ∧
    ((skipComment c).rest = [] ∨ (skipComment c).current = some '\n' ∨
      (skipComment c).current = some '\r')

theorem comment_stops (c : Cursor) :
    ∃ w, c.advance.Takes w (skipComment c) ∧ (∀ x ∈ w, x ≠ '\n' ∧ x ≠ '\r') ∧
      ((skipComment c).rest = [] ∨ (skipComment c).current = some '\n' ∨
        (skipComment c).current = some '\r') := by
  obtain ⟨w, hw, hline⟩ := exists_takes_skipWhile c.advance fun x => !isBreak x
  have hbreak (x : Char) : isBreak x = true ↔ x = '\n' ∨ x = '\r' := by simp [isBreak]
  refine ⟨w, hw, fun x hx => ?_, ?_⟩
  · have hplain := hline x hx
    rw [Bool.not_eq_true', Bool.eq_false_iff, ne_eq, hbreak, not_or] at hplain
    exact hplain
  · have hstop : (skipComment c).isAt (fun x => !isBreak x) = false := isAt_skipWhile ..
    rw [current]
    cases hrest : (skipComment c).rest with
    | nil => exact .inl rfl
    | cons x r =>
      rw [isAt_of_rest_eq hrest, Bool.not_eq_false', hbreak] at hstop
      exact .inr (hstop.imp (congrArg some) (congrArg some))

theorem stopsAlike (c : Cursor) : StopsAlike c where
  quoted_eq := (skipQuoted_eq c).symm
  quoted_stops := ⟨_, skipQuoted_eq c ▸ quotedInterior_stops _ _,
    stringOf_tellsEnd c.position fun d hd => (endless_quotedInterior _ _ d hd).1⟩
  raw_eq := (skipRaw_eq c).symm
  raw_stops := ⟨_, skipRaw_eq c ▸ rawInterior_stops (Nat.le_refl 1) _ _,
    stringOf_tellsEnd c.position fun d hd => (endless_rawInterior _ _ _ d hd).2⟩
  comment_eq := (skipComment_eq c).symm
  comment_stops := comment_stops c

end Lexeme

end MplWorkbench
