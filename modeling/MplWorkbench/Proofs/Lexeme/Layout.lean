import MplWorkbench.Proofs.Lexeme.Recognition
import MplWorkbench.Proofs.Reading.Skipping
import MplWorkbench.Proofs.Text.Layout

/-! Terminals in two layouts.

Strings, comments, line breaks and regions hold blanks, so where they end has to
be found in what they are made of. Each is read again from its own word, with any
text behind it that is near what was behind it before: nothing but the word is
read, and the same is reported (`Repeats`). A string or a region that nothing
closes ends with the text in both layouts; a comment ends with its line, and the
spaces there are part of the gap behind it. -/
namespace MplWorkbench

/-- What is reported, wherever it is. -/
def Diagnostic.brief (d : Diagnostic) : Kind × String := (d.token, d.message)

theorem exists_cons_of_append {x : Char} {w r xs : List Char} (h : x :: xs = w ++ r)
    (hlength : r.length ≤ xs.length) : ∃ v, w = x :: v ∧ xs = v ++ r := by
  cases w with
  | nil =>
    have hboth := congrArg List.length h
    rw [List.nil_append, List.length_cons] at hboth
    omega
  | cons y v =>
    obtain ⟨rfl, hxs⟩ := List.cons.inj h
    exact ⟨v, rfl, hxs⟩

namespace Lexeme

open Cursor

variable {c c' d : Cursor} {x : Char} {v w r r' : List Char} {l l' : Lexeme}

/-- The terminal is read again, with the same reported, and `rest` is left behind it. -/
structure Repeats (l l' : Lexeme) (rest : List Char) : Prop where
  kind_eq : l'.kind = l.kind
  brief_eq : l'.diagnostics.map Diagnostic.brief = l.diagnostics.map Diagnostic.brief
  stop_eq : l'.stop = l'.after.offset
  rest_eq : l'.after.rest = rest

theorem Alike.stop_eq {R : Cursor → Cursor → Prop} {start start' : Position}
    (h : Alike R start start' l l') : l.stop = l.after.offset := by
  cases h <;> rfl

theorem Alike.repeats {start start' : Position} (h : Alike (Along c c') start start' l l')
    (hw : c.Takes w l.after) (hrest : c'.rest = w ++ r') : Repeats l l' r' := by
  have hleft {d d' : Cursor} (hd : Along c c' d d') (hw : c.Takes w d) : d'.rest = r' := by
    obtain ⟨v, hv, hv', -⟩ := hd
    obtain ⟨rfl, -⟩ := hw.eq_of_offset_eq hv rfl
    exact hv'.rest_eq_of_append hrest
  cases h with
  | upTo _ hd => exact ⟨rfl, rfl, rfl, hleft hd hw⟩
  | defective _ hd => exact ⟨rfl, rfl, rfl, hleft hd hw⟩
  | missing _ _ hd => exact ⟨rfl, rfl, rfl, hleft hd hw⟩

/-! ### Strings -/

namespace Interior

/-- The inside of a string is read again, and `rest` is left behind it. -/
structure Repeats (i i' : Interior) (rest : List Char) : Prop where
  closed_eq : i'.closed = i.closed
  brief_eq : i'.diagnostics.map Diagnostic.brief = i.diagnostics.map Diagnostic.brief
  rest_eq : i'.after.rest = rest

theorem Repeats.report {i i' : Interior} {ds ds' : List Diagnostic} (h : Repeats i i' r)
    (hds : ds'.map Diagnostic.brief = ds.map Diagnostic.brief) :
    Repeats (i.report ds) (i'.report ds') r where
  closed_eq := h.closed_eq
  brief_eq := by
    show (ds' ++ i'.diagnostics).map _ = (ds ++ i.diagnostics).map _
    rw [List.map_append, List.map_append, hds, h.brief_eq]
  rest_eq := h.rest_eq

end Interior

theorem brief_escapeDiagnostics (p p' : Position) (x : Char) :
    (escapeDiagnostics p' x).map Diagnostic.brief =
      (escapeDiagnostics p x).map Diagnostic.brief := by
  unfold escapeDiagnostics
  split
  · rfl
  · split <;> rfl

theorem brief_returnDiagnostics (h : Near r r') (p p' : Position) :
    (returnDiagnostics p' r').map Diagnostic.brief =
      (returnDiagnostics p r).map Diagnostic.brief := by
  have hfeed := h.head?_eq_iff (x := '\n') rfl
  simp only [returnDiagnostics, hfeed]
  split <;> rfl

theorem quotedInterior_repeats {rest : List Char} {p : Position}
    (hafter : (quotedInterior rest p).after.rest = r) (hnear : Near r r') :
    ∀ w, rest = w ++ r → ∀ p',
      Interior.Repeats (quotedInterior rest p) (quotedInterior (w ++ r') p') r' := by
  fun_induction quotedInterior rest p with
  | case1 p =>
    intro w hrest p'
    obtain ⟨rfl, rfl⟩ := List.nil_eq_append_iff.1 hrest
    obtain rfl := hnear.eq_nil
    exact ⟨rfl, rfl, rfl⟩
  | case2 xs p =>
    intro w hrest p'
    obtain rfl : xs = r := hafter
    obtain rfl : ['"'] = w := List.append_cancel_right hrest
    exact ⟨rfl, rfl, rfl⟩
  | case3 p =>
    intro w hrest p'
    obtain rfl : [] = r := hafter
    obtain rfl := hnear.eq_nil
    obtain rfl : ['\\'] = w := List.append_cancel_right hrest
    exact ⟨rfl, rfl, rfl⟩
  | case4 x xs p inside hx ih =>
    intro w hrest p'
    have hlength := (reaches_quotedInterior (x :: xs) inside).length_le
    obtain ⟨v, rfl, hxs⟩ := exists_cons_of_append hrest (hafter ▸ hlength)
    obtain ⟨xs', hxs', -⟩ := (hxs ▸ hnear.append v).cons_inv (isSpace_eq_false_of_isBreak hx)
    have hnext := ih hafter v hxs (p'.past '\\' (some x))
    rw [List.cons_append]
    rw [hxs'] at hnext ⊢
    rw [quotedInterior]
    simp only [if_pos hx]
    exact hnext.report (brief_escapeDiagnostics ..)
  | case5 x xs p inside hx ih =>
    intro w hrest p'
    have hlength := (reaches_quotedInterior xs (inside.past x xs.head?)).length_le
    have hle : r.length ≤ xs.length := hafter ▸ hlength
    obtain ⟨v, rfl, hescape⟩ := exists_cons_of_append hrest (Nat.le_succ_of_le hle)
    obtain ⟨u, rfl, hxs⟩ := exists_cons_of_append hescape hle
    rw [List.cons_append, List.cons_append, quotedInterior]
    simp only [if_neg hx]
    exact (ih hafter u hxs _).report (brief_escapeDiagnostics ..)
  | case6 xs p ih =>
    intro w hrest p'
    have hlength := (reaches_quotedInterior xs (p.past '\r' xs.head?)).length_le
    obtain ⟨v, rfl, rfl⟩ := exists_cons_of_append hrest (hafter ▸ hlength)
    rw [List.cons_append, quotedInterior]
    exact (ih hafter v rfl _).report (brief_returnDiagnostics (hnear.append v) ..)
  | case7 x xs p hquote hslash hslash' hreturn ih =>
    intro w hrest p'
    have hlength := (reaches_quotedInterior xs (p.past x xs.head?)).length_le
    obtain ⟨v, rfl, hxs⟩ := exists_cons_of_append hrest (hafter ▸ hlength)
    have hne : x ≠ '\\' := by
      rintro rfl
      cases xs with
      | nil => exact hslash rfl rfl
      | cons y ys => exact hslash' y ys rfl rfl
    rw [List.cons_append, quotedInterior]
    · exact ih hafter v hxs _
    · exact hquote
    · exact fun heq _ => hne heq
    · exact fun _ _ heq _ => hne heq
    · exact hreturn

theorem rawInterior_repeats {depth : Nat} {rest : List Char} {p : Position}
    (hafter : (rawInterior depth rest p).after.rest = r) (hnear : Near r r') :
    ∀ w, rest = w ++ r → ∀ p',
      Interior.Repeats (rawInterior depth rest p) (rawInterior depth (w ++ r') p') r' := by
  fun_induction rawInterior depth rest p with
  | case1 depth p =>
    intro w hrest p'
    obtain ⟨rfl, rfl⟩ := List.nil_eq_append_iff.1 hrest
    obtain rfl := hnear.eq_nil
    exact ⟨rfl, rfl, rfl⟩
  | case2 depth xs p ih =>
    intro w hrest p'
    have hlength := (reaches_rawInterior (depth + 1) xs (p.past '«' xs.head?)).length_le
    obtain ⟨v, rfl, hxs⟩ := exists_cons_of_append hrest (hafter ▸ hlength)
    rw [List.cons_append, rawInterior]
    exact ih hafter v hxs _
  | case3 depth xs p after hdepth =>
    intro w hrest p'
    obtain rfl : xs = r := hafter
    obtain rfl : ['»'] = w := List.append_cancel_right hrest
    rw [List.cons_append, rawInterior, if_pos hdepth]
    exact ⟨rfl, rfl, rfl⟩
  | case4 depth xs p after hdepth ih =>
    intro w hrest p'
    have hlength := (reaches_rawInterior (depth - 1) xs after).length_le
    obtain ⟨v, rfl, hxs⟩ := exists_cons_of_append hrest (hafter ▸ hlength)
    rw [List.cons_append, rawInterior, if_neg hdepth]
    exact ih hafter v hxs _
  | case5 depth xs p ih =>
    intro w hrest p'
    have hlength := (reaches_rawInterior depth xs (p.past '\r' xs.head?)).length_le
    obtain ⟨v, rfl, rfl⟩ := exists_cons_of_append hrest (hafter ▸ hlength)
    rw [List.cons_append, rawInterior]
    exact (ih hafter v rfl _).report (brief_returnDiagnostics (hnear.append v) ..)
  | case6 depth x xs p hopen hclose hreturn ih =>
    intro w hrest p'
    have hlength := (reaches_rawInterior depth xs (p.past x xs.head?)).length_le
    obtain ⟨v, rfl, hxs⟩ := exists_cons_of_append hrest (hafter ▸ hlength)
    rw [List.cons_append, rawInterior]
    · exact ih hafter v hxs _
    · exact hopen
    · exact hclose
    · exact hreturn

theorem stringOf_repeats {i i' : Interior} (h : i.Repeats i' r) (start start' : Position)
    (unterminated : Defect) :
    Repeats (stringOf start unterminated i) (stringOf start' unterminated i') r := by
  refine ⟨rfl, ?_, rfl, h.rest_eq⟩
  unfold stringOf upTo
  rw [List.map_append, List.map_append, h.brief_eq, h.closed_eq]
  split <;> rfl

theorem quoted_repeats (hw : c.Takes (x :: v) (quoted c).after)
    (hnear : Near (quoted c).after.rest r') (hrest : c'.rest = x :: (v ++ r')) :
    Repeats (quoted c) (quoted c') r' := by
  have hinside : c.advance.rest = v ++ (quoted c).after.rest := hw.tail.rest_eq
  have hinside' : c'.advance.rest = v ++ r' := by rw [rest_advance, hrest, List.tail_cons]
  refine stringOf_repeats ?_ c.position c'.position _
  rw [hinside']
  exact quotedInterior_repeats rfl hnear v hinside _

theorem raw_repeats (hw : c.Takes (x :: v) (raw c).after) (hnear : Near (raw c).after.rest r')
    (hrest : c'.rest = x :: (v ++ r')) : Repeats (raw c) (raw c') r' := by
  have hinside : c.advance.rest = v ++ (raw c).after.rest := hw.tail.rest_eq
  have hinside' : c'.advance.rest = v ++ r' := by rw [rest_advance, hrest, List.tail_cons]
  refine stringOf_repeats ?_ c.position c'.position _
  rw [hinside']
  exact rawInterior_repeats rfl hnear v hinside _

/-! ### Line breaks -/

theorem lineBreak_repeats (h : c.isAt isBreak) (hw : c.Takes w (lineBreak c).after)
    (hnear : Near (lineBreak c).after.rest r') (hrest : c'.rest = w ++ r') :
    Repeats (lineBreak c) (lineBreak c') r' := by
  obtain ⟨x, r, hx, hbreak⟩ := rest_eq_of_isAt h
  -- the break is this word, if reading goes on behind it
  have hword {u : List Char} {d : Cursor} (hd : (lineBreak c).after = d) (hu : c.Takes u d) :
      w = u := (hw.eq_of_offset_eq hu (congrArg Cursor.offset hd)).1
  rcases Bool.or_eq_true_iff.1 hbreak with heq | heq
  · obtain rfl := eq_of_beq heq
    have hfeed := lineBreak_feed hx
    obtain rfl := hword (by rw [hfeed]; rfl) (takes_advance hx)
    have hrest' : c'.rest = '\n' :: r' := hrest
    rw [hfeed, lineBreak_feed hrest']
    exact ⟨rfl, rfl, rfl, by rw [upTo, rest_advance, hrest', List.tail_cons]⟩
  obtain rfl := eq_of_beq heq
  have hreturn := lineBreak_return hx
  by_cases hnext : r.head? = some '\n'
  · rw [if_pos hnext] at hreturn
    obtain ⟨r, rfl⟩ := List.head?_eq_some_iff.1 hnext
    obtain rfl := hword (by rw [hreturn]; rfl) (takes_skip (w := ['\r', '\n']) hx)
    have hrest' : c'.rest = '\r' :: '\n' :: r' := hrest
    rw [hreturn, lineBreak_return hrest', List.head?_cons, if_pos rfl]
    exact ⟨rfl, rfl, rfl, by simp [upTo, hrest']⟩
  · rw [if_neg hnext] at hreturn
    obtain rfl := hword (by rw [hreturn]; rfl) (takes_advance hx)
    have hrest' : c'.rest = '\r' :: r' := hrest
    have hr : (lineBreak c).after.rest = r := by
      rw [hreturn, upTo, rest_advance, hx, List.tail_cons]
    rw [hr] at hnear
    rw [hreturn, lineBreak_return hrest', if_neg (mt (hnear.head?_eq_iff rfl).1 hnext)]
    refine ⟨rfl, brief_returnDiagnostics hnear .., rfl, ?_⟩
    rw [upTo, rest_advance, hrest', List.tail_cons]

/-! ### Comments -/

/-- A line is text that does not end with a space, then spaces, up to a break or the end. -/
theorem exists_line (rest : List Char) : ∃ v gap r, rest = v ++ (gap ++ r) ∧
    (∀ z ∈ v, isBreak z = false) ∧ (∀ z ∈ v.getLast?, isSpace z = false) ∧
    (∀ z ∈ gap, isSpace z) ∧ r.head?.all isBreak := by
  induction rest with
  | nil => exact ⟨[], [], [], rfl, by simp, by simp, by simp, rfl⟩
  | cons x xs ih =>
    by_cases hbreak : isBreak x
    · exact ⟨[], [], x :: xs, rfl, by simp, by simp, by simp, hbreak⟩
    obtain ⟨v, gap, r, rfl, hv, hlast, hgap, hr⟩ := ih
    by_cases hblank : v = [] ∧ isSpace x
    · obtain ⟨rfl, hx⟩ := hblank
      exact ⟨[], x :: gap, r, rfl, hv, hlast, List.forall_mem_cons.2 ⟨hx, hgap⟩, hr⟩
    · refine ⟨x :: v, gap, r, rfl, ?_, fun z hz => ?_, hgap, hr⟩
      · exact List.forall_mem_cons.2 ⟨Bool.eq_false_iff.2 hbreak, hv⟩
      cases v with
      | nil =>
        obtain rfl := Option.some.inj hz
        exact Bool.eq_false_iff.2 fun hx => hblank ⟨rfl, hx⟩
      | cons y v => exact hlast z (by rwa [List.getLast?_cons_cons] at hz)

theorem comment_repeats {e : Cursor} (h : c.isAt (· == '#')) (hw : c.Takes w e)
    (hstop : (comment c).stop = e.offset) (hnear : Near e.rest r') (hrest : c'.rest = w ++ r') :
    ∃ e', c'.Takes w e' ∧ comment c = ⟨.comment, [], e.offset, e.skipWhile isSpace⟩ ∧
      comment c' = ⟨.comment, [], e'.offset, e'.skipWhile isSpace⟩ := by
  obtain ⟨x, rest, hx, heq⟩ := rest_eq_of_isAt h
  obtain rfl := eq_of_beq heq
  obtain ⟨v, gap, r, rfl, hv, hlast, hgap, hr⟩ := exists_line rest
  have hdrop : r.dropWhile isSpace = r := by
    cases r with
    | nil => rfl
    | cons y r =>
      have hspace := isSpace_eq_false_of_isBreak hr
      rw [List.dropWhile_cons_of_neg (Bool.eq_false_iff.1 hspace)]
  have hd : c.Takes ('#' :: v) (c.skip (v.length + 1)) := takes_skip hx
  have hline : ((c.skip (v.length + 1)).rest.dropWhile isSpace).head?.all isBreak := by
    rw [hd.rest_eq_of_append hx, List.dropWhile_append_of_pos hgap, hdrop]
    exact hr
  have hcomment := comment_eq hv hlast hd hline
  obtain ⟨rfl, rfl⟩ := hw.eq_of_offset_eq hd (by rw [← hstop, hcomment])
  have hd' : c'.Takes ('#' :: v) (c'.skip (v.length + 1)) := takes_skip hrest
  have hline' : ((c'.skip (v.length + 1)).rest.dropWhile isSpace).head?.all isBreak := by
    rwa [hd'.rest_eq_of_append hrest, ← hnear.head?_dropWhile]
  exact ⟨_, hd', hcomment, comment_eq hv hlast hd' hline'⟩

/-! ### Regions that are nested too deep -/

variable {block : Block} {level : Nat} {separated : Bool}

/-- A run that ends at no space ends there again. -/
theorem dropWhile_repeats {p : Char → Bool} (hp : ∀ x, isSpace x → p x) {rest : List Char}
    (hrest : rest = w ++ r) (hafter : rest.dropWhile p = r) (hnear : Near r r') :
    (w ++ r').dropWhile p = r' := by
  induction w generalizing rest with
  | nil =>
    obtain rfl : rest = r := hrest
    cases rest with
    | nil =>
      rw [hnear.eq_nil]
      rfl
    | cons x xs =>
      have hx : ¬ p x := by
        intro hx
        have hlength := (List.dropWhile_sublist p (l := xs)).length_le
        rw [← List.dropWhile_cons_of_pos hx, hafter, List.length_cons] at hlength
        omega
      have hspace : isSpace x = false := Bool.eq_false_iff.2 fun hspace => hx (hp x hspace)
      obtain ⟨xs', rfl, -⟩ := hnear.cons_inv hspace
      exact List.dropWhile_cons_of_neg hx
  | cons x w ih =>
    obtain rfl : rest = x :: (w ++ r) := hrest
    have hx : p x := by
      by_cases hx : p x
      · exact hx
      · rw [List.dropWhile_cons_of_neg hx] at hafter
        have hlength := congrArg List.length hafter
        rw [List.length_cons, List.length_append] at hlength
        omega
    rw [List.dropWhile_cons_of_pos hx] at hafter
    rw [List.cons_append, List.dropWhile_cons_of_pos hx]
    exact ih rfl hafter

theorem skipComment_repeats {s s' : List Char} (hs : c.advance.rest = v ++ s)
    (hafter : (skipComment c).rest = s) (hnear : Near s s') (hs' : c'.advance.rest = v ++ s') :
    (skipComment c').rest = s' := by
  have hspace (x : Char) (hx : isSpace x) : (!isBreak x) = true := by
    rcases Bool.or_eq_true_iff.1 hx with heq | heq <;> rw [eq_of_beq heq] <;> rfl
  unfold skipComment at hafter ⊢
  rw [rest_skipWhile] at hafter ⊢
  rw [hs']
  exact dropWhile_repeats hspace hs hafter hnear

theorem skipPiece_repeats {s s' : List Char} (hx : c.rest = x :: (v ++ s))
    (hafter : (skipPiece c).rest = s) (hnear : Near s s') (hx' : c'.rest = x :: (v ++ s')) :
    (skipPiece c').rest = s' := by
  have hnext : c.advance.rest = v ++ s := by rw [rest_advance, hx, List.tail_cons]
  have hnext' : c'.advance.rest = v ++ s' := by rw [rest_advance, hx', List.tail_cons]
  have hcolon : c'.isAt (· == ':') = c.isAt (· == ':') := by
    rw [isAt_of_rest_eq hx, isAt_of_rest_eq hx']
  have hreset : c'.advance.isAt (· == '!') = c.advance.isAt (· == '!') := by
    rw [isAt, isAt, current, current, hnext, hnext']
    exact (hnear.append v).any_head? (by decide)
  unfold skipPiece at hafter ⊢
  rw [hcolon, hreset]
  split at hafter
  · next hboth =>
    obtain ⟨y, r, hy, -⟩ := rest_eq_of_isAt (Bool.and_eq_true_iff.1 hboth).2
    rw [rest_advance, hy, List.tail_cons] at hafter
    subst hafter
    obtain rfl : [y] = v := List.append_cancel_right (hy.symm.trans hnext)
    rw [if_pos hboth, rest_advance, hnext']
    rfl
  · next hone =>
    rw [hnext] at hafter
    obtain rfl : v = [] := List.append_cancel_right (hafter.trans (List.nil_append s).symm)
    rw [if_neg hone]
    exact hnext'

/-- A piece of a region is passed again. -/
theorem skipElement_repeats {s s' : List Char} (hx : c.rest = x :: (v ++ s))
    (hafter : (skipElement separated c).rest = s) (hnear : Near s s')
    (hx' : c'.rest = x :: (v ++ s')) : (skipElement separated c').rest = s' := by
  have hat (p : Char → Bool) : c'.isAt p = c.isAt p := by
    rw [isAt_of_rest_eq hx, isAt_of_rest_eq hx']
  have hword {d : Cursor} (hd : c.Reaches d) (hs : d.rest = s) : c.Takes (x :: v) d :=
    hd.takes_of_rest_eq (by rw [hs]; exact hx)
  have hnext : c.advance.rest = v ++ s := by rw [rest_advance, hx, List.tail_cons]
  have hnext' : c'.advance.rest = v ++ s' := by rw [rest_advance, hx', List.tail_cons]
  unfold skipElement at hafter ⊢
  rw [hat, hat, hat]
  split at hafter
  · next hcomment =>
    rw [if_pos hcomment]
    exact skipComment_repeats hnext hafter hnear hnext'
  next hcomment =>
  split at hafter
  · next hquote =>
    rw [if_neg hcomment, if_pos hquote]
    rw [skipQuoted_eq] at hafter ⊢
    have hw := hword ((reaches_advance c).trans (quoted_advances c).reaches) hafter
    exact (quoted_repeats hw (hafter ▸ hnear) hx').rest_eq
  next hquote =>
  split at hafter
  · next hraw =>
    rw [if_neg hcomment, if_neg hquote, if_pos hraw]
    rw [skipRaw_eq] at hafter ⊢
    have hw := hword ((reaches_advance c).trans (raw_advances c).reaches) hafter
    exact (raw_repeats hw (hafter ▸ hnear) hx').rest_eq
  · next hraw =>
    rw [if_neg hcomment, if_neg hquote, if_neg hraw]
    exact skipPiece_repeats hx hafter hnear hx'

/-- In front of the end of a region, its next piece is passed again, with the same left of it. -/
theorem exists_rest_skipElement {xs : List Char} (hx : c.rest = x :: xs) (hrest : c.rest = w ++ r)
    (hd : (skipElement separated c).Reaches d) (hr : d.rest = r) (hnear : Near r r')
    (hrest' : c'.rest = w ++ r') : ∃ v xs', c'.rest = x :: xs' ∧
      (skipElement separated c).rest = v ++ r ∧ (skipElement separated c').rest = v ++ r' := by
  obtain ⟨v, hv⟩ := hd.takes
  have hs : (skipElement separated c).rest = v ++ r := by rw [hv.rest_eq, hr]
  have hne : c.rest ≠ [] := hx ▸ List.cons_ne_nil x xs
  obtain ⟨y, u, hu⟩ := (advance_reaches_skipElement separated c).takes_of_advance hne
  obtain rfl : y = x := (List.cons.inj (hu.rest_eq.symm.trans hx)).1
  have hword : y :: (u ++ v) ++ r = w ++ r := by
    rw [← hrest, hu.rest_eq, hs, List.cons_append, List.append_assoc, List.cons_append]
  obtain rfl := List.append_cancel_right hword
  have hpiece : c.rest = y :: (u ++ (v ++ r)) := by
    rw [hrest, List.cons_append, List.append_assoc]
  have hpiece' : c'.rest = y :: (u ++ (v ++ r')) := by
    rw [hrest', List.cons_append, List.append_assoc]
  exact ⟨v, _, hpiece', hs, skipElement_repeats hpiece hs (hnear.append v) hpiece'⟩

theorem skipRegion_repeats (hrest : c.rest = w ++ r)
    (hafter : (skipRegion block level separated c).rest = r) (hnear : Near r r')
    (hrest' : c'.rest = w ++ r') : (skipRegion block level separated c').rest = r' := by
  induction hn : c.rest.length using Nat.strongRecOn generalizing level separated c c' w with
  | ind n ih =>
    subst hn
    cases hc : c.rest with
    | nil =>
      rw [skipRegion_of_rest_eq_nil hc, hc] at hafter
      subst hafter
      obtain rfl := hnear.eq_nil
      obtain rfl : w = [] := by simpa [hc] using hrest
      rw [skipRegion_of_rest_eq_nil hrest', hrest']
      rfl
    | cons x xs =>
      have hshort := (advance_reaches_skipElement separated c).length_lt
        (hc ▸ List.cons_ne_nil x xs)
      -- the region goes on behind this piece
      have hnext {m : Nat} (h : (skipRegion block m (separates x) (skipElement separated c)).rest
          = r) : (∃ xs', c'.rest = x :: xs') ∧
            (skipRegion block m (separates x) (skipElement separated c')).rest = r' := by
        obtain ⟨v, xs', hc', hs, hs'⟩ :=
          exists_rest_skipElement hc hrest (reaches_skipRegion ..) h hnear hrest'
        exact ⟨⟨xs', hc'⟩, ih _ hshort hs h hs' rfl⟩
      rw [skipRegion_of_rest_eq hc] at hafter
      split at hafter
      · next hopening =>
        obtain ⟨⟨xs', hc'⟩, hdone⟩ := hnext hafter
        rwa [skipRegion_of_rest_eq hc', if_pos hopening]
      next hopening =>
      split at hafter
      · next hclosing =>
        split at hafter
        · next hlast =>
          obtain ⟨v, xs', hc', hs, hs'⟩ :=
            exists_rest_skipElement hc hrest (.refl _) hafter hnear hrest'
          obtain rfl : v = [] :=
            List.append_cancel_right ((hs.symm.trans hafter).trans (List.nil_append r).symm)
          rw [skipRegion_of_rest_eq hc', if_neg hopening, if_pos hclosing, if_pos hlast]
          exact hs'
        · next hmore =>
          obtain ⟨⟨xs', hc'⟩, hdone⟩ := hnext hafter
          rwa [skipRegion_of_rest_eq hc', if_neg hopening, if_pos hclosing, if_neg hmore]
      · next hclosing =>
        obtain ⟨⟨xs', hc'⟩, hdone⟩ := hnext hafter
        rwa [skipRegion_of_rest_eq hc', if_neg hopening, if_neg hclosing]

end Lexeme

end MplWorkbench
