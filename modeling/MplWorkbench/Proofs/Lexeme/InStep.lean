import MplWorkbench.Lexeme.Name
import MplWorkbench.Lexeme.Number
import MplWorkbench.Lexeme.Trivia
import MplWorkbench.Proofs.Lexeme.Classes
import MplWorkbench.Proofs.Text.Passage

/-! Reading two texts in step.

A name, a number or text that makes no sense is read by asking what is at the
cursor and going on from there, and all that is asked for is no blank (`Solid`).
So two cursors read it alike if they answer such questions alike, and go on doing
so behind a character that is no blank (`InStep`): the terminals are of one kind,
with the same defect or none, and end at such cursors again (`Lexeme.Alike`).

Comments, strings and regions hold blanks; they are not read this way. -/
namespace MplWorkbench

open Cursor

/-! ### Questions about what is no blank -/

/-- No blank is of this kind. -/
def Solid (p : Char → Bool) : Prop :=
  p ' ' = false ∧ p '\t' = false ∧ p '\n' = false ∧ p '\r' = false

instance (p : Char → Bool) : Decidable (Solid p) := inferInstanceAs (Decidable (_ ∧ _ ∧ _ ∧ _))

theorem Solid.isBlank_eq_false {p : Char → Bool} (h : Solid p) {x : Char} (hx : p x) :
    isBlank x = false := by
  obtain ⟨hspace, htab, hfeed, hreturn⟩ := h
  refine Bool.eq_false_iff.2 fun hblank => ?_
  simp only [isBlank, Bool.or_eq_true, beq_iff_eq] at hblank
  rcases hblank with ((rfl | rfl) | rfl) | rfl <;> simp_all

theorem solid_beq {y : Char} (h : isBlank y = false) : Solid (· == y) := by
  refine ⟨?_, ?_, ?_, ?_⟩ <;>
    · refine beq_false_of_ne fun heq => ?_
      subst heq
      contradiction

theorem Cursor.looksAt_cons (c : Cursor) (y : Char) (w : List Char) :
    c.looksAt (y :: w) = (c.isAt (· == y) && c.advance.looksAt w) := by
  cases hc : c.rest with
  | nil => simp [looksAt, isAt, current, hc]
  | cons x r =>
    rw [isAt_of_rest_eq hc, looksAt, looksAt, rest_advance, hc, List.tail_cons,
      List.isPrefixOf_cons_cons, BEq.comm]

/-- The cursors that are related answer alike as long as no blank is met. -/
structure InStep (R : Cursor → Cursor → Prop) : Prop where
  isAt_eq {c c' : Cursor} {p : Char → Bool} : R c c' → Solid p → c'.isAt p = c.isAt p
  advance {c c' : Cursor} {p : Char → Bool} : R c c' → Solid p → c.isAt p → R c.advance c'.advance

namespace Lexeme

/-- Both lexemes are of one kind and have the same defect, or none; they end where the texts are
in step. -/
inductive Alike (R : Cursor → Cursor → Prop) (start start' : Position) :
    Lexeme → Lexeme → Prop where
  | upTo {d d' : Cursor} (kind : Kind) : R d d' →
      Alike R start start' (.upTo d kind []) (.upTo d' kind [])
  | defective {d d' : Cursor} (defect : Defect) : R d d' →
      Alike R start start' (.defective start defect d) (.defective start' defect d')
  /-- Something is missing at the end. -/
  | missing {d d' : Cursor} (kind : Kind) (defect : Defect) : R d d' →
      Alike R start start' (.upTo d kind [defect.missingAt d.offset])
        (.upTo d' kind [defect.missingAt d'.offset])

/-- Both parts of a number make sense, or both do not. -/
inductive AlikePart {α : Type} (R : Cursor → Cursor → Prop) (S : α → α → Prop) :
    Except Cursor α → Except Cursor α → Prop where
  | error {d d' : Cursor} : R d d' → AlikePart R S (.error d) (.error d')
  | ok {a a' : α} : S a a' → AlikePart R S (.ok a) (.ok a')

end Lexeme

namespace InStep

variable {R : Cursor → Cursor → Prop} (h : InStep R) {c c' : Cursor} (hc : R c c')
include h hc

theorem isAt {p : Char → Bool} (hp : Solid p) (hat : c.isAt p) : c'.isAt p := by
  rwa [h.isAt_eq hc hp]

theorem looksAt_eq {w : List Char} (hw : w.any isBlank = false) :
    c'.looksAt w = c.looksAt w := by
  induction w generalizing c c' with
  | nil => rfl
  | cons y w ih =>
    obtain ⟨hy, hw⟩ := Bool.or_eq_false_iff.1 hw
    rw [looksAt_cons, looksAt_cons, h.isAt_eq hc (solid_beq hy)]
    cases hat : c.isAt (· == y) with
    | false => rfl
    | true => rw [ih (h.advance hc (solid_beq hy) hat) hw]

theorem skip {w : List Char} (hw : w.any isBlank = false) (hat : c.looksAt w) :
    R (c.skip w.length) (c'.skip w.length) := by
  induction w generalizing c c' with
  | nil => exact hc
  | cons y w ih =>
    obtain ⟨hy, hw⟩ := Bool.or_eq_false_iff.1 hw
    rw [looksAt_cons, Bool.and_eq_true] at hat
    exact ih (h.advance hc (solid_beq hy) hat.1) hw hat.2

theorem skipWhile {p : Char → Bool} (hp : Solid p) : R (c.skipWhile p) (c'.skipWhile p) := by
  have hstay {d : Cursor} (hd : d.isAt p = false) : d.skipWhile p = d :=
    (Takes.refl d).skipWhile_eq (by simp) hd
  induction hn : c.rest.length using Nat.strongRecOn generalizing c c' with
  | ind n ih =>
    subst hn
    cases hat : c.isAt p with
    | false => rwa [hstay hat, hstay ((h.isAt_eq hc hp).trans hat)]
    | true =>
      obtain ⟨x, r, hx, -⟩ := rest_eq_of_isAt hat
      have hlt := (Reaches.refl c.advance).length_lt (hx ▸ List.cons_ne_nil x r)
      rw [skipWhile_of_isAt hat, skipWhile_of_isAt (h.isAt hc hp hat)]
      exact ih _ hlt (h.advance hc hp hat) rfl

end InStep

namespace Lexeme

variable {R : Cursor → Cursor → Prop} (h : InStep R) {c c' : Cursor} (hc : R c c')
include h hc

/-! ### Names -/

theorem inStep_signedName (hsign : c.isAt isSign) : R (signedName c) (signedName c') := by
  have hnext := h.advance hc (by decide) hsign
  unfold signedName
  rw [h.isAt_eq hnext (by decide)]
  split
  · next hletter => exact h.skipWhile (h.advance hnext (by decide) hletter) (by decide)
  · exact hnext

theorem inStep_memberName? : Option.Rel R (memberName? c) (memberName? c') := by
  unfold memberName?
  rw [h.isAt_eq hc (by decide), h.isAt_eq hc (by decide)]
  split
  · next hsign => exact .some (inStep_signedName h hc hsign)
  · split
    · next hletter => exact .some (h.skipWhile (h.advance hc (by decide) hletter) (by decide))
    · exact .none

theorem inStep_plainName {p : Char → Bool} (hp : Solid p) (hat : c.isAt p) :
    R (plainName c) (plainName c') := by
  have hnext := h.advance hc hp hat
  unfold plainName
  rw [h.isAt_eq hc (by decide), h.isAt_eq hc (by decide), h.isAt_eq hc (by decide)]
  split
  · exact hnext
  · split
    · exact h.skipWhile hnext (by decide)
    · split
      · next hsign => exact inStep_signedName h hc hsign
      · exact h.skipWhile hnext (by decide)

theorem alike_access {p : Char → Bool} (hp : Solid p) (hat : c.isAt p) (start start' : Position) :
    Alike R start start' (access c) (access c') := by
  have hnext := h.advance hc hp hat
  unfold access
  dsimp only
  rw [h.isAt_eq hc (by decide), h.isAt_eq hnext (by decide)]
  split
  · next hname => exact .upTo _ (inStep_plainName h hnext (by decide) hname)
  · exact .upTo _ hnext

theorem inStep_memberMark (hdot : c.isAt (· == '.')) :
    (memberMark c).1 = (memberMark c').1 ∧ R (memberMark c).2 (memberMark c').2 := by
  have hnext := h.advance hc (by decide) hdot
  unfold memberMark
  dsimp only
  rw [h.isAt_eq hnext (by decide), h.isAt_eq hnext (by decide)]
  split
  · next hmark => exact ⟨rfl, h.advance hnext (by decide) hmark⟩
  · split
    · next hmark => exact ⟨rfl, h.advance hnext (by decide) hmark⟩
    · exact ⟨rfl, hnext⟩

theorem alike_member (hdot : c.isAt (· == '.')) (start start' : Position) :
    Alike R start start' (member c) (member c') := by
  obtain ⟨hkind, hnamed⟩ := inStep_memberMark h hc hdot
  have hname := inStep_memberName? h hnamed
  unfold member
  dsimp only
  rw [← hkind]
  generalize memberName? (memberMark c).2 = name, memberName? (memberMark c').2 = name' at hname
  cases hname with
  | none => exact .missing _ _ hnamed
  | some hafter => exact .upTo _ hafter

/-! ### Numbers -/

theorem inStep_numeral : R (numeral c) (numeral c') := by
  unfold numeral
  rw [h.isAt_eq hc (by decide)]
  split
  · next hzero => exact h.advance hc (by decide) hzero
  · exact h.skipWhile hc (by decide)

theorem inStep_sign : R (sign c) (sign c') := by
  unfold sign
  rw [h.isAt_eq hc (by decide)]
  split
  · next hsign => exact h.advance hc (by decide) hsign
  · exact hc

theorem inStep_integer :
    AlikePart R (fun a a' => R a.1 a'.1 ∧ a.2 = a'.2) (integer c) (integer c') := by
  unfold integer
  dsimp only
  rw [h.looksAt_eq hc (by decide), h.isAt_eq hc (by decide)]
  split
  · next hprefix =>
    have hdigits : R (c.skip 2) (c'.skip 2) := h.skip hc (by decide) hprefix
    rw [h.isAt_eq hdigits (by decide)]
    split
    · exact .ok ⟨h.skipWhile hdigits (by decide), rfl⟩
    · exact .error hdigits
  · exact .ok ⟨inStep_numeral h (inStep_sign h hc), rfl⟩

theorem inStep_integerWidth? : Option.Rel R (integerWidth? c) (integerWidth? c') := by
  unfold integerWidth?
  rw [h.isAt_eq hc (by decide), h.looksAt_eq hc (by decide), h.looksAt_eq hc (by decide),
    h.looksAt_eq hc (by decide)]
  split
  · next hat => exact .some (h.advance hc (by decide) hat)
  · split
    · next hat =>
      rcases Bool.or_eq_true_iff.1 hat with hat | hat
      · rcases Bool.or_eq_true_iff.1 hat with hat | hat <;>
          exact .some (h.skip hc (by decide) hat)
      · exact .some (h.skip hc (by decide) hat)
    · exact .none

theorem inStep_realWidth? : Option.Rel R (realWidth? c) (realWidth? c') := by
  unfold realWidth?
  rw [h.looksAt_eq hc (by decide), h.looksAt_eq hc (by decide)]
  split
  · next hat =>
    rcases Bool.or_eq_true_iff.1 hat with hat | hat <;> exact .some (h.skip hc (by decide) hat)
  · exact .none

theorem inStep_fraction : AlikePart R R (fraction c) (fraction c') := by
  unfold fraction
  dsimp only
  rw [h.isAt_eq hc (by decide)]
  split
  · next hdot =>
    have hdigits := h.advance hc (by decide) hdot
    rw [h.isAt_eq hdigits (by decide), h.isAt_eq hdigits (by decide)]
    split
    · exact .ok (h.skipWhile hdigits (by decide))
    · split
      · exact .error (h.skipWhile hdigits (by decide))
      · exact .error hdigits
  · exact .ok hc

theorem inStep_exponent : AlikePart R R (exponent c) (exponent c') := by
  unfold exponent
  dsimp only
  rw [h.isAt_eq hc (by decide)]
  split
  · next hmark =>
    have hdigits := inStep_sign h (h.advance hc (by decide) hmark)
    rw [h.isAt_eq hdigits (by decide)]
    split
    · exact .ok (inStep_numeral h hdigits)
    · exact .error hdigits
  · exact .ok hc

theorem inStep_realSuffix : AlikePart R R (realSuffix c) (realSuffix c') := by
  unfold realSuffix
  rw [h.isAt_eq hc (by decide)]
  split
  · next hmark =>
    have hnext := h.advance hc (by decide) hmark
    have hwidth := inStep_realWidth? h hnext
    generalize realWidth? c.advance = width, realWidth? c'.advance = width' at hwidth
    cases hwidth with
    | none => exact .error hnext
    | some hafter => exact .ok hafter
  · exact .ok hc

theorem alike_realTail (start start' : Position) :
    Alike R start start' (realTail start c) (realTail start' c') := by
  have hfraction := inStep_fraction h hc
  unfold realTail
  generalize fraction c = part, fraction c' = part' at hfraction
  cases hfraction with
  | error hd => exact .defective _ hd
  | @ok d d' hd =>
    have hexponent := inStep_exponent h hd
    dsimp only
    generalize exponent d = part, exponent d' = part' at hexponent
    cases hexponent with
    | error he => exact .defective _ he
    | @ok e e' he =>
      have hsuffix := inStep_realSuffix h he
      dsimp only
      generalize realSuffix e = part, realSuffix e' = part' at hsuffix
      cases hsuffix with
      | error hafter => exact .defective _ hafter
      | ok hafter => exact .upTo _ hafter

theorem alike_integerSuffix (signed : Bool) (hmark : c.isAt fun x => x == 'i' || x == 'n')
    (start start' : Position) :
    Alike R start start' (integerSuffix signed start c) (integerSuffix signed start' c') := by
  have hnext := h.advance hc (by decide) hmark
  have hwidth := inStep_integerWidth? h hnext
  unfold integerSuffix
  rw [h.isAt_eq hc (by decide)]
  generalize integerWidth? c.advance = width, integerWidth? c'.advance = width' at hwidth
  cases hwidth with
  | none => exact .defective _ hnext
  | some hafter =>
    dsimp only
    split
    · exact .defective _ hafter
    · exact .upTo _ hafter

theorem alike_number : Alike R c.position c'.position (number c) (number c') := by
  have hinteger := inStep_integer h hc
  unfold number
  generalize integer c = part, integer c' = part' at hinteger
  cases hinteger with
  | error hd => exact .defective _ hd
  | @ok a a' ha =>
    obtain ⟨d, signed⟩ := a
    obtain ⟨d', signed'⟩ := a'
    obtain ⟨hd, rfl⟩ := ha
    dsimp only at hd ⊢
    rw [h.isAt_eq hd (by decide), h.isAt_eq hd (by decide)]
    split
    · exact alike_realTail h hd _ _
    · split
      · next hmark => exact alike_integerSuffix h hd _ hmark _ _
      · exact .upTo _ hd

/-! ### Text that makes no sense, and single characters -/

theorem alike_single (kind : Kind) {p : Char → Bool} (hp : Solid p) (hat : c.isAt p)
    (start start' : Position) : Alike R start start' (single kind c) (single kind c') :=
  .upTo kind (h.advance hc hp hat)

theorem alike_stray (fresh : Bool) {p : Char → Bool} (hp : Solid p) (hat : c.isAt p) :
    Alike R c.position c'.position (stray fresh c) (stray fresh c') := by
  have hnext := h.advance hc hp hat
  cases fresh with
  | false => exact .defective _ hnext
  | true => exact .defective _ (h.skipWhile hnext (by decide))

end Lexeme

end MplWorkbench
