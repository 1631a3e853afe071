import MplWorkbench.Proofs.Lexeme.Recognition

/-! Terminals are spelled as their kinds tell.

`Befits` says what text a terminal of each kind may have, in whatever surroundings
it was read. A delimiter or a line break is spelled in one way, a name begins with
the access mark of its kind, a number is all of its kind. Strings may lack their
end, and members their name.

This is the way back from `Recognition`: what a reader takes, from the characters
that it looks at, is a part of the vocabulary (`exists_takes_number`,
`exists_takes_access`, …). -/
namespace MplWorkbench

open Cursor

/-! ### Runs of characters -/

namespace Cursor

theorem exists_takes_skipWhile (c : Cursor) (p : Char → Bool) :
    ∃ w, c.Takes w (c.skipWhile p) ∧ ∀ x ∈ w, p x := passes_skipWhile c fun _ => id

theorem isAt_skipWhile (c : Cursor) (p : Char → Bool) : (c.skipWhile p).isAt p = false := by
  have hhead := List.head?_dropWhile_not p c.rest
  rw [isAt, current, rest_skipWhile]
  cases hrest : (c.rest.dropWhile p).head? with
  | none => rfl
  | some x => simpa [hrest] using hhead

end Cursor

namespace Lexeme

/-! ### What befits a kind -/

/-- The text of the kinds that are spelled in one way only. -/
def spelling? : Kind → Option (List Char)
  | .leftCurly => some ['\x7b']
  | .rightCurly => some ['\x7d']
  | .leftParen => some ['(']
  | .rightParen => some [')']
  | .leftBracket => some ['[']
  | .rightBracket => some [']']
  | .colon => some [':']
  | .colonBang => some [':', '!']
  | .semicolon => some [';']
  | .comma => some [',']
  | .lf => some ['\n']
  | .crlf => some ['\r', '\n']
  | .cr => some ['\r']
  | .eof => some []
  | _ => none

/-- A terminal of the kind may have this text. -/
inductive Befits : Kind → List Char → Prop where
  | fixed {kind : Kind} {w : List Char} : spelling? kind = some w → Befits kind w
  | name {w : List Char} : IsName w → Befits .name w
  | access {kind : Kind} {w : List Char} : kind = .nameRead ∨ kind = .nameWrite → IsPlainName w →
      Befits kind (accessMark kind ++ w)
  | member {kind : Kind} {w : List Char} :
      kind = .nameMember ∨ kind = .nameReadMember ∨ kind = .nameWriteMember →
      w = [] ∨ IsMemberName w → Befits kind (accessMark kind ++ w)
  | number {w : List Char} : IsNumber w → Befits .number w
  | real {w : List Char} : IsReal w → Befits .real w
  | string {x : Char} {w : List Char} : x = '"' ∨ x = '«' → Befits .string (x :: w)
  | comment {w : List Char} : (∀ z ∈ w, isBreak z = false) →
      (∀ z ∈ w.getLast?, isSpace z = false) → Befits .comment ('#' :: w)

variable {c d : Cursor} {w : List Char} {kind : Kind} {x : Char}

theorem Befits.eq_of_spelling? (h : Befits kind w) {v : List Char} (hv : spelling? kind = some v) :
    w = v := by
  cases h with
  | fixed h => exact Option.some.inj (h.symm.trans hv)
  | access hkind => rcases hkind with rfl | rfl <;> contradiction
  | member hkind => rcases hkind with rfl | rfl | rfl <;> contradiction
  | name | number | real | string | comment => contradiction

/-- A name begins with the access mark of its kind, which other kinds do not have. -/
theorem Befits.exists_bare (h : Befits kind w) : ∃ bare, w = accessMark kind ++ bare := by
  cases h with
  | access | member => exact ⟨_, rfl⟩
  | name | number | real | string | comment => exact ⟨_, rfl⟩
  | fixed h =>
    refine ⟨w, ?_⟩
    cases kind <;> first | rfl | contradiction

/-- Nothing else befits a number or a real. -/
theorem Befits.numeral (h : Befits kind w) :
    (kind = .number → IsNumber w) ∧ (kind = .real → IsReal w) := by
  cases h with
  | number h => exact ⟨fun _ => h, Kind.noConfusion⟩
  | real h => exact ⟨Kind.noConfusion, fun _ => h⟩
  | fixed h => refine ⟨?_, ?_⟩ <;> rintro rfl <;> contradiction
  | access hkind => rcases hkind with rfl | rfl <;> exact ⟨Kind.noConfusion, Kind.noConfusion⟩
  | member hkind =>
    rcases hkind with rfl | rfl | rfl <;> exact ⟨Kind.noConfusion, Kind.noConfusion⟩
  | name | string | comment => exact ⟨Kind.noConfusion, Kind.noConfusion⟩

/-! ### Names -/

theorem exists_takes_signedName (hc : c.isAt isSign) :
    ∃ w, c.Takes w (signedName c) ∧ IsMemberName w := by
  obtain ⟨x, r, hx, hsign⟩ := rest_eq_of_isAt hc
  have hfirst := takes_advance hx
  unfold signedName
  split
  · next hnext =>
    obtain ⟨y, r', hy, hsecond⟩ := rest_eq_of_isAt hnext
    obtain ⟨w, hw, hchars⟩ := exists_takes_skipWhile c.advance.advance isNameChar
    exact ⟨_, hfirst.trans ((takes_advance hy).trans hw), .signed hsign hsecond hchars⟩
  · exact ⟨_, hfirst, .sign hsign⟩

theorem exists_takes_letters (hc : c.isAt isLetter) :
    ∃ w, c.Takes w (c.advance.skipWhile isNameChar) ∧ IsMemberName w := by
  obtain ⟨x, r, hx, hletter⟩ := rest_eq_of_isAt hc
  obtain ⟨w, hw, hchars⟩ := exists_takes_skipWhile c.advance isNameChar
  exact ⟨_, (takes_advance hx).trans hw, .letters hletter hchars⟩

theorem exists_takes_memberName? (h : memberName? c = some d) :
    ∃ w, c.Takes w d ∧ IsMemberName w := by
  unfold memberName? at h
  split at h
  · next hsign => exact Option.some.inj h ▸ exists_takes_signedName hsign
  · split at h
    · next hletter => exact Option.some.inj h ▸ exists_takes_letters hletter
    · contradiction

theorem exists_takes_plainName (hc : c.isAt beginsName) :
    ∃ w, c.Takes w (plainName c) ∧ IsPlainName w := by
  obtain ⟨x, r, hx, hbegins⟩ := rest_eq_of_isAt hc
  have hfirst := takes_advance hx
  have hmarks : ∀ x ∈ "!+-.@".toList, x = '@' ∨ x = '!' ∨ x = '.' ∨ isSign x :=
    forall_mem_of_all (by decide)
  unfold plainName
  split
  · next hmark =>
    rw [isAt_of_rest_eq hx] at hmark
    exact ⟨_, hfirst, .mark ((Bool.or_eq_true_iff.1 hmark).imp eq_of_beq eq_of_beq)⟩
  · next hmark =>
    split
    · next hdot =>
      rw [isAt_of_rest_eq hx] at hdot
      obtain rfl := eq_of_beq hdot
      obtain ⟨w, hw, hdots⟩ := exists_takes_skipWhile c.advance (· == '.')
      exact ⟨_, hfirst.trans hw, .dots fun z hz => eq_of_beq (hdots z hz)⟩
    · next hdot =>
      split
      · next hsign =>
        obtain ⟨w, hw, hname⟩ := exists_takes_signedName hsign
        exact ⟨w, hw, .member hname⟩
      · next hsign =>
        rw [isAt_of_rest_eq hx] at hmark hdot hsign
        have hletter : isLetter x := by
          rcases Bool.or_eq_true_iff.1 hbegins with hmem | hletter
          · have hcases := hmarks x (List.contains_iff_mem.1 hmem)
            simp_all
          · exact hletter
        obtain ⟨w, hw, hname⟩ := exists_takes_letters ((isAt_of_rest_eq hx).trans hletter)
        exact ⟨w, hw, .member hname⟩

/-- A plain name that begins with none of these three is a name by itself. -/
theorem IsPlainName.isName (hw : IsPlainName w) (hdot : w.head? ≠ some '.')
    (hcomma : w.head? ≠ some ',') (hraw : w.head? ≠ some '«') : IsName w := by
  cases hw with
  | mark hx => exact .mark hx
  | dots => contradiction
  | member hw => exact .member hw hcomma hraw

theorem exists_takes_access (hc : c.isAt fun x => x == '@' || x == '!') :
    ∃ w, c.Takes w (access c).after ∧ Befits (access c).kind w := by
  obtain ⟨x, r, hx, hmark⟩ := rest_eq_of_isAt hc
  have hfirst := takes_advance hx
  have hmark : x = '@' ∨ x = '!' := (Bool.or_eq_true_iff.1 hmark).imp eq_of_beq eq_of_beq
  unfold access
  dsimp only
  split
  · next hnamed =>
    obtain ⟨w, hw, hname⟩ := exists_takes_plainName hnamed
    have hread : c.isAt (· == '@') = (x == '@') := isAt_of_rest_eq hx
    refine ⟨x :: w, hfirst.trans hw, ?_⟩
    rw [hread]
    rcases hmark with rfl | rfl
    · exact .access (.inl rfl) hname
    · exact .access (.inr rfl) hname
  · exact ⟨[x], hfirst, .name (.mark hmark)⟩

theorem exists_takes_member (hc : c.isAt (· == '.')) :
    ∃ w, c.Takes w (member c).after ∧ Befits (member c).kind w := by
  have hmark := memberMark_takes hc
  have hkind : (memberMark c).1 = .nameMember ∨ (memberMark c).1 = .nameReadMember ∨
      (memberMark c).1 = .nameWriteMember :=
    (memberMark_cases c).imp And.left And.left
  rcases member_cases c with ⟨after, hafter, heq⟩ | ⟨-, heq⟩ <;> rw [heq]
  · obtain ⟨w, hw, hname⟩ := exists_takes_memberName? hafter
    exact ⟨_, hmark.trans hw, .member hkind (.inr hname)⟩
  · exact ⟨_, hmark.trans (.refl _), .member hkind (.inl rfl)⟩

/-! ### Integers -/

theorem exists_takes_numeral (hc : c.isAt isDigit) : ∃ w, c.Takes w (numeral c) ∧ IsNumeral w := by
  obtain ⟨x, r, hx, hdigit⟩ := rest_eq_of_isAt hc
  have hfirst := takes_advance hx
  have hzero : c.isAt (· == '0') = (x == '0') := isAt_of_rest_eq hx
  rw [numeral, hzero]
  split
  · next heq =>
    obtain rfl := eq_of_beq heq
    exact ⟨_, hfirst, .zero⟩
  · next hne =>
    obtain ⟨w, hw, hdigits⟩ := exists_takes_skipWhile c.advance isDigit
    rw [skipWhile_of_isAt hc]
    exact ⟨_, hfirst.trans hw, .digits hdigit (by simpa using hne) hdigits⟩

/-- A numeral with a sign, or without one if there is none at the cursor. -/
theorem exists_takes_signed (hc : (sign c).isAt isDigit) :
    ∃ w, c.Takes w (numeral (sign c)) ∧ IsSigned w ∧ (c.isAt isSign = false → IsNumeral w) := by
  obtain ⟨w, hw, hnumeral⟩ := exists_takes_numeral hc
  by_cases hsign : c.isAt isSign
  · obtain ⟨x, r, hx, hx'⟩ := rest_eq_of_isAt hsign
    have hpast : sign c = c.advance := if_pos hsign
    rw [hpast] at hw ⊢
    refine ⟨x :: w, (takes_advance hx).trans hw, .signed hx' hnumeral, fun hnone => ?_⟩
    exact absurd hsign (Bool.eq_false_iff.1 hnone)
  · have hsame : sign c = c := if_neg hsign
    rw [hsame] at hw ⊢
    exact ⟨w, hw, .unsigned hnumeral, fun _ => hnumeral⟩

/-- What `integer` takes: hexadecimal digits, all that there are, or a numeral. -/
theorem exists_takes_integer {signed : Bool} (hc : (sign c).isAt isDigit)
    (h : integer c = .ok (d, signed)) : ∃ w, c.Takes w d ∧
      (IsHex w ∧ d.isAt isHexDigit = false ∨ IsSigned w) ∧
      (signed = false → IsHex w ∨ IsNumeral w) := by
  unfold integer at h
  split at h
  · next hhex =>
    obtain ⟨r, hr⟩ := List.isPrefixOf_iff_prefix.1 hhex
    have hfront : c.Takes ['0', 'x'] (c.skip 2) := takes_skip hr.symm
    dsimp only at h
    split at h
    · next hdigit =>
      obtain ⟨rfl, -⟩ := Prod.mk.inj (Except.ok.inj h)
      obtain ⟨x, r', hx, hx'⟩ := rest_eq_of_isAt hdigit
      obtain ⟨w, hw, hdigits⟩ := exists_takes_skipWhile (c.skip 2).advance isHexDigit
      have hend := isAt_skipWhile (c.skip 2) isHexDigit
      rw [skipWhile_of_isAt hdigit] at hend ⊢
      have hword : IsHex (['0', 'x'] ++ ([x] ++ w)) := .digits hx' hdigits
      exact ⟨_, hfront.trans ((takes_advance hx).trans hw), .inl ⟨hword, hend⟩,
        fun _ => .inl hword⟩
    · contradiction
  · obtain ⟨rfl, rfl⟩ := Prod.mk.inj (Except.ok.inj h)
    obtain ⟨w, hw, hsigned, hunsigned⟩ := exists_takes_signed hc
    exact ⟨w, hw, .inr hsigned, fun hnone => .inr (hunsigned hnone)⟩

/-! ### Suffixes and tails -/

theorem takes_of_looksAt {v : List Char} (h : c.looksAt v) : c.Takes v (c.skip v.length) := by
  obtain ⟨r, hr⟩ := List.isPrefixOf_iff_prefix.1 h
  exact takes_skip hr.symm

theorem exists_takes_integerWidth? (h : integerWidth? c = some d) :
    ∃ v, c.Takes v d ∧ v ∈ integerWidths := by
  unfold integerWidth? at h
  split at h
  · next hone =>
    obtain ⟨x, r, hx, hwidth⟩ := rest_eq_of_isAt hone
    refine ⟨[x], Option.some.inj h ▸ takes_advance hx, ?_⟩
    rcases Bool.or_eq_true_iff.1 hwidth with heq | heq <;> rw [eq_of_beq heq] <;> decide
  · split at h
    · next htwo =>
      obtain rfl := Option.some.inj h
      rcases Bool.or_eq_true_iff.1 htwo with htwo | h64
      · rcases Bool.or_eq_true_iff.1 htwo with h16 | h32
        · exact ⟨_, takes_of_looksAt h16, by decide⟩
        · exact ⟨_, takes_of_looksAt h32, by decide⟩
      · exact ⟨_, takes_of_looksAt h64, by decide⟩
    · contradiction

theorem exists_takes_realWidth? (h : realWidth? c = some d) :
    ∃ v, c.Takes v d ∧ v ∈ realWidths := by
  unfold realWidth? at h
  split at h
  · next htwo =>
    obtain rfl := Option.some.inj h
    rcases Bool.or_eq_true_iff.1 htwo with h32 | h64
    · exact ⟨_, takes_of_looksAt h32, by decide⟩
    · exact ⟨_, takes_of_looksAt h64, by decide⟩
  · contradiction

theorem exists_takes_fraction (hc : c.isAt (· == '.')) (h : fraction c = .ok d) :
    ∃ x v, c.Takes ('.' :: x :: v) d ∧ isDigit x ∧ ∀ z ∈ v, isDigit z := by
  obtain ⟨y, r, hy, heq⟩ := rest_eq_of_isAt hc
  obtain rfl := eq_of_beq heq
  rw [fraction, if_pos hc] at h
  dsimp only at h
  split at h
  · next hdigit =>
    obtain rfl := Except.ok.inj h
    obtain ⟨x, r', hx, hx'⟩ := rest_eq_of_isAt hdigit
    obtain ⟨v, hv, hdigits⟩ := exists_takes_skipWhile c.advance.advance isDigit
    rw [skipWhile_of_isAt hdigit]
    exact ⟨x, v, (takes_advance hy).trans ((takes_advance hx).trans hv), hx', hdigits⟩
  · split at h <;> contradiction

theorem exists_takes_exponent (hc : c.isAt fun x => x == 'E' || x == 'e')
    (h : exponent c = .ok d) : ∃ e, c.Takes e d ∧ IsExponent e := by
  obtain ⟨x, r, hx, hmark⟩ := rest_eq_of_isAt hc
  rw [exponent, if_pos hc] at h
  dsimp only at h
  split at h
  · next hdigit =>
    obtain rfl := Except.ok.inj h
    obtain ⟨w, hw, hsigned, -⟩ := exists_takes_signed hdigit
    exact ⟨_, (takes_advance hx).trans hw,
      .mk ((Bool.or_eq_true_iff.1 hmark).imp eq_of_beq eq_of_beq) hsigned⟩
  · contradiction

/-- An exponent, or nothing where none begins. -/
theorem exists_takes_exponent? (h : exponent c = .ok d) :
    ∃ e, c.Takes e d ∧ (e = [] ∨ IsExponent e) := by
  by_cases hc : c.isAt fun x => x == 'E' || x == 'e'
  · obtain ⟨e, he, hexponent⟩ := exists_takes_exponent hc h
    exact ⟨e, he, .inr hexponent⟩
  · rw [exponent, if_neg hc] at h
    exact ⟨[], Except.ok.inj h ▸ .refl c, .inl rfl⟩

theorem exists_takes_realSuffix? (h : realSuffix c = .ok d) :
    ∃ s, c.Takes s d ∧ (s = [] ∨ IsRealSuffix s) := by
  unfold realSuffix at h
  split at h
  · next hmark =>
    obtain ⟨x, r, hx, heq⟩ := rest_eq_of_isAt hmark
    obtain rfl := eq_of_beq heq
    split at h
    · next hwidth =>
      obtain rfl := Except.ok.inj h
      obtain ⟨v, hv, hwidths⟩ := exists_takes_realWidth? hwidth
      exact ⟨_, (takes_advance hx).trans hv, .inr (.mk hwidths)⟩
    · contradiction
  · exact ⟨[], Except.ok.inj h ▸ .refl c, .inl rfl⟩

/-! ### Numbers -/

/-- Behind the integer `v`, a real tail that makes sense makes a real of it. An exponent directly
behind hexadecimal digits would be one of these. -/
theorem exists_takes_realTail {start : Position} {m : Cursor} {v : List Char} (hv : c.Takes v m)
    (hinteger : IsHex v ∧ m.isAt isHexDigit = false ∨ IsSigned v)
    (hm : m.isAt fun x => x == '.' || x == 'E' || x == 'e')
    (h : (realTail start m).kind ≠ .someError) :
    ∃ w, c.Takes w (realTail start m).after ∧ Befits (realTail start m).kind w := by
  revert h
  unfold realTail
  split
  · exact fun h => absurd rfl h
  · next m₁ hfraction =>
    split
    · exact fun h => absurd rfl h
    · next m₂ hexponent =>
      split
      · exact fun h => absurd rfl h
      · next m₃ hsuffix =>
        intro _
        obtain ⟨s, hs, hsuffix⟩ := exists_takes_realSuffix? hsuffix
        by_cases hdot : m.isAt (· == '.')
        · obtain ⟨x, u, hu, hx, hdigits⟩ := exists_takes_fraction hdot hfraction
          obtain ⟨e, he, hexponent⟩ := exists_takes_exponent? hexponent
          exact ⟨_, ((hv.trans hu).trans he).trans hs,
            .real (.fraction (hinteger.imp_left And.left) hx hdigits hexponent hsuffix)⟩
        · have hsame : m₁ = m := by
            rw [fraction, if_neg hdot] at hfraction
            exact (Except.ok.inj hfraction).symm
          subst hsame
          have hmark : m₁.isAt fun x => x == 'E' || x == 'e' := by
            obtain ⟨x, r, hx, hx'⟩ := rest_eq_of_isAt hm
            rw [isAt_of_rest_eq hx] at hdot ⊢
            grind
          have hsigned : IsSigned v := by
            refine hinteger.resolve_left fun hhex => Bool.eq_false_iff.1 hhex.2 ?_
            exact isAt_of_or hmark (by decide) (by decide)
          obtain ⟨e, he, hexponent⟩ := exists_takes_exponent hmark hexponent
          exact ⟨_, (hv.trans he).trans hs, .real (.exponent hsigned hexponent hsuffix)⟩

theorem exists_takes_integerSuffix {start : Position} {m : Cursor} {v : List Char} {signed : Bool}
    (hv : c.Takes v m) (hinteger : IsHex v ∨ IsSigned v)
    (hunsigned : signed = false → IsHex v ∨ IsNumeral v)
    (hm : m.isAt fun x => x == 'i' || x == 'n')
    (h : (integerSuffix signed start m).kind ≠ .someError) :
    ∃ w, c.Takes w (integerSuffix signed start m).after ∧
      Befits (integerSuffix signed start m).kind w := by
  obtain ⟨x, r, hx, hmark⟩ := rest_eq_of_isAt hm
  revert h
  unfold integerSuffix
  split
  · exact fun h => absurd rfl h
  · next after hwidth =>
    obtain ⟨u, hu, hwidths⟩ := exists_takes_integerWidth? hwidth
    have hall : c.Takes (v ++ x :: u) after := hv.trans ((takes_advance hx).trans hu)
    split
    · exact fun h => absurd rfl h
    · next hsign =>
      intro _
      refine ⟨_, hall, .number ?_⟩
      rcases Bool.or_eq_true_iff.1 hmark with heq | heq <;> obtain rfl := eq_of_beq heq
      · exact .signed hinteger hwidths
      · have hn : m.isAt (· == 'n') = true := isAt_of_rest_eq hx
        rw [hn, Bool.and_true] at hsign
        exact .unsigned (hunsigned (Bool.eq_false_iff.2 hsign)) hwidths

/-- A number without a defect is one, or a real. -/
theorem exists_takes_number (hc : (sign c).isAt isDigit) (h : (number c).kind ≠ .someError) :
    ∃ w, c.Takes w (number c).after ∧ Befits (number c).kind w := by
  revert h
  unfold number
  split
  · exact fun h => absurd rfl h
  · next after signed hinteger =>
    obtain ⟨w, hw, hwhole, hunsigned⟩ := exists_takes_integer hc hinteger
    have hwhole' := hwhole.imp_left And.left
    split
    · next hreal => exact exists_takes_realTail hw hwhole hreal
    · split
      · next hsuffix => exact exists_takes_integerSuffix hw hwhole' hunsigned hsuffix
      · exact fun _ => ⟨w, hw, .number (.whole hwhole')⟩

/-! ### Line breaks -/

/-- A carriage return that is a line break of its own has no line feed behind it. -/
theorem exists_takes_lineBreak (hc : c.isAt isBreak) :
    ∃ w, c.Takes w (lineBreak c).after ∧ Befits (lineBreak c).kind w ∧
      ((lineBreak c).kind = .cr → (lineBreak c).after.isAt (· == '\n') = false) := by
  obtain ⟨x, r, hx, hbreak⟩ := rest_eq_of_isAt hc
  have hfirst := takes_advance hx
  rcases Bool.or_eq_true_iff.1 hbreak with heq | heq <;> obtain rfl := eq_of_beq heq
  · rw [lineBreak_feed hx]
    exact ⟨_, hfirst, .fixed rfl, Kind.noConfusion⟩
  · have hrest : c.advance.rest = r := by rw [rest_advance, hx, List.tail_cons]
    rw [lineBreak_return hx]
    split
    · next hfeed =>
      obtain ⟨r', rfl⟩ := List.head?_eq_some_iff.1 hfeed
      exact ⟨_, hfirst.trans (takes_advance hrest), .fixed rfl, Kind.noConfusion⟩
    · next hfeed =>
      refine ⟨_, hfirst, .fixed rfl, fun _ => ?_⟩
      rw [upTo, isAt, current, hrest]
      cases r with
      | nil => rfl
      | cons y r => exact beq_false_of_ne fun hy => hfeed (congrArg some hy)

end Lexeme

end MplWorkbench
