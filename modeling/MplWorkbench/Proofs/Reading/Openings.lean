import MplWorkbench.Proofs.Lexeme.Words
import MplWorkbench.Reading

/-! What a first character announces.

Reading chooses what to read by the character at the cursor, the one after it,
and whether any expression may begin here. `Announces` names the choice, and the
theorems below say when each choice is made: an unspaced expression always by its
first character, all others only where any expression may begin. -/
namespace MplWorkbench.Reading

open Cursor

/-- An expression stands at the cursor, and its first character announces this. -/
def Announces (fresh : Bool) (c : Cursor) (o : Opening) : Prop :=
  ∃ x, c.current = some x ∧ isBlank x = false ∧ (classify fresh x c.following).1 = o

variable {fresh : Bool} {c : Cursor} {o : Opening} {x : Char} {next : Option Char}

theorem Announces.rest_ne_nil (h : Announces fresh c o) : c.rest ≠ [] := by
  obtain ⟨x, hx, -⟩ := h
  intro hc
  simp [current, hc] at hx

theorem announces_classify (hx : c.current = some x) (hblank : isBlank x = false) :
    Announces fresh c (classify fresh x c.following).1 := ⟨x, hx, hblank, rfl⟩

/-! ### Unspaced expressions -/

theorem fst_classify : (classify fresh x next).1 =
    (Opening.unspaced? x).getD (if fresh then Opening.spaced x next else .stray) := by
  unfold classify
  cases fresh <;> cases Opening.unspaced? x <;> rfl

/-- The openings that a character makes wherever it stands. -/
theorem unspaced?_eq_some_iff : Opening.unspaced? x = some o ↔
    (∃ b : Block, b.production ≠ .label ∧ x = b.openingChar ∧ o = .bracket b) ∨
      (x = '.' ∧ o = .member) ∨ (x = '#' ∧ o = .comment) ∨ (x = ',' ∧ o = .comma) := by
  constructor
  · intro h
    unfold Opening.unspaced? at h
    repeat' split at h
    · next hx => exact .inl ⟨.object, by decide, eq_of_beq hx, (Option.some.inj h).symm⟩
    · next hx => exact .inl ⟨.list, by decide, eq_of_beq hx, (Option.some.inj h).symm⟩
    · next hx => exact .inl ⟨.code, by decide, eq_of_beq hx, (Option.some.inj h).symm⟩
    · next hx => exact .inr (.inl ⟨eq_of_beq hx, (Option.some.inj h).symm⟩)
    · next hx => exact .inr (.inr (.inl ⟨eq_of_beq hx, (Option.some.inj h).symm⟩))
    · next hx => exact .inr (.inr (.inr ⟨eq_of_beq hx, (Option.some.inj h).symm⟩))
    · contradiction
  · rintro (⟨b, hb, rfl, rfl⟩ | ⟨rfl, rfl⟩ | ⟨rfl, rfl⟩ | ⟨rfl, rfl⟩)
    · cases b <;> first | rfl | exact absurd rfl hb
    · rfl
    · rfl
    · rfl

/-- The openings of spaced expressions. -/
def Opening.IsSpaced : Opening → Prop
  | .bracket _ | .member | .comment | .comma => False
  | _ => True

theorem isSpaced_spaced : (Opening.spaced x next).IsSpaced := by
  unfold Opening.spaced
  repeat' split
  all_goals trivial

/-- An unspaced opening is made by the character alone. -/
theorem fst_classify_eq_iff (ho : ¬ o.IsSpaced) :
    (classify fresh x next).1 = o ↔ Opening.unspaced? x = some o := by
  rw [fst_classify]
  cases hx : Opening.unspaced? x with
  | some o' => simp
  | none =>
    refine iff_of_false (fun h => ho ?_) (by simp)
    rw [← h]
    cases fresh
    · trivial
    · exact isSpaced_spaced

/-- A spaced opening is made where any expression may begin, by a character that makes no other. -/
theorem fst_classify_eq_iff_of_isSpaced (ho : o.IsSpaced) (hstray : o ≠ .stray) :
    (classify fresh x next).1 = o ↔
      fresh = true ∧ Opening.unspaced? x = none ∧ Opening.spaced x next = o := by
  rw [fst_classify]
  cases hx : Opening.unspaced? x with
  | some o' =>
    refine iff_of_false (fun h => ?_) (by simp)
    rw [← h] at ho
    rcases unspaced?_eq_some_iff.1 hx with ⟨b, -, -, rfl⟩ | ⟨-, rfl⟩ | ⟨-, rfl⟩ | ⟨-, rfl⟩ <;>
      exact ho
  | none => cases fresh <;> simp [hstray.symm]

/-! ### Spaced expressions -/

theorem spaced_eq_quoted_iff : Opening.spaced x next = .quoted ↔ x = '"' := by
  unfold Opening.spaced
  repeat' split
  all_goals simp_all

theorem spaced_eq_raw_iff : Opening.spaced x next = .raw ↔ x = '«' := by
  unfold Opening.spaced
  repeat' split
  all_goals simp_all

theorem spaced_eq_number_iff : Opening.spaced x next = .number ↔
    isDigit x ∨ isSign x ∧ next.any isDigit := by
  unfold Opening.spaced
  repeat' split
  all_goals simp_all [isDigit, isSign]

theorem spaced_eq_access_iff : Opening.spaced x next = .access ↔
    (x = '@' ∨ x = '!') ∧ next ≠ some ':' := by
  unfold Opening.spaced
  repeat' split
  all_goals simp_all [isDigit, isSign]
  all_goals rintro (rfl | rfl) <;> simp_all

theorem spaced_eq_word_iff : Opening.spaced x next = .word ↔
    (x = '@' ∨ x = '!') ∧ next = some ':' ∨ isSign x ∧ ¬ next.any isDigit ∨
      isLetter x ∧ x ≠ '«' := by
  have hdigit := @isDigit_eq_false_of_mem x
  have hletter := @isLetter_eq_false_of_mem x
  have hexclusive := @isLetter_eq_false_of_isDigit x
  have hsign := @mem_reserved_of_isSign x
  have hmark : '@' ∈ reserved ∧ '!' ∈ reserved ∧ '"' ∈ reserved := by decide
  have hlone : isSign '@' = false ∧ isSign '!' = false ∧ isSign '"' = false ∧
    isSign '«' = false := by decide
  unfold Opening.spaced
  grind

/-! ### Announcements -/

theorem announces_iff_isAt {p : Char → Bool} (hblank : ∀ x, p x → isBlank x = false)
    (h : ∀ x, (classify fresh x c.following).1 = o ↔ p x) : Announces fresh c o ↔ c.isAt p := by
  constructor
  · rintro ⟨x, hx, -, ho⟩
    rw [isAt, hx]
    exact (h x).1 ho
  · intro hp
    obtain ⟨x, r, hx, hpx⟩ := rest_eq_of_isAt hp
    exact ⟨x, by rw [current, hx]; rfl, hblank x hpx, (h x).2 hpx⟩

theorem announces_bracket_iff {block : Block} : Announces fresh c (.bracket block) ↔
    block.production ≠ .label ∧ c.isAt (· == block.openingChar) := by
  constructor
  · rintro ⟨x, hx, -, ho⟩
    rw [fst_classify_eq_iff id, unspaced?_eq_some_iff] at ho
    rcases ho with ⟨b, hb, rfl, heq⟩ | ⟨-, ho⟩ | ⟨-, ho⟩ | ⟨-, ho⟩
    · obtain rfl := Opening.bracket.inj heq
      exact ⟨hb, by simp [isAt, hx]⟩
    all_goals contradiction
  · rintro ⟨hb, hc⟩
    refine (announces_iff_isAt (p := fun x => x == block.openingChar) ?_ fun x => ?_).2 hc
    · intro x hx
      rw [eq_of_beq hx]
      cases block <;> decide
    · rw [fst_classify_eq_iff id, unspaced?_eq_some_iff]
      simp only [Opening.bracket.injEq, reduceCtorEq, and_false, or_false, beq_iff_eq]
      constructor
      · rintro ⟨b, -, hx, rfl⟩
        exact hx
      · exact fun hx => ⟨block, hb, hx, rfl⟩

theorem announces_member_iff : Announces fresh c .member ↔ c.isAt (· == '.') := by
  refine announces_iff_isAt (fun x hx => eq_of_beq hx ▸ rfl) fun x => ?_
  rw [fst_classify_eq_iff id, unspaced?_eq_some_iff]
  simp

theorem announces_comment_iff : Announces fresh c .comment ↔ c.isAt (· == '#') := by
  refine announces_iff_isAt (fun x hx => eq_of_beq hx ▸ rfl) fun x => ?_
  rw [fst_classify_eq_iff id, unspaced?_eq_some_iff]
  simp

theorem announces_comma_iff : Announces fresh c .comma ↔ c.isAt (· == ',') := by
  refine announces_iff_isAt (fun x hx => eq_of_beq hx ▸ rfl) fun x => ?_
  rw [fst_classify_eq_iff id, unspaced?_eq_some_iff]
  simp

/-- A spaced expression is announced where any expression may begin. -/
theorem Announces.spaced (h : Announces fresh c o) (ho : o.IsSpaced) (hstray : o ≠ .stray) :
    fresh = true ∧ ∃ x, c.current = some x ∧ Opening.spaced x c.following = o := by
  obtain ⟨x, hx, -, heq⟩ := h
  obtain ⟨hfresh, -, hspaced⟩ := (fst_classify_eq_iff_of_isSpaced ho hstray).1 heq
  exact ⟨hfresh, x, hx, hspaced⟩

theorem Announces.quoted (h : Announces fresh c .quoted) : fresh = true ∧ c.isAt (· == '"') := by
  obtain ⟨hfresh, x, hx, ho⟩ := h.spaced trivial Opening.noConfusion
  exact ⟨hfresh, by simp [isAt, hx, spaced_eq_quoted_iff.1 ho]⟩

theorem Announces.raw (h : Announces fresh c .raw) : fresh = true ∧ c.isAt (· == '«') := by
  obtain ⟨hfresh, x, hx, ho⟩ := h.spaced trivial Opening.noConfusion
  exact ⟨hfresh, by simp [isAt, hx, spaced_eq_raw_iff.1 ho]⟩

theorem Announces.access (h : Announces fresh c .access) :
    fresh = true ∧ c.isAt fun x => x == '@' || x == '!' := by
  obtain ⟨hfresh, x, hx, ho⟩ := h.spaced trivial Opening.noConfusion
  exact ⟨hfresh, by simp [isAt, hx, (spaced_eq_access_iff.1 ho).1]⟩

/-- A number, an access or a word begins with a character of a word, which opens no string. -/
theorem Announces.isAt_wordChar (h : Announces fresh c o)
    (ho : o = .number ∨ o = .access ∨ o = .word) :
    c.isAt fun x => Lexeme.isWordChar x && x != '«' := by
  have hmark : ∀ x, x = '@' ∨ x = '!' → (Lexeme.isWordChar x && x != '«') := by
    rintro x (rfl | rfl) <;> decide
  have hsign : ∀ x, isSign x → (Lexeme.isWordChar x && x != '«') := by
    intro x hx
    rcases Bool.or_eq_true_iff.1 hx with hx | hx <;> rw [eq_of_beq hx] <;> decide
  have hdigit : ∀ x, isDigit x → (Lexeme.isWordChar x && x != '«') := by
    intro x hx
    have hne : x ≠ '«' := by
      rintro rfl
      exact absurd hx (by decide)
    simp [Lexeme.isWordChar_of_isDigit hx, hne]
  have hspaced : o.IsSpaced := by rcases ho with rfl | rfl | rfl <;> trivial
  have hstray : o ≠ .stray := by rcases ho with rfl | rfl | rfl <;> exact Opening.noConfusion
  obtain ⟨-, x, hx, heq⟩ := h.spaced hspaced hstray
  suffices hchar : (Lexeme.isWordChar x && x != '«') = true by
    rw [isAt, hx]
    exact hchar
  rcases ho with rfl | rfl | rfl
  · exact (spaced_eq_number_iff.1 heq).elim (hdigit x) fun h => hsign x h.1
  · exact hmark x (spaced_eq_access_iff.1 heq).1
  · rcases spaced_eq_word_iff.1 heq with ⟨h, -⟩ | ⟨h, -⟩ | ⟨hletter, hne⟩
    · exact hmark x h
    · exact hsign x h
    · simp [Lexeme.isWordChar_of_isLetter hletter, hne]

end MplWorkbench.Reading
