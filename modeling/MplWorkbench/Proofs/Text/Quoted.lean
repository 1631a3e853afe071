import MplWorkbench.Lexeme.Basic
import MplWorkbench.Text.Quoted

/-! Written forms that tell where they end.

A number ends with its digits, and a quoted text with the quote that closes it,
since a quote inside is written with a backslash. Whatever stands behind, two such
forms that are written alike are forms of the same thing.

`encode_append_inj`: that is so of quoted texts. -/
namespace MplWorkbench

/-! ### Runs of characters -/

/-- A run ends where a character stands that does not belong to it. -/
theorem run_append_inj {p : Char → Bool} {a b s t : List Char} (ha : ∀ x ∈ a, p x)
    (hb : ∀ x ∈ b, p x) (hs : s.head?.any p = false) (ht : t.head?.any p = false)
    (h : a ++ s = b ++ t) : a = b ∧ s = t := by
  have htake {r : List Char} (hr : r.head?.any p = false) : r.takeWhile p = [] := by
    cases r with
    | nil => rfl
    | cons x r => exact List.takeWhile_cons_of_neg (Bool.eq_false_iff.1 hr)
  have hrun := congrArg (List.takeWhile p) h
  rw [List.takeWhile_append_of_pos ha, List.takeWhile_append_of_pos hb, htake hs, htake ht,
    List.append_nil, List.append_nil] at hrun
  exact ⟨hrun, List.append_cancel_left (hrun ▸ h)⟩

/-! ### Digits -/

section Digits

variable {base m n : Nat}

theorem isHexDigit_digitChar : ∀ d < 16, isHexDigit (Nat.digitChar d) := by decide

theorem digitChar_inj : ∀ d < 16, ∀ e < 16, Nat.digitChar d = Nat.digitChar e → d = e := by decide

/-- The last digit comes off the end. -/
theorem toDigits_eq (hbase : 1 < base) (n : Nat) : Nat.toDigits base n =
    (if n < base then [] else Nat.toDigits base (n / base)) ++ [(n % base).digitChar] := by
  rw [Nat.toDigits_eq_if hbase]
  split
  · next hlt => rw [Nat.mod_eq_of_lt hlt, List.nil_append]
  · rfl

theorem isHexDigit_of_mem_toDigits (hbase : 1 < base) (hle : base ≤ 16) (n : Nat) :
    ∀ x ∈ Nat.toDigits base n, isHexDigit x := by
  induction n using Nat.strongRecOn with
  | ind n ih =>
    have hmod : n % base < base := Nat.mod_lt _ (by omega)
    rw [toDigits_eq hbase]
    refine List.forall_mem_append.2 ⟨?_, List.forall_mem_singleton.2
      (isHexDigit_digitChar _ (Nat.lt_of_lt_of_le hmod hle))⟩
    split
    · simp
    · exact ih _ (Nat.div_lt_self (by omega) hbase)

theorem toDigits_inj (hbase : 1 < base) (hle : base ≤ 16)
    (h : Nat.toDigits base m = Nat.toDigits base n) : m = n := by
  induction m using Nat.strongRecOn generalizing n with
  | ind m ih =>
    have hmod (k : Nat) : k % base < 16 := Nat.lt_of_lt_of_le (Nat.mod_lt _ (by omega)) hle
    rw [toDigits_eq hbase, toDigits_eq hbase n] at h
    obtain ⟨hfront, hlast⟩ := List.append_inj' h rfl
    have hdigit := digitChar_inj _ (hmod m) _ (hmod n) (List.singleton_inj.1 hlast)
    suffices hquotient : m / base = n / base by
      rw [← Nat.div_add_mod m base, hquotient, hdigit, Nat.div_add_mod]
    split at hfront <;> split at hfront
    · next hm hn => rw [Nat.div_eq_of_lt hm, Nat.div_eq_of_lt hn]
    · exact absurd hfront.symm (Nat.toDigits_ne_nil)
    · exact absurd hfront (Nat.toDigits_ne_nil)
    · exact ih _ (Nat.div_lt_self (by omega) hbase) hfront

/-- A numeral ends where something else than a digit stands. -/
theorem toDigits_append_inj {s t : List Char} (hbase : 1 < base) (hle : base ≤ 16)
    (hs : s.head?.any isHexDigit = false) (ht : t.head?.any isHexDigit = false)
    (h : Nat.toDigits base m ++ s = Nat.toDigits base n ++ t) : m = n ∧ s = t :=
  (run_append_inj (isHexDigit_of_mem_toDigits hbase hle m) (isHexDigit_of_mem_toDigits hbase hle n)
    hs ht h).imp_left (toDigits_inj hbase hle)

end Digits

/-! ### Quoted texts -/

namespace Quoted

/-- The characters that are written as a backslash and one more character. -/
def abbreviations : List (Char × Char) :=
  [('"', '"'), ('\\', '\\'), ('\x00', '0'), ('\t', 't'), ('\n', 'n'), ('\r', 'r')]

variable {x y : Char} {a b s t : List Char}

/-- A character stands for itself, or it is written as its abbreviation or by its number. -/
theorem encodeChar_cases (x : Char) :
    (encodeChar x = [x] ∧ x ≠ '\\' ∧ x ≠ '"') ∨
      (∃ e, (x, e) ∈ abbreviations ∧ encodeChar x = ['\\', e]) ∨
      encodeChar x = '\\' :: 'u' :: '\x7b' :: (hex x ++ ['\x7d']) := by
  unfold encodeChar
  split
  · exact .inr (.inl ⟨_, by decide, rfl⟩)
  · exact .inr (.inl ⟨_, by decide, rfl⟩)
  · exact .inr (.inl ⟨_, by decide, rfl⟩)
  · exact .inr (.inl ⟨_, by decide, rfl⟩)
  · exact .inr (.inl ⟨_, by decide, rfl⟩)
  · exact .inr (.inl ⟨_, by decide, rfl⟩)
  · next hquote hslash _ _ _ _ =>
    split
    · exact .inl ⟨rfl, hslash, hquote⟩
    · exact .inr (.inr rfl)

/-- Different characters are written differently, and neither form begins the other. -/
theorem encodeChar_append_inj (h : encodeChar x ++ s = encodeChar y ++ t) : x = y ∧ s = t := by
  have habbreviation : ∀ p ∈ abbreviations, ∀ q ∈ abbreviations,
    p.2 = q.2 → p.1 = q.1 := by decide
  have hnumber : ∀ p ∈ abbreviations, p.2 ≠ 'u' := by decide
  rcases encodeChar_cases x with ⟨hx, hplain, -⟩ | ⟨e, he, hx⟩ | hx <;> rw [hx] at h <;>
    rcases encodeChar_cases y with ⟨hy, hplain', -⟩ | ⟨e', he', hy⟩ | hy <;> rw [hy] at h <;>
      simp only [List.cons_append, List.nil_append, List.cons.injEq, List.append_assoc] at h
  case inl.inl => exact h
  case inl.inr.inl => exact absurd h.1 hplain
  case inl.inr.inr => exact absurd h.1 hplain
  case inr.inl.inl => exact absurd h.1.symm hplain'
  case inr.inl.inr.inl => exact ⟨habbreviation _ he _ he' h.2.1, h.2.2⟩
  case inr.inl.inr.inr => exact absurd h.2.1 (hnumber _ he)
  case inr.inr.inl => exact absurd h.1.symm hplain'
  case inr.inr.inr.inl => exact absurd h.2.1.symm (hnumber _ he')
  case inr.inr.inr.inr =>
    obtain ⟨hcode, hrest⟩ := toDigits_append_inj (by decide) (Nat.le_refl 16) (by rfl) (by rfl)
      h.2.2.2
    exact ⟨Char.toNat_inj.1 hcode, List.tail_eq_of_cons_eq hrest⟩

/-- No character is written with a quote in front. -/
theorem encodeChar_ne (x : Char) (s t : List Char) : encodeChar x ++ s ≠ '"' :: t := by
  intro h
  rcases encodeChar_cases x with ⟨hx, -, hquote⟩ | ⟨e, -, hx⟩ | hx <;> rw [hx] at h
  · exact hquote (List.head_eq_of_cons_eq h)
  · exact absurd (List.head_eq_of_cons_eq h) (by decide)
  · exact absurd (List.head_eq_of_cons_eq h) (by decide)

theorem flatMap_append_inj
    (h : a.flatMap encodeChar ++ '"' :: s = b.flatMap encodeChar ++ '"' :: t) :
    a = b ∧ s = t := by
  induction a generalizing b with
  | nil =>
    cases b with
    | nil => exact ⟨rfl, List.tail_eq_of_cons_eq h⟩
    | cons y b =>
      rw [List.flatMap_cons, List.append_assoc] at h
      exact absurd h.symm (encodeChar_ne y _ _)
  | cons x a ih =>
    rw [List.flatMap_cons, List.append_assoc] at h
    cases b with
    | nil => exact absurd h (encodeChar_ne x _ _)
    | cons y b =>
      rw [List.flatMap_cons, List.append_assoc] at h
      obtain ⟨rfl, hrest⟩ := encodeChar_append_inj h
      exact (ih hrest).imp_left (congrArg (x :: ·))

/-- A quoted text ends with its closing quote, and tells the text. -/
theorem encode_append_inj (h : encode a ++ s = encode b ++ t) : a = b ∧ s = t := by
  simp only [encode, List.cons_append, List.append_assoc, List.nil_append, List.cons.injEq,
    true_and] at h
  exact flatMap_append_inj h

end Quoted

end MplWorkbench
