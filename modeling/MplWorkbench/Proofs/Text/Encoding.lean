import MplWorkbench.Proofs.Lexeme.Classes
import MplWorkbench.Proofs.Text.Passage
import MplWorkbench.Text.Slice

/-! The bytes of a text.

Offsets count the bytes of a string, so what stands at a byte between two cursors
is found among the bytes of the characters that are read between them. -/
namespace MplWorkbench

/-- The UTF-8 form of a text. -/
def utf8 (cs : List Char) : List UInt8 := cs.flatMap String.utf8EncodeChar

theorem utf8_append (a b : List Char) : utf8 (a ++ b) = utf8 a ++ utf8 b := List.flatMap_append

theorem length_utf8 (cs : List Char) : (utf8 cs).length = byteSize cs := by
  induction cs with
  | nil => rfl
  | cons x xs ih =>
    rw [utf8, List.flatMap_cons, List.length_append, String.length_utf8EncodeChar, byteSize_cons,
      ← ih, utf8]

theorem toList_toUTF8 (text : String) : text.toUTF8.data.toList = utf8 text.toList := by
  rw [String.toUTF8_eq_toByteArray, ← String.utf8Encode_toList, List.utf8Encode,
    List.toList_data_toByteArray, utf8]

theorem getElem?_toUTF8 (text : String) (n : Nat) :
    text.toUTF8.data[n]? = (utf8 text.toList)[n]? := by
  rw [← Array.getElem?_toList, toList_toUTF8]

/-- The bytes of a slice are those of the text. -/
theorem getElem?_utf8_of_slice? {text w : List Char} {s : Span} {n : Nat}
    (h : slice? text s = some w) (hle : s.start ≤ n) (hlt : n < s.stop) :
    (utf8 text)[n]? = (utf8 w)[n - s.start]? := by
  obtain ⟨a, b, rfl, hstart, hstop⟩ := slice?_eq_some_iff.1 h
  have ha : (utf8 a).length = s.start := by rw [length_utf8, hstart]
  have hw : (utf8 w).length = s.stop - s.start := by rw [length_utf8]; omega
  rw [List.append_assoc, utf8_append, utf8_append, List.getElem?_append_right (ha ▸ hle),
    List.getElem?_append_left (by omega), ha]

/-! ### Bytes of single characters -/

/-- A character of ASCII is one byte; the bytes of all others are none of ASCII. -/
theorem utf8EncodeChar_cases (x : Char) :
    x.toNat < 128 ∧ String.utf8EncodeChar x = [UInt8.ofNat x.toNat] ∨
      128 ≤ x.toNat ∧ ∀ b ∈ String.utf8EncodeChar x, 128 ≤ b.toNat := by
  unfold String.utf8EncodeChar
  dsimp only
  split
  · next h => exact .inl ⟨Nat.lt_succ_of_le h, rfl⟩
  refine .inr ⟨Nat.lt_of_not_le ‹_›, ?_⟩
  repeat' split
  all_goals
    simp
    omega

/-- Bytes of ASCII tell their characters. -/
theorem ofNat_toNat_inj {x y : Char} (hx : x.toNat < 128) (hy : y.toNat < 128) :
    UInt8.ofNat x.toNat = UInt8.ofNat y.toNat ↔ x = y := by
  have hbyte {z : Char} (hz : z.toNat < 128) : (UInt8.ofNat z.toNat).toNat = z.toNat :=
    UInt8.toNat_ofNat_of_lt' (Nat.lt_trans hz (by decide))
  refine ⟨fun h => Char.toNat_inj.1 ?_, fun h => by rw [h]⟩
  rw [← hbyte hx, ← hbyte hy, h]

/-- The first byte is that of a character of ASCII where this is the first character. -/
theorem head?_utf8 {y : Char} (hy : y.toNat < 128) (cs : List Char) :
    (utf8 cs).head? = some (UInt8.ofNat y.toNat) ↔ cs.head? = some y := by
  cases cs with
  | nil => simp [utf8]
  | cons x xs =>
    rw [utf8, List.flatMap_cons, List.head?_cons, Option.some_inj]
    rcases utf8EncodeChar_cases x with ⟨hx, hbyte⟩ | ⟨hx, hbytes⟩
    · rw [hbyte, List.cons_append, List.head?_cons, Option.some_inj, ofNat_toNat_inj hx hy]
    · obtain ⟨b, bs, hb⟩ := List.exists_cons_of_ne_nil (String.utf8EncodeChar_ne_nil (c := x))
      have hhigh : 128 ≤ b.toNat := hbytes b (hb ▸ List.mem_cons_self)
      have hlow : (UInt8.ofNat y.toNat).toNat = y.toNat :=
        UInt8.toNat_ofNat_of_lt' (Nat.lt_trans hy (by decide))
      rw [hb, List.cons_append, List.head?_cons, Option.some_inj]
      refine iff_of_false (fun h => ?_) fun h => ?_
      · rw [h, hlow] at hhigh
        exact Nat.not_lt_of_le hhigh hy
      · exact Nat.not_lt_of_le hx (h ▸ hy)

/-- The byte of a space or a tab. -/
def isSpaceByte (byte : UInt8) : Prop := byte = 32 ∨ byte = 9

theorem isSpaceByte_of_mem {cs : List Char} (h : ∀ x ∈ cs, isSpace x) {byte : UInt8}
    (hbyte : byte ∈ utf8 cs) : isSpaceByte byte := by
  obtain ⟨x, hx, hbyte⟩ := List.mem_flatMap.1 hbyte
  have hspace := h x hx
  rcases Bool.or_eq_true_iff.1 hspace with heq | heq <;> rw [eq_of_beq heq] at hbyte
  · exact .inl (List.mem_singleton.1 hbyte)
  · exact .inr (List.mem_singleton.1 hbyte)

namespace Cursor

variable {c d : Cursor} {w text : List Char}

/-- The bytes between two cursors are those of what is read between them. -/
theorem In.getElem?_utf8 (hc : In text c) (h : Takes c w d) {n : Nat} (hle : c.offset ≤ n)
    (hlt : n < d.offset) : (utf8 text)[n]? = (utf8 w)[n - c.offset]? :=
  getElem?_utf8_of_slice? (h.slice?_eq hc) hle hlt

end Cursor

end MplWorkbench
