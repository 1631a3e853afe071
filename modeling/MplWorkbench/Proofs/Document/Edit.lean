import MplWorkbench.Proofs.Document.Coherence
import MplWorkbench.Text.Slice

/-! What an edit does to a buffer.

Edits are given in bytes, but the text is one of characters. Where neither end of
the span divides a character, the text falls into what is in front of it, what it
covers and what is behind it, and the edit puts another text in the middle
(`edit_append`). The middle is then as long as the replacement, so an edit of that
many bytes puts back what has been removed: it is the same lemma, with the two
middles exchanged.

`edits_of_le`: an edit is made where the span fits the text, and only there. It
changes the bytes of the span and no others, counts the version on, and can be
undone; an edit that is refused changes nothing. -/
namespace MplWorkbench

namespace Span

/-- Both ends of the span are in the text, and neither divides a character. -/
def IsWhole (s : Span) (text : String) : Prop :=
  String.Pos.Raw.IsValid text ⟨s.start⟩ ∧ String.Pos.Raw.IsValid text ⟨s.stop⟩

/-- The bytes of the text, with those of the replacement in place of those of the span. -/
def splice (s : Span) (text replacement : String) : ByteArray :=
  text.toByteArray.extract 0 s.start ++ replacement.toByteArray ++
    text.toByteArray.extract s.stop text.utf8ByteSize

/-- A span that divides no character divides the text in three. -/
theorem IsWhole.exists_append {s : Span} {text : String} (h : s.IsWhole text)
    (hle : s.start ≤ s.stop) : ∃ a m z : String, text = a ++ m ++ z ∧
      s = ⟨a.utf8ByteSize, a.utf8ByteSize + m.utf8ByteSize⟩ := by
  have hslice : (slice? text.toList s).isSome :=
    isSome_slice?_iff.2 ⟨hle, isValid_iff_isBoundary.1 h.1, isValid_iff_isBoundary.1 h.2⟩
  obtain ⟨m, hm⟩ := Option.isSome_iff_exists.1 hslice
  obtain ⟨a, z, htext, hstart, hstop⟩ := slice?_eq_some_iff.1 hm
  refine ⟨.ofList a, .ofList m, .ofList z, ?_, ?_⟩
  · rw [← String.ofList_append, ← String.ofList_append, ← htext, String.ofList_toList]
  · rw [← byteSize_toList, ← byteSize_toList, String.toList_ofList, String.toList_ofList, hstop,
      hstart]

/-- The bytes of a text in three parts, part by part. -/
theorem extract_append (a m z : String) :
    (a ++ m ++ z).toByteArray.extract 0 a.utf8ByteSize = a.toByteArray ∧
      (a ++ m ++ z).toByteArray.extract a.utf8ByteSize (a.utf8ByteSize + m.utf8ByteSize) =
        m.toByteArray ∧
      (a ++ m ++ z).toByteArray.extract (a.utf8ByteSize + m.utf8ByteSize)
        (a ++ m ++ z).utf8ByteSize = z.toByteArray := by
  refine ⟨?front, ?middle, ?back⟩
  case front =>
    rw [String.append_assoc, String.toByteArray_append]
    exact ByteArray.extract_append_eq_left String.size_toByteArray.symm
  case middle =>
    have hzero : a.toByteArray.size + 0 = a.toByteArray.size := Nat.add_zero _
    rw [String.append_assoc, String.toByteArray_append, ← String.size_toByteArray,
      ← String.size_toByteArray, ← hzero, Nat.add_assoc, ByteArray.extract_append_size_add,
      Nat.zero_add, String.toByteArray_append]
    exact ByteArray.extract_append_eq_left rfl
  case back =>
    rw [String.utf8ByteSize_append, ← String.utf8ByteSize_append, String.toByteArray_append,
      ← String.size_toByteArray, ← String.size_toByteArray]
    exact ByteArray.extract_append_eq_right rfl rfl

end Span

namespace Buffer

variable {b : Buffer} {s : Span} {replacement : String}

/-- What comes of an edit of `s`, which is to read `replacement`. -/
structure Edits (b : Buffer) (s : Span) (replacement : String) : Prop where
  exists_ok_iff : (∃ b', b.edit s replacement = .ok b') ↔
    s.stop ≤ b.text.utf8ByteSize ∧ s.IsWhole b.text
  /-- The end of the text is looked at first. -/
  error_iff : ∀ error, b.edit s replacement = .error error ↔
    b.text.utf8ByteSize < s.stop ∧ error = .outOfBounds s b.text.utf8ByteSize ∨
      s.stop ≤ b.text.utf8ByteSize ∧ ¬ s.IsWhole b.text ∧ error = .notBoundary s
  /-- Whoever goes on after a refusal has the text and the version from before. -/
  refused : ∀ error, b.edit s replacement = .error error → ∀ d : Document, d.buffer = b →
    d.edit s replacement = .error error ∧
      ((Document.Operation.edit s replacement).apply d).buffer = b
  spliced : ∀ b', b.edit s replacement = .ok b' →
    (s.splice b.text replacement).IsValidUTF8 ∧
      b'.text.toByteArray = s.splice b.text replacement ∧ b'.version = b.version + 1
  /-- The bytes of the span are those of a text, and this text undoes the edit. -/
  undone : ∀ b', b.edit s replacement = .ok b' → ∃ removed : String,
    removed.toByteArray = b.text.toByteArray.extract s.start s.stop ∧
      ∃ b'', b'.edit ⟨s.start, s.start + replacement.utf8ByteSize⟩ removed = .ok b'' ∧
        b''.text = b.text

/-- The end of the text is looked at first, then both ends of the span. -/
theorem edit_cases (b : Buffer) (s : Span) (replacement : String) :
    b.text.utf8ByteSize < s.stop ∧
        b.edit s replacement = .error (.outOfBounds s b.text.utf8ByteSize) ∨
      s.stop ≤ b.text.utf8ByteSize ∧ ¬ s.IsWhole b.text ∧
        b.edit s replacement = .error (.notBoundary s) ∨
      s.stop ≤ b.text.utf8ByteSize ∧ s.IsWhole b.text ∧ ∃ b', b.edit s replacement = .ok b' := by
  have hwhole : s.IsWhole b.text ↔
      (splitAt? b.text.toList s.start).isSome ∧ (splitAt? b.text.toList s.stop).isSome :=
    and_congr isValid_iff_isBoundary isValid_iff_isBoundary
  unfold edit
  dsimp only
  rw [byteSize_toList]
  split
  · next hlt => exact .inl ⟨hlt, rfl⟩
  next hle =>
  refine .inr ?_
  split
  · next hstart hstop =>
    refine .inr ⟨Nat.le_of_not_lt hle, hwhole.2 ?_, _, rfl⟩
    rw [hstart, hstop]
    exact ⟨rfl, rfl⟩
  · next hnone =>
    refine .inl ⟨Nat.le_of_not_lt hle, fun h => ?_, rfl⟩
    obtain ⟨⟨before, inside⟩, hstart⟩ := Option.isSome_iff_exists.1 (hwhole.1 h).1
    obtain ⟨⟨inside', after⟩, hstop⟩ := Option.isSome_iff_exists.1 (hwhole.1 h).2
    exact hnone _ _ _ _ hstart hstop

/-- An edit puts another text in the middle of a text. -/
theorem edit_append (a m z replacement : String) (version : Nat) :
    edit ⟨a ++ m ++ z, version⟩ ⟨a.utf8ByteSize, a.utf8ByteSize + m.utf8ByteSize⟩ replacement =
      .ok ⟨a ++ replacement ++ z, version + 1⟩ := by
  have hstart : splitAt? (a ++ m ++ z).toList a.utf8ByteSize =
      some (a.toList, m.toList ++ z.toList) := by
    rw [← byteSize_toList, String.append_assoc, String.toList_append, String.toList_append]
    exact splitAt?_append _ _
  have hstop : splitAt? (a ++ m ++ z).toList (a.utf8ByteSize + m.utf8ByteSize) =
      some ((a ++ m).toList, z.toList) := by
    rw [← String.utf8ByteSize_append, ← byteSize_toList, String.toList_append]
    exact splitAt?_append _ _
  have hle : ¬ (a ++ m ++ z).utf8ByteSize < a.utf8ByteSize + m.utf8ByteSize := by
    rw [String.utf8ByteSize_append, String.utf8ByteSize_append]
    omega
  have htext : String.ofList (a.toList ++ replacement.toList ++ z.toList) =
      a ++ replacement ++ z := by
    rw [← String.toList_append, ← String.toList_append, String.ofList_toList]
  unfold edit
  dsimp only
  rw [byteSize_toList, if_neg hle, hstart, hstop]
  dsimp only
  rw [htext]

/-- An edit that is made has divided the text in three. -/
theorem exists_append_of_edit (hle : s.start ≤ s.stop) {b' : Buffer}
    (h : b.edit s replacement = .ok b') : ∃ a m z : String, b.text = a ++ m ++ z ∧
      s = ⟨a.utf8ByteSize, a.utf8ByteSize + m.utf8ByteSize⟩ ∧
        b' = ⟨a ++ replacement ++ z, b.version + 1⟩ := by
  rcases edit_cases b s replacement with ⟨-, herror⟩ | ⟨-, -, herror⟩ | ⟨-, hwhole, -⟩
  · rw [herror] at h; contradiction
  · rw [herror] at h; contradiction
  obtain ⟨a, m, z, htext, rfl⟩ := hwhole.exists_append hle
  obtain ⟨text, version⟩ := b
  obtain rfl : text = a ++ m ++ z := htext
  rw [edit_append] at h
  exact ⟨a, m, z, rfl, rfl, (Except.ok.inj h).symm⟩

end Buffer

open Buffer in
/-- Edits are exact, made as a whole or not at all, and undone by an edit. -/
theorem edits_of_le (b : Buffer) (s : Span) (replacement : String) (hle : s.start ≤ s.stop) :
    b.Edits s replacement := by
  refine ⟨?ok, ?error, ?refused, ?spliced, ?undone⟩
  case ok =>
    rcases edit_cases b s replacement with ⟨hlt, h⟩ | ⟨-, hdivides, h⟩ | ⟨hin, hwhole, h⟩
    · simp [h, Nat.not_le_of_lt hlt]
    · simp [h, hdivides]
    · exact iff_of_true h ⟨hin, hwhole⟩
  case error =>
    intro error
    rcases edit_cases b s replacement with ⟨hlt, h⟩ | ⟨hin, hdivides, h⟩ | ⟨hin, hwhole, b', h⟩
    · simp [h, hlt, Nat.not_le_of_lt hlt, eq_comm]
    · simp [h, hin, Nat.not_lt_of_le hin, hdivides, eq_comm]
    · simp [h, Nat.not_lt_of_le hin, hwhole]
  case refused =>
    rintro error h d rfl
    have hedit : d.edit s replacement = .error error := by rw [Document.edit, h]; rfl
    refine ⟨hedit, ?_⟩
    rw [Document.Operation.apply, hedit]
  case spliced =>
    intro b' h
    obtain ⟨a, m, z, htext, rfl, rfl⟩ := exists_append_of_edit hle h
    have hsplice : Span.splice ⟨a.utf8ByteSize, a.utf8ByteSize + m.utf8ByteSize⟩ b.text
        replacement = (a ++ replacement ++ z).toByteArray := by
      obtain ⟨hfront, -, hback⟩ := Span.extract_append a m z
      rw [htext, Span.splice, hfront, hback, String.toByteArray_append, String.toByteArray_append]
    rw [hsplice]
    exact ⟨String.isValidUTF8 _, rfl, rfl⟩
  case undone =>
    intro b' h
    obtain ⟨a, m, z, htext, rfl, rfl⟩ := exists_append_of_edit hle h
    refine ⟨m, ?_, _, edit_append a replacement z m _, htext.symm⟩
    rw [htext, (Span.extract_append a m z).2.1]

open Buffer in
/-- The second of two characters of two bytes each gives way to one of one byte. -/
theorem edits_guillemet : (2 ≤ 4 ∧ edit ⟨"«»", 0⟩ ⟨2, 4⟩ "x" = .ok ⟨"«x", 1⟩) ∧
    Edits ⟨"«»", 0⟩ ⟨2, 4⟩ "x" :=
  ⟨⟨by decide, by rfl⟩, edits_of_le ⟨"«»", 0⟩ ⟨2, 4⟩ "x" (by decide)⟩

end MplWorkbench
