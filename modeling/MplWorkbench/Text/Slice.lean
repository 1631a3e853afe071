import MplWorkbench.Text.Basic

/-! Slices of a string.

A string is kept as bytes, so a slice of it is found without reading the text in
front of it. It has the characters of the slice of the list of characters
(`sliceOf?_eq`). -/
namespace MplWorkbench

/-- The text that a span covers; none unless both ends are boundaries, in order. -/
def sliceOf? (text : String) (s : Span) : Option String :=
  if h : s.start ≤ s.stop ∧ String.Pos.Raw.IsValid text ⟨s.start⟩ ∧
      String.Pos.Raw.IsValid text ⟨s.stop⟩ then
    some (text.extract (text.pos ⟨s.start⟩ h.2.1) (text.pos ⟨s.stop⟩ h.2.2))
  else none

theorem byteSize_toList (text : String) : byteSize text.toList = text.utf8ByteSize := by
  obtain ⟨cs, rfl⟩ : ∃ cs, text = String.ofList cs := ⟨text.toList, by simp⟩
  induction cs with
  | nil => simp
  | cons c cs ih =>
    have hcons : String.ofList (c :: cs) = String.singleton c ++ String.ofList cs := by
      rw [String.singleton_eq_ofList, ← String.ofList_append]; rfl
    rw [hcons, String.utf8ByteSize_append, ← ih]
    simp

theorem isValid_iff_isBoundary {text : String} {n : Nat} :
    String.Pos.Raw.IsValid text ⟨n⟩ ↔ isBoundary text.toList n := by
  rw [String.Pos.Raw.isValid_iff_exists_append, isBoundary, Option.isSome_iff_exists]
  constructor
  · rintro ⟨a, b, rfl, hn⟩
    refine ⟨(a.toList, b.toList), splitAt?_eq_some_iff.2 ⟨String.toList_append, ?_⟩⟩
    rw [byteSize_toList]
    exact (congrArg String.Pos.Raw.byteIdx hn).symm
  · rintro ⟨⟨a, b⟩, h⟩
    obtain ⟨htext, hn⟩ := splitAt?_eq_some_iff.1 h
    refine ⟨String.ofList a, String.ofList b, ?_, ?_⟩
    · rw [← String.ofList_append, ← htext, String.ofList_toList]
    · rw [← hn, ← String.toList_ofList (l := a), byteSize_toList, String.ofList_toList]
      rfl

theorem extract_eq_of_eq_append {text a m b : String} (h : text = a ++ m ++ b) (p q : text.Pos)
    (hp : p.offset.byteIdx = byteSize a.toList)
    (hq : q.offset.byteIdx = byteSize a.toList + byteSize m.toList) :
    text.extract p q = m := by
  apply String.toByteArray_inj.1
  rw [String.toByteArray_extract, hp, hq, h, byteSize_toList, byteSize_toList,
    String.toByteArray_append, String.toByteArray_append, ByteArray.append_assoc,
    ← String.size_toByteArray, ← String.size_toByteArray,
    ← Nat.add_zero a.toByteArray.size, Nat.add_assoc, ByteArray.extract_append_size_add,
    Nat.zero_add, ByteArray.extract_append_size_left, ByteArray.extract_zero_size]

theorem sliceOf?_eq (text : String) (s : Span) :
    sliceOf? text s = (slice? text.toList s).map String.ofList := by
  have hiff := @isSome_slice?_iff text.toList s
  simp only [← isValid_iff_isBoundary] at hiff
  unfold sliceOf?
  split
  · next h =>
    obtain ⟨m, hm⟩ := Option.isSome_iff_exists.1 (hiff.2 h)
    obtain ⟨a, b, htext, hstart, hstop⟩ := slice?_eq_some_iff.1 hm
    rw [hm, Option.map_some, Option.some_inj]
    apply extract_eq_of_eq_append (a := String.ofList a) (b := String.ofList b)
    · rw [← String.ofList_append, ← String.ofList_append, ← htext, String.ofList_toList]
    · simp [hstart]
    · simp [hstop]
  · next h =>
    rw [Option.not_isSome_iff_eq_none.1 (mt hiff.1 h)]
    rfl

end MplWorkbench
