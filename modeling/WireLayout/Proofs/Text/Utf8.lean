import WireLayout.Text.Utf8

/-! Texts and their octets. The octets of a text are read back as this text and tell it from any other one, and a
position among them lies between two characters exactly where the text can be cut. -/

namespace WireLayout.Text

variable {cs : List Char}

theorem utf8_injective {cs ds : List Char} (h : utf8 cs = utf8 ds) : cs = ds := by
  have hencode : cs.utf8Encode = ds.utf8Encode := congrArg List.toByteArray h
  have hdecode := congrArg ByteArray.utf8Decode? hencode
  rw [List.utf8Decode?_utf8Encode, List.utf8Decode?_utf8Encode] at hdecode
  exact (Array.mk.inj (Option.some.inj hdecode))

theorem utf8_append (cs ds : List Char) : utf8 (cs ++ ds) = utf8 cs ++ utf8 ds := List.flatMap_append

theorem toByteArray_utf8 (cs : List Char) : (utf8 cs).toByteArray = (String.ofList cs).toByteArray :=
  String.toByteArray_ofList.symm

theorem fromUTF8?_utf8 (cs : List Char) : String.fromUTF8? (utf8 cs).toByteArray = some (String.ofList cs) := by
  rw [toByteArray_utf8, String.fromUTF8?, dif_pos (String.ofList cs).isValidUTF8]
  rfl

theorem length_utf8 (cs : List Char) : (utf8 cs).length = (String.ofList cs).utf8ByteSize := by
  rw [← String.size_toByteArray, ← toByteArray_utf8, List.size_toByteArray]

/-- A position between characters cuts the text. -/
theorem isValid_ofList_iff {i : Nat} : (⟨i⟩ : String.Pos.Raw).IsValid (String.ofList cs) ↔
    ∃ front back, cs = front ++ back ∧ i = (utf8 front).length := by
  rw [String.Pos.Raw.isValid_ofList]
  constructor
  · intro ⟨n, hn⟩
    refine ⟨cs.take n, cs.drop n, (List.take_append_drop n cs).symm, ?_⟩
    rw [length_utf8]
    exact hn
  · intro ⟨front, back, hcs, hi⟩
    refine ⟨front.length, ?_⟩
    rw [hcs, List.take_left, ← length_utf8]
    exact hi

end WireLayout.Text
