import Codegraph.Library.Text

namespace Codegraph.Library

open List

/-- The bytes of a text. -/
def utf8Bytes (text : String) : List UInt8 := text.toByteArray.data.toList

/-- The text with the given bytes, unless they are no UTF-8. -/
def utf8Text (bytes : List UInt8) : Option String := String.fromUTF8? ⟨bytes.toArray⟩

namespace Utf8

def encode (chars : List Char) : List UInt8 := chars.flatMap String.utf8EncodeChar

theorem utf8Bytes_eq (text : String) : utf8Bytes text = encode text.toList := by
  have encoded := @String.utf8Encode_toList text
  rw [utf8Bytes, encode, ← encoded, List.utf8Encode, toList_data_toByteArray]

theorem utf8Text_encode (chars : List Char) :
    ∃ text, utf8Text (encode chars) = some text ∧ utf8Bytes text = encode chars := by
  have bytes : (⟨(encode chars).toArray⟩ : ByteArray) = chars.utf8Encode := by
    apply ByteArray.ext
    rw [List.utf8Encode, ← Array.toList_inj, toList_data_toByteArray]
    rfl
  have valid : ByteArray.IsValidUTF8 ⟨(encode chars).toArray⟩ := by
    rw [bytes]
    exact ByteArray.isValidUTF8_utf8Encode
  refine ⟨String.fromUTF8 _ valid, ?_, rfl⟩
  unfold utf8Text String.fromUTF8?
  rw [dif_pos valid]

variable {bytes : List UInt8}

theorem utf8Bytes_of_text {text : String} (read : utf8Text bytes = some text) : utf8Bytes text = bytes := by
  unfold utf8Text String.fromUTF8? at read
  split at read
  · rw [← Option.some.inj read]
    rfl
  · contradiction

theorem encode_append (first second : List Char) :
    encode (first ++ second) = encode first ++ encode second := flatMap_append

theorem encode_cons (c : Char) (rest : List Char) :
    encode (c :: rest) = String.utf8EncodeChar c ++ encode rest := rfl

theorem high_or {high : UInt8} (large : 128 ≤ high) (low : UInt8) : 128 ≤ low ||| high := by
  rw [UInt8.le_iff_toNat_le] at large ⊢
  rw [UInt8.toNat_or]
  exact large.trans Nat.right_le_or

/-- A character is one byte of ASCII, or none of its bytes is. -/
theorem utf8EncodeChar_cases (c : Char) :
    (∃ byte, String.utf8EncodeChar c = [byte]) ∨ ∀ byte ∈ String.utf8EncodeChar c, 128 ≤ byte := by
  rcases Char.utf8Size_eq c with one | two | three | four
  · exact .inl ⟨_, String.utf8EncodeChar_eq_singleton one⟩
  · right
    rw [String.utf8EncodeChar_eq_cons_cons two]
    simp only [forall_mem_cons]
    exact ⟨high_or (by decide) _, high_or (by decide) _, by simp⟩
  · right
    rw [String.utf8EncodeChar_eq_cons_cons_cons three]
    simp only [forall_mem_cons]
    exact ⟨high_or (by decide) _, high_or (by decide) _, high_or (by decide) _, by simp⟩
  · right
    rw [String.utf8EncodeChar_eq_cons_cons_cons_cons four]
    simp only [forall_mem_cons]
    exact ⟨high_or (by decide) _, high_or (by decide) _, high_or (by decide) _,
      high_or (by decide) _, by simp⟩

/-- Characters end before the position, and others start there. -/
def Boundary (chars : List Char) (position : Nat) : Prop :=
  ∃ before after, chars = before ++ after ∧ position = (encode before).length

theorem boundary_zero (chars : List Char) : Boundary chars 0 := ⟨[], chars, rfl, rfl⟩

theorem boundary_length (chars : List Char) : Boundary chars (encode chars).length :=
  ⟨chars, [], (append_nil chars).symm, rfl⟩

variable {chars : List Char}

theorem Boundary.cons {position : Nat} (boundary : Boundary chars position)
    (c : Char) : Boundary (c :: chars) ((String.utf8EncodeChar c).length + position) := by
  obtain ⟨before, after, rfl, rfl⟩ := boundary
  exact ⟨c :: before, after, rfl, by rw [encode_cons, length_append]⟩

/-- A boundary does not fall inside the first character. -/
theorem Boundary.of_cons {c : Char} {position : Nat}
    (boundary : Boundary (c :: chars) position) : position = 0 ∨
      ∃ rest, position = (String.utf8EncodeChar c).length + rest ∧ Boundary chars rest := by
  obtain ⟨before, after, split, rfl⟩ := boundary
  cases before with
  | nil => exact .inl rfl
  | cons head before =>
    obtain ⟨rfl, rfl⟩ := List.cons.inj split
    exact .inr ⟨(encode before).length, by rw [encode_cons, length_append], before, after, rfl, rfl⟩

theorem boundary_of_ascii {position : Nat} {byte : UInt8}
    (found : (encode chars)[position]? = some byte) (ascii : byte < 128) :
    Boundary chars position ∧ Boundary chars (position + 1) := by
  induction chars generalizing position with
  | nil => cases found
  | cons c chars ih =>
    rw [encode_cons, getElem?_append] at found
    split at found
    · rename_i inside
      rcases utf8EncodeChar_cases c with ⟨byte', single⟩ | high
      · have length : (String.utf8EncodeChar c).length = 1 := by rw [single]; rfl
        have start : position = 0 := by omega
        subst start
        have after := (boundary_zero chars).cons c
        rw [length] at after
        exact ⟨boundary_zero _, after⟩
      have large := high byte (mem_of_getElem? found)
      rw [UInt8.le_iff_toNat_le] at large
      rw [UInt8.lt_iff_toNat_lt] at ascii
      omega
    rename_i beyond
    obtain ⟨before, after⟩ := ih found
    have here := before.cons c
    have there := after.cons c
    have same : (String.utf8EncodeChar c).length + (position -
        (String.utf8EncodeChar c).length) = position := by omega
    rw [same] at here
    rw [← add_assoc, same] at there
    exact ⟨here, there⟩

/-- The chosen bytes are replaced. -/
def overlay (replace : UInt8 → UInt8) (chosen : Nat → Bool) (bytes : List UInt8) : List UInt8 :=
  bytes.mapIdx fun index byte => if chosen index then replace byte else byte

/-- No character is chosen in part. -/
def Whole (chars : List Char) (chosen : Nat → Bool) : Prop :=
  ∀ before c after, chars = before ++ c :: after → ∀ index < (String.utf8EncodeChar c).length,
    chosen ((encode before).length + index) = chosen (encode before).length

variable {chosen : Nat → Bool}

theorem Whole.tail {c : Char} (whole : Whole (c :: chars) chosen) :
    Whole chars fun index => chosen (index + (String.utf8EncodeChar c).length) := by
  intro before c' after split index inside
  have same := whole (c :: before) c' after (by rw [split]; rfl) index inside
  rw [encode_cons, length_append] at same
  have start : (String.utf8EncodeChar c).length + (encode before).length =
      (encode before).length + (String.utf8EncodeChar c).length := add_comm _ _
  have moved : (String.utf8EncodeChar c).length + (encode before).length + index =
      (encode before).length + index + (String.utf8EncodeChar c).length := by omega
  rwa [start, ← start, moved, start] at same

theorem whole_none (chars : List Char) : Whole chars fun _ => false := fun _ _ _ _ _ _ => rfl

/-- A boundary does not fall inside a character. -/
theorem Boundary.outside {before after : List Char} {c : Char} {position : Nat}
    (boundary : Boundary (before ++ c :: after) position) :
    position ≤ (encode before).length ∨
      (encode before).length + (String.utf8EncodeChar c).length ≤ position := by
  induction before generalizing position with
  | nil =>
    rcases boundary.of_cons with zero | ⟨rest, rfl, -⟩
    · exact .inl (le_of_eq zero)
    · exact .inr (by simp [encode])
  | cons head before ih =>
    rw [encode_cons, length_append]
    rcases boundary.of_cons with zero | ⟨rest, rfl, inner⟩
    · exact .inl (by omega)
    rcases ih inner with left | right
    · exact .inl (by omega)
    · exact .inr (by omega)

/-- Whole characters stay whole when those between two boundaries are chosen too. -/
theorem Whole.range (whole : Whole chars chosen)
    {start stop : Nat} (first : Boundary chars start) (last : Boundary chars stop) :
    Whole chars fun index => chosen index || (start ≤ index && index < stop) := by
  rintro before c after rfl index inside
  have left := first.outside
  have right := last.outside
  have same := whole before c after rfl index inside
  have same' : decide (start ≤ (encode before).length + index) =
      decide (start ≤ (encode before).length) := by
    rw [decide_eq_decide]
    omega
  have same'' : decide ((encode before).length + index < stop) =
      decide ((encode before).length < stop) := by
    rw [decide_eq_decide]
    omega
  dsimp only
  rw [same, same', same'']

variable {replace : UInt8 → UInt8}

theorem getElem?_overlay (index : Nat) : (overlay replace chosen bytes)[index]? =
      bytes[index]?.map fun byte => if chosen index then replace byte else byte :=
  getElem?_mapIdx

theorem length_overlay : (overlay replace chosen bytes).length = bytes.length := length_mapIdx

theorem overlay_none : overlay replace (fun _ => false) bytes = bytes := by
  apply ext_getElem?
  intro index
  rw [getElem?_overlay]
  simp

theorem overlay_const {flag : Bool} (same : ∀ index < bytes.length, chosen index = flag) :
    overlay replace chosen bytes = if flag then bytes.map replace else bytes := by
  unfold overlay
  apply ext_getElem?
  intro index
  rw [getElem?_mapIdx]
  by_cases inside : index < bytes.length
  · rw [same index inside, getElem?_eq_getElem inside]
    cases flag <;> simp [inside]
  · rw [getElem?_eq_none (by omega)]
    cases flag <;> simp [Nat.le_of_not_lt inside]

/-- What remains of text whose whole characters are replaced by ASCII bytes is text. -/
theorem overlay_encode (ascii : ∀ byte, ∃ c, String.utf8EncodeChar c = [replace byte])
    (whole : Whole chars chosen) :
    ∃ chars', overlay replace chosen (encode chars) = encode chars' := by
  induction chars generalizing chosen with
  | nil => exact ⟨[], rfl⟩
  | cons c chars ih =>
    obtain ⟨rest, tail⟩ := ih whole.tail
    have first : ∃ head, overlay replace chosen (String.utf8EncodeChar c) = encode head := by
      have same : ∀ index < (String.utf8EncodeChar c).length, chosen index = chosen 0 := by
        intro index inside
        have value := whole [] c chars rfl index inside
        simpa [encode] using value
      rw [overlay_const same]
      cases chosen 0 with
      | false => exact ⟨[c], by simp [encode]⟩
      | true =>
        choose named spelled using ascii
        refine ⟨(String.utf8EncodeChar c).map named, ?_⟩
        rw [encode, if_pos rfl, flatMap_map]
        simp only [spelled]
        exact (map_eq_flatMap ..)
    obtain ⟨head, here⟩ := first
    refine ⟨head ++ rest, ?_⟩
    rw [encode_append, ← here, ← tail]
    unfold overlay
    rw [encode_cons, mapIdx_append]

end Utf8

end Codegraph.Library
