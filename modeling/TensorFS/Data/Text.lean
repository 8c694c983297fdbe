import TensorFS.Data.ByteReader

namespace TensorFS.Data

/-! Texts are lists of Unicode scalar values.  Their order is lexicographic by
scalar value, which is also the order of their UTF-8 encodings. -/

abbrev Text := List Char

instance Text.lawfulBEq : LawfulBEq Text := inferInstance

namespace Text

def utf8 (text : Text) : Bytes := text.flatMap String.utf8EncodeChar

def utf8Len (text : Text) : Nat := text.utf8.length

def fromUtf8 (bytes : Bytes) : Option Text :=
  bytes.toByteArray.utf8Decode?.map Array.toList

@[simp] theorem utf8_nil : utf8 [] = [] := rfl

@[simp] theorem utf8_cons (c : Char) (text : Text) :
    utf8 (c :: text) = String.utf8EncodeChar c ++ utf8 text := rfl

@[simp] theorem utf8_append (left right : Text) :
    utf8 (left ++ right) = utf8 left ++ utf8 right := by
  simp [utf8]

theorem utf8_eq_nil {text : Text} : text.utf8 = [] ↔ text = [] := by
  cases text with
  | nil => simp
  | cons c text => simp [String.utf8EncodeChar_ne_nil]

theorem utf8Encode_eq (text : Text) :
    text.utf8Encode = text.utf8.toByteArray := by
  simp [List.utf8Encode, utf8]

theorem fromUtf8_utf8 (text : Text) : fromUtf8 text.utf8 = some text := by
  rw [fromUtf8, ← utf8Encode_eq, List.utf8Decode?_utf8Encode]
  simp

theorem utf8_injective : Function.Injective utf8 := by
  intro left right h
  have htexts := congrArg fromUtf8 h
  simpa only [fromUtf8_utf8, Option.some.injEq] using htexts

theorem utf8_of_fromUtf8 {bytes : Bytes} {text : Text}
    (h : fromUtf8 bytes = some text) : bytes = text.utf8 := by
  simp only [fromUtf8, Option.map_eq_some_iff] at h
  obtain ⟨chars, hdecode, rfl⟩ := h
  have hget := ByteArray.utf8Encode_get_utf8Decode?
    (b := bytes.toByteArray) (h := by simp [hdecode])
  simp only [hdecode, Option.get_some, utf8Encode_eq] at hget
  have hdata := congrArg (fun b => b.data.toList) hget
  simpa using hdata.symm

end Text

/-! Splitting at a separator. -/

/-- The parts before and after the last separator, when there is one. -/
def rsplitOnce [DecidableEq α] (sep : α) : List α → Option (List α × List α)
  | [] => none
  | x :: xs =>
      match rsplitOnce sep xs with
      | some (front, back) => some (x :: front, back)
      | none => if x = sep then some ([], xs) else none

theorem rsplitOnce_eq_none [DecidableEq α] {sep : α} {xs : List α} :
    rsplitOnce sep xs = none ↔ sep ∉ xs := by
  induction xs with
  | nil => simp [rsplitOnce]
  | cons x xs ih =>
      cases htail : rsplitOnce sep xs with
      | none =>
          have hnot := ih.mp htail
          by_cases hx : x = sep
          · simp [rsplitOnce, htail, hx]
          · simp [rsplitOnce, htail, hx, hnot, Ne.symm hx]
      | some parts =>
          have hmem : sep ∈ xs := by
            by_contra hnot
            simp [ih.mpr hnot] at htail
          simp [rsplitOnce, htail, hmem]

theorem rsplitOnce_sound [DecidableEq α] {sep : α} {xs front back : List α}
    (h : rsplitOnce sep xs = some (front, back)) :
    xs = front ++ sep :: back ∧ sep ∉ back := by
  induction xs generalizing front with
  | nil => simp [rsplitOnce] at h
  | cons x xs ih =>
      cases htail : rsplitOnce sep xs with
      | none =>
          simp only [rsplitOnce, htail] at h
          split at h
          · rename_i hx
            cases h
            exact ⟨by simp [hx], rsplitOnce_eq_none.mp htail⟩
          · cases h
      | some parts =>
          obtain ⟨front', back'⟩ := parts
          simp only [rsplitOnce, htail] at h
          cases h
          obtain ⟨rfl, hback⟩ := ih htail
          exact ⟨rfl, hback⟩

theorem rsplitOnce_append [DecidableEq α] {sep : α} {front back : List α}
    (h : sep ∉ back) :
    rsplitOnce sep (front ++ sep :: back) = some (front, back) := by
  induction front with
  | nil => simp [rsplitOnce, rsplitOnce_eq_none.mpr h]
  | cons x front ih => simp [rsplitOnce, ih]

end TensorFS.Data
