import Mathlib.Data.List.Basic

/-!
# Texts as UTF-8

* `utf8Bytes_split`: the bytes of a text are cut before a character where one begins.
* `utf8Bytes_prefix`: a text whose bytes begin with another's begins with it.
* `utf8Bytes_infix`: a text stands in another where its bytes stand in the other's.
-/

open List

namespace LocalAi.Lib

def utf8Bytes (text : List Char) : List UInt8 := text.flatMap String.utf8EncodeChar

@[simp] theorem utf8Bytes_nil : utf8Bytes [] = [] := rfl

@[simp] theorem utf8Bytes_cons (c : Char) (text : List Char) :
    utf8Bytes (c :: text) = String.utf8EncodeChar c ++ utf8Bytes text := rfl

@[simp] theorem utf8Bytes_append (a b : List Char) :
    utf8Bytes (a ++ b) = utf8Bytes a ++ utf8Bytes b := flatMap_append

theorem utf8EncodeChar_ne_nil (c : Char) : String.utf8EncodeChar c ≠ [] := by
  intro hn
  have hl := String.length_utf8EncodeChar c
  rw [hn, length_nil] at hl
  exact absurd hl.symm (Nat.ne_of_gt (Char.utf8Size_pos c))

theorem not_first_of_behind {c : Char} {x y : List UInt8} {b : UInt8}
    (h : String.utf8EncodeChar c = x ++ b :: y) (hne : x ≠ []) : ¬ b.IsUTF8FirstByte := by
  intro hf
  have hlt : x.length < (String.utf8EncodeChar c).length := by
    rw [h, length_append, length_cons]
    omega
  have hg : (String.utf8EncodeChar c)[x.length] = b := by
    simp [h]
  rw [← hg, UInt8.isUTF8FirstByte_getElem_utf8EncodeChar] at hf
  exact hne (eq_nil_of_length_eq_zero hf)

theorem utf8Bytes_split {text : List Char} {front back : List UInt8} {b : UInt8}
    (h : utf8Bytes text = front ++ b :: back) (hb : b.IsUTF8FirstByte) :
    ∃ before after, text = before ++ after ∧ utf8Bytes before = front := by
  induction text generalizing front with
  | nil => exact absurd (congrArg length h) (by simp)
  | cons c text ih =>
    by_cases hf : front = []
    · exact ⟨[], c :: text, rfl, hf.symm⟩
    · rw [utf8Bytes_cons] at h
      rcases append_eq_append_iff.mp h with ⟨mid, hm, hr⟩ | ⟨mid, hm, hr⟩
      · obtain ⟨before, after, ht, hbef⟩ := ih hr
        exact ⟨c :: before, after, by rw [ht]; rfl, by rw [utf8Bytes_cons, hbef, hm]⟩
      · cases mid with
        | nil =>
          rw [append_nil] at hm
          exact ⟨[c], text, rfl, by rw [utf8Bytes_cons, utf8Bytes_nil, append_nil, hm]⟩
        | cons =>
          obtain ⟨rfl, -⟩ := cons.inj hr
          exact absurd hb (not_first_of_behind hm hf)

theorem utf8Encode_eq (text : List Char) : text.utf8Encode = (utf8Bytes text).toByteArray := rfl

theorem utf8Bytes_prefix {old text : List Char} {back : List UInt8}
    (h : utf8Bytes text = utf8Bytes old ++ back) :
    ∃ after, text = old ++ after ∧ utf8Bytes after = back := by
  have hp : old <+: text := by
    refine isPrefix_of_utf8Encode_append_eq_utf8Encode back.toByteArray ?_
    rw [utf8Encode_eq, utf8Encode_eq, h, toByteArray_append]
  obtain ⟨after, rfl⟩ := hp
  rw [utf8Bytes_append] at h
  exact ⟨after, rfl, append_cancel_left h⟩

theorem utf8Bytes_infix {old text : List Char} {front back : List UInt8} (hne : old ≠ [])
    (h : utf8Bytes text = front ++ utf8Bytes old ++ back) :
    ∃ before after, text = before ++ old ++ after ∧ utf8Bytes before = front ∧
      utf8Bytes after = back := by
  obtain ⟨c, old, rfl⟩ := exists_cons_of_ne_nil hne
  obtain ⟨b, bytes, hby⟩ := exists_cons_of_ne_nil (utf8EncodeChar_ne_nil c)
  have hb : b.IsUTF8FirstByte := by
    have hlt : 0 < (String.utf8EncodeChar c).length := by
      rw [hby, length_cons]
      omega
    have hg : (String.utf8EncodeChar c)[0] = b := by
      simp [hby]
    rw [← hg, UInt8.isUTF8FirstByte_getElem_utf8EncodeChar]
  have hs : utf8Bytes text = front ++ b :: (bytes ++ utf8Bytes old ++ back) := by
    rw [h, utf8Bytes_cons, hby]
    simp
  obtain ⟨before, rest, rfl, hbef⟩ := utf8Bytes_split hs hb
  rw [utf8Bytes_append, hbef, append_assoc] at h
  obtain ⟨after, rfl, ha⟩ := utf8Bytes_prefix (append_cancel_left h)
  exact ⟨before, after, by rw [append_assoc], hbef, ha⟩

/-! ### Strings and byte arrays -/

theorem toList_loop (bs : ByteArray) (i : Nat) (r : List UInt8) :
    ByteArray.toList.loop bs i r = r.reverse ++ bs.data.toList.drop i := by
  fun_induction ByteArray.toList.loop bs i r with
  | case1 i r h ih =>
    have hi : i < bs.data.toList.length := by
      rw [Array.length_toList]
      exact h
    have hg : bs.get! i = bs.data.toList[i] := by
      simp [ByteArray.get!, h]
    rw [ih, drop_eq_getElem_cons hi, hg, reverse_cons, append_assoc]
    rfl
  | case2 i r h =>
    rw [drop_eq_nil_of_le, append_nil]
    rw [Array.length_toList]
    exact Nat.le_of_not_lt h

theorem toList_eq (bs : ByteArray) : bs.toList = bs.data.toList := by
  rw [ByteArray.toList, toList_loop]
  rfl

theorem toUTF8_ofList (text : List Char) : (String.ofList text).toUTF8.toList = utf8Bytes text := by
  rw [toList_eq]
  exact toList_data_toByteArray

theorem fromUTF8?_eq {bytes : List UInt8} {text : List Char} :
    (String.fromUTF8? ⟨bytes.toArray⟩).map String.toList = some text ↔ utf8Bytes text = bytes := by
  have hi : ∀ {a b : List UInt8}, a.toByteArray = b.toByteArray → a = b := by
    intro a b h
    exact toByteArray_inj.mp h
  have hb : (⟨bytes.toArray⟩ : ByteArray) = bytes.toByteArray :=
    ByteArray.ext data_toByteArray.symm
  rw [hb]
  unfold String.fromUTF8?
  constructor
  · intro h
    obtain ⟨string, hs, rfl⟩ := Option.map_eq_some_iff.mp h
    split at hs
    · cases hs
      refine hi ?_
      rw [← utf8Encode_eq, String.utf8Encode_toList]
      rfl
    · cases hs
  · rintro rfl
    have hv : (utf8Bytes text).toByteArray.IsValidUTF8 := ⟨text, rfl⟩
    rw [dif_pos hv, Option.map_some, Option.some_inj]
    exact String.toList_ofList

end LocalAi.Lib
