import Mathlib.Data.List.Basic
import Mathlib.Tactic.SplitIfs

/-! The order of texts by their bytes. It is the order by their characters, since the bytes of a
character compare like the character itself and none of them begins like another one goes on. -/
namespace FlatLisp

theorem ofNat_cons_lt {x y : Nat} {xs ys : List UInt8} (hy : y < 256) (hle : x ≤ y)
    (h : x = y → xs < ys) : UInt8.ofNat x :: xs < UInt8.ofNat y :: ys := by
  rw [List.cons_lt_cons_iff]
  obtain hlt | rfl := Nat.lt_or_eq_of_le hle
  · left
    rw [UInt8.lt_iff_toNat_lt, UInt8.toNat_ofNat_of_lt' (Nat.lt_trans hlt hy),
      UInt8.toNat_ofNat_of_lt' hy]
    exact hlt
  · exact .inr ⟨rfl, h rfl⟩

/-- Whatever follows, two characters are told apart by their own bytes. -/
theorem utf8EncodeChar_append_lt {c d : Char} (h : c < d) (xs ys : List UInt8) :
    String.utf8EncodeChar c ++ xs < String.utf8EncodeChar d ++ ys := by
  have hlt : c.val.toNat < d.val.toNat := h
  have hd : d.val.toNat < 0x110000 := d.valid.elim (fun h => by omega) And.right
  simp only [String.utf8EncodeChar]
  generalize c.val.toNat = v at hlt
  generalize d.val.toNat = w at hlt hd
  -- Encodings of different lengths differ in the first byte. In those of one length, the bytes are
  -- the digits in base 64, of which the first that differs decides.
  split_ifs
  all_goals
    simp only [List.cons_append, List.nil_append]
    repeat refine ofNat_cons_lt (by omega) (by omega) fun _ => ?_
    omega

theorem flatMap_utf8EncodeChar_lt {cs ds : List Char} (h : cs < ds) :
    cs.flatMap String.utf8EncodeChar < ds.flatMap String.utf8EncodeChar := by
  induction ds generalizing cs with
  | nil => exact absurd h (List.not_lt_nil cs)
  | cons d ds ih =>
    rw [List.flatMap_cons]
    cases cs with
    | nil =>
      obtain ⟨b, bs, hd⟩ := List.exists_cons_of_ne_nil (String.utf8EncodeChar_ne_nil (c := d))
      rw [hd]
      exact List.nil_lt_cons b _
    | cons c cs =>
      rw [List.flatMap_cons]
      obtain hlt | ⟨rfl, htail⟩ := List.cons_lt_cons_iff.mp h
      · exact utf8EncodeChar_append_lt hlt _ _
      · exact List.append_left_lt (ih htail)

/-- The bytes of a text in UTF-8. -/
def utf8 (s : String) : List UInt8 := s.toByteArray.data.toList

theorem utf8_eq (s : String) : utf8 s = s.toList.flatMap String.utf8EncodeChar := by
  rw [utf8, ← String.utf8Encode_toList, List.utf8Encode, List.data_toByteArray]

theorem utf8_lt_utf8 {s t : String} (h : s < t) : utf8 s < utf8 t := by
  rw [utf8_eq, utf8_eq]
  exact flatMap_utf8EncodeChar_lt h

end FlatLisp
