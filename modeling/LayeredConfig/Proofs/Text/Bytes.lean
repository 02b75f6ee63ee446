import LayeredConfig.Text.Basic
import Mathlib.Data.List.Basic

/-!
# Texts as bytes

A text in UTF-8, and what stands between two byte positions of it. Such a part exists only if both
positions lie on boundaries of characters.
-/
namespace LayeredConfig.Text

theorem byteLength_append (s r : Text) : byteLength (s ++ r) = byteLength s + byteLength r := by
  induction s with
  | nil => rw [List.nil_append, byteLength, Nat.zero_add]
  | cons c s ih => rw [List.cons_append, byteLength, byteLength, ih, Nat.add_assoc]

theorem byteLength_cons_pos (c : Char) (s : Text) : 0 < byteLength (c :: s) :=
  Nat.add_pos_left c.utf8Size_pos _

/-- The bytes of a text in UTF-8. -/
def bytes (s : Text) : List UInt8 := s.flatMap String.utf8EncodeChar

theorem bytes_cons (c : Char) (s : Text) : bytes (c :: s) = String.utf8EncodeChar c ++ bytes s :=
  rfl

theorem bytes_append (s r : Text) : bytes (s ++ r) = bytes s ++ bytes r := List.flatMap_append

theorem length_bytes (s : Text) : (bytes s).length = byteLength s := by
  induction s with
  | nil => rfl
  | cons c s ih => rw [bytes_cons, List.length_append, ih, String.length_utf8EncodeChar, byteLength]

/-- The bytes of a text from the end of a beginning on. -/
theorem drop_bytes_append (s r : Text) : (bytes (s ++ r)).drop (byteLength s) = bytes r := by
  rw [bytes_append]
  exact List.drop_left' (length_bytes s)

/-- A byte below 128 stands only for the character with that code. -/
theorem toNat_eq_of_mem_utf8EncodeChar {c : Char} {b : UInt8} (h : b ∈ String.utf8EncodeChar c)
    (hb : b.toNat < 128) : c.toNat = b.toNat := by
  have hc : c.toNat = c.val.toNat := rfl
  rw [String.utf8EncodeChar] at h
  split_ifs at h <;> simp only [List.mem_cons, List.not_mem_nil, or_false] at h
  · subst h
    rw [UInt8.toNat_ofNat', hc]
    omega
  all_goals
    rcases h with rfl | rfl | rfl | rfl <;> rw [UInt8.toNat_ofNat'] at hb <;> omega

/-- The parts of a text before and after a byte position, if a character begins or the text ends
there. -/
def splitAt? : Text → Nat → Option (Text × Text)
  | s, 0 => some ([], s)
  | [], _ + 1 => none
  | c :: s, n + 1 =>
    if c.utf8Size ≤ n + 1 then
      (splitAt? s (n + 1 - c.utf8Size)).map fun p => (c :: p.1, p.2)
    else none

/-- What stands between two byte positions of a text. -/
def slice? (s : Text) (a b : Nat) : Option Text :=
  if a ≤ b then (splitAt? s a).bind fun p => (splitAt? p.2 (b - a)).map Prod.fst else none

theorem splitAt?_append (s r : Text) : splitAt? (s ++ r) (byteLength s) = some (s, r) := by
  induction s with
  | nil => rw [List.nil_append, byteLength, splitAt?]
  | cons c s ih =>
    obtain ⟨n, hn⟩ : ∃ n, byteLength (c :: s) = n + 1 :=
      Nat.exists_eq_add_one.2 (byteLength_cons_pos c s)
    have hle : c.utf8Size ≤ n + 1 := hn ▸ Nat.le_add_right _ _
    have hsub : n + 1 - c.utf8Size = byteLength s := by
      rw [← hn, byteLength, Nat.add_sub_cancel_left]
    rw [hn, List.cons_append, splitAt?, if_pos hle, hsub, ih, Option.map_some]

/-- A part of a text stands between its byte positions. -/
theorem slice?_append (front part r : Text) :
    slice? (front ++ (part ++ r)) (byteLength front) (byteLength front + byteLength part) =
      some part := by
  rw [slice?, if_pos (Nat.le_add_right _ _), splitAt?_append, Nat.add_sub_cancel_left,
    Option.bind_some, splitAt?_append, Option.map_some]

end LayeredConfig.Text
