import Stonesh.Framework.Block

/-!
# Buffers filled from the front

A buffer that has been set to zero and is then written from its beginning holds a string and zeros
behind it. Copying into it and appending to it keep this shape as long as there is room for the
string and its terminator, and the check of the bounds fails where there is not.
-/

namespace CLib

/-- The string at the beginning of a buffer of this size, with zeros behind it. -/
def filled (text : List Byte) (size : Nat) : Block := text ++ List.replicate (size - text.length) 0

def strncpyFrom (b : Block) (dst : Nat) (src : CString) (n : Nat) : Checked Block :=
  let copied := src.bytes.take n
  if dst + n ≤ b.length then
    .ok (b.take dst ++ (copied ++ (List.replicate (n - copied.length) 0 ++ b.drop (dst + n))))
  else .error .outOfBounds

/-- `strncat` appends at most `n` bytes to the string at an offset, and always a NUL. -/
def strncat (b : Block) (dst : Nat) (src : CString) (n : Nat) : Checked Block := do
  let len ← strlen b dst
  let copied := src.bytes.take n
  if dst + len + copied.length < b.length then
    pure (b.take (dst + len) ++ (copied ++ 0 :: b.drop (dst + len + copied.length + 1)))
  else throw .outOfBounds

section
variable {text : List Byte} {size : Nat} {s : CString}

theorem filled_nil (size : Nat) : filled [] size = List.replicate size 0 := rfl

theorem filled_eq (hfit : text.length < size) :
    filled text size = text ++ 0 :: List.replicate (size - text.length - 1) 0 := by
  obtain ⟨k, hk⟩ : ∃ k, size - text.length = k + 1 := ⟨size - text.length - 1, by omega⟩
  rw [filled, hk, List.replicate_succ, Nat.add_sub_cancel]

theorem filled_length (hfit : text.length ≤ size) : (filled text size).length = size := by
  rw [filled, List.length_append, List.length_replicate]
  omega

theorem str_filled (h0 : 0 ∉ text) (hfit : text.length < size) :
    str (filled text size) 0 = .ok (.ofList text) := by
  rw [filled_eq hfit]
  exact str_start _ h0

private theorem filled_drop (text : List Byte) (size n : Nat) :
    (filled text size).drop (text.length + n) = List.replicate (size - (text.length + n)) 0 := by
  rw [filled, List.drop_length_add_append, List.drop_replicate, Nat.sub_sub]

theorem strncpyFrom_filled (hfit : s.bytes.length ≤ size) :
    strncpyFrom (filled [] size) 0 s s.bytes.length = .ok (filled s.bytes size) := by
  have hle : 0 + s.bytes.length ≤ (filled [] size).length := by
    rw [filled_length (Nat.zero_le size), Nat.zero_add]
    exact hfit
  have hdrop := filled_drop [] size s.bytes.length
  simp only [List.length_nil] at hdrop
  rw [strncpyFrom, if_pos hle, List.take_length, hdrop, Nat.sub_self, filled, Nat.zero_add]
  rfl

theorem strncat_filled (h0 : 0 ∉ text) (hfit : text.length + s.bytes.length < size) :
    strncat (filled text size) 0 s s.bytes.length = .ok (filled (text ++ s.bytes) size) := by
  have hlen : strlen (filled text size) 0 = .ok text.length := by
    rw [filled_eq (by omega)]
    exact strlen_start _ h0
  have hroom : 0 + text.length + s.bytes.length < (filled text size).length := by
    rw [filled_length (by omega), Nat.zero_add]
    exact hfit
  have htake : (filled text size).take text.length = text := List.take_left' rfl
  have hdrop := filled_drop text size (s.bytes.length + 1)
  have hlong : (text ++ s.bytes).length < size := by
    rw [List.length_append]
    exact hfit
  have hcount : size - (text ++ s.bytes).length - 1 = size - (text.length + (s.bytes.length + 1)) := by
    rw [List.length_append]
    omega
  rw [strncat, hlen, except_ok_bind, List.take_length, if_pos hroom, Nat.zero_add, htake, Nat.add_assoc,
    hdrop, filled_eq hlong, hcount, List.append_assoc]
  rfl

end

end CLib
