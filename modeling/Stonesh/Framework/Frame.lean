import Stonesh.Framework.StringH

/-!
# The frame rule for blocks

What an access does to a block it does to that block inside a larger one, with the pointer moved
over the bytes in front; the surroundings have no influence on it and stay as they are. A run that
succeeds on a part of a block alone therefore touches nothing outside that part.
-/

namespace CLib

/-- What a call left of a block, put back between the bytes that surround it. -/
def Cut.placed (cut : Cut (Option Nat)) (pre post : List Byte) : Cut (Option Nat) :=
  ⟨cut.token.map (pre.length + ·), cut.cursor.map (pre.length + ·), pre ++ (cut.block ++ post)⟩

theorem Cut.placed_placed (cut : Cut (Option Nat)) (pre pre' post' post : List Byte) :
    (cut.placed pre' post').placed pre post = cut.placed (pre ++ pre') (post' ++ post) := by
  simp [Cut.placed, Function.comp_def, Nat.add_assoc]

section
variable {b b' : Block} {c : Byte} {p dst src n : Nat} {set : List Byte} {s : CString}
  (pre post : List Byte)

theorem load_eq_ok : load b p = .ok c ↔ b[p]? = some c := by
  rw [load]
  cases b[p]? <;> simp

theorem load_frame (h : load b p = .ok c) :
    load (pre ++ (b ++ post)) (pre.length + p) = .ok c := by
  rw [load_eq_ok] at h ⊢
  obtain ⟨hlt, -⟩ := List.getElem?_eq_some_iff.mp h
  rw [List.getElem?_append_right (Nat.le_add_right _ _), Nat.add_sub_cancel_left,
    List.getElem?_append_left hlt, h]

theorem store_eq_ok : store b p c = .ok b' ↔ p < b.length ∧ b.set p c = b' := by
  rw [store]
  split
  · next hlt => simp [hlt]
  · next hge => simp [hge]

theorem store_length (h : store b p c = .ok b') : b'.length = b.length := by
  rw [← (store_eq_ok.mp h).2, List.length_set]

theorem store_frame (h : store b p c = .ok b') :
    store (pre ++ (b ++ post)) (pre.length + p) c = .ok (pre ++ (b' ++ post)) := by
  rw [store_eq_ok] at h ⊢
  obtain ⟨hlt, rfl⟩ := h
  constructor
  · rw [List.length_append, List.length_append]
    omega
  · rw [List.set_append_right _ _ (Nat.le_add_right _ _), Nat.add_sub_cancel_left,
      List.set_append_left _ _ hlt]

theorem CString.ofList_append {l : List Byte} (h : 0 ∈ l) (post : List Byte) :
    CString.ofList (l ++ post) = CString.ofList l := by
  apply CString.ext
  show (l ++ post).takeWhile (· ≠ 0) = l.takeWhile (· ≠ 0)
  rw [List.takeWhile_append, if_neg]
  intro hlen
  have hall := (List.takeWhile_prefix (fun c : Byte => decide (c ≠ 0))).eq_of_length hlen
  apply not_mem_takeWhile_ne_zero l
  rw [hall]
  exact h

theorem str_eq_ok : str b p = .ok s ↔ 0 ∈ b.drop p ∧ CString.ofList (b.drop p) = s := by
  rw [str]
  split
  · next hmem => simp [hmem]
  · next hno => simp [hno]

theorem str_front {front : List Byte} (h : 0 ∈ front.drop p) :
    str (front ++ post) p = .ok (.ofList (front.drop p)) := by
  rw [str_eq_ok, List.drop_append]
  exact ⟨List.mem_append_left _ h, CString.ofList_append h _⟩

theorem str_frame (h : str b p = .ok s) : str (pre ++ (b ++ post)) (pre.length + p) = .ok s := by
  rw [str_eq_ok] at h ⊢
  obtain ⟨hmem, rfl⟩ := h
  have hle : p ≤ b.length := by
    by_contra hgt
    rw [List.drop_eq_nil_of_le (by omega)] at hmem
    exact List.not_mem_nil hmem
  rw [List.drop_length_add_append, List.drop_append_of_le_length hle]
  exact ⟨List.mem_append_left post hmem, CString.ofList_append hmem post⟩

theorem strlen_frame (h : strlen b p = .ok n) :
    strlen (pre ++ (b ++ post)) (pre.length + p) = .ok n := by
  obtain ⟨s, hs, hn⟩ := except_bind_eq_ok.mp h
  rw [strlen, str_frame pre post hs]
  exact hn

theorem strspn_frame (h : strspn b p set = .ok n) :
    strspn (pre ++ (b ++ post)) (pre.length + p) set = .ok n := by
  obtain ⟨s, hs, hn⟩ := except_bind_eq_ok.mp h
  rw [strspn, str_frame pre post hs]
  exact hn

theorem strcspn_frame (h : strcspn b p set = .ok n) :
    strcspn (pre ++ (b ++ post)) (pre.length + p) set = .ok n := by
  obtain ⟨s, hs, hn⟩ := except_bind_eq_ok.mp h
  rw [strcspn, str_frame pre post hs]
  exact hn

theorem strpbrk_frame {q : Option Nat} (h : strpbrk b p set = .ok q) :
    strpbrk (pre ++ (b ++ post)) (pre.length + p) set = .ok (q.map (pre.length + ·)) := by
  obtain ⟨n, hn, h⟩ := except_bind_eq_ok.mp h
  obtain ⟨c, hc, hq⟩ := except_bind_eq_ok.mp h
  rw [strpbrk, strcspn_frame pre post hn, except_ok_bind, Nat.add_assoc, load_frame pre post hc,
    except_ok_bind, ← Except.ok.inj hq]
  split <;> rfl

theorem memmove_eq_ok : memmove b dst src n = .ok b' ↔
    (src + n ≤ b.length ∧ dst + n ≤ b.length) ∧
      b.take dst ++ ((b.drop src).take n ++ b.drop (dst + n)) = b' := by
  rw [memmove]
  split
  · next hle => simp [hle]
  · next hno => simp [hno]

theorem memmove_length (h : memmove b dst src n = .ok b') : b'.length = b.length := by
  obtain ⟨⟨hsrc, hdst⟩, rfl⟩ := memmove_eq_ok.mp h
  simp only [List.length_append, List.length_take, List.length_drop]
  omega

theorem memmove_frame (h : memmove b dst src n = .ok b') :
    memmove (pre ++ (b ++ post)) (pre.length + dst) (pre.length + src) n =
      .ok (pre ++ (b' ++ post)) := by
  rw [memmove_eq_ok] at h ⊢
  obtain ⟨⟨hsrc, hdst⟩, rfl⟩ := h
  constructor
  · simp only [List.length_append]
    omega
  · rw [Nat.add_assoc, List.take_length_add_append, List.drop_length_add_append,
      List.drop_length_add_append,
      List.take_append_of_le_length (by omega : dst ≤ b.length),
      List.drop_append_of_le_length (by omega : src ≤ b.length),
      List.drop_append_of_le_length hdst,
      List.take_append_of_le_length (by rw [List.length_drop]; omega)]
    simp only [List.append_assoc]

end

end CLib
