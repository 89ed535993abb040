import Mathlib.Data.List.DropRight

/-!
# Blocks of memory and C strings

A block is the memory one C object occupies, a pointer into it is an offset, and every access
is checked: what a program would read or write outside the block is a fault. A C string is the
bytes from an offset to the first NUL. The lemmas describe a block as the bytes in front of the
pointer, the string the pointer addresses, its terminator and what lies behind it.
-/

namespace CLib

abbrev Byte := UInt8
abbrev Block := List Byte

/-- A statement about the bytes of a list is decided along the list, not over all 256 bytes. -/
instance (priority := high) decidableForallMem (p : Byte → Prop) [DecidablePred p] (l : List Byte) :
    Decidable (∀ c ∈ l, p c) := List.decidableBAll p l

/-- The bytes a string literal stands for. -/
def bytes (s : String) : List Byte := s.toList.map fun c => c.toNat.toUInt8

/-- What a C program must not do; a run that does it has no defined continuation. -/
inductive Fault
  | outOfBounds
  | nullArgument
  | invalidFree
  | useAfterFree
  | indeterminate
  deriving DecidableEq, Repr

abbrev Checked (α : Type) := Except Fault α

section
variable {ε α β : Type}

@[simp] theorem except_pure (a : α) : (pure a : Except ε α) = .ok a := rfl

@[simp] theorem except_throw (e : ε) : (throw e : Except ε α) = .error e := rfl

@[simp] theorem except_ok_bind (a : α) (f : α → Except ε β) :
    ((.ok a : Except ε α) >>= f) = f a := rfl

@[simp] theorem except_error_bind (e : ε) (f : α → Except ε β) :
    ((.error e : Except ε α) >>= f) = .error e := rfl

@[simp] theorem except_ok_map (a : α) (f : α → β) :
    (f <$> (.ok a : Except ε α)) = .ok (f a) := rfl

@[simp] theorem except_error_map (e : ε) (f : α → β) :
    (f <$> (.error e : Except ε α)) = .error e := rfl

theorem except_bind_eq_ok {x : Except ε α} {f : α → Except ε β} {b : β} :
    (x >>= f) = .ok b ↔ ∃ a, x = .ok a ∧ f a = .ok b := by
  cases x with
  | error e => simp
  | ok a => simp

theorem except_bind_eq_error {x : Except ε α} {f : α → Except ε β} {e : ε} :
    (x >>= f) = .error e ↔ x = .error e ∨ ∃ a, x = .ok a ∧ f a = .error e := by
  cases x with
  | error e' => simp
  | ok a => simp

/-- Every error of the computation satisfies `P`. -/
def Raises (P : ε → Prop) (x : Except ε α) : Prop := ∀ e, x = .error e → P e

theorem raises_ok {P : ε → Prop} (a : α) : Raises P (.ok a : Except ε α) := by
  intro e he
  simp at he

theorem raises_error {P : ε → Prop} {e : ε} (h : P e) : Raises P (.error e : Except ε α) := by
  rintro e' ⟨⟩
  exact h

theorem Raises.bind {P : ε → Prop} {x : Except ε α} {f : α → Except ε β} (hx : Raises P x)
    (hf : ∀ a, Raises P (f a)) : Raises P (x >>= f) := by
  cases x with
  | error e => exact raises_error (hx e rfl)
  | ok a => exact hf a

/-- What `x` returns `y` returns as well. -/
def Grows (x y : Except ε α) : Prop := ∀ a, x = .ok a → y = .ok a

theorem grows_refl (x : Except ε α) : Grows x x := fun _ h => h

theorem grows_error (e : ε) (y : Except ε α) : Grows (.error e) y := by
  rintro a ⟨⟩

theorem Grows.bind {x y : Except ε α} {f g : α → Except ε β} (hx : Grows x y)
    (hf : ∀ a, Grows (f a) (g a)) : Grows (x >>= f) (y >>= g) := by
  intro b hb
  obtain ⟨a, ha, hb⟩ := except_bind_eq_ok.mp hb
  exact except_bind_eq_ok.mpr ⟨a, hx a ha, hf a b hb⟩

end

/-- A string as C passes it about: bytes without a NUL. -/
@[ext] structure CString where
  bytes : List Byte
  noNul : 0 ∉ bytes
  deriving DecidableEq

theorem not_mem_takeWhile_ne_zero (l : List Byte) : 0 ∉ l.takeWhile (· ≠ 0) := by
  intro h
  simpa using List.mem_takeWhile_imp h

/-- The C string a run of bytes begins with. -/
def CString.ofList (l : List Byte) : CString := ⟨l.takeWhile (· ≠ 0), not_mem_takeWhile_ne_zero l⟩

/-- The string constant a literal stands for. -/
def CString.lit (s : String) : CString := .ofList (CLib.bytes s)

theorem forall_ne_of_not_mem {l : List Byte} {d : Byte} (h : d ∉ l) : ∀ c ∈ l, c ≠ d :=
  fun _ hc he => h (he ▸ hc)

theorem takeWhile_ne_of_not_mem {l : List Byte} {d : Byte} (h : d ∉ l) : l.takeWhile (· ≠ d) = l :=
  List.takeWhile_eq_self_iff.mpr (by simpa using forall_ne_of_not_mem h)

theorem CString.ofList_bytes {l : List Byte} (h : 0 ∉ l) : (ofList l).bytes = l :=
  takeWhile_ne_of_not_mem h

/-- The block a string literal or a freshly duplicated string occupies. -/
def CString.block (s : CString) : Block := s.bytes ++ [0]

abbrev Block.size (b : Block) : Nat := b.length

def load (b : Block) (p : Nat) : Checked Byte :=
  match b[p]? with
  | some c => .ok c
  | none => .error .outOfBounds

def store (b : Block) (p : Nat) (c : Byte) : Checked Block :=
  if p < b.length then .ok (b.set p c) else .error .outOfBounds

def str (b : Block) (p : Nat) : Checked CString :=
  if 0 ∈ b.drop p then .ok (.ofList (b.drop p)) else .error .outOfBounds

def strlen (b : Block) (p : Nat) : Checked Nat := do
  let s ← str b p
  pure s.bytes.length

/-- Copying inside one block; the ranges may overlap. -/
def memmove (b : Block) (dst src n : Nat) : Checked Block :=
  if src + n ≤ b.length ∧ dst + n ≤ b.length then
    .ok (b.take dst ++ ((b.drop src).take n ++ b.drop (dst + n)))
  else .error .outOfBounds

section
variable {pre s post : List Byte} {c d : Byte} {p n : Nat}

@[simp] theorem load_at : load (pre ++ c :: post) pre.length = .ok c := by simp [load]

theorem load_at' (h : p = pre.length) : load (pre ++ c :: post) p = .ok c := by simp [h]

@[simp] theorem store_at : store (pre ++ c :: post) pre.length d = .ok (pre ++ d :: post) := by
  simp [store]

theorem store_at' (h : p = pre.length) : store (pre ++ c :: post) p d = .ok (pre ++ d :: post) := by
  simp [h]

theorem str_at (h : p = pre.length) (hs : 0 ∉ s) :
    str (pre ++ (s ++ 0 :: post)) p = .ok (.ofList s) := by
  subst h
  have hb : CString.ofList (s ++ 0 :: post) = CString.ofList s := by
    apply CString.ext
    rw [CString.ofList_bytes hs]
    change (s ++ 0 :: post).takeWhile (· ≠ 0) = s
    rw [List.takeWhile_append_of_pos]
    · simp
    · intro a ha
      have hne : a ≠ 0 := fun he => hs (he ▸ ha)
      simpa using hne
  simp [str, hb]

theorem strlen_at (h : p = pre.length) (hs : 0 ∉ s) :
    strlen (pre ++ (s ++ 0 :: post)) p = .ok s.length := by
  simp [strlen, str_at h hs, CString.ofList_bytes hs]

theorem str_start (post : List Byte) (hs : 0 ∉ s) : str (s ++ 0 :: post) 0 = .ok (.ofList s) :=
  @str_at [] s post 0 rfl hs

theorem strlen_start (post : List Byte) (hs : 0 ∉ s) : strlen (s ++ 0 :: post) 0 = .ok s.length :=
  @strlen_at [] s post 0 rfl hs

theorem terminated_split (l : List Byte) : ∃ post, l ++ [0] = l.takeWhile (· ≠ 0) ++ 0 :: post := by
  induction l with
  | nil => exact ⟨[], rfl⟩
  | cons c l ih =>
    by_cases hc : c = 0
    · exact ⟨l ++ [0], by simp [hc]⟩
    · obtain ⟨post, hpost⟩ := ih
      refine ⟨post, ?_⟩
      rw [List.cons_append, hpost]
      simp [hc]

theorem memmove_down (pre s post mid : List Byte) (h : p = pre.length) (hm : n = p + mid.length) {k : Nat}
    (hk : k = s.length) :
    memmove (pre ++ (mid ++ (s ++ post))) p n k =
      .ok (pre ++ (s ++ (mid ++ (s ++ post)).drop s.length)) := by
  subst hk hm h
  have hlen : pre.length + mid.length + s.length ≤ (pre ++ (mid ++ (s ++ post))).length := by
    simp only [List.length_append]
    omega
  unfold memmove
  rw [if_pos ⟨hlen, by omega⟩]
  simp only [List.take_left', ← List.drop_drop, List.drop_left']

end

end CLib
