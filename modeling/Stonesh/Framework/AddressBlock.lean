import Mathlib.Data.List.Induction
import Mathlib.Tactic.Ring

/-!
# Blocks of network addresses

An address is a list of octets, most significant first. A block is a network address with the
number of leading bits that its members share with it. Membership is a statement about the two
numbers the octets spell; the lemmas say what it means for the octets themselves.
-/

namespace AddressBlock

/-- The number a list of octets spells in network order. -/
def value (octets : List UInt8) : Nat :=
  octets.foldl (fun acc o => acc * 256 + o.toNat) 0

theorem value_append_singleton (l : List UInt8) (o : UInt8) :
    value (l ++ [o]) = value l * 256 + o.toNat := by
  simp [value, List.foldl_append]

theorem value_append (l t : List UInt8) : value (l ++ t) = value l * 256 ^ t.length + value t := by
  induction t using List.reverseRecOn with
  | nil => simp [value]
  | append_singleton t o ih =>
    rw [← List.append_assoc, value_append_singleton, ih, value_append_singleton,
      List.length_append, List.length_singleton, pow_succ]
    ring

theorem value_lt (l : List UInt8) : value l < 256 ^ l.length := by
  induction l using List.reverseRecOn with
  | nil => exact Nat.one_pos
  | append_singleton l o ih =>
    have ho : o.toNat < 256 := o.toNat_lt
    rw [value_append_singleton, List.length_append, List.length_singleton, pow_succ]
    omega

theorem value_inj {l m : List UInt8} (hlen : l.length = m.length) (h : value l = value m) :
    l = m := by
  induction l using List.reverseRecOn generalizing m with
  | nil => exact (List.length_eq_zero_iff.mp hlen.symm).symm
  | append_singleton l o ih =>
    rcases List.eq_nil_or_concat m with rfl | ⟨m, p, rfl⟩
    · simp at hlen
    · rw [List.concat_eq_append, value_append_singleton, value_append_singleton] at *
      have ho : o.toNat < 256 := o.toNat_lt
      have hp : p.toNat < 256 := p.toNat_lt
      have hlast : o = p := UInt8.toNat_inj.mp (by omega)
      have hinit : l = m := ih (by simpa using hlen) (by omega)
      rw [hinit, hlast]

end AddressBlock

/-- A network and the number of bits its members share with it. -/
structure AddressBlock where
  network : List UInt8
  bits : Nat
  bits_le : bits ≤ 8 * network.length

namespace AddressBlock

def Contains (k : AddressBlock) (address : List UInt8) : Prop :=
  address.length = k.network.length ∧
    value address / 2 ^ (8 * k.network.length - k.bits) =
      value k.network / 2 ^ (8 * k.network.length - k.bits)

instance (k : AddressBlock) (address : List UInt8) : Decidable (k.Contains address) :=
  inferInstanceAs (Decidable (_ ∧ _))

theorem value_shift (front : List UInt8) (o : UInt8) (rest : List UInt8) {r : Nat} (hr : r ≤ 8) :
    value (front ++ o :: rest) / 2 ^ (8 * rest.length + (8 - r)) =
      value front * 2 ^ r + o.toNat / 2 ^ (8 - r) := by
  have hsplit : value (front ++ o :: rest) =
      (value front * 256 + o.toNat) * 256 ^ rest.length + value rest := by
    rw [← value_append_singleton, ← value_append, List.append_assoc, List.singleton_append]
  have h256 : (256 : Nat) ^ rest.length = 2 ^ (8 * rest.length) := by
    rw [pow_mul]
    rfl
  have hunit : (256 : Nat) = 2 ^ r * 2 ^ (8 - r) := by
    rw [← pow_add, Nat.add_sub_cancel' hr]
    rfl
  have hrest : value rest < 2 ^ (8 * rest.length) := h256 ▸ value_lt rest
  calc value (front ++ o :: rest) / 2 ^ (8 * rest.length + (8 - r))
      = (value front * 256 + o.toNat) / 2 ^ (8 - r) := by
        rw [hsplit, h256, pow_add, ← Nat.div_div_eq_div_mul, Nat.mul_comm _ (2 ^ (8 * rest.length)),
          Nat.mul_add_div (Nat.two_pow_pos _), Nat.div_eq_of_lt hrest, Nat.add_zero]
    _ = (2 ^ (8 - r) * (value front * 2 ^ r) + o.toNat) / 2 ^ (8 - r) := by
        rw [hunit]
        congr 2
        ring
    _ = value front * 2 ^ r + o.toNat / 2 ^ (8 - r) := Nat.mul_add_div (Nat.two_pow_pos _) _ _

/-- Membership octet by octet: the octets in front of the last shared bit are those of the
network, and the octet it lies in has the leading bits of the network's. -/
theorem contains_iff (front rest front' rest' : List UInt8) {n o : UInt8} {r : Nat} (hr : r ≤ 8)
    (hbits : 8 * front.length + r ≤ 8 * (front ++ n :: rest).length)
    (hfront : front'.length = front.length) (hrest : rest'.length = rest.length) :
    (AddressBlock.mk (front ++ n :: rest) (8 * front.length + r) hbits).Contains
        (front' ++ o :: rest') ↔
      front' = front ∧ o.toNat / 2 ^ (8 - r) = n.toNat / 2 ^ (8 - r) := by
  have hshift : 8 * (front ++ n :: rest).length - (8 * front.length + r) =
      8 * rest.length + (8 - r) := by
    rw [List.length_append, List.length_cons]
    omega
  have hlen : (front' ++ o :: rest').length = (front ++ n :: rest).length := by
    rw [List.length_append, List.length_append, List.length_cons, List.length_cons, hfront, hrest]
  have hbound (x : UInt8) : x.toNat / 2 ^ (8 - r) < 2 ^ r := by
    apply Nat.div_lt_of_lt_mul
    rw [← pow_add, Nat.sub_add_cancel hr]
    exact x.toNat_lt
  show (_ ∧ _) ↔ _
  dsimp only
  rw [hshift, value_shift front n rest hr, ← hrest, value_shift front' o rest' hr]
  constructor
  · rintro ⟨-, h⟩
    have hmod := congrArg (· % 2 ^ r) h
    simp only [Nat.mul_add_mod_self_right, Nat.mod_eq_of_lt (hbound _)] at hmod
    rw [hmod] at h
    have hvalue := Nat.eq_of_mul_eq_mul_right (Nat.two_pow_pos r) (Nat.add_right_cancel h)
    exact ⟨value_inj hfront hvalue, hmod⟩
  · rintro ⟨rfl, h⟩
    exact ⟨hlen, by rw [h]⟩

theorem contains_iff_octets (front rest front' rest' : List UInt8) {n o : UInt8}
    (hbits : 8 * front.length + 8 ≤ 8 * (front ++ n :: rest).length)
    (hfront : front'.length = front.length) (hrest : rest'.length = rest.length) :
    (AddressBlock.mk (front ++ n :: rest) (8 * front.length + 8) hbits).Contains
        (front' ++ o :: rest') ↔ front' = front ∧ o = n := by
  rw [contains_iff front rest front' rest' (Nat.le_refl 8) hbits hfront hrest]
  simp only [Nat.sub_self, pow_zero, Nat.div_one, UInt8.toNat_inj]

end AddressBlock
