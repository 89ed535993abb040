import Stonesh.Geoip
import Stonesh.Framework.AddressBlock

/-!
# Loopback and private addresses

The four predicates of the address of a client, compared with the blocks of addresses their
comments name. Three of them work on every machine. The masks of `is_private` are constants of a
machine that stores the first octet of an address at the low end; on any other machine the
function answers 0 to every address.
-/

namespace Stonesh

open CLib

def InAddr.octets (ip : InAddr) : List Byte := [ip.a, ip.b, ip.c, ip.d]

/-- 127.0.0.0/8 -/
def loopbackBlock : AddressBlock := ⟨[127, 0, 0, 0], 8, by decide⟩

/-- 10.0.0.0/8, 172.16.0.0/12 and 192.168.0.0/16 -/
def privateBlocks : List AddressBlock :=
  [⟨[10, 0, 0, 0], 8, by decide⟩, ⟨[172, 16, 0, 0], 12, by decide⟩,
    ⟨[192, 168, 0, 0], 16, by decide⟩]

/-- fc00::/7 -/
def uniqueLocalBlock : AddressBlock := ⟨0xFC :: List.replicate 15 0, 7, by decide⟩

def loopback6 : List Byte := List.replicate 15 0 ++ [1]

def InAddr.Private (ip : InAddr) : Prop := ∃ k ∈ privateBlocks, k.Contains ip.octets

instance (ip : InAddr) : Decidable ip.Private :=
  inferInstanceAs (Decidable (∃ k ∈ privateBlocks, k.Contains ip.octets))

theorem loopbackBlock_contains (ip : InAddr) :
    loopbackBlock.Contains ip.octets ↔ ip.a = 127 := by
  have h := AddressBlock.contains_iff_octets [] [0, 0, 0] [] [ip.b, ip.c, ip.d] (n := 127) (o := ip.a)
    (by decide) rfl rfl
  exact h.trans (and_iff_right rfl)

theorem InAddr.private_iff (ip : InAddr) :
    ip.Private ↔ ip.a = 10 ∨ (ip.a = 172 ∧ ip.b.toNat / 16 = 1) ∨ (ip.a = 192 ∧ ip.b = 168) := by
  have hten := AddressBlock.contains_iff_octets [] [0, 0, 0] [] [ip.b, ip.c, ip.d] (n := 10) (o := ip.a)
    (by decide) rfl rfl
  have htwelve := AddressBlock.contains_iff [172] [0, 0] [ip.a] [ip.c, ip.d] (n := 16) (o := ip.b)
    (r := 4) (by decide) (by decide) rfl rfl
  have hsixteen := AddressBlock.contains_iff_octets [192] [0, 0] [ip.a] [ip.c, ip.d] (n := 168)
    (o := ip.b) (by decide) rfl rfl
  show (∃ k ∈ privateBlocks, k.Contains ip.octets) ↔ _
  simp only [privateBlocks, List.mem_cons, List.not_mem_nil, or_false, exists_eq_or_imp,
    exists_eq_left]
  apply or_congr
  · exact hten.trans (and_iff_right rfl)
  apply or_congr
  · exact htwelve.trans (and_congr_left' (List.singleton_inj))
  · exact hsixteen.trans (and_congr_left' (List.singleton_inj))

theorem uniqueLocalBlock_contains (o : Byte) {rest : List Byte} (hrest : rest.length = 15) :
    uniqueLocalBlock.Contains (o :: rest) ↔ o = 0xFC ∨ o = 0xFD := by
  have h := AddressBlock.contains_iff [] (List.replicate 15 0) [] rest (n := 0xFC) (o := o) (r := 7)
    (by decide) (by decide) rfl (by rw [hrest, List.length_replicate])
  have hpair : o.toNat / 2 = 126 ↔ o = 0xFC ∨ o = 0xFD := by
    rw [← UInt8.toNat_inj, ← UInt8.toNat_inj]
    show _ ↔ o.toNat = 252 ∨ o.toNat = 253
    omega
  rw [← hpair]
  exact h.trans (and_iff_right rfl)

private theorem append_inj {m n : Nat} {x x' : BitVec m} {y y' : BitVec n} :
    x ++ y = x' ++ y' ↔ x = x' ∧ y = y' := by
  constructor
  · intro h
    have hhigh := congrArg (BitVec.extractLsb' n m) h
    have hlow := congrArg (BitVec.extractLsb' 0 n) h
    simp only [BitVec.extractLsb'_append_eq_left, BitVec.extractLsb'_append_eq_right] at hhigh hlow
    exact ⟨hhigh, hlow⟩
  · rintro ⟨rfl, rfl⟩
    rfl

private theorem octets_mask {a b c d a' b' c' d' a'' b'' c'' d'' : BitVec 8} :
    (a ++ b ++ c ++ d) &&& (a' ++ b' ++ c' ++ d') = a'' ++ b'' ++ c'' ++ d'' ↔
      a &&& a' = a'' ∧ b &&& b' = b'' ∧ c &&& c' = c'' ∧ d &&& d' = d'' := by
  rw [BitVec.and_append, BitVec.and_append, BitVec.and_append, append_inj, append_inj, append_inj,
    and_assoc, and_assoc]

private theorem octet_full (o n : Byte) : o.toBitVec &&& 0xFF#8 = n.toBitVec ↔ o = n := by
  rw [show (0xFF#8) = BitVec.allOnes 8 from rfl, BitVec.and_allOnes, UInt8.toBitVec_inj]

private theorem octet_high (o : Byte) : o.toBitVec &&& 0xF0#8 = 0x10#8 ↔ o.toNat / 16 = 1 := by
  have hall : ∀ n : Fin 256, BitVec.ofFin n &&& 0xF0#8 = 0x10#8 ↔ n.val / 16 = 1 := by
    decide +kernel
  exact hall o.toBitVec.toFin

theorem isLocal_mask (order : ByteOrder) (ip : InAddr) :
    ip.sAddr order &&& htonl order 0xFF000000 = htonl order 0x7F000000 ↔ ip.a = 127 := by
  cases order with
  | littleEndian =>
    show (_ ++ _ ++ _ ++ _) &&& (0#8 ++ 0#8 ++ 0#8 ++ 0xFF#8) = 0#8 ++ 0#8 ++ 0#8 ++ 0x7F#8 ↔ _
    rw [octets_mask, show (0x7F#8) = (127 : Byte).toBitVec from rfl, octet_full]
    simp
  | bigEndian =>
    show (_ ++ _ ++ _ ++ _) &&& (0xFF#8 ++ 0#8 ++ 0#8 ++ 0#8) = 0x7F#8 ++ 0#8 ++ 0#8 ++ 0#8 ↔ _
    rw [octets_mask, show (0x7F#8) = (127 : Byte).toBitVec from rfl, octet_full]
    simp

/-- The three tests of `is_private`: on a little-endian machine they are about the first octets,
on the other kind they compare the last octets with zero and never succeed. -/
theorem isPrivate_mask (order : ByteOrder) (ip : InAddr) :
    (ip.sAddr order &&& 0x000000FF = htonl order 0x0A000000 ∨
        ip.sAddr order &&& 0x0000FFFF = htonl order 0xC0A80000 ∨
        ip.sAddr order &&& 0x0000F0FF = htonl order 0xAC100000) ↔
      order = .littleEndian ∧ ip.Private := by
  rw [ip.private_iff]
  cases order with
  | littleEndian =>
    have hten : ip.sAddr .littleEndian &&& 0x000000FF = htonl .littleEndian 0x0A000000 ↔
        ip.a = 10 := by
      show (_ ++ _ ++ _ ++ _) &&& (0#8 ++ 0#8 ++ 0#8 ++ 0xFF#8) = 0#8 ++ 0#8 ++ 0#8 ++ 0x0A#8 ↔ _
      rw [octets_mask, show (0x0A#8) = (10 : Byte).toBitVec from rfl, octet_full]
      simp
    have hsixteen : ip.sAddr .littleEndian &&& 0x0000FFFF = htonl .littleEndian 0xC0A80000 ↔
        ip.a = 192 ∧ ip.b = 168 := by
      show (_ ++ _ ++ _ ++ _) &&& (0#8 ++ 0#8 ++ 0xFF#8 ++ 0xFF#8) =
        0#8 ++ 0#8 ++ 0xA8#8 ++ 0xC0#8 ↔ _
      rw [octets_mask, show (0xA8#8) = (168 : Byte).toBitVec from rfl,
        show (0xC0#8) = (192 : Byte).toBitVec from rfl, octet_full, octet_full]
      simp [and_comm]
    have htwelve : ip.sAddr .littleEndian &&& 0x0000F0FF = htonl .littleEndian 0xAC100000 ↔
        ip.a = 172 ∧ ip.b.toNat / 16 = 1 := by
      show (_ ++ _ ++ _ ++ _) &&& (0#8 ++ 0#8 ++ 0xF0#8 ++ 0xFF#8) =
        0#8 ++ 0#8 ++ 0x10#8 ++ 0xAC#8 ↔ _
      rw [octets_mask, show (0xAC#8) = (172 : Byte).toBitVec from rfl, octet_full, octet_high]
      simp [and_comm]
    rw [hten, hsixteen, htwelve, or_congr_right or_comm]
    exact (and_iff_right rfl).symm
  | bigEndian =>
    have hten : ip.sAddr .bigEndian &&& 0x000000FF ≠ htonl .bigEndian 0x0A000000 := by
      show (_ ++ _ ++ _ ++ _) &&& (0#8 ++ 0#8 ++ 0#8 ++ 0xFF#8) ≠ 0x0A#8 ++ 0#8 ++ 0#8 ++ 0#8
      rw [Ne, octets_mask]
      simp
    have hsixteen : ip.sAddr .bigEndian &&& 0x0000FFFF ≠ htonl .bigEndian 0xC0A80000 := by
      show (_ ++ _ ++ _ ++ _) &&& (0#8 ++ 0#8 ++ 0xFF#8 ++ 0xFF#8) ≠ 0xC0#8 ++ 0xA8#8 ++ 0#8 ++ 0#8
      rw [Ne, octets_mask]
      simp
    have htwelve : ip.sAddr .bigEndian &&& 0x0000F0FF ≠ htonl .bigEndian 0xAC100000 := by
      show (_ ++ _ ++ _ ++ _) &&& (0#8 ++ 0#8 ++ 0xF0#8 ++ 0xFF#8) ≠ 0xAC#8 ++ 0x10#8 ++ 0#8 ++ 0#8
      rw [Ne, octets_mask]
      simp
    constructor
    · rintro (h | h | h)
      · exact absurd h hten
      · exact absurd h hsixteen
      · exact absurd h htwelve
    · rintro ⟨h, -⟩
      cases h

/-- What the comments of the four predicates say of one address. -/
structure Classified (lib : GeoLib) (address : CString) : Prop where
  loopback : ∀ ip, lib.inetPton address = .parsed ip →
    (isLocal lib address = 1 ↔ loopbackBlock.Contains ip.octets)
  priv : ∀ ip, lib.inetPton address = .parsed ip → (isPrivate lib address = 1 ↔ ip.Private)
  loopback6 : ∀ ip, lib.inetPton6 address = .parsed ip →
    (isLocal6 lib address = 1 ↔ ip = loopback6)
  priv6 : ∀ ip, ip.length = 16 → lib.inetPton6 address = .parsed ip →
    (isPrivate6 lib address = 1 ↔ uniqueLocalBlock.Contains ip)
  rejected : lib.inetPton address = .malformed → isLocal lib address = 0 ∧ isPrivate lib address = 0
  rejected6 : lib.inetPton6 address = .malformed →
    isLocal6 lib address = 0 ∧ isPrivate6 lib address = 0

private theorem ite_eq_one (p : Prop) [Decidable p] : (if p then (1 : Int) else 0) = 1 ↔ p := by
  split <;> simp_all

section
variable {lib : GeoLib} {address : CString}

theorem isLocal_eq_one {ip : InAddr} (h : lib.inetPton address = .parsed ip) :
    isLocal lib address = 1 ↔ loopbackBlock.Contains ip.octets := by
  rw [loopbackBlock_contains, ← isLocal_mask lib.order, isLocal, h]
  exact ite_eq_one _

theorem isPrivate_eq_one {ip : InAddr} (h : lib.inetPton address = .parsed ip) :
    isPrivate lib address = 1 ↔ lib.order = .littleEndian ∧ ip.Private := by
  rw [← isPrivate_mask lib.order, isPrivate, h]
  exact ite_eq_one _

theorem isLocal6_eq_one (hlib : lib.inetPton6 (.lit "::1") = .parsed loopback6) {ip : List Byte}
    (h : lib.inetPton6 address = .parsed ip) : isLocal6 lib address = 1 ↔ ip = loopback6 := by
  rw [isLocal6, h, hlib]
  exact ite_eq_one _

theorem isPrivate6_eq_one {ip : List Byte} (hlen : ip.length = 16)
    (h : lib.inetPton6 address = .parsed ip) :
    isPrivate6 lib address = 1 ↔ uniqueLocalBlock.Contains ip := by
  cases ip with
  | nil => simp at hlen
  | cons o rest =>
    rw [uniqueLocalBlock_contains o (Nat.succ.inj hlen), isPrivate6, h]
    exact ite_eq_one _

/-- Three of the predicates do what their comments say on every machine. The fourth does on a
little-endian machine; on a big-endian one it misses every private address. -/
theorem classified_iff (hlib : lib.inetPton6 (.lit "::1") = .parsed loopback6) :
    Classified lib address ↔
      lib.order = .littleEndian ∨ ∀ ip, lib.inetPton address = .parsed ip → ¬ ip.Private := by
  constructor
  · intro h
    by_contra hno
    push Not at hno
    obtain ⟨horder, ip, hip, hpriv⟩ := hno
    have hone := (h.priv ip hip).mpr hpriv
    exact horder ((isPrivate_eq_one hip).mp hone).1
  · intro h
    apply Classified.mk
    · exact fun ip hip => isLocal_eq_one hip
    · intro ip hip
      rw [isPrivate_eq_one hip]
      constructor
      · exact fun hpriv => hpriv.2
      · intro hpriv
        apply And.intro _ hpriv
        rcases h with horder | hnone
        · exact horder
        · exact absurd hpriv (hnone ip hip)
    · exact fun ip hip => isLocal6_eq_one hlib hip
    · exact fun ip hlen hip => isPrivate6_eq_one hlen hip
    · intro hbad
      simp [isLocal, isPrivate, hbad, PtonReply.deliver]
    · intro hbad
      simp [isLocal6, isPrivate6, hbad, PtonReply.deliver]

end

private def privateLib (order : ByteOrder) : GeoLib where
  order := order
  getaddrinfo := fun _ => (0, some afInet)
  inetPton := fun s => if s = .lit "10.0.0.1" then .parsed ⟨10, 0, 0, 1⟩ else .malformed
  inetPton6 := fun s => if s = .lit "::1" then .parsed loopback6 else .malformed
  geoipOpen := fun _ => false
  countryCodeByAddr := fun _ _ => none
  countryCodeByAddrV6 := fun _ _ => none

theorem classified_iff_littleEndian :
    Classified (privateLib .littleEndian) (.lit "10.0.0.1") :=
  (classified_iff rfl).mpr (Or.inl rfl)

/-- 10.0.0.1 on a big-endian machine: the first octet is compared with the last one. -/
theorem isPrivate_bigEndian :
    ¬ ∀ (lib : GeoLib) (address : CString),
      lib.inetPton6 (.lit "::1") = .parsed loopback6 → Classified lib address := by
  intro h
  have hone := (h (privateLib .bigEndian) (.lit "10.0.0.1") rfl).priv ⟨10, 0, 0, 1⟩ rfl
  exact absurd (hone.mpr (by decide)) (by decide)

end Stonesh
