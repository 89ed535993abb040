import Stonesh.Readconf.Options
import Stonesh.Util

/-!
# The country of a client

`is_from_valid_country` asks the address library for the family of the client's address, lets the
loopback addresses pass, and looks the country code of any other address up in the list. The
library calls and the byte order of the machine are parameters; the list is cut, trimmed and put
in upper case in place.
-/

namespace Stonesh

open CLib

def afInet : Int := 2
def afInet6 : Int := 10

inductive PtonReply (α : Type)
  | parsed (a : α)
  | malformed
  | unsupported

def PtonReply.deliver {α : Type} (r : PtonReply α) (dst : α) : Int × α :=
  match r with
  | .parsed a => (1, a)
  | .malformed => (0, dst)
  | .unsupported => (-1, dst)

/-- The octets of an IPv4 address in network order. -/
structure InAddr where
  a : Byte
  b : Byte
  c : Byte
  d : Byte
  deriving DecidableEq, Repr

inductive ByteOrder
  | littleEndian
  | bigEndian
  deriving DecidableEq, Repr

/-- The four octets read as one integer of the machine. -/
def InAddr.sAddr (order : ByteOrder) (ip : InAddr) : BitVec 32 :=
  match order with
  | .littleEndian => ip.d.toBitVec ++ ip.c.toBitVec ++ ip.b.toBitVec ++ ip.a.toBitVec
  | .bigEndian => ip.a.toBitVec ++ ip.b.toBitVec ++ ip.c.toBitVec ++ ip.d.toBitVec

def htonl (order : ByteOrder) (x : BitVec 32) : BitVec 32 :=
  match order with
  | .littleEndian =>
    x.extractLsb' 0 8 ++ x.extractLsb' 8 8 ++ x.extractLsb' 16 8 ++ x.extractLsb' 24 8
  | .bigEndian => x

/-- The library calls; `getaddrinfo` answers with its return value and the family of the first
result, if there is one. -/
structure GeoLib where
  order : ByteOrder
  getaddrinfo : CString → Int × Option Int
  inetPton : CString → PtonReply InAddr
  inetPton6 : CString → PtonReply (List Byte)
  geoipOpen : CString → Bool
  countryCodeByAddr : CString → CString → Option CString
  countryCodeByAddrV6 : CString → CString → Option CString

def getafbyaddr (lib : GeoLib) (addr : CString) : Int :=
  let (result, ai) := lib.getaddrinfo addr
  if result ≠ 0 then -1 else ai.getD (-1)

def isLocal (lib : GeoLib) (address : CString) : Int :=
  let (result, ip) := (lib.inetPton address).deliver ⟨0, 0, 0, 0⟩
  if result ≠ 1 then result
  else if ip.sAddr lib.order &&& htonl lib.order 0xFF000000 = htonl lib.order 0x7F000000 then 1
  else 0

def isLocal6 (lib : GeoLib) (address : CString) : Int :=
  let (result, ip) := (lib.inetPton6 address).deliver []
  if result ≠ 1 then result
  else
    let (result, loopback) := (lib.inetPton6 (.lit "::1")).deliver []
    if result ≠ 1 then result else if ip = loopback then 1 else 0

/-- The masks of `is_private` are constants of the machine, the networks are put in network
order. -/
def isPrivate (lib : GeoLib) (address : CString) : Int :=
  let (result, ip) := (lib.inetPton address).deliver ⟨0, 0, 0, 0⟩
  if result = 0 then result
  else if ip.sAddr lib.order &&& 0x000000FF = htonl lib.order 0x0A000000 ∨
      ip.sAddr lib.order &&& 0x0000FFFF = htonl lib.order 0xC0A80000 ∨
      ip.sAddr lib.order &&& 0x0000F0FF = htonl lib.order 0xAC100000 then 1
  else 0

def isPrivate6 (lib : GeoLib) (address : CString) : Int :=
  let (result, ip) := (lib.inetPton6 address).deliver (List.replicate 16 0)
  if result ≠ 1 then result
  else if ip.headD 0 = 0xFC ∨ ip.headD 0 = 0xFD then 1
  else 0

def getcountrybyaddr (lib : GeoLib) (address : CString) (geoipDataFile : Option CString) :
    Option CString :=
  let dataFile := geoipDataFile.getD (.lit "/usr/share/GeoIP/GeoIP.dat")
  if lib.geoipOpen dataFile then lib.countryCodeByAddr dataFile address else none

def getcountrybyaddr6 (lib : GeoLib) (address : CString) (geoipDataFile : Option CString) :
    Option CString :=
  let dataFile := geoipDataFile.getD (.lit "/usr/share/GeoIP/GeoIPv6.dat")
  if lib.geoipOpen dataFile then lib.countryCodeByAddrV6 dataFile address else none

/-- The loop over the list, from the element `strtok` has just returned. -/
def countryLoop (countryCode : CString) (delimiter : List Byte) :
    Nat → Option Nat → Nat → Block → Checked Int
  | 0, _, _, _ => throw .outOfBounds
  | _ + 1, none, _, _ => pure 0
  | fuel + 1, some country, cursor, b => do
    let b ← trim b (some country)
    let b ← strtoupper b country
    let name ← str b country
    if countryCode.bytes.length = name.bytes.length ∧
        strncmp countryCode name name.bytes.length = 0 then pure 1
    else
      let cut ← strtok b cursor delimiter
      countryLoop countryCode delimiter fuel cut.token cut.cursor cut.block

def geoipFailOnError : Int := 1

/-- The part behind the switch over the address family. -/
def matchCountry (countryCode : Option CString) (countryList : CString) (delimiter : List Byte) :
    Checked Int :=
  match countryCode with
  | none => if geoipFailOnError = 1 then pure 0 else pure 1
  | some code => do
    let cut ← strtok countryList.block 0 delimiter
    countryLoop code delimiter cut.block.size cut.token cut.cursor cut.block

def isFromValidCountry (lib : GeoLib) (options : Options) (address : CString)
    (countryList delim : Option CString) : Checked Int :=
  match countryList with
  | none => pure 1
  | some list =>
    if list.bytes.length = 0 then pure 1
    else
      let delimiter := (delim.getD (.lit ",")).bytes
      let af := getafbyaddr lib address
      if af = afInet then
        if isLocal lib address = 1 then pure 1
        else matchCountry (getcountrybyaddr lib address options.geoipDat) list delimiter
      else if af = afInet6 then
        if isLocal6 lib address = 1 then pure 1
        else matchCountry (getcountrybyaddr6 lib address options.geoip6Dat) list delimiter
      else matchCountry none list delimiter

private theorem countryLoop_result {code : CString} {delimiter : List Byte} {fuel : Nat}
    {country : Option Nat} {cursor : Nat} {b : Block} {n : Int}
    (h : countryLoop code delimiter fuel country cursor b = .ok n) : n = 0 ∨ n = 1 := by
  induction fuel generalizing country cursor b with
  | zero => simp [countryLoop] at h
  | succ fuel ih =>
    cases country with
    | none => exact Or.inl (Except.ok.inj h).symm
    | some country =>
      rw [countryLoop] at h
      obtain ⟨b, -, h⟩ := except_bind_eq_ok.mp h
      obtain ⟨b, -, h⟩ := except_bind_eq_ok.mp h
      obtain ⟨name, -, h⟩ := except_bind_eq_ok.mp h
      split at h
      · exact Or.inr (Except.ok.inj h).symm
      · obtain ⟨cut, -, h⟩ := except_bind_eq_ok.mp h
        exact ih h

private theorem matchCountry_result {code : Option CString} {list : CString} {delimiter : List Byte}
    {n : Int} (h : matchCountry code list delimiter = .ok n) : n = 0 ∨ n = 1 := by
  cases code with
  | none => exact Or.inl (Except.ok.inj h).symm
  | some code =>
    obtain ⟨cut, -, h⟩ := except_bind_eq_ok.mp h
    exact countryLoop_result h

theorem isFromValidCountry_result {lib : GeoLib} {options : Options} {address : CString}
    {list delim : Option CString} {n : Int}
    (h : isFromValidCountry lib options address list delim = .ok n) : n = 0 ∨ n = 1 := by
  have hone (h : (pure 1 : Checked Int) = .ok n) : n = 0 ∨ n = 1 := Or.inr (Except.ok.inj h).symm
  cases list with
  | none => exact hone h
  | some s =>
    rw [isFromValidCountry] at h
    split at h
    · exact hone h
    · simp only at h
      split at h
      · split at h
        · exact hone h
        · exact matchCountry_result h
      · split at h
        · split at h
          · exact hone h
          · exact matchCountry_result h
        · exact matchCountry_result h

end Stonesh
