import Stonesh.Records

/-!
# User records

The abstract reading of users.lst: a line is `user:[host1[+],host2[+],...]`, names are compared
without regard to case, and a trailing `+` on a host permits proxy mode to it. `Grants` is what
the format description promises. `Admits` is the comparison the program makes, where a name only
has to begin with the one asked for.
-/

namespace Stonesh

open CLib

structure HostElement where
  name : List Byte
  plus : Bool
  deriving DecidableEq, Repr

structure UserRecord where
  user : List Byte
  hosts : List HostElement
  deriving DecidableEq, Repr

/-- An element of a host list is trimmed, and one trailing `+` is its proxy mark. -/
def HostElement.parse (t : List Byte) : HostElement :=
  if (trimmed t).getLast? = some 43 then ⟨(trimmed t).dropLast, true⟩ else ⟨trimmed t, false⟩

def hostElements (hosts : List Byte) : List HostElement :=
  (Text.tokens (· ∈ [44]) hosts).map HostElement.parse

def UserRecord.parse (line : List Byte) : UserRecord :=
  match line.splitOn 58 with
  | [] => ⟨[], []⟩
  | [user] => ⟨trimmed user, []⟩
  | user :: hosts :: _ => ⟨trimmed user, hostElements hosts⟩

def SameName (a b : List Byte) : Prop := a.map tolower = b.map tolower

def Extends (a b : List Byte) : Prop := a.map tolower <+: b.map tolower

instance (a b : List Byte) : Decidable (SameName a b) := inferInstanceAs (Decidable (_ = _))
instance (a b : List Byte) : Decidable (Extends a b) := inferInstanceAs (Decidable (_ <+: _))

theorem SameName.extends {a b : List Byte} (h : SameName a b) : Extends a b := by
  have hmap : a.map tolower = b.map tolower := h
  exact ⟨[], by rw [hmap, List.append_nil]⟩

/-- The record names the user and lists the host, with the proxy mark where that is asked for. -/
def UserRecord.Grants (r : UserRecord) (user host : List Byte) (proxy : Int) : Prop :=
  SameName user r.user ∧ ∃ e ∈ r.hosts, SameName host e.name ∧ (proxy = 1 → e.plus = true)

/-- The first element of the host list that begins with the host asked for. -/
def UserRecord.firstMatch (r : UserRecord) (host : List Byte) : Option HostElement :=
  r.hosts.find? fun e => Extends host e.name

/-- The comparison of the program: the record's user begins with the user asked for, and the
first element that begins with the host asked for decides. -/
def UserRecord.Admits (r : UserRecord) (user host : List Byte) (proxy : Int) : Prop :=
  Extends user r.user ∧ ∃ e ∈ r.firstMatch host, proxy = 1 → e.plus = true

instance (r : UserRecord) (user host : List Byte) (proxy : Int) :
    Decidable (r.Admits user host proxy) :=
  inferInstanceAs (Decidable (_ ∧ ∃ e ∈ r.firstMatch host, _))

instance (r : UserRecord) (user host : List Byte) (proxy : Int) :
    Decidable (r.Grants user host proxy) :=
  inferInstanceAs (Decidable (_ ∧ ∃ e ∈ r.hosts, _ ∧ _))

section
variable {r : UserRecord} {user host : List Byte}

theorem UserRecord.firstMatch_isSome (h : ∃ e ∈ r.hosts, Extends host e.name) :
    ∃ e, r.firstMatch host = some e := by
  obtain ⟨e, he, hx⟩ := h
  have hsome : (r.firstMatch host).isSome := by
    rw [firstMatch, List.find?_isSome]
    exact ⟨e, he, by simpa using hx⟩
  exact Option.isSome_iff_exists.mp hsome

theorem UserRecord.Grants.admits (h : r.Grants user host 0) : r.Admits user host 0 := by
  obtain ⟨huser, e, he, hname, _⟩ := h
  obtain ⟨first, hfirst⟩ := firstMatch_isSome ⟨e, he, hname.extends⟩
  exact ⟨huser.extends, first, hfirst, by simp⟩

theorem UserRecord.Admits.bastion {proxy : Int} (h : r.Admits user host proxy) :
    r.Admits user host 0 := by
  obtain ⟨huser, e, he, _⟩ := h
  exact ⟨huser, e, he, by simp⟩

theorem UserRecord.parse_single {t : List Byte} (ht : 58 ∉ t) : parse t = ⟨trimmed t, []⟩ := by
  simp only [parse, Text.splitOn_single ht]

theorem UserRecord.parse_fields {t u : List Byte} (ht : 58 ∉ t) :
    parse (t ++ 58 :: u) = ⟨trimmed t, hostElements (u.takeWhile (· ≠ 58))⟩ := by
  by_cases hu : 58 ∈ u
  · obtain ⟨h, v, rfl, hh⟩ := List.eq_append_cons_of_mem hu
    have htake : (h ++ 58 :: v).takeWhile (· ≠ 58) = h := Text.takeWhile_ne_stop hh
    simp only [parse, Text.splitOn_field ht, Text.splitOn_field hh, htake]
  · simp only [parse, Text.splitOn_field ht, Text.splitOn_single hu, takeWhile_ne_of_not_mem hu]

@[simp] theorem UserRecord.not_admits_nil (proxy : Int) :
    ¬ (UserRecord.parse []).Admits user host proxy := by
  rintro ⟨_, e, he, _⟩
  simp [UserRecord.parse, UserRecord.firstMatch] at he

end

end Stonesh
