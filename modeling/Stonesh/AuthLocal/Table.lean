import Mathlib.Data.List.Pairwise
import Stonesh.AuthLocal.Grants
import Stonesh.Tables

/-!
# A users table

What an administrator puts into users.lst: for each user the hosts he may reach, each with or
without the proxy mark. The scan matches names by their beginnings, so what it answers is what the
rows say whenever no name in the table is a longer one that begins like the one asked for.
-/

namespace Stonesh

open CLib

structure Access where
  host : TableName
  proxy : Bool
  deriving DecidableEq

namespace Access

def text (a : Access) : List Byte := a.host.bytes ++ if a.proxy then [43] else []

def element (a : Access) : HostElement := ⟨a.host.bytes, a.proxy⟩

end Access

structure UserRow where
  user : TableName
  hosts : List Access
  distinct : hosts.Pairwise fun a b => ¬ SameName a.host.bytes b.host.bytes
  fits : (user.bytes ++ 58 :: [44].intercalate (hosts.map Access.text)).length ≤ 1022

namespace UserRow

def line (r : UserRow) : List Byte := r.user.bytes ++ 58 :: [44].intercalate (r.hosts.map Access.text)

def record (r : UserRow) : UserRecord := ⟨r.user.bytes, r.hosts.map Access.element⟩

end UserRow

section
variable {c : Byte}

private theorem access_byte (a : Access) (h : c ∈ a.text) :
    ¬ isspace c ∧ c ∉ [(0 : Byte), 35, 44, 58] := by
  rcases List.mem_append.mp h with h | h
  · refine ⟨a.host.not_blank h, fun hm => (a.host.plain c h).2 ?_⟩
    simp only [List.mem_cons, List.not_mem_nil, or_false] at hm ⊢
    tauto
  · split at h
    · rw [List.mem_singleton.mp h]
      decide
    · simp at h

theorem HostElement.parse_access (a : Access) : HostElement.parse a.text = a.element := by
  have htrimmed : trimmed a.text = a.text :=
    trimmed_eq_self (fun _ hc => (access_byte a hc).1) fun hc => (access_byte a hc).2 (by decide)
  have hlast : 43 ∉ a.host.bytes := a.host.not_mem (by decide)
  obtain ⟨host, proxy⟩ := a
  rw [HostElement.parse, htrimmed, Access.text, Access.element]
  cases proxy with
  | false =>
    have hnone : host.bytes.getLast? ≠ some 43 := fun h => hlast (List.mem_of_getLast? h)
    simp [hnone]
  | true => simp

private theorem row_byte (r : UserRow) (h : c ∈ r.line) : ¬ isspace c ∧ c ≠ 0 ∧ c ≠ 35 := by
  rcases List.mem_append.mp h with h | h
  · exact ⟨r.user.not_blank h, fun he => r.user.not_mem (by decide) (he ▸ h),
      fun he => r.user.not_mem (by decide) (he ▸ h)⟩
  · rcases List.mem_cons.mp h with rfl | h
    · decide
    · rcases Text.mem_intercalate h with rfl | ⟨l, hl, hc⟩
      · decide
      · obtain ⟨a, -, rfl⟩ := List.mem_map.mp hl
        obtain ⟨hblank, hne⟩ := access_byte a hc
        simp only [List.mem_cons, List.not_mem_nil, or_false, not_or] at hne
        exact ⟨hblank, hne.1, hne.2.1⟩

theorem UserRecord.parse_row (r : UserRow) : UserRecord.parse r.line = r.record := by
  have htake : ([44].intercalate (r.hosts.map Access.text)).takeWhile (· ≠ 58) =
      [44].intercalate (r.hosts.map Access.text) := by
    apply takeWhile_ne_of_not_mem
    intro h
    rcases Text.mem_intercalate h with h | ⟨l, hl, hc⟩
    · exact absurd h (by decide)
    · obtain ⟨a, -, rfl⟩ := List.mem_map.mp hl
      exact (access_byte a hc).2 (by decide)
  have htokens : Text.tokens (· ∈ [44]) ([44].intercalate (r.hosts.map Access.text)) =
      r.hosts.map Access.text := by
    apply Text.tokens_intercalate (by simp)
    intro t ht
    obtain ⟨a, -, rfl⟩ := List.mem_map.mp ht
    refine ⟨fun h => a.host.ne_nil (List.append_eq_nil_iff.mp h).1, ?_⟩
    intro c hc
    have hne : c ≠ 44 := fun he => (access_byte a hc).2 (by simp [he])
    simpa using hne
  rw [UserRow.line, UserRecord.parse_fields (r.user.not_mem (by decide)), htake, hostElements, htokens,
    List.map_map, TableName.trimmed_bytes, UserRow.record]
  simp only [Function.comp_def, HostElement.parse_access]

end

/-- The lines of users.lst. -/
def userFormat : RowFormat UserRow where
  line := UserRow.line
  text r := by
    refine ⟨fun h => r.user.ne_nil (List.append_eq_nil_iff.mp h).1, ?_⟩
    exact trimmed_eq_self (fun _ hc => (row_byte r hc).1) fun hc => (row_byte r hc).2.2 rfl
  single r := ⟨fun hc => (row_byte r hc).2.1 rfl, fun hc => (row_byte r hc).1 (by decide)⟩
  fits r := r.fits

def proxyArg (proxy : Bool) : Int := if proxy then 1 else 0

/-- A row for the user has the host, with the proxy mark where that is asked for. -/
def TableGrants (rows : List UserRow) (user host : List Byte) (proxy : Bool) : Prop :=
  ∃ r ∈ rows, SameName user r.user.bytes ∧
    ∃ a ∈ r.hosts, SameName host a.host.bytes ∧ (proxy = true → a.proxy = true)

/-- No name of the table is a longer one that begins like the user or the host. -/
def NoLongerName (rows : List UserRow) (user host : List Byte) : Prop :=
  ∀ r ∈ rows, (Extends user r.user.bytes → SameName user r.user.bytes) ∧
    ∀ a ∈ r.hosts, Extends host a.host.bytes → SameName host a.host.bytes

section
variable {rows : List UserRow} {content user host : List Byte} {proxy : Bool}

theorem fileAdmits_rows (h : HoldsRows userFormat content rows) (proxy : Int) :
    FileAdmits content user host proxy ↔ ∃ r ∈ rows, r.record.Admits user host proxy := by
  have hline : userFormat.line = UserRow.line := rfl
  simp only [FileAdmits, h.records, hline, List.mem_map, exists_exists_and_eq_and,
    UserRecord.parse_row]

private theorem distinct_eq {r : UserRow} {a b : Access} (ha : a ∈ r.hosts) (hb : b ∈ r.hosts)
    (hsame : SameName a.host.bytes b.host.bytes) : a = b := by
  by_contra hne
  have hsymm : Std.Symm fun a b : Access => ¬ SameName a.host.bytes b.host.bytes :=
    ⟨fun _ _ h h' => h h'.symm⟩
  exact r.distinct.forall ha hb hne hsame

theorem admits_row_iff (r : UserRow) :
    r.record.Admits user host (proxyArg proxy) ↔ Extends user r.user.bytes ∧
      ∃ a ∈ r.hosts.find? fun a => Extends host a.host.bytes, proxy = true → a.proxy = true := by
  have hproxy : proxyArg proxy = 1 ↔ proxy = true := by cases proxy <;> decide
  rw [UserRecord.Admits, UserRecord.firstMatch, UserRow.record, List.find?_map]
  simp only [hproxy, Function.comp_def, Option.mem_def, Option.map_eq_some_iff]
  constructor
  · rintro ⟨huser, e, ⟨a, ha, rfl⟩, hplus⟩
    exact ⟨huser, a, ha, hplus⟩
  · rintro ⟨huser, a, ha, hplus⟩
    exact ⟨huser, a.element, ⟨a, ha, rfl⟩, hplus⟩

private theorem admits_row_exact {r : UserRow}
    (huser : Extends user r.user.bytes → SameName user r.user.bytes)
    (hhost : ∀ a ∈ r.hosts, Extends host a.host.bytes → SameName host a.host.bytes) :
    r.record.Admits user host (proxyArg proxy) ↔ SameName user r.user.bytes ∧
      ∃ a ∈ r.hosts, SameName host a.host.bytes ∧ (proxy = true → a.proxy = true) := by
  rw [admits_row_iff]
  constructor
  · rintro ⟨hext, a, ha, hplus⟩
    have hmem := List.mem_of_find?_eq_some ha
    have hfound : Extends host a.host.bytes := by simpa using List.find?_some ha
    exact ⟨huser hext, a, hmem, hhost a hmem hfound, hplus⟩
  · rintro ⟨hsame, a, ha, hname, hplus⟩
    obtain ⟨b, hb⟩ : ∃ b, r.hosts.find? (fun a => decide (Extends host a.host.bytes)) = some b := by
      rw [← Option.isSome_iff_exists, List.find?_isSome]
      exact ⟨a, ha, by simpa using hname.extends⟩
    have hbmem := List.mem_of_find?_eq_some hb
    have hbext : Extends host b.host.bytes := by simpa using List.find?_some hb
    -- the element that decides is the one for the host, since the row has no other
    have heq : a = b := distinct_eq ha hbmem (hname.symm.trans (hhost b hbmem hbext))
    exact ⟨hsame.extends, b, hb, heq ▸ hplus⟩

/-- Where no name is longer than the one asked for, the rows admit what the table says. -/
theorem admits_table_iff (hexact : NoLongerName rows user host) :
    (∃ r ∈ rows, r.record.Admits user host (proxyArg proxy)) ↔ TableGrants rows user host proxy := by
  apply exists_congr
  intro r
  exact and_congr_right fun hr => admits_row_exact (hexact r hr).1 (hexact r hr).2

theorem getAuthFile_admits {files : CString → Option (List Byte)} {file : CString}
    (hfile : files file = some content) (h : HoldsRows userFormat content rows)
    (user host : CString) (proxy : Bool) :
    ∃ result, getAuthFile files (some user) (some host) (some file) (proxyArg proxy) = .ok result ∧
      (result.auth = authLocalFailure ∨ result.auth = authLocalSuccess) ∧
      (result.auth = authLocalSuccess ↔
        ∃ r ∈ rows, r.record.Admits (trimmed user.bytes) (trimmed host.bytes) (proxyArg proxy)) := by
  obtain ⟨result, hrun, hauth⟩ := getAuthFile_auth files user host file (proxyArg proxy)
  rw [contentOf, hfile, Option.getD_some] at hauth
  refine ⟨result, hrun, ?_⟩
  rw [← fileAdmits_rows h, hauth]
  split
  · next hadmits => exact ⟨Or.inr rfl, iff_of_true rfl hadmits⟩
  · next hnot => exact ⟨Or.inl rfl, iff_of_false (by decide) hnot⟩

/-- `get_auth_file` on a file that holds the rows of a table. Its answer is decided by the first
host of a row that begins with the host asked for, in the rows whose user begins with the user
asked for; and it is what the table says where no name in it is longer than the one asked for. -/
theorem getAuthFile_rows {files : CString → Option (List Byte)} {file : CString}
    (hfile : files file = some content) (h : HoldsRows userFormat content rows)
    (user host : CString) (proxy : Bool) :
    ∃ result, getAuthFile files (some user) (some host) (some file) (proxyArg proxy) = .ok result ∧
      (result.auth = authLocalSuccess ↔ ∃ r ∈ rows, Extends (trimmed user.bytes) r.user.bytes ∧
        ∃ a ∈ r.hosts.find? fun a => Extends (trimmed host.bytes) a.host.bytes,
          proxy = true → a.proxy = true) ∧
      (NoLongerName rows (trimmed user.bytes) (trimmed host.bytes) →
        (result.auth = authLocalSuccess ↔
          TableGrants rows (trimmed user.bytes) (trimmed host.bytes) proxy)) := by
  obtain ⟨result, hrun, -, hsuccess⟩ := getAuthFile_admits hfile h user host proxy
  refine ⟨result, hrun, ?_, ?_⟩
  · simp only [hsuccess, admits_row_iff]
  · intro hexact
    rw [hsuccess, admits_table_iff hexact]

end

def bobRow : UserRow where
  user := ⟨bytes "bob", by decide, by decide⟩
  hosts := [⟨webName, true⟩, ⟨dbName, false⟩]
  distinct := by decide
  fits := by decide

/-- Bob may reach the database, but not through the proxy. -/
theorem getAuthFile_rows_bob :
    ∃ result, getAuthFile (fun _ => some (bytes "# users\n bob:web+,db\n")) (some (.lit "bob"))
        (some (.lit "db")) (some (.lit "users.lst")) (proxyArg true) = .ok result ∧
      (result.auth = authLocalSuccess ↔ ∃ r ∈ [bobRow], Extends (trimmed (bytes "bob")) r.user.bytes ∧
        ∃ a ∈ r.hosts.find? fun a => Extends (trimmed (bytes "db")) a.host.bytes,
          true = true → a.proxy = true) ∧
      (NoLongerName [bobRow] (trimmed (bytes "bob")) (trimmed (bytes "db")) →
        (result.auth = authLocalSuccess ↔
          TableGrants [bobRow] (trimmed (bytes "bob")) (trimmed (bytes "db")) true)) :=
  getAuthFile_rows rfl ⟨by unfold LinesFit; decide, by decide⟩ (.lit "bob") (.lit "db") true

end Stonesh
