import Stonesh.Auth
import Stonesh.AuthLocal.Table

/-!
# The two backends

A users table can be kept in users.lst or in a directory. The directory that stands for a table has
one entry for each row, with the hosts of the row and with a service of the configured tag for each
host that has the proxy mark. Asked about the same table the two backends answer alike, although
one of them searches a file for the beginnings of names and the other one evaluates a filter.
-/

namespace Stonesh

open CLib LdapFilter

abbrev Attributes := List (List Byte × List Byte)

def UserRow.entry (tag : List Byte) (r : UserRow) : Attributes :=
  (bytes "uid", r.user.bytes) :: (r.hosts.map fun a => (bytes "host", a.host.bytes)) ++
    (r.hosts.filter Access.proxy).map fun a =>
      (bytes "authorizedService", tag ++ bytes "-" ++ a.host.bytes)

/-- A piece of a value without its letter case. -/
def foldPiece : Piece → Piece
  | .byte c => .byte (tolower c)
  | .any => .any

/-- A test on an entry: some value of the attribute is the same up to letter case. -/
def Attributes.satisfies (e : Attributes) (t : Test) : Bool :=
  t.comparison = .equal ∧ ∃ a ∈ e, a.1 = t.attr ∧ (literal a.2).map foldPiece = t.value.map foldPiece

section
variable {e : Attributes} {attr v : List Byte} {r : UserRow} {user host tag : List Byte}

private theorem literal_fold_iff {a b : List Byte} :
    (literal a).map foldPiece = (literal b).map foldPiece ↔ SameName a b := by
  have hbyte (l : List Byte) : (literal l).map foldPiece = (l.map tolower).map .byte := by
    rw [literal, List.map_map, List.map_map]
    rfl
  have hinj : Function.Injective Piece.byte := fun _ _ h => Piece.byte.inj h
  rw [hbyte, hbyte, SameName, hinj.list_map.eq_iff]

theorem satisfies_equals_iff :
    (equals attr v).eval e.satisfies = true ↔ ∃ a ∈ e, a.1 = attr ∧ SameName a.2 v := by
  simp only [equals, Filter.eval, Attributes.satisfies, true_and, decide_eq_true_eq, literal_fold_iff]

theorem entry_values :
    ((∃ a ∈ r.entry tag, a.1 = bytes "uid" ∧ SameName a.2 v) ↔ SameName r.user.bytes v) ∧
      ((∃ a ∈ r.entry tag, a.1 = bytes "host" ∧ SameName a.2 v) ↔
        ∃ a ∈ r.hosts, SameName a.host.bytes v) ∧
      ((∃ a ∈ r.entry tag, a.1 = bytes "authorizedService" ∧ SameName a.2 v) ↔
        ∃ a ∈ r.hosts, a.proxy = true ∧ SameName (tag ++ bytes "-" ++ a.host.bytes) v) := by
  have huid : bytes "uid" ≠ bytes "host" ∧ bytes "uid" ≠ bytes "authorizedService" := by decide
  have hhost : bytes "host" ≠ bytes "uid" ∧ bytes "host" ≠ bytes "authorizedService" := by decide
  have hservice : bytes "authorizedService" ≠ bytes "uid" ∧
      bytes "authorizedService" ≠ bytes "host" := by decide
  simp only [UserRow.entry, List.cons_append, List.mem_cons, List.mem_append, List.mem_map,
    List.mem_filter, or_and_right, exists_or, exists_eq_left, exists_exists_and_eq_and, huid, hhost,
    hservice, false_and, and_false, exists_false, or_false, false_or, true_and]
  simp only [and_assoc]

private theorem not_sameName_star {n : List Byte} (hne : n ≠ bytes "*") : ¬ SameName n (bytes "*") := by
  have hstar (c : Byte) (h : tolower c = 42) : c = 42 := by
    unfold tolower at h
    split at h
    · next hr => grind
    · exact h
  intro h
  have hmap : n.map tolower = [42] := h
  obtain ⟨c, rfl, hc⟩ := List.map_eq_singleton_iff.mp hmap
  exact hne (by rw [hstar c hc]; rfl)

private theorem sameName_append {p a b : List Byte} : SameName (p ++ a) (p ++ b) ↔ SameName a b := by
  simp only [SameName, List.map_append, List.append_cancel_left_eq]

private theorem hostClause_entry (hhosts : ∀ a ∈ r.hosts, a.host.bytes ≠ bytes "*") :
    (hostClause host).eval (r.entry tag).satisfies = true ↔ ∃ a ∈ r.hosts, SameName a.host.bytes host := by
  have hany : ¬ ∃ a ∈ r.hosts, SameName a.host.bytes (bytes "*") := by
    rintro ⟨a, ha, h⟩
    exact not_sameName_star (hhosts a ha) h
  simp only [hostClause, List.foldr_cons, List.foldr_nil, Filter.eval, Bool.or_eq_true,
    satisfies_equals_iff, entry_values.2.1, hany, false_or, Bool.false_eq_true, or_false]

private theorem serviceClause_entry (hhosts : ∀ a ∈ r.hosts, a.host.bytes ≠ bytes "*") :
    (serviceClause host tag).eval (r.entry tag).satisfies = true ↔
      ∃ a ∈ r.hosts, a.proxy = true ∧ SameName a.host.bytes host := by
  have hjoin : tag ++ bytes "-*" = tag ++ bytes "-" ++ bytes "*" := by
    rw [List.append_assoc]
    rfl
  have hany : ¬ ∃ a ∈ r.hosts, a.proxy = true ∧ SameName a.host.bytes (bytes "*") := by
    rintro ⟨a, ha, -, h⟩
    exact not_sameName_star (hhosts a ha) h
  simp only [serviceClause, List.foldr_cons, List.foldr_nil, Filter.eval, Bool.or_eq_true,
    satisfies_equals_iff, entry_values.2.2, hjoin, sameName_append, hany, false_or,
    Bool.false_eq_true, or_false]

private theorem userClause_entry :
    (equals (bytes "uid") user).eval (r.entry tag).satisfies = true ↔ SameName r.user.bytes user := by
  rw [satisfies_equals_iff, entry_values.1]

/-- The filters ask of the entry of a row what the row is asked. -/
theorem filters_entry (hhosts : ∀ a ∈ r.hosts, a.host.bytes ≠ bytes "*") :
    ((hostFilter host user).eval (r.entry tag).satisfies = true ↔
        SameName user r.user.bytes ∧ ∃ a ∈ r.hosts, SameName host a.host.bytes ∧
          (false = true → a.proxy = true)) ∧
      ((serviceFilter host user tag).eval (r.entry tag).satisfies = true ↔
        SameName user r.user.bytes ∧ ∃ a ∈ r.hosts, SameName host a.host.bytes ∧
          (true = true → a.proxy = true)) := by
  have hsymm (a b : List Byte) : SameName a b ↔ SameName b a := ⟨Eq.symm, Eq.symm⟩
  constructor
  · simp only [hostFilter, List.foldr_cons, List.foldr_nil, Filter.eval, Bool.and_eq_true,
      hostClause_entry hhosts, userClause_entry, and_true, Bool.false_eq_true, false_implies]
    rw [and_comm, hsymm user]
    simp only [hsymm host]
  · simp only [serviceFilter, List.foldr_cons, List.foldr_nil, Filter.eval, Bool.and_eq_true,
      hostClause_entry hhosts, serviceClause_entry hhosts, userClause_entry, and_true, true_implies]
    rw [hsymm user]
    simp only [hsymm host]
    constructor
    · rintro ⟨-, ⟨a, ha, hproxy, hhost⟩, huser⟩
      exact ⟨huser, a, ha, hhost, hproxy⟩
    · rintro ⟨huser, a, ha, hhost, hproxy⟩
      exact ⟨⟨a, ha, hhost⟩, ⟨a, ha, hproxy, hhost⟩, huser⟩

end

/-- The mode asks for the proxy mark. -/
def AsksForMark (o : Options) (mode : Int) : Bool := mode = authProxy ∧ o.disableProxyAuthorization = 0

section
variable {lib : LdapLib} {files : CString → Option (List Byte)} {o : Options} {mode : Int}

theorem authUser_local (htype : o.authType = authTypeLocal) (hgate : ¬ (o.enableProxy = 0 ∧ mode = authProxy))
    (user host : Option CString) :
    authUser lib files o user host mode =
      Traced.lift id (getAuthFile files user host o.usersFile (proxyArg (AsksForMark o mode))) := by
  rw [authUser, if_neg hgate, htype, if_neg (by decide), if_pos rfl]
  by_cases hmark : mode = authProxy ∧ o.disableProxyAuthorization = 0
  · simp [hmark, AsksForMark, proxyArg]
  · simp [hmark, AsksForMark, proxyArg]

theorem authUser_ldap (htype : o.authType = authTypeLdap) (hgate : ¬ (o.enableProxy = 0 ∧ mode = authProxy))
    (user host : Option CString) :
    authUser lib files o user host mode = (do
      let auth ← getAuthLdap lib o user host
        (if AsksForMark o mode then o.authorizedServiceTag else none)
      pure ⟨auth, user, host⟩) := by
  rw [authUser, if_neg hgate, htype, if_neg (by decide), if_neg (by decide), if_pos rfl]
  by_cases hmark : mode = authProxy ∧ o.disableProxyAuthorization = 0
  · simp [hmark, AsksForMark]
  · simp [hmark, AsksForMark]

end

structure KeptInFile (files : CString → Option (List Byte)) (o : Options) (rows : List UserRow) :
    Prop where
  authType : o.authType = authTypeLocal
  holds : ∃ file content, o.usersFile = some file ∧ files file = some content ∧
    HoldsRows userFormat content rows

structure KeptInDirectory (lib : LdapLib) (o : Options) (rows : List UserRow) : Prop where
  authType : o.authType = authTypeLdap
  useLdap : o.useLdap ≠ 0
  holds : ∃ tag, o.authorizedServiceTag = some tag ∧ FilterSafe tag ∧
    lib.Serves o (fun _ => rows.map (UserRow.entry tag.bytes)) Attributes.satisfies
  hosts : ∀ r ∈ rows, ∀ a ∈ r.hosts, a.host.bytes ≠ bytes "*"

section
variable {lib : LdapLib} {files : CString → Option (List Byte)} {o : Options} {rows : List UserRow}
  {user host : TableName} {mode : Int}

/-- What a mode asks of a table. -/
def ModeGrants (o : Options) (rows : List UserRow) (user host : List Byte) (mode : Int) : Prop :=
  ¬ (o.enableProxy = 0 ∧ mode = authProxy) ∧ TableGrants rows user host (AsksForMark o mode)

private theorem authUser_gated (lib : LdapLib) (files : CString → Option (List Byte))
    (hgate : o.enableProxy = 0 ∧ mode = authProxy) (rows : List UserRow) (user host : TableName) :
    ∃ r, (authUser lib files o (some user.string) (some host.string) mode).result = .ok r ∧
      (r.auth = authFailure ∨ r.auth = authSuccess) ∧
      (r.auth = authSuccess ↔ ModeGrants o rows user.bytes host.bytes mode) := by
  refine ⟨⟨authFailure, some user.string, some host.string⟩, ?_, Or.inl rfl, ?_⟩
  · rw [authUser, if_pos hgate]
    rfl
  · exact iff_of_false (by simp [authFailure, authSuccess]) fun h => h.1 hgate

theorem authUser_file (lib : LdapLib) (h : KeptInFile files o rows)
    (hexact : NoLongerName rows user.bytes host.bytes) (mode : Int) :
    ∃ r, (authUser lib files o (some user.string) (some host.string) mode).result = .ok r ∧
      (r.auth = authFailure ∨ r.auth = authSuccess) ∧
      (r.auth = authSuccess ↔ ModeGrants o rows user.bytes host.bytes mode) := by
  by_cases hgate : o.enableProxy = 0 ∧ mode = authProxy
  · exact authUser_gated lib files hgate rows user host
  · obtain ⟨file, content, husers, hfile, hrows⟩ := h.holds
    obtain ⟨r, hrun, hanswer, hsuccess⟩ := getAuthFile_admits hfile hrows user.string host.string
      (AsksForMark o mode)
    rw [TableName.string_bytes, TableName.string_bytes, TableName.trimmed_bytes,
      TableName.trimmed_bytes, admits_table_iff hexact] at hsuccess
    refine ⟨r, ?_, hanswer, ?_⟩
    · rw [authUser_local h.authType hgate, husers]
      exact Traced.lift_result_eq_ok.mpr hrun
    · exact hsuccess.trans (and_iff_right hgate).symm

private theorem directory_grants (hhosts : ∀ r ∈ rows, ∀ a ∈ r.hosts, a.host.bytes ≠ bytes "*")
    (user host : TableName) (tag : List Byte) (mark : Bool) :
    (∃ e ∈ rows.map (UserRow.entry tag), (if mark then serviceFilter host.bytes user.bytes tag
        else hostFilter host.bytes user.bytes).eval e.satisfies = true) ↔
      TableGrants rows user.bytes host.bytes mark := by
  simp only [List.mem_map, exists_exists_and_eq_and, TableGrants]
  apply exists_congr
  intro r
  refine and_congr_right fun hr => ?_
  obtain ⟨hhost, hservice⟩ := @filters_entry r user.bytes host.bytes tag (hhosts r hr)
  cases mark with
  | false => exact hhost
  | true => exact hservice

theorem authUser_directory (files : CString → Option (List Byte)) (h : KeptInDirectory lib o rows)
    (huser : Plain user.bytes) (hhost : Plain host.bytes) (mode : Int) :
    ∃ r, (authUser lib files o (some user.string) (some host.string) mode).result = .ok r ∧
      (r.auth = authFailure ∨ r.auth = authSuccess) ∧
      (r.auth = authSuccess ↔ ModeGrants o rows user.bytes host.bytes mode) := by
  by_cases hgate : o.enableProxy = 0 ∧ mode = authProxy
  · exact authUser_gated lib files hgate rows user host
  · obtain ⟨tag, htag, hsafe, hserves⟩ := h.holds
    obtain ⟨base, hanswer⟩ := getAuthLdap_serves hserves h.useLdap
    have hgrants := directory_grants h.hosts user host tag.bytes (AsksForMark o mode)
    have hname (n : TableName) : n.string.bytes ≠ [] := by
      rw [TableName.string_bytes]
      exact n.ne_nil
    rw [← user.string_bytes] at huser
    rw [← host.string_bytes] at hhost
    obtain ⟨filter, hfilter, hparse⟩ : ∃ filter,
        (if (if AsksForMark o mode then some tag else none) = none then
            getHostFilter lib (some host.string) (some user.string)
          else getServiceFilter lib (some host.string) (some user.string)
            (if AsksForMark o mode then some tag else none)) = some filter ∧
        parse filter.bytes = some (if AsksForMark o mode then
          serviceFilter host.bytes user.bytes tag.bytes else hostFilter host.bytes user.bytes) := by
      rw [← user.string_bytes, ← host.string_bytes]
      cases AsksForMark o mode with
      | false => exact getHostFilter_parse hserves.malloc (hname host) (hname user) hhost huser
      | true =>
        exact getServiceFilter_parse hserves.malloc (hname host) (hname user) hsafe.1 hhost huser hsafe.2
    obtain ⟨auth, hrun, hauth, hsuccess⟩ : ∃ auth,
        (getAuthLdap lib o (some user.string) (some host.string)
          (if AsksForMark o mode then some tag else none)).result = .ok auth ∧
        (auth = authFailure ∨ auth = authSuccess) ∧
        (auth = authSuccess ↔ TableGrants rows user.bytes host.bytes (AsksForMark o mode)) := by
      refine ⟨_, hanswer _ _ _ filter _ hfilter hparse, ?_⟩
      by_cases hentry : TableGrants rows user.bytes host.bytes (AsksForMark o mode)
      · rw [if_pos (hgrants.mpr hentry)]
        exact ⟨Or.inr rfl, iff_of_true rfl hentry⟩
      · rw [if_neg fun h => hentry (hgrants.mp h)]
        exact ⟨Or.inl rfl, iff_of_false (by decide) hentry⟩
    refine ⟨⟨auth, some user.string, some host.string⟩, ?_, hauth, ?_⟩
    · rw [authUser_ldap h.authType hgate, htag]
      exact Traced.result_bind_eq_ok.mpr ⟨auth, hrun, rfl⟩
    · exact hsuccess.trans (and_iff_right hgate).symm

end

def directoryLdap (entries : List Attributes) : LdapLib :=
  { bobLdap with
    searchReply := fun _ filter =>
      match parse filter.bytes with
      | none => ⟨-1, 0, none⟩
      | some f => if ∃ e ∈ entries, f.eval e.satisfies = true then ⟨100, 1, none⟩ else ⟨101, 0, none⟩ }

theorem directoryLdap_serves (entries : List Attributes) {o : Options} (huri : o.ldapUri = none)
    (hbase : o.ldapBase = none) :
    (directoryLdap entries).Serves o (fun _ => entries) Attributes.satisfies where
  uri := ⟨_, by rw [getLdapUri, huri]; rfl⟩
  base := ⟨_, by rw [getLdapBase, hbase]; rfl⟩
  malloc := rfl
  connects _ := rfl
  binds _ := (by decide : (0 : Int) < 97)
  sends := rfl
  answers base filter f hf := by
    simp only [directoryLdap, hf]
    split <;> simp

/-- The options of a machine with the users file that is like the one with the directory. -/
def localOptions : Options := fillDefaultOptions { initializeOptions with enableProxy := 1 }

end Stonesh
