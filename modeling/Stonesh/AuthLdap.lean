import Stonesh.Framework.LdapFilter
import Stonesh.Framework.Trace
import Stonesh.Readconf.Options

/-!
# Authorization against a directory

`get_auth_ldap` builds a filter, binds, searches and counts the entries of one reply. The library
calls are a parameter. The run records which call was made, what happened to the messages it
received and which locals the shared cleanup code looked at; a local that was never assigned holds
whatever was there before.
-/

namespace Stonesh

open CLib LdapFilter

def ldapAuthFailure : Int := 0
def ldapAuthSuccess : Int := 1

/-- What the variable `result` points to. -/
inductive MessagePtr
  | null
  | live (entries : Int)
  | released
  | undefined
  deriving DecidableEq, Repr

/-- The outcome of a call of `ldap_result`: a message if `rc` is positive, and otherwise what the
call leaves in the result variable, if it stores anything there. -/
structure LdapReply where
  rc : Int
  entries : Int
  leaves : Option MessagePtr

def LdapReply.deliver (r : LdapReply) (old : MessagePtr) : MessagePtr :=
  if 0 < r.rc then .live r.entries else r.leaves.getD old

/-- The library calls, and what the two locals declared without a value happen to hold. -/
structure LdapLib where
  optionUri : Option (Option CString)
  optionDefbase : Option (Option CString)
  strdup : CString → Bool
  malloc : Bool
  ldapInitialize : CString → Bool
  bindReply : CString → LdapReply
  searchRc : Int
  searchReply : CString → CString → LdapReply
  ldNull : Bool
  filterNull : Bool

inductive LdapLocal
  | ld
  | filter
  deriving DecidableEq, Repr

inductive LdapEvent
  | shortcut
  | initialized (ok : Bool)
  | bound (rc : Int)
  | searched (sent rc : Int)
  | count (result : MessagePtr)
  | msgfree (result : MessagePtr)
  | cleanup (v : LdapLocal) (assigned : Bool)
  | unbind
  deriving DecidableEq, Repr

def LdapLib.copy (lib : LdapLib) (s : CString) : Option CString :=
  if lib.strdup s then some s else none

def getLdapUri (lib : LdapLib) (options : Options) : Option CString :=
  match options.ldapUri with
  | some uri => lib.copy uri
  | none => lib.optionUri.join.bind lib.copy

def getLdapBase (lib : LdapLib) (options : Options) : Option CString :=
  match options.ldapBase with
  | some base => lib.copy base
  | none => lib.optionDefbase.join.bind lib.copy

def ldapHostFilter : List Byte := bytes "(&(|(host=\\*)(host=%s))(uid=%s))"

def ldapServiceFilter : List Byte :=
  bytes "(&(|(host=\\*)(host=%s))(|(authorizedService=%s-\\*)(authorizedService=%s-%s))(uid=%s))"

/-- The text a format with `%s` conversions stands for. -/
def expandFormat : List Byte → List CString → List Byte
  | 37 :: 115 :: format, a :: args => a.bytes ++ expandFormat format args
  | c :: format, args => c :: expandFormat format args
  | [], _ => []

/-- `snprintf` into a buffer of the given size. -/
def snprintf (size : Nat) (format : List Byte) (args : List CString) : CString :=
  .ofList ((expandFormat format args).take (size - 1))

def getHostFilter (lib : LdapLib) (host user : Option CString) : Option CString :=
  match host, user with
  | some host, some user =>
    if host.bytes = [] ∨ user.bytes = [] then none
    else
      let fmtlen := host.bytes.length + user.bytes.length + ldapHostFilter.length
      if lib.malloc then some (snprintf fmtlen ldapHostFilter [host, user]) else none
  | _, _ => none

def getServiceFilter (lib : LdapLib) (host user tag : Option CString) : Option CString :=
  match host, user, tag with
  | some host, some user, some tag =>
    if host.bytes = [] ∨ user.bytes = [] ∨ tag.bytes = [] then none
    else
      let fmtlen := host.bytes.length * 2 + user.bytes.length + tag.bytes.length * 2 +
        ldapServiceFilter.length
      if lib.malloc then some (snprintf fmtlen ldapServiceFilter [host, tag, tag, host, user])
      else none
  | _, _, _ => none

/-- The entry lists the host, or all hosts. -/
def hostClause (host : List Byte) : Filter :=
  [equals (bytes "host") (bytes "*"), equals (bytes "host") host].foldr .or .bottom

/-- The entry lists the service of the tag for the host, or for all hosts. -/
def serviceClause (host tag : List Byte) : Filter :=
  [equals (bytes "authorizedService") (tag ++ bytes "-*"),
    equals (bytes "authorizedService") (tag ++ bytes "-" ++ host)].foldr .or .bottom

def hostFilter (host user : List Byte) : Filter :=
  [hostClause host, equals (bytes "uid") user].foldr .and .top

def serviceFilter (host user tag : List Byte) : Filter :=
  [hostClause host, serviceClause host tag, equals (bytes "uid") user].foldr .and .top

theorem zero_not_mem_expandFormat {format : List Byte} (args : List CString) (h : 0 ∉ format) :
    0 ∉ expandFormat format args := by
  fun_induction expandFormat format args with
  | case1 format a args ih =>
    have hrest := ih fun hm => h (by simp [hm])
    simp [a.noNul, hrest]
  | case2 c format args hne ih =>
    have hrest := ih fun hm => h (by simp [hm])
    have hc : 0 ≠ c := fun he => h (by simp [he])
    simp [hc, hrest]
  | case3 => simp

theorem expandFormat_text {l format : List Byte} {a : CString} {args : List CString} (hl : 37 ∉ l) :
    expandFormat (l ++ 37 :: 115 :: format) (a :: args) = l ++ (a.bytes ++ expandFormat format args) := by
  induction l with
  | nil => rw [List.nil_append, expandFormat, List.nil_append]
  | cons c l ih =>
    have hc : c ≠ 37 := fun he => hl (by simp [he])
    rw [List.cons_append, expandFormat, ih fun hm => hl (List.mem_cons_of_mem _ hm), List.cons_append]
    exact fun _ _ _ _ h _ => absurd h hc

theorem expandFormat_nil (l : List Byte) : expandFormat l [] = l := by
  induction l with
  | nil => rfl
  | cons c l ih =>
    rw [expandFormat, ih]
    exact fun _ _ _ h _ _ => absurd h (List.cons_ne_nil _ _).symm

private theorem snprintf_bytes {size : Nat} {format : List Byte} {args : List CString}
    (h0 : 0 ∉ format) (hfit : (expandFormat format args).length < size) :
    (snprintf size format args).bytes = expandFormat format args := by
  rw [snprintf, List.take_of_length_le (by omega),
    CString.ofList_bytes (zero_not_mem_expandFormat args h0)]

def hostText (host user : List Byte) : List Byte :=
  bytes "(&(|(host=\\*)(host=" ++ (host ++ (bytes "))(uid=" ++ (user ++ bytes "))")))

def serviceText (host user tag : List Byte) : List Byte :=
  bytes "(&(|(host=\\*)(host=" ++ (host ++ (bytes "))(|(authorizedService=" ++
    (tag ++ (bytes "-\\*)(authorizedService=" ++ (tag ++ (bytes "-" ++ (host ++
      (bytes "))(uid=" ++ (user ++ bytes "))")))))))))

theorem expandFormat_host (host user : CString) :
    expandFormat ldapHostFilter [host, user] = hostText host.bytes user.bytes := by
  have hformat : ldapHostFilter = bytes "(&(|(host=\\*)(host=" ++ 37 :: 115 ::
      (bytes "))(uid=" ++ 37 :: 115 :: bytes "))") := by decide +kernel
  rw [hformat, expandFormat_text (by decide), expandFormat_text (by decide), expandFormat_nil]
  rfl

theorem expandFormat_service (host user tag : CString) :
    expandFormat ldapServiceFilter [host, tag, tag, host, user] =
      serviceText host.bytes user.bytes tag.bytes := by
  have hformat : ldapServiceFilter = bytes "(&(|(host=\\*)(host=" ++ 37 :: 115 ::
      (bytes "))(|(authorizedService=" ++ 37 :: 115 :: (bytes "-\\*)(authorizedService=" ++ 37 :: 115 ::
        (bytes "-" ++ 37 :: 115 :: (bytes "))(uid=" ++ 37 :: 115 :: bytes "))")))) := by
    decide +kernel
  rw [hformat, expandFormat_text (by decide), expandFormat_text (by decide),
    expandFormat_text (by decide), expandFormat_text (by decide), expandFormat_text (by decide),
    expandFormat_nil]
  rfl

section
variable {lib : LdapLib} {host user tag filter : CString}

theorem getHostFilter_bytes (h : getHostFilter lib (some host) (some user) = some filter) :
    filter.bytes = hostText host.bytes user.bytes := by
  have hfit : (expandFormat ldapHostFilter [host, user]).length <
      host.bytes.length + user.bytes.length + ldapHostFilter.length := by
    rw [expandFormat_host]
    simp [hostText, bytes, ldapHostFilter]
    omega
  simp only [getHostFilter] at h
  split at h
  · simp at h
  · split at h
    · rw [← Option.some.inj h, snprintf_bytes (by decide +kernel) hfit, expandFormat_host]
    · simp at h

theorem getServiceFilter_bytes
    (h : getServiceFilter lib (some host) (some user) (some tag) = some filter) :
    filter.bytes = serviceText host.bytes user.bytes tag.bytes := by
  have hfit : (expandFormat ldapServiceFilter [host, tag, tag, host, user]).length <
      host.bytes.length * 2 + user.bytes.length + tag.bytes.length * 2 + ldapServiceFilter.length := by
    rw [expandFormat_service]
    simp [serviceText, bytes, ldapServiceFilter]
    omega
  simp only [getServiceFilter] at h
  split at h
  · simp at h
  · split at h
    · rw [← Option.some.inj h, snprintf_bytes (by decide +kernel) hfit, expandFormat_service]
    · simp at h

private theorem reads_hostClause {host : List Byte} (hplain : Plain host) :
    Reads 4 (bytes "(|(host=\\*)(host=" ++ (host ++ bytes "))")) (hostClause host) := by
  have hany : Reads 1 _ (equals (bytes "host") (bytes "*")) :=
    reads_equals (by decide) (by decide) (by decide) (readsValue_escaped 42)
  have hname : Reads 1 _ (equals (bytes "host") host) :=
    reads_equals (by decide) (by decide) (by decide) (readsValue_plain hplain)
  simpa [bytes, hostClause] using (hany.cons (hname.cons readsList_nil)).or

private theorem reads_userClause {user : List Byte} (hplain : Plain user) :
    Reads 1 (bytes "(uid=" ++ (user ++ bytes ")")) (equals (bytes "uid") user) := by
  have huid : Reads 1 _ (equals (bytes "uid") user) :=
    reads_equals (by decide) (by decide) (by decide) (readsValue_plain hplain)
  simpa [bytes] using huid

private theorem reads_serviceClause {host tag : List Byte} (hplain : Plain host) (hplain' : Plain tag) :
    Reads 4 (bytes "(|(authorizedService=" ++ (tag ++ (bytes "-\\*)(authorizedService=" ++
      (tag ++ (bytes "-" ++ (host ++ bytes "))")))))) (serviceClause host tag) := by
  have hdash : Plain (bytes "-") := by decide
  have hany : Reads 1 _ (equals (bytes "authorizedService") (tag ++ bytes "-*")) :=
    reads_equals (by decide) (by decide) (by decide)
      (by simpa [literal, bytes] using
        ((readsValue_escaped 42).plain_append hdash).plain_append hplain')
  have hname : Reads 1 _ (equals (bytes "authorizedService") (tag ++ bytes "-" ++ host)) :=
    reads_equals (by decide) (by decide) (by decide)
      (by simpa [literal, bytes] using
        ((readsValue_plain hplain).plain_append hdash).plain_append hplain')
  simpa [bytes, serviceClause] using (hany.cons (hname.cons readsList_nil)).or

theorem parse_hostText {host user : List Byte} (hplain : Plain host) (hplain' : Plain user) :
    parse (hostText host user) = some (hostFilter host user) := by
  have hread := ((reads_hostClause hplain).cons ((reads_userClause hplain').cons readsList_nil)).and
  refine Reads.parse (n := 6) ?_ ?_
  · simpa [hostText, bytes, hostFilter] using hread
  · simp [hostText, bytes]

theorem parse_serviceText {host user tag : List Byte} (hplain : Plain host) (hplain' : Plain user)
    (hplain'' : Plain tag) :
    parse (serviceText host user tag) = some (serviceFilter host user tag) := by
  have hread := ((reads_hostClause hplain).cons ((reads_serviceClause hplain hplain'').cons
    ((reads_userClause hplain').cons readsList_nil))).and
  refine Reads.parse (n := 7) ?_ ?_
  · simpa [serviceText, bytes, serviceFilter] using hread
  · simp [serviceText, bytes]

/-- The host filter is never cut off, and for plain names it is read as meant. -/
theorem getHostFilter_parse (hmalloc : lib.malloc = true) (hhost : host.bytes ≠ [])
    (huser : user.bytes ≠ []) (hplain : Plain host.bytes) (hplain' : Plain user.bytes) :
    ∃ filter, getHostFilter lib (some host) (some user) = some filter ∧
      parse filter.bytes = some (hostFilter host.bytes user.bytes) := by
  have hfilter : getHostFilter lib (some host) (some user) = some (snprintf
      (host.bytes.length + user.bytes.length + ldapHostFilter.length) ldapHostFilter [host, user]) := by
    simp only [getHostFilter, hhost, huser, hmalloc, or_self, if_false, if_true]
  exact ⟨_, hfilter, by rw [getHostFilter_bytes hfilter, parse_hostText hplain hplain']⟩

theorem getServiceFilter_parse (hmalloc : lib.malloc = true) (hhost : host.bytes ≠ [])
    (huser : user.bytes ≠ []) (htag : tag.bytes ≠ []) (hplain : Plain host.bytes)
    (hplain' : Plain user.bytes) (hplain'' : Plain tag.bytes) :
    ∃ filter, getServiceFilter lib (some host) (some user) (some tag) = some filter ∧
      parse filter.bytes = some (serviceFilter host.bytes user.bytes tag.bytes) := by
  have hfilter : getServiceFilter lib (some host) (some user) (some tag) = some (snprintf
      (host.bytes.length * 2 + user.bytes.length + tag.bytes.length * 2 + ldapServiceFilter.length)
      ldapServiceFilter [host, tag, tag, host, user]) := by
    simp only [getServiceFilter, hhost, huser, htag, hmalloc, or_self, if_false, if_true]
  exact ⟨_, hfilter, by
    rw [getServiceFilter_bytes hfilter, parse_serviceText hplain hplain' hplain'']⟩

/-- The service filter asks for more than the host filter. -/
theorem serviceFilter_eval {holds : Test → Bool} {host user tag : List Byte}
    (h : (serviceFilter host user tag).eval holds = true) :
    (hostFilter host user).eval holds = true := by
  simp only [serviceFilter, hostFilter, List.foldr_cons, List.foldr_nil, Filter.eval,
    Bool.and_eq_true] at h ⊢
  exact ⟨h.1, h.2.2⟩

end

/-- `if ( result != NULL ) { rc = ldap_msgfree( result ); }` -/
def msgfree (result : MessagePtr) : Traced LdapEvent Fault MessagePtr :=
  match result with
  | .null => pure .null
  | .live n => do
    Traced.emit (.msgfree (.live n))
    pure .released
  | .released => do
    Traced.emit (.msgfree .released)
    Traced.stop .invalidFree
  | .undefined => do
    Traced.emit (.msgfree .undefined)
    Traced.stop .indeterminate

def countEntries (result : MessagePtr) : Traced LdapEvent Fault Int := do
  Traced.emit (.count result)
  match result with
  | .null => pure 0
  | .live n => pure n
  | .released => Traced.stop .useAfterFree
  | .undefined => Traced.stop .indeterminate

/-- `if ( ld != NULL ) { .. ldap_unbind_ext( ld, NULL, NULL ) .. }` -/
def unbindLd (lib : LdapLib) (ld : Option Unit) : Traced LdapEvent Fault Unit := do
  Traced.emit (.cleanup .ld ld.isSome)
  match ld with
  | some () => Traced.emit .unbind
  | none => if lib.ldNull then pure () else Traced.stop .indeterminate

/-- `LDAP_FREE( filter )` -/
def freeFilter (lib : LdapLib) (filter : Option (Option CString)) : Traced LdapEvent Fault Unit := do
  Traced.emit (.cleanup .filter filter.isSome)
  if filter.isSome ∨ lib.filterNull then pure () else Traced.stop .indeterminate

/-- The code behind the label `clean_return`. A local is `none` where it was not assigned. -/
def cleanReturn (lib : LdapLib) (ld : Option Unit) (filter : Option (Option CString)) (auth : Int) :
    Traced LdapEvent Fault Int := do
  unbindLd lib ld
  freeFilter lib filter
  pure auth

/-- From the initialized connection to the answer. -/
def searchLdap (lib : LdapLib) (uri base filter : CString) : Traced LdapEvent Fault Int := do
  let reply := lib.bindReply uri
  Traced.emit (.bound reply.rc)
  let result := reply.deliver .null
  if 0 < reply.rc then
    let result ← msgfree result
    let reply := lib.searchReply base filter
    Traced.emit (.searched lib.searchRc reply.rc)
    let result := reply.deliver result
    let n ← countEntries result
    let auth := if n = 1 then ldapAuthSuccess else ldapAuthFailure
    let _ ← msgfree result
    cleanReturn lib (some ()) (some (some filter)) auth
  else
    let _ ← msgfree result
    cleanReturn lib (some ()) (some (some filter)) ldapAuthFailure

def getAuthLdap (lib : LdapLib) (options : Options) (user host tag : Option CString) :
    Traced LdapEvent Fault Int :=
  if options.useLdap = 0 then do
    Traced.emit .shortcut
    pure ldapAuthSuccess
  else
    match getLdapUri lib options with
    | none => cleanReturn lib none none ldapAuthFailure
    | some uri =>
      match getLdapBase lib options with
      | none => cleanReturn lib none none ldapAuthFailure
      | some base =>
        match (if tag = none then getHostFilter lib host user
            else getServiceFilter lib host user tag) with
        | none => cleanReturn lib none (some none) ldapAuthFailure
        | some filter => do
          Traced.emit (.initialized (lib.ldapInitialize uri))
          if lib.ldapInitialize uri then searchLdap lib uri base filter
          else cleanReturn lib none (some (some filter)) ldapAuthFailure

section
variable {lib : LdapLib} {options : Options} {user host tag : Option CString}

private theorem msgfree_run (result : MessagePtr) :
    (msgfree result).Run (· ≠ .shortcut) fun _ => True := by
  cases result with
  | null => exact Traced.run_pure trivial
  | live n => exact Traced.run_emit_bind (by simp) (Traced.run_pure trivial)
  | released => exact Traced.run_emit_bind (by decide) Traced.run_stop
  | undefined => exact Traced.run_emit_bind (by decide) Traced.run_stop

private theorem countEntries_run (result : MessagePtr) :
    (countEntries result).Run (· ≠ .shortcut) fun _ => True := by
  apply Traced.run_emit_bind (by simp)
  cases result with
  | null => exact Traced.run_pure trivial
  | live n => exact Traced.run_pure trivial
  | released => exact Traced.run_stop
  | undefined => exact Traced.run_stop

private theorem cleanReturn_run (ld : Option Unit) (filter : Option (Option CString)) {auth : Int}
    (hauth : auth = ldapAuthFailure ∨ auth = ldapAuthSuccess) :
    (cleanReturn lib ld filter auth).Run (· ≠ .shortcut)
      fun r => r = ldapAuthFailure ∨ r = ldapAuthSuccess := by
  have hunbind : (unbindLd lib ld).Run (· ≠ .shortcut) fun _ => True := by
    apply Traced.run_emit_bind (by simp)
    cases ld with
    | some u => exact Traced.run_emit (by decide) trivial
    | none =>
      change Traced.Run _ _ (if lib.ldNull then pure () else Traced.stop Fault.indeterminate)
      split
      · exact Traced.run_pure trivial
      · exact Traced.run_stop
  have hfree : (freeFilter lib filter).Run (· ≠ .shortcut) fun _ => True := by
    apply Traced.run_emit_bind (by simp)
    split
    · exact Traced.run_pure trivial
    · exact Traced.run_stop
  exact hunbind.bind fun _ _ => hfree.bind fun _ _ => Traced.run_pure hauth

private theorem searchLdap_run (uri base filter : CString) :
    (searchLdap lib uri base filter).Run (· ≠ .shortcut)
      fun r => r = ldapAuthFailure ∨ r = ldapAuthSuccess := by
  apply Traced.run_emit_bind (by simp)
  split
  · refine (msgfree_run _).bind fun result _ => ?_
    apply Traced.run_emit_bind (by simp)
    refine (countEntries_run _).bind fun n _ => ?_
    refine (msgfree_run _).bind fun _ _ => cleanReturn_run _ _ ?_
    split
    · exact Or.inr rfl
    · exact Or.inl rfl
  · exact (msgfree_run _).bind fun _ _ => cleanReturn_run _ _ (Or.inl rfl)

/-- With LDAP in use the shortcut is not taken, and the answer is failure or success. -/
theorem getAuthLdap_run (h : options.useLdap ≠ 0) :
    (getAuthLdap lib options user host tag).Run (· ≠ .shortcut)
      fun r => r = ldapAuthFailure ∨ r = ldapAuthSuccess := by
  rw [getAuthLdap, if_neg h]
  split
  · exact cleanReturn_run _ _ (Or.inl rfl)
  · split
    · exact cleanReturn_run _ _ (Or.inl rfl)
    · split
      · exact cleanReturn_run _ _ (Or.inl rfl)
      · apply Traced.run_emit_bind (by simp)
        split
        · exact searchLdap_run _ _ _
        · exact cleanReturn_run _ _ (Or.inl rfl)

/-- The library calls succeed, and the search delivers the entries that satisfy the filter, one
for each message. -/
structure LdapLib.Serves {Entry : Type} (lib : LdapLib) (options : Options)
    (directory : CString → List Entry) (holds : Entry → Test → Bool) : Prop where
  uri : ∃ uri, getLdapUri lib options = some uri
  base : ∃ base, getLdapBase lib options = some base
  malloc : lib.malloc = true
  connects : ∀ uri, lib.ldapInitialize uri = true
  binds : ∀ uri, 0 < (lib.bindReply uri).rc
  sends : lib.searchRc = 0
  answers : ∀ base filter f, parse filter.bytes = some f →
    0 < (lib.searchReply base filter).rc ∧
      (lib.searchReply base filter).entries =
        if ∃ e ∈ directory base, f.eval (holds e) = true then 1 else 0

private theorem searchLdap_result {uri base filter : CString} (hbind : 0 < (lib.bindReply uri).rc)
    (hsearch : 0 < (lib.searchReply base filter).rc) :
    (searchLdap lib uri base filter).result = .ok
      (if (lib.searchReply base filter).entries = 1 then ldapAuthSuccess else ldapAuthFailure) := by
  simp only [searchLdap, LdapReply.deliver, hbind, hsearch, if_true]
  rfl

/-- The answer is success exactly when some entry satisfies the filter. -/
theorem getAuthLdap_serves {Entry : Type} {directory : CString → List Entry}
    {holds : Entry → Test → Bool} (hs : lib.Serves options directory holds)
    (hldap : options.useLdap ≠ 0) :
    ∃ base, ∀ user host tag filter f,
      (if tag = none then getHostFilter lib host user else getServiceFilter lib host user tag) =
        some filter → parse filter.bytes = some f →
      (getAuthLdap lib options user host tag).result = .ok
        (if ∃ e ∈ directory base, f.eval (holds e) = true then ldapAuthSuccess
          else ldapAuthFailure) := by
  obtain ⟨uri, huri⟩ := hs.uri
  obtain ⟨base, hbase⟩ := hs.base
  refine ⟨base, ?_⟩
  intro user host tag filter f hfilter hparse
  obtain ⟨hrc, hentries⟩ := hs.answers base filter f hparse
  have hresult := searchLdap_result (hs.binds uri) hrc
  simp only [getAuthLdap, hldap, if_false, huri, hbase, hfilter, hs.connects uri, if_true,
    Traced.emit_bind, hresult, hentries]
  congr 1
  split <;> simp

end

end Stonesh
