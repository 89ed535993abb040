import Stonesh.AuthLdap
import Stonesh.AuthLocal.Grants
import Stonesh.Readconf.ConfigFile

/-!
# User authorization

`auth_user` chooses the backend by the authorization type and asks it in one of two modes. With
the options of an accepted configuration its answer is success or failure and nothing else, and
proxy mode asks for no less than bastion mode.
-/

namespace Stonesh

open CLib LdapFilter

def authBastion : Int := 1
def authProxy : Int := 2

def authError : Int := -1
def authFailure : Int := 0
def authSuccess : Int := 1

/-- The result is the return value and the two strings, which the local backend trims in place. -/
def authUser (lib : LdapLib) (files : CString → Option (List Byte)) (options : Options)
    (user host : Option CString) (mode : Int) : Traced LdapEvent Fault LocalAuth :=
  if options.enableProxy = 0 ∧ mode = authProxy then pure ⟨authFailure, user, host⟩
  else if options.authType = authTypeAny then pure ⟨authSuccess, user, host⟩
  else if options.authType = authTypeLocal then
    if mode = authProxy ∧ options.disableProxyAuthorization = 0 then
      Traced.lift id (getAuthFile files user host options.usersFile 1)
    else Traced.lift id (getAuthFile files user host options.usersFile 0)
  else if options.authType = authTypeLdap then do
    let auth ← if mode = authProxy ∧ options.disableProxyAuthorization = 0 then
        getAuthLdap lib options user host options.authorizedServiceTag
      else getAuthLdap lib options user host none
    pure ⟨auth, user, host⟩
  else pure ⟨authError, user, host⟩

section
variable {o : Options}

theorem Options.Accepted.authType_cases (ho : o.Accepted) :
    o.authType = authTypeAny ∨ o.authType = authTypeLocal ∨
      o.authType = authTypeLdap ∧ o.useLdap ≠ 0 := by
  by_cases hany : o.disableAuthorization = 1
  · exact Or.inl (ho.authAny.mpr hany)
  · by_cases hldap : o.useLdap = 1
    · exact Or.inr (Or.inr ⟨(ho.authLdap hany).mpr hldap, by omega⟩)
    · exact Or.inr (Or.inl ((ho.authLocal hany).mpr hldap))

theorem Options.Accepted.usersFile_some (ho : o.Accepted) : ∃ file, o.usersFile = some file := by
  obtain ⟨file, hfile, -⟩ := ho.strings .usersFile (by decide) (by decide)
  exact ⟨file, hfile⟩

end

section
variable (lib : LdapLib) {files : CString → Option (List Byte)} {o : Options}

private theorem getAuthFile_returns {user host file : Option CString} {proxy : Int} {r : LocalAuth}
    (h : getAuthFile files user host file proxy = .ok r) :
    (r.auth = authFailure ∨ r.auth = authSuccess) ∧
      (r.user = user ∨ r.user = user.map trimmedString) ∧
      (r.host = host ∨ r.host = host.map trimmedString) := by
  have hnull (hrun : getAuthFile files user host file proxy = .ok ⟨authLocalFailure, user, host⟩) :
      r = ⟨authLocalFailure, user, host⟩ := Except.ok.inj (h.symm.trans hrun)
  cases user with
  | none =>
    rw [hnull rfl]
    exact ⟨Or.inl rfl, Or.inl rfl, Or.inl rfl⟩
  | some user =>
    cases host with
    | none =>
      rw [hnull rfl]
      exact ⟨Or.inl rfl, Or.inl rfl, Or.inl rfl⟩
    | some host =>
      cases file with
      | none =>
        rw [hnull rfl]
        exact ⟨Or.inl rfl, Or.inl rfl, Or.inl rfl⟩
      | some file =>
        cases hfile : files file with
        | none =>
          rw [hnull (getAuthFile_unreadable hfile user host proxy)]
          exact ⟨Or.inl rfl, Or.inl rfl, Or.inl rfl⟩
        | some content =>
          rw [getAuthFile_eq hfile] at h
          rw [← Except.ok.inj h]
          refine ⟨?_, Or.inr rfl, Or.inr rfl⟩
          split
          · exact Or.inr rfl
          · exact Or.inl rfl

/-- What `auth_user` can return with accepted options: it denies or permits, it has not taken the
shortcut of the LDAP backend, and it has changed the two names by no more than trimming. -/
theorem authUser_run (files : CString → Option (List Byte)) (ho : o.Accepted) (user host : Option CString) (mode : Int) :
    (authUser lib files o user host mode).Run (· ≠ .shortcut) fun r =>
      (r.auth = authFailure ∨ r.auth = authSuccess) ∧
        (r.user = user ∨ r.user = user.map trimmedString) ∧
        (r.host = host ∨ r.host = host.map trimmedString) := by
  have hlocal (proxy : Int) :
      (Traced.lift id (getAuthFile files user host o.usersFile proxy) :
        Traced LdapEvent Fault LocalAuth).Run (· ≠ .shortcut) fun r =>
          (r.auth = authFailure ∨ r.auth = authSuccess) ∧
            (r.user = user ∨ r.user = user.map trimmedString) ∧
            (r.host = host ∨ r.host = host.map trimmedString) := by
    refine ⟨by simp, ?_⟩
    intro r hr
    exact getAuthFile_returns (Traced.lift_result_eq_ok.mp hr)
  unfold authUser
  split
  · exact Traced.run_pure ⟨Or.inl rfl, Or.inl rfl, Or.inl rfl⟩
  · rcases ho.authType_cases with htype | htype | ⟨htype, hldap⟩
    · rw [if_pos htype]
      exact Traced.run_pure ⟨Or.inr rfl, Or.inl rfl, Or.inl rfl⟩
    · rw [htype, if_neg (by decide), if_pos rfl]
      split
      · exact hlocal 1
      · exact hlocal 0
    · rw [htype, if_neg (by decide), if_neg (by decide), if_pos rfl]
      split
      · exact (getAuthLdap_run hldap).bind fun a ha => Traced.run_pure ⟨ha, Or.inl rfl, Or.inl rfl⟩
      · exact (getAuthLdap_run hldap).bind fun a ha => Traced.run_pure ⟨ha, Or.inl rfl, Or.inl rfl⟩

end

/-- Every configuration that is accepted leaves valid options, from which no user, host or mode
leads to `AUTH_ERROR` or to the shortcut. -/
theorem authUser_of_readConfigFile {files : CString → Option (List Byte)} {filename : CString}
    {options o : Options} (h : readConfigFile files filename options = .ok (1, o)) :
    o.Accepted ∧
      ∀ (lib : LdapLib) (files : CString → Option (List Byte)) (user host : Option CString) (mode : Int),
        .shortcut ∉ (authUser lib files o user host mode).trace ∧
        ∀ r, (authUser lib files o user host mode).result = .ok r → r.auth ≠ authError := by
  have ho := readConfigFile_accepted h
  refine ⟨ho, ?_⟩
  intro lib files user host mode
  have hrun := authUser_run lib files ho user host mode
  constructor
  · intro hmem
    exact hrun.events _ hmem rfl
  · intro r hr
    rcases (hrun.value r hr).1 with hauth | hauth
    · rw [hauth]
      decide
    · rw [hauth]
      decide

def ldapOptions : Options :=
  fillDefaultOptions { initializeOptions with useLdap := 1, enableProxy := 1 }

private theorem readConfigFile_ldapOptions :
    readConfigFile (fun _ => some (bytes "useLDAP yes\nenableProxy=yes\n")) (.lit "stonesh.conf")
      initializeOptions = .ok (1, ldapOptions) := by
  decide +kernel

theorem authUser_of_readConfigFile_ldap :
    ldapOptions.Accepted ∧
      ∀ (lib : LdapLib) (files : CString → Option (List Byte)) (user host : Option CString) (mode : Int),
        .shortcut ∉ (authUser lib files ldapOptions user host mode).trace ∧
        ∀ r, (authUser lib files ldapOptions user host mode).result = .ok r → r.auth ≠ authError :=
  authUser_of_readConfigFile readConfigFile_ldapOptions

section
variable {lib : LdapLib} {files : CString → Option (List Byte)} {o : Options}

/-- A name that cannot change the filter it is put into. -/
def FilterSafe (s : CString) : Prop := s.bytes ≠ [] ∧ Plain s.bytes

private theorem getAuthFile_modes (files : CString → Option (List Byte)) (user host file : CString) :
    ∃ proxy bastion, getAuthFile files (some user) (some host) (some file) 1 = .ok proxy ∧
      getAuthFile files (some user) (some host) (some file) 0 = .ok bastion ∧
      (proxy.auth = authSuccess → bastion.auth = authSuccess) := by
  obtain ⟨proxy, hproxy, hauth⟩ := getAuthFile_auth files user host file 1
  obtain ⟨bastion, hbastion, hauth'⟩ := getAuthFile_auth files user host file 0
  refine ⟨proxy, bastion, hproxy, hbastion, ?_⟩
  rw [hauth, hauth']
  intro hsuccess
  split at hsuccess
  · next hadmits =>
    obtain ⟨line, hline, hrecord⟩ := hadmits
    exact if_pos ⟨line, hline, hrecord.bastion⟩
  · exact absurd hsuccess (by decide)

private theorem getAuthLdap_modes {Entry : Type} {directory : CString → List Entry}
    {holds : Entry → Test → Bool} {user host tag : CString} (hs : lib.Serves o directory holds)
    (hldap : o.useLdap ≠ 0) (huser : FilterSafe user) (hhost : FilterSafe host)
    (htag : FilterSafe tag) :
    ∃ proxy bastion,
      (getAuthLdap lib o (some user) (some host) (some tag)).result = .ok proxy ∧
      (getAuthLdap lib o (some user) (some host) none).result = .ok bastion ∧
      (proxy = authSuccess → bastion = authSuccess) := by
  obtain ⟨base, hanswer⟩ := getAuthLdap_serves hs hldap
  obtain ⟨filter, hfilter, hparse⟩ :=
    getHostFilter_parse hs.malloc hhost.1 huser.1 hhost.2 huser.2
  obtain ⟨filter', hfilter', hparse'⟩ :=
    getServiceFilter_parse hs.malloc hhost.1 huser.1 htag.1 hhost.2 huser.2 htag.2
  refine ⟨_, _, hanswer _ _ _ filter' _ hfilter' hparse', hanswer _ _ _ filter _ hfilter hparse, ?_⟩
  intro hsuccess
  split at hsuccess
  · next hentry =>
    obtain ⟨e, he, heval⟩ := hentry
    exact if_pos ⟨e, he, serviceFilter_eval heval⟩
  · exact absurd hsuccess (by decide)

private theorem modes_of_backend {user host : Option CString}
    {strict lax : Traced LdapEvent Fault LocalAuth}
    (hproxy : authUser lib files o user host authProxy =
      if o.enableProxy = 0 then pure ⟨authFailure, user, host⟩
      else if o.disableProxyAuthorization = 0 then strict else lax)
    (hbastion : authUser lib files o user host authBastion = lax)
    (hle : ∃ r s, strict.result = .ok r ∧ lax.result = .ok s ∧
      (r.auth = authSuccess → s.auth = authSuccess)) :
    ∃ proxy bastion,
      (authUser lib files o user host authProxy).result = .ok proxy ∧
      (authUser lib files o user host authBastion).result = .ok bastion ∧
      (proxy.auth = authSuccess → bastion.auth = authSuccess) ∧
      (o.enableProxy = 1 → o.disableProxyAuthorization = 1 → proxy.auth = bastion.auth) := by
  obtain ⟨r, s, hr, hs, himp⟩ := hle
  rw [hproxy, hbastion]
  by_cases hoff : o.enableProxy = 0
  · rw [if_pos hoff]
    refine ⟨_, s, rfl, hs, ?_, ?_⟩
    · intro h
      exact absurd h (by simp [authFailure, authSuccess])
    · intro h
      omega
  · rw [if_neg hoff]
    by_cases hown : o.disableProxyAuthorization = 0
    · rw [if_pos hown]
      refine ⟨r, s, hr, hs, himp, ?_⟩
      intro _ h
      omega
    · rw [if_neg hown]
      exact ⟨s, s, hs, hs, id, fun _ _ => rfl⟩

/-- Whoever is permitted in proxy mode is permitted in bastion mode, and where proxy mode is
enabled without an authorization of its own the two modes agree. -/
theorem authUser_proxy_le_bastion {config : CString → Option (List Byte)} {filename : CString}
    {options : Options} (h : readConfigFile config filename options = .ok (1, o))
    (user host : CString) {Entry : Type} {directory : CString → List Entry}
    {holds : Entry → Test → Bool}
    (hserves : o.authType = authTypeLdap → lib.Serves o directory holds)
    (hsafe : o.authType = authTypeLdap → FilterSafe user ∧ FilterSafe host ∧
      ∀ tag ∈ o.authorizedServiceTag, FilterSafe tag) :
    ∃ proxy bastion,
      (authUser lib files o (some user) (some host) authProxy).result = .ok proxy ∧
      (authUser lib files o (some user) (some host) authBastion).result = .ok bastion ∧
      (proxy.auth = authSuccess → bastion.auth = authSuccess) ∧
      (o.enableProxy = 1 → o.disableProxyAuthorization = 1 → proxy.auth = bastion.auth) := by
  have ho := readConfigFile_accepted h
  have hmode : authBastion ≠ authProxy := by decide
  rcases ho.authType_cases with htype | htype | ⟨htype, hldap⟩
  · have hle : ∃ r s, (pure ⟨authSuccess, some user, some host⟩ :
        Traced LdapEvent Fault LocalAuth).result = .ok r ∧
        (pure ⟨authSuccess, some user, some host⟩ : Traced LdapEvent Fault LocalAuth).result = .ok s ∧
        (r.auth = authSuccess → s.auth = authSuccess) := ⟨_, _, rfl, rfl, id⟩
    refine modes_of_backend ?_ ?_ hle
    · simp [authUser, htype]
    · simp [authUser, htype, hmode]
  · obtain ⟨file, hfile⟩ := ho.usersFile_some
    obtain ⟨proxy, bastion, hproxy, hbastion, himp⟩ :=
      getAuthFile_modes files user host file
    have hle : ∃ r s,
        (Traced.lift id (getAuthFile files (some user) (some host) o.usersFile 1) :
          Traced LdapEvent Fault LocalAuth).result = .ok r ∧
        (Traced.lift id (getAuthFile files (some user) (some host) o.usersFile 0) :
          Traced LdapEvent Fault LocalAuth).result = .ok s ∧
        (r.auth = authSuccess → s.auth = authSuccess) := by
      rw [hfile]
      exact ⟨proxy, bastion, Traced.lift_result_eq_ok.mpr hproxy,
        Traced.lift_result_eq_ok.mpr hbastion, himp⟩
    refine modes_of_backend ?_ ?_ hle
    · simp [authUser, htype, authTypeLocal, authTypeAny]
    · simp [authUser, htype, authTypeLocal, authTypeAny, hmode]
  · obtain ⟨tag, htag, -⟩ := ho.strings .authorizedServiceTag (by decide) (by decide)
    obtain ⟨huser, hhost, hsafeTag⟩ := hsafe htype
    obtain ⟨proxy, bastion, hproxy, hbastion, himp⟩ :=
      getAuthLdap_modes (hserves htype) hldap huser hhost (hsafeTag tag htag)
    have hle : ∃ r s,
        (getAuthLdap lib o (some user) (some host) o.authorizedServiceTag >>= fun auth =>
          pure (LocalAuth.mk auth (some user) (some host))).result = .ok r ∧
        (getAuthLdap lib o (some user) (some host) none >>= fun auth =>
          pure (LocalAuth.mk auth (some user) (some host))).result = .ok s ∧
        (r.auth = authSuccess → s.auth = authSuccess) := by
      have htag' : o.authorizedServiceTag = some tag := htag
      rw [htag']
      exact ⟨_, _, Traced.result_bind_eq_ok.mpr ⟨proxy, hproxy, rfl⟩,
        Traced.result_bind_eq_ok.mpr ⟨bastion, hbastion, rfl⟩, himp⟩
    refine modes_of_backend ?_ ?_ hle
    · by_cases hown : o.disableProxyAuthorization = 0
      · simp [authUser, htype, authTypeLdap, authTypeLocal, authTypeAny, hown]
      · simp [authUser, htype, authTypeLdap, authTypeLocal, authTypeAny, hown]
    · simp [authUser, htype, authTypeLdap, authTypeLocal, authTypeAny, hmode]

/-- A directory of one entry: bob, who may use every host and the proxy service for `web`. -/
def bobEntry : List (List Byte × List Byte) :=
  [(bytes "uid", bytes "bob"), (bytes "host", bytes "*"), (bytes "authorizedService", bytes "proxy-web")]

def bobLdap : LdapLib where
  optionUri := some (some (.lit "ldap://localhost"))
  optionDefbase := some (some (.lit "dc=example"))
  strdup _ := true
  malloc := true
  ldapInitialize _ := true
  bindReply _ := ⟨97, 0, none⟩
  searchRc := 0
  searchReply _ filter :=
    match parse filter.bytes with
    | none => ⟨-1, 0, none⟩
    | some f =>
      if f.eval fun t => t.comparison = .equal ∧ ∃ a ∈ bobEntry, a.1 = t.attr ∧ literal a.2 = t.value
      then ⟨100, 1, none⟩ else ⟨101, 0, none⟩
  ldNull := false
  filterNull := false

private theorem bobLdap_serves (o : Options) (huri : o.ldapUri = none) (hbase : o.ldapBase = none) :
    bobLdap.Serves o (fun _ => [bobEntry])
      (fun e t => t.comparison = .equal ∧ ∃ a ∈ e, a.1 = t.attr ∧ literal a.2 = t.value) where
  uri := ⟨_, by rw [getLdapUri, huri]; rfl⟩
  base := ⟨_, by rw [getLdapBase, hbase]; rfl⟩
  malloc := rfl
  connects _ := rfl
  binds _ := (by decide : (0 : Int) < 97)
  sends := rfl
  answers base filter f hf := by
    simp only [bobLdap, hf, List.mem_singleton, exists_eq_left]
    split <;> simp

/-- Bob asks for `web` in the two modes. -/
theorem authUser_proxy_le_bastion_bob :
    ∃ proxy bastion,
      (authUser bobLdap (fun _ => none) ldapOptions (some (.lit "bob")) (some (.lit "web"))
        authProxy).result = .ok proxy ∧
      (authUser bobLdap (fun _ => none) ldapOptions (some (.lit "bob")) (some (.lit "web"))
        authBastion).result = .ok bastion ∧
      (proxy.auth = authSuccess → bastion.auth = authSuccess) ∧
      (ldapOptions.enableProxy = 1 → ldapOptions.disableProxyAuthorization = 1 →
        proxy.auth = bastion.auth) := by
  have hsafe : ∀ s ∈ [CString.lit "bob", .lit "web", .lit "proxy"], FilterSafe s := by
    unfold FilterSafe
    decide
  refine authUser_proxy_le_bastion readConfigFile_ldapOptions (.lit "bob") (.lit "web")
    (fun _ => bobLdap_serves ldapOptions rfl rfl) (fun _ => ⟨hsafe _ (by simp), hsafe _ (by simp), ?_⟩)
  intro tag htag
  have heq : tag = .lit "proxy" := (Option.mem_some_iff.mp htag).symm
  exact heq ▸ hsafe _ (by simp)

end

end Stonesh
