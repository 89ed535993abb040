import Stonesh.Backends
import Stonesh.Main.Execution

/-!
# What a run looks at in the files

A run reads three files, the one with the configuration and the two that are named there. Of the
hosts file it depends on the records for its own host alone, and of the users file on the records
whose user begins like its own; whatever else is written there makes no difference to it.
-/

namespace Stonesh

open CLib

def hostRecords (content : List Byte) (host : CString) : List (List Byte) :=
  (records content).filter fun text => (Word.field 58 (some text)).text = some host

/-- The records of a users file for users whose names begin with the user. -/
def userRecords (content user : List Byte) : List (List Byte) :=
  (records content).filter fun text => Extends user (UserRecord.parse text).user

/-- The files agree on what a run of the user for the host looks up. -/
structure SameFor (files files' : CString → Option (List Byte)) (o : Options) (user host : CString) :
    Prop where
  hosts : ∀ file ∈ o.hostsFile,
    hostRecords (contentOf files file) host = hostRecords (contentOf files' file) host
  users : ∀ file ∈ o.usersFile, userRecords (contentOf files file) (trimmed user.bytes) =
    userRecords (contentOf files' file) (trimmed user.bytes)

def LooksUp (w : World) (fuel : Nat) (user : CString) (o : Options) (host : CString) : Prop :=
  w.user = some user ∧ ∃ cl command, commandLine w = .ok cl ∧ loadOptions w cl = .ok o ∧
    parseCommand o cl.cval = .ok command ∧ hostName w fuel o command = .ok host

private theorem except_bind_congr {ε α β : Type} {x : Except ε α} {f g : α → Except ε β}
    (h : ∀ a, x = .ok a → f a = g a) : (x >>= f) = (x >>= g) := by
  cases x with
  | error e => rfl
  | ok a => exact h a rfl

private theorem traced_bind_congr {ε σ α β : Type} {x : Traced ε σ α} {f g : α → Traced ε σ β}
    (h : ∀ a, x.result = .ok a → f a = g a) : (x >>= f) = (x >>= g) := by
  cases hx : x.result with
  | error e => rw [Traced.bind_of_error hx, Traced.bind_of_error hx]
  | ok a => rw [Traced.bind_of_ok hx, Traced.bind_of_ok hx, h a hx]

section
variable {files files' : CString → Option (List Byte)} {content content' user host : List Byte}
  {hostname : CString}

theorem lookupHost_eq_head (content : List Byte) (hostname : CString) :
    lookupHost content hostname = (hostRecords content hostname).head?.map HostEntry.parse := by
  rw [lookupHost, hostRecords, List.head?_filter]

theorem fileAdmits_iff_userRecords (proxy : Int) : FileAdmits content user host proxy ↔
    ∃ text ∈ userRecords content user, (UserRecord.parse text).Admits user host proxy := by
  simp only [FileAdmits, userRecords, List.mem_filter, decide_eq_true_eq]
  constructor
  · rintro ⟨text, htext, hadmits⟩
    exact ⟨text, ⟨htext, hadmits.1⟩, hadmits⟩
  · rintro ⟨text, ⟨htext, -⟩, hadmits⟩
    exact ⟨text, htext, hadmits⟩

theorem gethostentry_congr {he : HostEntry} {hostsFile : Option CString}
    (h : ∀ file ∈ hostsFile,
      hostRecords (contentOf files file) hostname = hostRecords (contentOf files' file) hostname) :
    gethostentry files' he (some hostname) hostsFile = gethostentry files he (some hostname) hostsFile := by
  cases hostsFile with
  | none => rfl
  | some file =>
    rw [gethostentry_eq, gethostentry_eq, lookupHost_eq_head, lookupHost_eq_head, h file rfl]

private theorem getAuthFile_unlisted {file : CString} {content : List Byte} (hfile : files file = some content)
    {user : CString} (hnone : userRecords content (trimmed user.bytes) = []) (host : CString) (proxy : Int) :
    getAuthFile files (some user) (some host) (some file) proxy =
      .ok ⟨authLocalFailure, some (trimmedString user), some (trimmedString host)⟩ := by
  have hnot : ¬ FileAdmits content (trimmed user.bytes) (trimmed host.bytes) proxy := by
    rw [fileAdmits_iff_userRecords, hnone]
    rintro ⟨text, htext, -⟩
    exact List.not_mem_nil htext
  rw [getAuthFile_eq hfile, if_neg hnot]

-- a file that cannot be opened and one without a record for the user refuse alike, but only the
-- second one has the arguments trimmed
private theorem getAuthFile_congr {user : CString} {host : Option CString} {usersFile : Option CString}
    (h : ∀ file ∈ usersFile, userRecords (contentOf files file) (trimmed user.bytes) =
      userRecords (contentOf files' file) (trimmed user.bytes)) (proxy : Int) :
    getAuthFile files' (some user) host usersFile proxy =
        getAuthFile files (some user) host usersFile proxy ∨
      ∃ r r', getAuthFile files (some user) host usersFile proxy = .ok r ∧
        getAuthFile files' (some user) host usersFile proxy = .ok r' ∧
        r.auth = authLocalFailure ∧ r'.auth = authLocalFailure := by
  cases host with
  | none => exact Or.inl rfl
  | some host =>
    cases usersFile with
    | none => exact Or.inl rfl
    | some file =>
      have hrecords := h file rfl
      have hempty : userRecords [] (trimmed user.bytes) = [] := rfl
      cases hfile : files file with
      | none =>
        cases hfile' : files' file with
        | none =>
          rw [getAuthFile_unreadable hfile, getAuthFile_unreadable hfile']
          exact Or.inl rfl
        | some content' =>
          rw [contentOf, contentOf, hfile, hfile', Option.getD_none, Option.getD_some, hempty] at hrecords
          exact Or.inr ⟨_, _, getAuthFile_unreadable hfile user host proxy,
            getAuthFile_unlisted hfile' hrecords.symm host proxy, rfl, rfl⟩
      | some content =>
        cases hfile' : files' file with
        | none =>
          rw [contentOf, contentOf, hfile, hfile', Option.getD_none, Option.getD_some, hempty] at hrecords
          exact Or.inr ⟨_, _, getAuthFile_unlisted hfile hrecords host proxy,
            getAuthFile_unreadable hfile' user host proxy, rfl, rfl⟩
        | some content' =>
          rw [contentOf, contentOf, hfile, hfile', Option.getD_some, Option.getD_some] at hrecords
          refine Or.inl ?_
          rw [getAuthFile_eq hfile, getAuthFile_eq hfile']
          simp only [fileAdmits_iff_userRecords, hrecords]

private theorem authUser_congr (lib : LdapLib) {o : Options} {user : CString}
    (h : ∀ file ∈ o.usersFile, userRecords (contentOf files file) (trimmed user.bytes) =
      userRecords (contentOf files' file) (trimmed user.bytes)) (host : Option CString) (mode : Int) :
    authUser lib files' o (some user) host mode = authUser lib files o (some user) host mode ∨
      ∃ r r', authUser lib files o (some user) host mode = pure r ∧
        authUser lib files' o (some user) host mode = pure r' ∧
        r.auth = authFailure ∧ r'.auth = authFailure := by
  by_cases hgate : o.enableProxy = 0 ∧ mode = authProxy
  · rw [authUser, authUser, if_pos hgate]
    exact Or.inl (if_pos hgate).symm
  by_cases hlocal : o.authType = authTypeLocal
  · rw [authUser_local hlocal hgate, authUser_local hlocal hgate]
    rcases getAuthFile_congr h (proxyArg (AsksForMark o mode)) with heq | ⟨r, r', hr, hr', hauth, hauth'⟩
    · rw [heq]
      exact Or.inl rfl
    · rw [hr, hr']
      exact Or.inr ⟨r, r', rfl, rfl, hauth, hauth'⟩
  · refine Or.inl ?_
    unfold authUser
    simp only [if_neg hlocal]

end

section
variable {w : World} {fuel : Nat} {files' : CString → Option (List Byte)}

private theorem readOptions_files (opts : List Opt) (cl : CommandLine) :
    readOptions { w with files := files' } opts cl = readOptions w opts cl := by
  induction opts generalizing cl with
  | nil => rfl
  | cons opt opts ih =>
    cases opt with
    | unknown c => exact ih cl
    | option c optarg =>
      rw [readOptions, readOptions, ih, ih, ih]
      rfl

private theorem commandLine_files : commandLine { w with files := files' } = commandLine w :=
  readOptions_files _ _

private theorem loadOptions_congr {cl : CommandLine}
    (h : ∀ file, configFile w cl = .ok file → files' file = w.files file) :
    loadOptions { w with files := files' } cl = loadOptions w cl := by
  have hname : configFile { w with files := files' } cl = configFile w cl := rfl
  rw [loadOptions, loadOptions, hname]
  refine except_bind_congr fun file hfile => ?_
  have hread : readConfigFile files' file staticOptions = readConfigFile w.files file staticOptions := by
    rw [readConfigFile, readConfigFile, h file (checked_eq_ok.mp hfile)]
  rw [hread]

private theorem prepare_congr
    (hconfig : ∀ cl file, commandLine w = .ok cl → configFile w cl = .ok file → files' file = w.files file)
    (hsame : ∀ user o host, LooksUp w fuel user o host → SameFor w.files files' o user host) :
    prepare { w with files := files' } fuel = prepare w fuel := by
  unfold prepare
  cases huser : w.user with
  | none => rfl
  | some user =>
    simp only
    refine except_bind_congr fun rhost _ => ?_
    rw [← huser, commandLine_files]
    refine except_bind_congr fun cl hline => ?_
    have hload := loadOptions_congr fun file hfile => hconfig cl file hline hfile
    rw [hload]
    refine except_bind_congr fun o ho => except_bind_congr fun _ _ =>
      except_bind_congr fun command hcommand => except_bind_congr fun host hhost => ?_
    have hagree := hsame user o host ⟨huser, cl, command, hline, ho, hcommand, hhost⟩
    have hentry : findEntry { w with files := files' } { o with host := some host } host =
        findEntry w { o with host := some host } host := by
      rw [findEntry, findEntry, gethostentry_congr hagree.hosts]
    rw [hentry]

private theorem looksUp_of_prepare {p : Prepared} (h : prepare w fuel = .ok p) :
    ∃ o, LooksUp w fuel p.user o p.host ∧ p.options = { o with host := some p.host } := by
  unfold prepare at h
  cases huser : w.user with
  | none => simp [huser] at h
  | some user =>
    simp only [huser] at h
    obtain ⟨rhost, -, h⟩ := except_bind_eq_ok.mp h
    obtain ⟨cl, hline, h⟩ := except_bind_eq_ok.mp h
    obtain ⟨o, hload, h⟩ := except_bind_eq_ok.mp h
    obtain ⟨-, -, h⟩ := except_bind_eq_ok.mp h
    obtain ⟨command, hcommand, h⟩ := except_bind_eq_ok.mp h
    obtain ⟨host, hhost, h⟩ := except_bind_eq_ok.mp h
    obtain ⟨entry, -, h⟩ := except_bind_eq_ok.mp h
    rw [← Except.ok.inj h]
    exact ⟨o, ⟨huser, cl, command, hline, hload, hcommand, hhost⟩, rfl⟩

private theorem authorize_denied {p : Prepared} {r : LocalAuth}
    (hr : authUser w.ldap w.files p.options (some p.user) p.entry.host p.authMode = pure r)
    (hauth : r.auth = authFailure) :
    authorize w p =
      ⟨[.authUser (some p.user) p.entry.host p.authMode], .error (.cleanExit exitSuccess .static)⟩ := by
  have hcheck : checkCountry w p r.auth = .ok 0 := by
    rw [hauth, checkCountry]
    cases p.entry.countries with
    | none => rfl
    | some countries =>
      cases p.rhost with
      | none => rfl
      | some rhost => rfl
  have hembed : (Traced.embed .ldap .fault (pure r : Traced LdapEvent Fault LocalAuth) :
      Traced MainEvent Stop LocalAuth) = pure r := rfl
  rw [authorize, hr]
  simp only [hembed, Traced.pure_bind_eq, hcheck]
  rfl

-- where both refuse, what is left of the arguments is not looked at
private theorem authorize_congr {p : Prepared}
    (h : ∀ file ∈ p.options.usersFile, userRecords (contentOf w.files file) (trimmed p.user.bytes) =
      userRecords (contentOf files' file) (trimmed p.user.bytes)) :
    authorize { w with files := files' } p = authorize w p := by
  rcases authUser_congr (w.ldap) h p.entry.host p.authMode with heq | ⟨r, r', hr, hr', hauth, hauth'⟩
  · rw [authorize, authorize, heq]
    rfl
  · rw [authorize_denied hr hauth]
    exact @authorize_denied { w with files := files' } p r' hr' hauth'

/-- A run does not change when anything else is edited: with the same configuration, the same
records for its host and the same records for users whose names begin with its user, a run makes
the same calls, hands over the same arguments and ends in the same way. -/
theorem main_isolated
    (hconfig : ∀ cl file, commandLine w = .ok cl → configFile w cl = .ok file → files' file = w.files file)
    (hsame : ∀ user o host, LooksUp w fuel user o host → SameFor w.files files' o user host) :
    main { w with files := files' } fuel = main w fuel := by
  have hrun : run { w with files := files' } fuel = run w fuel := by
    rw [run, run, prepare_congr hconfig hsame]
    refine traced_bind_congr fun p hp => ?_
    obtain ⟨o, hasked, hoptions⟩ := looksUp_of_prepare (Traced.lift_result_eq_ok.mp hp)
    have hagree := hsame p.user o p.host hasked
    have hfile : p.options.usersFile = o.usersFile := by rw [hoptions]
    rw [authorize_congr (hfile ▸ hagree.users)]
    rfl
  rw [main, main, hrun]
  rfl

end

/-- Other hosts and other users come and go, and a comment. -/
theorem main_isolated_bob :
    main { bobWorld "web ls -l" "" "web:2222\n" "bob:web\n" with
      files := (bobWorld "web ls -l" "" "# hosts\ndb\nweb:2222\n" "alice:web+,db\nbob:web\n").files } 1 =
      main (bobWorld "web ls -l" "" "web:2222\n" "bob:web\n") 1 := by
  have hline : commandLine (bobWorld "web ls -l" "" "web:2222\n" "bob:web\n") =
      .ok ⟨some (.lit "web ls -l"), none, 0⟩ := by decide +kernel
  apply main_isolated
  · intro cl file hcl hfile
    rw [← Except.ok.inj (hline.symm.trans hcl)] at hfile
    rw [← Except.ok.inj hfile]
    rfl
  · rintro user o host ⟨huser, cl, command, hcl, ho, hcommand, hhost⟩
    have hload : loadOptions (bobWorld "web ls -l" "" "web:2222\n" "bob:web\n")
        ⟨some (.lit "web ls -l"), none, 0⟩ = .ok (fillDefaultOptions initializeOptions) := by decide +kernel
    have hparse : parseCommand (fillDefaultOptions initializeOptions) (some (.lit "web ls -l")) =
        .ok ⟨some (.lit "web"), some (.lit "web"), some (.lit "ls -l"), 0⟩ := by decide +kernel
    have hname : hostName (bobWorld "web ls -l" "" "web:2222\n" "bob:web\n") 1
        (fillDefaultOptions initializeOptions)
        ⟨some (.lit "web"), some (.lit "web"), some (.lit "ls -l"), 0⟩ = .ok (.lit "web") := by decide +kernel
    obtain rfl := Except.ok.inj (hline.symm.trans hcl)
    obtain rfl := Except.ok.inj (hload.symm.trans ho)
    obtain rfl := Except.ok.inj (hparse.symm.trans hcommand)
    obtain rfl := Except.ok.inj (hname.symm.trans hhost)
    obtain rfl := Option.some.inj huser
    refine ⟨?_, ?_⟩
    · rintro file ⟨⟩
      decide +kernel
    · rintro file ⟨⟩
      decide +kernel

end Stonesh
