import Stonesh.Main.Execution

/-!
# Without memory

Each call of `malloc` and `strdup` may fail, in `main` and in the functions that ask the directory.
A run that executes something has not met a failure that mattered: with more memory, or more rounds
of the prompt, it is the same run. The exception is the name behind the option `C`: without memory
for it the default configuration is read.
-/

namespace Stonesh

open CLib

/-- Which of the requests for memory are granted. -/
structure Memory where
  strdup : CString → Bool
  cmdlineMalloc : Bool
  hostMalloc : Nat → Bool
  ldapStrdup : CString → Bool
  ldapMalloc : Bool

/-- What is granted on the left is granted on the right. -/
instance : LE Memory where
  le m m' := (∀ s, m.strdup s = true → m'.strdup s = true) ∧
    (m.cmdlineMalloc = true → m'.cmdlineMalloc = true) ∧
    (∀ round, m.hostMalloc round = true → m'.hostMalloc round = true) ∧
    (∀ s, m.ldapStrdup s = true → m'.ldapStrdup s = true) ∧
    (m.ldapMalloc = true → m'.ldapMalloc = true)

def LdapLib.withMemory (lib : LdapLib) (m : Memory) : LdapLib :=
  { lib with strdup := m.ldapStrdup, malloc := m.ldapMalloc }

def World.withMemory (w : World) (m : Memory) : World :=
  { w with
    strdup := m.strdup
    cmdlineMalloc := m.cmdlineMalloc
    hostMalloc := m.hostMalloc
    ldap := w.ldap.withMemory m }

section
variable {lib : LdapLib} {m m' : Memory} {o : Options} {user host tag : Option CString} {a : Int}

private theorem copy_grows (hm : m ≤ m') {s t : CString} (h : (lib.withMemory m).copy s = some t) :
    (lib.withMemory m').copy s = some t := by
  obtain ⟨-, -, -, hstrdup, -⟩ := hm
  obtain ⟨hgranted, hs⟩ := Option.ite_none_right_eq_some.mp h
  exact Option.ite_none_right_eq_some.mpr ⟨hstrdup s hgranted, hs⟩

private theorem bind_copy_grows (hm : m ≤ m') {s : Option CString} {t : CString}
    (h : s.bind (lib.withMemory m).copy = some t) : s.bind (lib.withMemory m').copy = some t := by
  obtain ⟨r, hr, ht⟩ := Option.bind_eq_some_iff.mp h
  exact Option.bind_eq_some_iff.mpr ⟨r, hr, copy_grows hm ht⟩

private theorem getLdapUri_grows (hm : m ≤ m') {uri : CString}
    (h : getLdapUri (lib.withMemory m) o = some uri) : getLdapUri (lib.withMemory m') o = some uri := by
  unfold getLdapUri at h ⊢
  split at h
  · exact copy_grows hm h
  · exact bind_copy_grows hm h

private theorem getLdapBase_grows (hm : m ≤ m') {base : CString}
    (h : getLdapBase (lib.withMemory m) o = some base) :
    getLdapBase (lib.withMemory m') o = some base := by
  unfold getLdapBase at h ⊢
  split at h
  · exact copy_grows hm h
  · exact bind_copy_grows hm h

private theorem filter_grows (hm : m ≤ m') {filter : CString}
    (h : (if tag = none then getHostFilter (lib.withMemory m) host user
      else getServiceFilter (lib.withMemory m) host user tag) = some filter) :
    (if tag = none then getHostFilter (lib.withMemory m') host user
      else getServiceFilter (lib.withMemory m') host user tag) = some filter := by
  obtain ⟨-, -, -, -, hmalloc⟩ := hm
  cases hgranted : m.ldapMalloc with
  | true =>
    have hsame : (lib.withMemory m').malloc = (lib.withMemory m).malloc :=
      (hmalloc hgranted).trans hgranted.symm
    simp only [getHostFilter, getServiceFilter, hsame] at h ⊢
    exact h
  | false =>
    have hhost : getHostFilter (lib.withMemory m) host user = none := by
      simp only [getHostFilter, LdapLib.withMemory, hgranted, Bool.false_eq_true, if_false, ite_self]
      split <;> rfl
    have hservice : getServiceFilter (lib.withMemory m) host user tag = none := by
      simp only [getServiceFilter, LdapLib.withMemory, hgranted, Bool.false_eq_true, if_false, ite_self]
      split <;> rfl
    simp [hhost, hservice] at h

private theorem cleanReturn_value {ld : Option Unit} {filter : Option (Option CString)} {auth : Int}
    (h : (cleanReturn lib ld filter auth).result = .ok a) : a = auth := by
  obtain ⟨-, -, h⟩ := Traced.result_bind_eq_ok.mp h
  obtain ⟨-, -, h⟩ := Traced.result_bind_eq_ok.mp h
  exact (Except.ok.inj h).symm

theorem getAuthLdap_grows (hm : m ≤ m') (hne : a ≠ ldapAuthFailure)
    (h : (getAuthLdap (lib.withMemory m) o user host tag).result = .ok a) :
    getAuthLdap (lib.withMemory m') o user host tag = getAuthLdap (lib.withMemory m) o user host tag := by
  unfold getAuthLdap at h ⊢
  split
  · rfl
  · rw [if_neg ‹_›] at h
    cases huri : getLdapUri (lib.withMemory m) o with
    | none => exact absurd (cleanReturn_value (by simpa [huri] using h)) hne
    | some uri =>
      cases hbase : getLdapBase (lib.withMemory m) o with
      | none => exact absurd (cleanReturn_value (by simpa [huri, hbase] using h)) hne
      | some base =>
        cases hfilter : (if tag = none then getHostFilter (lib.withMemory m) host user
            else getServiceFilter (lib.withMemory m) host user tag) with
        | none => exact absurd (cleanReturn_value (by simpa [huri, hbase, hfilter] using h)) hne
        | some filter =>
          rw [getLdapUri_grows hm huri, getLdapBase_grows hm hbase, filter_grows hm hfilter]
          rfl

theorem authUser_grows (hm : m ≤ m') {files : CString → Option (List Byte)} {mode : Int} {r : LocalAuth}
    (h : (authUser (lib.withMemory m) files o user host mode).result = .ok r) (hne : r.auth ≠ 0) :
    authUser (lib.withMemory m') files o user host mode =
      authUser (lib.withMemory m) files o user host mode := by
  have hldap (tag : Option CString)
      (h : (do
        let auth ← getAuthLdap (lib.withMemory m) o user host tag
        pure ⟨auth, user, host⟩ : Traced LdapEvent Fault LocalAuth).result = .ok r) :
      getAuthLdap (lib.withMemory m') o user host tag =
        getAuthLdap (lib.withMemory m) o user host tag := by
    obtain ⟨a, ha, hr⟩ := Traced.result_bind_eq_ok.mp h
    rw [← Except.ok.inj hr] at hne
    exact getAuthLdap_grows hm hne ha
  unfold authUser at h ⊢
  split
  · rfl
  · next hclosed =>
    rw [if_neg hclosed] at h
    split
    · rfl
    · next hany =>
      rw [if_neg hany] at h
      split
      · rfl
      · next hlocal =>
        rw [if_neg hlocal] at h
        split
        · next hdirectory =>
          rw [if_pos hdirectory] at h
          split
          · next htagged =>
            rw [if_pos htagged] at h
            rw [hldap _ h]
          · next htagged =>
            rw [if_neg htagged] at h
            rw [hldap _ h]
        · rfl

end

section
variable {w : World} {m m' : Memory} {fuel fuel' : Nat}

def Memory.Names (m : Memory) (w : World) : Prop :=
  ∀ file, .option 67 (some file) ∈ getopt (bytes "c:C:lhv") w.posixlyCorrect w.argv.tail →
    m.strdup file = true

private theorem readOptions_memory (hm : m ≤ m') (opts : List Opt) (cl : CommandLine)
    (hnames : ∀ file, .option 67 (some file) ∈ opts → m.strdup file = true) :
    readOptions (w.withMemory m') opts cl = readOptions (w.withMemory m) opts cl := by
  induction opts generalizing cl with
  | nil => rfl
  | cons opt opts ih =>
    have ih (cl : CommandLine) := ih cl fun file hfile => hnames file (List.mem_cons_of_mem _ hfile)
    cases opt with
    | unknown c => exact ih cl
    | option c optarg =>
      rw [readOptions, readOptions, ih, ih, ih]
      by_cases hc : c = 67
      · have hcopied : optarg.bind (copyString (w.withMemory m')) = optarg.bind (copyString (w.withMemory m)) := by
          cases optarg with
          | none => rfl
          | some file =>
            have hgranted := hnames file (by simp [hc])
            have hgranted' := hm.1 file hgranted
            simp only [Option.bind_some, copyString, World.withMemory, hgranted, hgranted']
        rw [hcopied]
      · simp only [hc, if_false]

private theorem loadOptions_grows (hm : m ≤ m') (cl : CommandLine) :
    Grows (loadOptions (w.withMemory m) cl) (loadOptions (w.withMemory m') cl) := by
  have hfile : Grows (checked (configFile (w.withMemory m) cl)) (checked (configFile (w.withMemory m') cl)) := by
    cases hcl : cl.configFile with
    | some file =>
      rw [configFile, configFile, hcl]
      exact grows_refl _
    | none =>
      rw [configFile, configFile, hcl]
      cases hgranted : m.strdup (.lit defaultConfigFile) with
      | true =>
        have hgranted' := hm.1 _ hgranted
        simp only [copyString, World.withMemory, hgranted, hgranted']
        exact grows_refl _
      | false =>
        simp only [copyString, World.withMemory, hgranted]
        exact grows_error _ _
  exact hfile.bind fun file => grows_refl _

private theorem buildCmdline_grows (hm : m ≤ m') :
    Grows (buildCmdline (w.withMemory m)) (buildCmdline (w.withMemory m')) := by
  obtain ⟨-, hmalloc, -⟩ := hm
  unfold buildCmdline
  cases hgranted : m.cmdlineMalloc with
  | true =>
    simp only [World.withMemory, hgranted, hmalloc hgranted]
    exact grows_refl _
  | false =>
    simp only [World.withMemory, hgranted]
    exact grows_error _ _

private theorem promptHost_grows (hm : m ≤ m') (hfuel : fuel ≤ fuel') (round : Nat) (lines : List (List Byte)) :
    Grows (promptHost m.hostMalloc fuel round lines) (promptHost m'.hostMalloc fuel' round lines) := by
  induction fuel generalizing fuel' round lines with
  | zero => exact grows_error _ _
  | succ fuel ih =>
    obtain ⟨more, rfl⟩ := Nat.exists_eq_add_of_le' hfuel
    rw [← Nat.add_assoc, promptHost, promptHost]
    split
    · next hgranted =>
      rw [if_pos (hm.2.2.1 round hgranted)]
      simp only
      split
      · exact ih (by omega) _ _
      · exact grows_refl _
    · exact grows_error _ _

private theorem requestedHost_grows (hm : m ≤ m') (hfuel : fuel ≤ fuel') (o : Options) (command : Command) :
    Grows (requestedHost (w.withMemory m) fuel o command)
      (requestedHost (w.withMemory m') fuel' o command) := by
  unfold requestedHost
  cases command.host with
  | some host =>
    cases hgranted : m.hostMalloc 0 with
    | true =>
      simp only [World.withMemory, hgranted, hm.2.2.1 0 hgranted]
      exact grows_refl _
    | false =>
      simp only [World.withMemory, hgranted]
      exact grows_error _ _
  | none =>
    cases o.host with
    | some host => exact grows_refl _
    | none => exact promptHost_grows hm hfuel 0 _

theorem prepare_grows (hm : m ≤ m') (hfuel : fuel ≤ fuel') (hnames : m.Names w) :
    Grows (prepare (w.withMemory m) fuel) (prepare (w.withMemory m') fuel') := by
  unfold prepare
  cases huser : w.user with
  | none =>
    simp only [World.withMemory, huser]
    exact grows_refl _
  | some user =>
    have hline : commandLine (w.withMemory m') = commandLine (w.withMemory m) :=
      readOptions_memory hm _ _ hnames
    rw [hline]
    simp only [World.withMemory, huser]
    refine (grows_refl _).bind fun rhost => (grows_refl _).bind fun cl => ?_
    refine (loadOptions_grows hm cl).bind fun o => (buildCmdline_grows hm).bind fun _ => ?_
    refine (grows_refl _).bind fun command => ?_
    refine Grows.bind ?_ fun host => grows_refl _
    exact (requestedHost_grows hm hfuel o command).bind fun host => grows_refl _

theorem authorize_grows (hm : m ≤ m') {p : Prepared} {host : Option CString}
    (h : (authorize (w.withMemory m) p).result = .ok host) :
    authorize (w.withMemory m') p = authorize (w.withMemory m) p := by
  obtain ⟨r, auth, hr, hcheck, hne, -⟩ := authorize_ok h
  have hgranted := (checkCountry_ok hcheck hne).1
  have hsame : authUser (w.withMemory m').ldap w.files p.options (some p.user) p.entry.host p.authMode =
      authUser (w.withMemory m).ldap w.files p.options (some p.user) p.entry.host p.authMode :=
    authUser_grows hm hr hgranted
  unfold authorize
  exact congrArg (fun x => Traced.emit _ >>= fun _ => Traced.embed MainEvent.ldap Stop.fault x >>= _) hsame

/-- Failures of memory give no access: what is executed in spite of them is executed without them,
in the same run, if only the names of the files of the option `C` could be copied. -/
theorem main_starved {argv : List (Option CString)} (hm : m ≤ m') (hfuel : fuel ≤ fuel')
    (hnames : m.Names w) (h : .execvp argv ∈ (main (w.withMemory m) fuel).1) :
    main (w.withMemory m') fuel' = main (w.withMemory m) fuel := by
  obtain ⟨p, hp, hevent⟩ := mem_run_trace.mp h
  have hp' := prepare_grows hm hfuel hnames p hp
  obtain ⟨host, hauthorized⟩ : ∃ host, (authorize (w.withMemory m) p).result = .ok host := by
    rcases hevent with hevent | ⟨host, hauthorized, -⟩
    · rcases mem_authorize_trace.mp hevent with he | ⟨l, -, he⟩
      · exact absurd he (by simp)
      · exact absurd he (by simp)
    · exact ⟨host, hauthorized⟩
  have hrun : run (w.withMemory m') fuel' = run (w.withMemory m) fuel := by
    rw [run, run, hp, hp']
    exact congrArg (· >>= handOver (w.withMemory m) p) (authorize_grows hm hauthorized)
  rw [main, main, hrun]
  rfl

end

/-- No memory at all, but for the default name and what comes before the look-up of a host. -/
def scarce : Memory where
  strdup s := s = .lit defaultConfigFile
  cmdlineMalloc := true
  hostMalloc round := round = 0
  ldapStrdup _ := false
  ldapMalloc := false

def plenty : Memory := ⟨fun _ => true, true, fun _ => true, fun _ => true, true⟩

theorem main_starved_bob :
    main ((bobWorld "web ls -l" "" "web:2222\n" "bob:web\n").withMemory plenty) 2 =
      main ((bobWorld "web ls -l" "" "web:2222\n" "bob:web\n").withMemory scarce) 1 := by
  have hm : scarce ≤ plenty := by
    refine ⟨?_, ?_, ?_, ?_, ?_⟩
    all_goals intros; rfl
  have hnames : scarce.Names (bobWorld "web ls -l" "" "web:2222\n" "bob:web\n") := by
    intro file hfile
    have hopts : getopt (bytes "c:C:lhv") false [.lit "-c", .lit "web ls -l"] =
        [.option 99 (some (.lit "web ls -l"))] := by decide +kernel
    have hfile : .option 67 (some file) ∈ getopt (bytes "c:C:lhv") false [.lit "-c", .lit "web ls -l"] := hfile
    rw [hopts] at hfile
    simp at hfile
  have hexecuted : .execvp [some (.lit "/usr/bin/ssh"), some (.lit "-p"), some (.lit "2222"),
      some (.lit "-q"), some (.lit "web"), some (.lit "--"), some (.lit "ls -l")] ∈
      (main ((bobWorld "web ls -l" "" "web:2222\n" "bob:web\n").withMemory scarce) 1).1 := by
    decide +kernel
  exact main_starved hm (by decide) hnames hexecuted

/-- The exception: without memory for the name of a file that is not there the default one is read. -/
example :
    let w := { bobWorld "" "" "web:2222\n" "bob:web\n" with
      argv := [.lit "stonesh", .lit "-C", .lit "none.conf", .lit "-c", .lit "web ls -l"] }
    (main (w.withMemory scarce) 1).2 = .replaced ∧ (main (w.withMemory plenty) 1).2 = .returned 1 := by
  decide +kernel

end Stonesh
