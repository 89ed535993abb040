import Stonesh.Main.Command

/-!
# What stands behind a command that is run

Whenever `main` reaches `execvp`, the configuration was accepted, the host was found, the user was
authorized for it and the client's country was checked. The arguments are those of the entry and
of the options, and at most one of them was written by the client.
-/

namespace Stonesh

open CLib

section
variable {w : World} {fuel : Nat} {p : Prepared} {e : MainEvent}

theorem mem_run_trace :
    e ∈ (run w fuel).trace ↔ ∃ p, prepare w fuel = .ok p ∧
      (e ∈ (authorize w p).trace ∨
        ∃ host, (authorize w p).result = .ok host ∧ e ∈ (handOver w p host).trace) := by
  simp only [run, Traced.mem_trace_bind, Traced.lift_trace, List.not_mem_nil, false_or,
    Traced.lift_result_eq_ok]

theorem mem_authorize_trace :
    e ∈ (authorize w p).trace ↔ e = .authUser (some p.user) p.entry.host p.authMode ∨
      ∃ l ∈ (authUser w.ldap w.files p.options (some p.user) p.entry.host p.authMode).trace,
        .ldap l = e := by
  have hlast (r : LocalAuth) : e ∉ (do
      let auth ← Traced.lift .fault (checkCountry w p r.auth)
      if auth = 0 then Traced.stop (.cleanExit exitSuccess .static) else pure r.host :
        Traced MainEvent Stop (Option CString)).trace := by
    intro he
    rcases Traced.mem_trace_bind.mp he with he | ⟨auth, -, he⟩
    · simp at he
    · split at he <;> simp at he
  rw [authorize, Traced.mem_trace_emit_bind, Traced.mem_trace_bind]
  simp only [Traced.embed_trace, List.mem_map, hlast, and_false, exists_false, or_false]

theorem authorize_ok {host : Option CString} (h : (authorize w p).result = .ok host) :
    ∃ r auth,
      (authUser w.ldap w.files p.options (some p.user) p.entry.host p.authMode).result = .ok r ∧
      checkCountry w p r.auth = .ok auth ∧ auth ≠ 0 ∧ host = r.host := by
  obtain ⟨-, -, h⟩ := Traced.result_bind_eq_ok.mp h
  obtain ⟨r, hr, h⟩ := Traced.result_bind_eq_ok.mp h
  obtain ⟨auth, hauth, h⟩ := Traced.result_bind_eq_ok.mp h
  by_cases hzero : auth = 0
  · simp [hzero] at h
  · simp only [hzero, if_false, Traced.pure_result, Except.ok.injEq] at h
    exact ⟨r, auth, Traced.embed_result_eq_ok.mp hr, Traced.lift_result_eq_ok.mp hauth, hzero, h.symm⟩

theorem mem_handOver_trace {host : Option CString} (h : e ∈ (handOver w p host).trace) :
    e = .execvp (newargv p host) := by
  unfold handOver at h
  split at h
  · simp at h
  · split at h <;> simpa using h

theorem checkCountry_ok {auth auth' : Int} (h : checkCountry w p auth = .ok auth') (hne : auth' ≠ 0) :
    auth ≠ 0 ∧ ∀ address countries, p.rhost = some address → p.entry.countries = some countries →
      isFromValidCountry w.geo p.options address (some countries) (some (.lit ",")) = .ok 1 := by
  unfold checkCountry at h
  cases hcountries : p.entry.countries with
  | none =>
    simp only [hcountries] at h
    exact ⟨Except.ok.inj h ▸ hne, by simp⟩
  | some countries =>
    cases hrhost : p.rhost with
    | none =>
      simp only [hcountries, hrhost] at h
      exact ⟨Except.ok.inj h ▸ hne, by simp⟩
    | some rhost =>
      simp only [hcountries, hrhost] at h
      by_cases hauth : auth = 0
      · rw [if_neg (not_not.mpr hauth)] at h
        exact absurd ((Except.ok.inj h).symm.trans hauth) hne
      · rw [if_pos hauth] at h
        refine ⟨hauth, ?_⟩
        rintro address countries ⟨⟩ ⟨⟩
        rcases isFromValidCountry_result h with hzero | hone
        · exact absurd hzero hne
        · rw [h, hone]

end

/-- The argument vectors that are handed over: with the proxy flag one for `nc`, and otherwise one
for `ssh` with at most the rest of the command behind `--`. -/
inductive Argv (options : Options) (cval : Option CString) (host port : CString) :
    Int → List (Option CString) → Prop
  | nc {ncPath ncTimeout : CString} (hpath : options.ncPath = some ncPath)
      (htimeout : options.ncTimeout = some ncTimeout) :
      Argv options cval host port 1
        [some ncPath, some (.lit "-w"), some ncTimeout, some host, some port]
  | ssh {sshPath : CString} (hpath : options.sshPath = some sshPath) :
      Argv options cval host port 0
        [some sshPath, some (.lit "-p"), some port, some (.lit "-q"), some host, some (.lit "--")]
  | sshCommand {sshPath s args : CString} (hpath : options.sshPath = some sshPath)
      (hcval : cval = some s)
      (hrest : s.bytes = leadingBlanks s.bytes ++ (commandWord s.bytes ++ 32 :: args.bytes)) :
      Argv options cval host port 0
        [some sshPath, some (.lit "-p"), some port, some (.lit "-q"), some host, some (.lit "--"),
          some args]

section
variable {w : World} {fuel : Nat} {p : Prepared} {cl : CommandLine} {o : Options}

theorem Prepared.Of.keyword (h : p.Of w fuel cl o) :
    ∃ keyword, o.proxyKeyword = some keyword ∧ p.options.proxyKeyword = some keyword := by
  obtain ⟨file, -, hread⟩ := h.config
  obtain ⟨keyword, hkey, -⟩ := (readConfigFile_accepted hread).strings .proxyKeyword (by decide) (by decide)
  have hkey : o.proxyKeyword = some keyword := hkey
  refine ⟨keyword, hkey, ?_⟩
  rw [h.options, setLogToStderr]
  split
  · exact hkey
  · exact hkey

theorem Prepared.Of.args (h : p.Of w fuel cl o) :
    p.command.proxy = 1 ∨ p.command.proxy = 0 ∧ ∀ args ∈ p.command.args, ∃ s, cl.cval = some s ∧
      s.bytes = leadingBlanks s.bytes ++ (commandWord s.bytes ++ 32 :: args.bytes) := by
  have hcommand := h.command
  obtain ⟨keyword, hkey, -⟩ := h.keyword
  cases hcval : cl.cval with
  | none =>
    rw [hcval] at hcommand
    rw [← Except.ok.inj hcommand]
    exact Or.inr ⟨rfl, by simp⟩
  | some s =>
    rw [hcval, parseCommand_eq s hkey] at hcommand
    split at hcommand
    · simp at hcommand
    · split at hcommand
      · split at hcommand
        · simp at hcommand
        · rw [← Except.ok.inj hcommand]
          exact Or.inl rfl
      · rw [← Except.ok.inj hcommand]
        refine Or.inr ⟨rfl, ?_⟩
        intro args hargs
        refine ⟨s, rfl, ?_⟩
        by_cases hnil : behindWord s.bytes = []
        · simp [hnil] at hargs
        · simp only [hnil, if_false, Option.mem_some_iff] at hargs
          rcases command_split s.bytes with ⟨-, hnil'⟩ | hsplit
          · exact absurd hnil' hnil
          · rw [← hargs, CString.ofList_bytes fun hm => s.noNul (mem_behindWord hm)]
            exact hsplit

theorem Prepared.Of.entry (h : p.Of w fuel cl o) :
    p.entry.host = some p.host ∧ (∃ port, p.entry.port = some port) ∧ 35 ∉ p.host.bytes := by
  obtain ⟨hostsFile, hfile, -⟩ := h.accepted.strings .hostsFile (by decide) (by decide)
  have hlookup := h.lookup
  have hfile : p.options.hostsFile = some hostsFile := hfile
  rw [hfile, gethostentry_eq] at hlookup
  cases hfound : lookupHost (contentOf w.files hostsFile) p.host with
  | none => simp [hfound] at hlookup
  | some entry =>
    simp only [hfound, Except.ok.injEq, HostLookup.mk.injEq, true_and] at hlookup
    obtain ⟨hhost, text, htext, hparse⟩ := lookupHost_some hfound
    rw [hlookup] at hhost hparse
    refine ⟨hhost, ⟨_, by rw [hparse]; rfl⟩, ?_⟩
    obtain ⟨line, -, hline⟩ := List.mem_map.mp (List.mem_filter.mp htext).1
    have hname : CString.ofList (text.takeWhile (· ≠ 58)) = p.host := by
      rw [hparse] at hhost
      exact Option.some.inj hhost
    rw [← hname]
    intro hm
    have hmem : 35 ∈ text := List.takeWhile_subset _ (List.takeWhile_subset _ hm)
    rw [← hline] at hmem
    exact hash_not_mem_lineText line hmem

end

private theorem strip_trimmedString {s : CString} (h : 35 ∉ s.bytes) :
    Text.strip isspace (trimmedString s).bytes = Text.strip isspace s.bytes := by
  rw [trimmedString_bytes, trimmed, uncomment_eq_self h, Text.strip_strip]

/-- What stands behind a call of `execvp`: an accepted configuration, an entry for the host, a
successful authorization for that entry's host and a successful check of the client's country; and
where its arguments come from. -/
structure Cleared (w : World) (fuel : Nat) (argv : List (Option CString)) (p : Prepared)
    (cl : CommandLine) (o : Options) (r : LocalAuth) (host port : CString) : Prop where
  line : commandLine w = .ok cl
  rhost : clientAddress w = .ok p.rhost
  config : ∃ file, configFile w cl = .ok file ∧
    readConfigFile w.files file staticOptions = .ok (1, o)
  options : p.options = { setLogToStderr cl o with host := some p.host }
  lookup : gethostentry w.files .free p.options.host p.options.hostsFile = .ok ⟨true, p.entry⟩
  entryHost : p.entry.host = p.options.host
  called : .authUser (some p.user) p.entry.host p.authMode ∈ (main w fuel).1
  answer : (authUser w.ldap w.files p.options (some p.user) p.entry.host p.authMode).result = .ok r
  success : r.auth = authSuccess
  country : ∀ address countries, p.rhost = some address → p.entry.countries = some countries →
    countries.bytes ≠ [] →
    isFromValidCountry w.geo p.options address (some countries) (some (.lit ",")) = .ok 1
  argHost : Text.strip isspace host.bytes = Text.strip isspace p.host.bytes
  argPort : p.entry.port = some port
  arguments : Argv p.options cl.cval host port p.command.proxy argv

/-- Nothing is executed without clearance. -/
theorem execvp_cleared (w : World) (fuel : Nat) (argv : List (Option CString))
    (h : .execvp argv ∈ (main w fuel).1) :
    ∃ p cl o r host port, prepare w fuel = .ok p ∧ Cleared w fuel argv p cl o r host port := by
  obtain ⟨p, hp, hevent⟩ := mem_run_trace.mp h
  obtain ⟨cl, o, hof⟩ := prepare_ok hp
  obtain ⟨hhost, ⟨port, hport⟩, hcomment⟩ := hof.entry
  have hcall : MainEvent.authUser (some p.user) p.entry.host p.authMode ∈ (main w fuel).1 :=
    mem_run_trace.mpr ⟨p, hp, Or.inl (mem_authorize_trace.mpr (Or.inl rfl))⟩
  rcases hevent with hevent | ⟨argHost, hauthorized, hevent⟩
  · rcases mem_authorize_trace.mp hevent with he | ⟨l, -, he⟩
    · exact absurd he (by simp)
    · exact absurd he (by simp)
  · obtain ⟨r, auth, hr, hcheck, hne, rfl⟩ := authorize_ok hauthorized
    obtain ⟨hauth, hcountry⟩ := checkCountry_ok hcheck hne
    obtain ⟨hanswer, -, htrim⟩ := (authUser_run w.ldap w.files hof.accepted _ _ _).value r hr
    have hsuccess : r.auth = authSuccess := by
      rcases hanswer with hzero | hone
      · exact absurd hzero hauth
      · exact hone
    obtain ⟨host, hargHost, hstrip⟩ : ∃ host, r.host = some host ∧
        Text.strip isspace host.bytes = Text.strip isspace p.host.bytes := by
      rw [hhost] at htrim
      rcases htrim with htrim | htrim
      · exact ⟨p.host, htrim, rfl⟩
      · exact ⟨trimmedString p.host, htrim, strip_trimmedString hcomment⟩
    have hentry : p.options.host = some p.host := by rw [hof.options]
    refine ⟨p, cl, o, r, host, port, hp, hof.line, hof.rhost, hof.config, hof.options,
      hentry ▸ hof.lookup, hhost.trans hentry.symm, hcall, hr, hsuccess, ?_, hstrip, hport, ?_⟩
    · intro address countries haddress hcountries _
      exact hcountry address countries haddress hcountries
    · have hargv := MainEvent.execvp.inj (mem_handOver_trace hevent)
      rw [hargv, newargv, hargHost, hport]
      obtain ⟨nc, hnc, -⟩ := hof.accepted.strings .ncPath (by decide) (by decide)
      obtain ⟨timeout, htimeout, -⟩ := hof.accepted.strings .ncTimeout (by decide) (by decide)
      obtain ⟨ssh, hssh, -⟩ := hof.accepted.strings .sshPath (by decide) (by decide)
      have hnc : p.options.ncPath = some nc := hnc
      have htimeout : p.options.ncTimeout = some timeout := htimeout
      have hssh : p.options.sshPath = some ssh := hssh
      rcases hof.args with hproxy | ⟨hproxy, hargs⟩
      · rw [hproxy, if_pos rfl, hnc, htimeout]
        exact Argv.nc hnc htimeout
      · rw [hproxy, if_neg (by decide), hssh]
        cases harg : p.command.args with
        | none => exact Argv.ssh hssh
        | some args =>
          obtain ⟨s, hs, hrest⟩ := hargs args harg
          exact Argv.sshCommand hssh hs hrest

/-- A machine on which bob runs `stonesh -c command`, with these configuration files. -/
def bobWorld (command conf hosts users : String) : World where
  user := some (.lit "bob")
  sshClient := none
  strtokNull := true
  argv := [.lit "stonesh", .lit "-c", .lit command]
  posixlyCorrect := false
  files file :=
    if file = .lit defaultConfigFile then some (bytes conf)
    else if file = .lit "/etc/stonesh/hosts.lst" then some (bytes hosts)
    else if file = .lit "/etc/stonesh/users.lst" then some (bytes users)
    else none
  stdin := []
  stdinIsTty := true
  strdup _ := true
  cmdlineMalloc := true
  hostMalloc _ := true
  ldap := bobLdap
  geo :=
    { order := .littleEndian, getaddrinfo := fun _ => (-2, none), inetPton := fun _ => .malformed,
      inetPton6 := fun _ => .malformed, geoipOpen := fun _ => false,
      countryCodeByAddr := fun _ _ => none, countryCodeByAddrV6 := fun _ _ => none }
  hostentNull := true
  execvpFails := false

/-- A listed host and a command for it. -/
theorem execvp_cleared_bob :
    ∃ p cl o r host port, prepare (bobWorld "web ls -l" "" "web:2222\n" "bob:web\n") 1 = .ok p ∧
      Cleared (bobWorld "web ls -l" "" "web:2222\n" "bob:web\n") 1
        [some (.lit "/usr/bin/ssh"), some (.lit "-p"), some (.lit "2222"), some (.lit "-q"),
          some (.lit "web"), some (.lit "--"), some (.lit "ls -l")] p cl o r host port :=
  execvp_cleared _ 1 _ (by decide +kernel)

end Stonesh
