import Stonesh.AuthLdap.Faults
import Stonesh.Geoip.Countries
import Stonesh.Main.Cleanup
import Stonesh.Readconf.Faults

/-!
# Runs that break

A fault of any function behind `main` is a fault of the run. Which inputs lead to one is told here
for the program as a whole: by the environment, the command line, the configuration file, the
request, and the outcome of the calls to the directory.
-/

namespace Stonesh

open CLib

section
variable {w : World} {fuel : Nat} {cl : CommandLine} {o : Options} {p : Prepared}

def Options.AsksDirectory (o : Options) (mode : Int) : Prop :=
  o.authType = authTypeLdap ∧ (mode = authProxy → o.enableProxy ≠ 0)

def Options.askedTag (o : Options) (mode : Int) : Option CString :=
  if mode = authProxy ∧ o.disableProxyAuthorization = 0 then o.authorizedServiceTag else none

private theorem getAuthFile_answers (files : CString → Option (List Byte)) (user host file : Option CString)
    (proxy : Int) : ∃ r, getAuthFile files user host file proxy = .ok r := by
  cases user with
  | none => exact ⟨_, rfl⟩
  | some user =>
    cases host with
    | none => exact ⟨_, rfl⟩
    | some host =>
      cases file with
      | none => exact ⟨_, rfl⟩
      | some file =>
        cases hfile : files file with
        | none => exact ⟨_, getAuthFile_unreadable hfile user host proxy⟩
        | some content => exact ⟨_, getAuthFile_eq hfile user host proxy⟩

private theorem authUser_answers_iff (lib : LdapLib) (files : CString → Option (List Byte))
    (user host : Option CString) (mode : Int) :
    (∃ r, (authUser lib files o user host mode).result = .ok r) ↔
      (o.AsksDirectory mode → lib.Answers o user host (o.askedTag mode)) := by
  unfold authUser
  by_cases hproxy : o.enableProxy = 0 ∧ mode = authProxy
  · rw [if_pos hproxy]
    exact iff_of_true ⟨_, rfl⟩ fun h => absurd hproxy.1 (h.2 hproxy.2)
  rw [if_neg hproxy]
  by_cases hany : o.authType = authTypeAny
  · rw [if_pos hany]
    refine iff_of_true ⟨_, rfl⟩ fun h => ?_
    exact absurd (hany.symm.trans h.1) (by decide)
  rw [if_neg hany]
  by_cases hlocal : o.authType = authTypeLocal
  · rw [if_pos hlocal]
    refine iff_of_true ?_ fun h => absurd (hlocal.symm.trans h.1) (by decide)
    split
    · rw [Traced.lift_id_result]
      exact getAuthFile_answers files user host o.usersFile 1
    · rw [Traced.lift_id_result]
      exact getAuthFile_answers files user host o.usersFile 0
  rw [if_neg hlocal]
  by_cases hldap : o.authType = authTypeLdap
  · have hasks : o.AsksDirectory mode := ⟨hldap, fun hm he => hproxy ⟨he, hm⟩⟩
    have hanswers (tag : Option CString) :
        (∃ r, (do
          let auth ← getAuthLdap lib o user host tag
          pure ⟨auth, user, host⟩ : Traced LdapEvent Fault LocalAuth).result = .ok r) ↔
          lib.Answers o user host tag := by
      rw [← getAuthLdap_answers_iff]
      constructor
      · rintro ⟨r, h⟩
        obtain ⟨auth, hauth, -⟩ := Traced.result_bind_eq_ok.mp h
        exact ⟨auth, hauth⟩
      · rintro ⟨auth, hauth⟩
        exact ⟨_, Traced.result_bind_eq_ok.mpr ⟨auth, hauth, rfl⟩⟩
    rw [if_pos hldap, imp_iff_right hasks, Options.askedTag]
    simp only
    split
    · exact hanswers _
    · exact hanswers _
  · rw [if_neg hldap]
    exact iff_of_true ⟨_, rfl⟩ fun h => absurd h.1 hldap

private def Sound {α : Type} (x : Except Stop α) : Prop := ∀ f, x ≠ .error (.fault f)

private theorem sound_ok {α : Type} (a : α) : Sound (.ok a) := by simp [Sound]

private theorem sound_bind {α β : Type} {x : Except Stop α} {f : α → Except Stop β} :
    Sound (x >>= f) ↔ Sound x ∧ ∀ a, x = .ok a → Sound (f a) := by
  cases x with
  | error s => simp [Sound]
  | ok a => simp [Sound]

private theorem sound_checked {α : Type} {x : Checked α} : Sound (checked x) ↔ ∃ a, x = .ok a := by
  cases x with
  | error f => simp [Sound]
  | ok a => simp [Sound]

private theorem sound_loadOptions :
    Sound (loadOptions w cl) ↔ ∃ file, configFile w cl = .ok file ∧
      ∀ content, w.files file = some content → ¬ FileBreaks content := by
  have hread (file : CString) : (∃ r, readConfigFile w.files file staticOptions = .ok r) ↔
      ∀ content, w.files file = some content → ¬ FileBreaks content := by
    cases hfile : w.files file with
    | none =>
      refine iff_of_true ?_ (by simp)
      rw [readConfigFile, hfile]
      exact ⟨_, rfl⟩
    | some content =>
      simp only [Option.some.injEq, forall_eq', ← readConfigFile_breaks_iff hfile staticOptions]
      cases readConfigFile w.files file staticOptions with
      | error f => simp
      | ok r => simp
  rw [loadOptions, sound_bind, sound_checked]
  simp only [sound_bind, sound_checked, hread, checked_eq_ok]
  constructor
  · rintro ⟨⟨file, hfile⟩, h⟩
    exact ⟨file, hfile, (h file hfile).1⟩
  · rintro ⟨file, hfile, h⟩
    refine ⟨⟨file, hfile⟩, fun file' hfile' => ?_⟩
    obtain rfl := Except.ok.inj (hfile.symm.trans hfile')
    refine ⟨h, fun r _ => ?_⟩
    obtain ⟨result, options⟩ := r
    simp only
    split
    · simp [Sound]
    · exact sound_ok _

private theorem sound_buildCmdline :
    Sound (buildCmdline w) ↔ (w.cmdlineMalloc = true → w.argv ≠ []) := by
  unfold buildCmdline
  cases w.cmdlineMalloc with
  | false => simp [Sound]
  | true =>
    by_cases hnil : w.argv = []
    · simp [Sound, hnil]
    · simp [Sound, hnil]

private theorem handled_or_fault (h : Parsing w cl o) (fuel : Nat) :
    Handled (requestHost w fuel o cl.cval) ∨ ∃ f, requestHost w fuel o cl.cval = .error (.fault f) := by
  obtain ⟨⟨keyword, hkey⟩, hhost⟩ := h.loaded
  unfold requestHost
  by_cases hword : ∀ s ∈ cl.cval, ∃ c ∈ s.bytes, c ≠ 32
  · rcases parseCommand_handled hkey hword with ⟨command, hparse, hcommand⟩ | hparse
    · rw [hparse, except_ok_bind, hostName]
      have hrequest : Handled (requestedHost w fuel o command) := requestedHost_handled hhost hcommand
      rcases hrequest with ⟨host, hrun, hne⟩ | hrun | hrun
      · rw [hrun, except_ok_bind]
        by_cases hfqdn : o.allowfqdn = 0
        · rw [if_pos hfqdn, cutDomain_eq]
          by_cases hlabel : hostLabel host.bytes = []
          · exact Or.inr ⟨.nullArgument, by rw [if_pos hlabel]; rfl⟩
          · have h0 : 0 ∉ withoutDomain host.bytes := fun hm => host.noNul (mem_withoutDomain hm)
            rw [if_neg hlabel]
            refine Or.inl (handled_ok ?_)
            rw [CString.ofList_bytes h0, withoutDomain]
            exact List.append_ne_nil_of_left_ne_nil hlabel _
        · rw [if_neg hfqdn]
          exact Or.inl (handled_ok hne)
      · rw [hrun]
        exact Or.inl (Or.inr (Or.inl rfl))
      · rw [hrun]
        exact Or.inl handled_cleanExit
    · rw [hparse]
      exact Or.inl handled_cleanExit
  · refine Or.inr ⟨.nullArgument, ?_⟩
    push Not at hword
    obtain ⟨s, hcval, hblank⟩ := hword
    have hnil : commandWord s.bytes = [] := by
      by_contra hne
      obtain ⟨c, hc, hother⟩ := commandWord_ne_nil_iff.mp hne
      exact hother (hblank c hc)
    rw [Option.mem_def.mp hcval, parseCommand_eq s hkey, if_pos hnil]
    rfl

private theorem sound_requestHost (h : Parsing w cl o) :
    (∀ fuel, Sound (requestHost w fuel o cl.cval)) ↔
      (∀ s ∈ cl.cval, ∃ c ∈ s.bytes, c ≠ 32) ∧
        (o.allowfqdn = 0 → ∀ name, Asked w o cl.cval name → ∃ c ∈ name, c ≠ 46) := by
  rw [← requestHost_handled_iff h]
  refine forall_congr' fun fuel => ⟨fun hsound => ?_, fun hhandled f hf => ?_⟩
  · rcases handled_or_fault h fuel with hhandled | ⟨f, hf⟩
    · exact hhandled
    · exact absurd hf (hsound f)
  · rw [hf] at hhandled
    exact not_handled_fault f hhandled

private theorem sound_findEntry (host : CString) : Sound (findEntry w o host) := by
  rw [findEntry, sound_bind, sound_checked]
  constructor
  · cases hfile : o.hostsFile with
    | none => exact ⟨_, rfl⟩
    | some file => exact ⟨_, gethostentry_eq w.files .free host file⟩
  · intro lookup _
    split
    · exact sound_ok _
    · simp [Sound]

private theorem sound_prepare (huser : w.user ≠ none) :
    Sound (prepare w fuel) ↔ (∃ rhost, clientAddress w = .ok rhost) ∧ ∀ cl, commandLine w = .ok cl →
      Sound (loadOptions w cl) ∧ ∀ o, loadOptions w cl = .ok o →
        Sound (buildCmdline w) ∧ (buildCmdline w = .ok () → Sound (requestHost w fuel o cl.cval)) := by
  obtain ⟨user, huser⟩ := Option.ne_none_iff_exists'.mp huser
  have hline : Sound (commandLine w) := by
    have hraises : Raises (fun s => ∀ f, s ≠ .fault f) (commandLine w) := readOptions_raises (by simp) _ _
    exact fun f hf => hraises _ hf f rfl
  have hrequest (o : Options) (cval : Option CString) :
      Sound (requestHost w fuel o cval) ↔ Sound (parseCommand o cval) ∧
        ∀ command, parseCommand o cval = .ok command → Sound (hostName w fuel o command) := sound_bind
  have hrest (o : Options) (command : Command) (entry : HostEntry) (rhost : Option CString) (host : CString) :
      Sound (pure { user, rhost, options := o, command, host, entry } : Except Stop Prepared) := sound_ok _
  unfold prepare
  simp only [huser, sound_bind, sound_checked, checked_eq_ok, hline, true_and, sound_findEntry, hrest,
    implies_true, and_true, hrequest]
  constructor
  · rintro ⟨⟨rhost, hrhost⟩, h⟩
    exact ⟨⟨rhost, hrhost⟩, fun cl hcl => ⟨(h rhost hrhost cl hcl).1, fun o ho =>
      ⟨((h rhost hrhost cl hcl).2 o ho).1, fun hcmdline => ((h rhost hrhost cl hcl).2 o ho).2 () hcmdline⟩⟩⟩
  · rintro ⟨hclient, h⟩
    exact ⟨hclient, fun _ _ cl hcl => ⟨(h cl hcl).1, fun o ho =>
      ⟨((h cl hcl).2 o ho).1, fun _ hcmdline => ((h cl hcl).2 o ho).2 hcmdline⟩⟩⟩

private theorem sound_authorize :
    Sound (authorize w p).result ↔ (p.options.AsksDirectory p.authMode →
      w.ldap.Answers p.options (some p.user) p.entry.host (p.options.askedTag p.authMode)) := by
  have hcountry (auth : Int) : ∃ n, checkCountry w p auth = .ok n := by
    unfold checkCountry
    split
    · next countries rhost _ _ =>
      split
      · obtain ⟨n, hn, -⟩ :=
          isFromValidCountry_answers w.geo p.options rhost (some countries) (some (.lit ","))
        exact ⟨n, hn⟩
      · exact ⟨_, rfl⟩
    · exact ⟨_, rfl⟩
  have hresult : (authorize w p).result =
      checked (authUser w.ldap w.files p.options (some p.user) p.entry.host p.authMode).result >>= fun r =>
        checked (checkCountry w p r.auth) >>= fun auth =>
          (if auth = 0 then Traced.stop (.cleanExit exitSuccess .static) else pure r.host :
            Traced MainEvent Stop (Option CString)).result := by
    simp only [authorize, Traced.bind_result, Traced.emit_result, except_ok_bind]
    rfl
  have hend (auth : Int) (host : Option CString) :
      Sound (if auth = 0 then Traced.stop (.cleanExit exitSuccess .static) else pure host :
        Traced MainEvent Stop (Option CString)).result := by
    split
    · simp [Sound]
    · exact sound_ok _
  rw [hresult, ← authUser_answers_iff w.ldap w.files]
  simp only [sound_bind, sound_checked, hcountry, hend, implies_true, and_true]

private theorem sound_run :
    Sound (run w fuel).result ↔ Sound (prepare w fuel) ∧ ∀ p, prepare w fuel = .ok p →
      (p.options.AsksDirectory p.authMode →
        w.ldap.Answers p.options (some p.user) p.entry.host (p.options.askedTag p.authMode)) := by
  have hend (p : Prepared) (host : Option CString) : Sound (handOver w p host).result := by
    unfold handOver
    split
    · simp [Sound]
    · rw [Traced.emit_bind]
      split
      · simp [Sound]
      · simp [Sound]
  simp only [run, Traced.bind_result, Traced.lift_id_result, sound_bind, sound_authorize, hend, implies_true,
    and_true]

private theorem finish_faulted_iff {s : Stop} {f : Fault} : finish w (.error s) = .faulted f ↔
    s = .fault f ∨ (∃ status, s = .cleanExit status .undefined) ∧ w.hostentNull = false ∧
      f = .indeterminate := by
  cases s with
  | cleanExit status hostent =>
    cases hostent with
    | undefined => cases hnull : w.hostentNull <;> simp [finish, hnull, eq_comm]
    | null => simp [finish]
    | static => simp [finish]
  | fault g => simp [finish]
  | exit status => simp [finish]
  | replaced => simp [finish]
  | outOfRounds => simp [finish]

private theorem not_faulted_iff :
    (∀ fuel f, (main w fuel).2 ≠ .faulted f) ↔
      (∀ fuel, Sound (run w fuel).result) ∧ (w.hostentNull = true ∨ ¬ w.LeavesEarly) := by
  have hmain (fuel : Nat) {s : Stop} (h : (run w fuel).result = .error s) :
      (main w fuel).2 = finish w (.error s) := congrArg (finish w) h
  rw [← prepare_exit_iff]
  simp only [← run_exit_iff]
  constructor
  · intro h
    refine ⟨fun fuel f hf => h fuel f ((hmain fuel hf).trans rfl), ?_⟩
    by_cases hnull : w.hostentNull = true
    · exact Or.inl hnull
    · refine Or.inr ?_
      rintro ⟨fuel, status, hexit⟩
      apply h fuel .indeterminate
      rw [hmain fuel hexit, finish_faulted_iff]
      exact Or.inr ⟨⟨status, rfl⟩, by simpa using hnull, rfl⟩
  · rintro ⟨hsound, hleft⟩ fuel f hf
    cases hresult : (run w fuel).result with
    | ok u => exact run_not_ok hresult
    | error s =>
      rw [hmain fuel hresult, finish_faulted_iff] at hf
      rcases hf with rfl | ⟨⟨status, rfl⟩, hnull, -⟩
      · exact hsound fuel f hresult
      · rcases hleft with hset | hnot
        · simp [hset] at hnull
        · exact hnot ⟨fuel, status, hresult⟩

end

structure Started (w : World) (cl : CommandLine) : Prop where
  user : w.user ≠ none
  client : ∃ rhost, clientAddress w = .ok rhost
  line : commandLine w = .ok cl

/-- What keeps a run from breaking: the environment has the variable of the client, or the library
does not mind; there is a configuration file to name, and it does not break the reader; the program
has a name of its own; the command has a word, and the host a label, where they are cut; the directory
answers where it is asked; and `hostent` happens to hold NULL where it is looked at unassigned. -/
structure World.Faultless (w : World) : Prop where
  client : w.user ≠ none → w.sshClient ≠ none ∨ w.strtokNull = true
  config : ∀ cl, Started w cl → ∃ file, configFile w cl = .ok file ∧
    ∀ content, w.files file = some content → ¬ FileBreaks content
  argv : ∀ cl o, Started w cl → loadOptions w cl = .ok o → w.cmdlineMalloc = true → w.argv ≠ []
  command : ∀ cl o, Parsing w cl o → ∀ s ∈ cl.cval, ∃ c ∈ s.bytes, c ≠ 32
  label : ∀ cl o, Parsing w cl o → o.allowfqdn = 0 → ∀ name, Asked w o cl.cval name → ∃ c ∈ name, c ≠ 46
  directory : ∀ fuel p, prepare w fuel = .ok p → p.options.AsksDirectory p.authMode →
    w.ldap.Answers p.options (some p.user) p.entry.host (p.options.askedTag p.authMode)
  hostent : w.hostentNull = true ∨ ¬ w.LeavesEarly

private theorem clientAddress_ok_iff {w : World} :
    (∃ rhost, clientAddress w = .ok rhost) ↔ w.sshClient ≠ none ∨ w.strtokNull = true := by
  by_cases hset : w.sshClient = none
  · rw [clientAddress, hset]
    cases w.strtokNull <;> simp
  · exact iff_of_true (clientAddress_ok hset) (Or.inl hset)

/-- No run of the program breaks exactly if nothing of this is missing, however many rounds the prompt
is given. -/
theorem main_faultless_iff (w : World) : (∀ fuel f, (main w fuel).2 ≠ .faulted f) ↔ w.Faultless := by
  have hload (cl : CommandLine) (o : Options) (hstarted : Started w cl) (hload : loadOptions w cl = .ok o)
      (hcmdline : buildCmdline w = .ok ()) : Parsing w cl o :=
    ⟨hstarted.user, hstarted.client, hstarted.line, hload, hcmdline⟩
  rw [not_faulted_iff]
  simp only [sound_run, forall_and]
  constructor
  · rintro ⟨⟨hprepare, hdirectory⟩, hleft⟩
    have hclient (huser : w.user ≠ none) := ((sound_prepare huser).mp (hprepare 0)).1
    have hline (fuel : Nat) {cl : CommandLine} (h : Started w cl) :=
      ((sound_prepare h.user).mp (hprepare fuel)).2 cl h.line
    have hrequest {cl : CommandLine} {o : Options} (h : Parsing w cl o) :=
      (sound_requestHost h).mp fun fuel =>
        ((hline fuel ⟨h.user, h.client, h.line⟩).2 o h.options).2 h.cmdline
    exact {
      client := fun huser => clientAddress_ok_iff.mp (hclient huser)
      config := fun cl h => sound_loadOptions.mp (hline 0 h).1
      argv := fun cl o h hload => sound_buildCmdline.mp ((hline 0 h).2 o hload).1
      command := fun cl o h => (hrequest h).1
      label := fun cl o h => (hrequest h).2
      directory := hdirectory
      hostent := hleft }
  · intro h
    refine ⟨⟨fun fuel => ?_, h.directory⟩, h.hostent⟩
    by_cases huser : w.user = none
    · rw [prepare, huser]
      simp [Sound]
    · rw [sound_prepare huser]
      have hclient := clientAddress_ok_iff.mpr (h.client huser)
      refine ⟨hclient, fun cl hcl => ?_⟩
      have hstarted : Started w cl := ⟨huser, hclient, hcl⟩
      refine ⟨sound_loadOptions.mpr (h.config cl hstarted), fun o ho => ?_⟩
      refine ⟨sound_buildCmdline.mpr (h.argv cl o hstarted ho), fun hcmdline => ?_⟩
      have hparsing := hload cl o hstarted ho hcmdline
      exact (sound_requestHost hparsing).mpr ⟨h.command cl o hparsing, h.label cl o hparsing⟩ fuel

/-- The same line breaks the program as its first one, and is an error where the option is set. -/
example :
    (main (bobWorld "web ls" "hostsFile\n" "web:22\n" "bob:web\n") 1).2 = .faulted .nullArgument ∧
      (main (bobWorld "web ls" "hostsFile /etc/hosts\nhostsFile\n" "web:22\n" "bob:web\n") 1).2 =
        .returned 1 := by
  decide +kernel

end Stonesh
