import Stonesh.Framework.Erasure
import Stonesh.Log
import Stonesh.Main.Cmdline
import Stonesh.Main.Command

/-!
# The messages of `main`

`main` with what it logs. The functions it is made of are given here once more with the messages
`main` itself sends between their steps: the text of each of them has to be formatted, the address
of the client is read once more after the port has been cut off, and the command lines are written
out. None of it can go wrong or changes anything: without its messages a run is the one of `main`.
-/

namespace Stonesh

open CLib

inductive AuditEvent
  | log (level : Level) (record : LogRecord)
  | act (e : MainEvent)
  deriving DecidableEq

/-- What `main` does, without what it says about it. -/
def AuditEvent.act? : AuditEvent → Option MainEvent
  | .log _ _ => none
  | .act e => some e

/-- The memory for formats and for the new command line, and the text for `errno`. -/
structure LogLib where
  malloc : Nat → Bool
  newcmdlineMalloc : Bool
  strerror : CString

abbrev LogRun (α : Type) := Traced AuditEvent Stop α

namespace Logged

section
variable (lib : LogLib) (g : LogGlobals)

def put (level : Level) (fmt : String) (args : List FormatArg) : LogRun Unit := do
  match ← Traced.lift .fault (logMessage lib.malloc g level (.lit fmt) args) with
  | none => pure ()
  | some record => Traced.emit (.log level record)

def notice (fmt : String) (args : List FormatArg) : LogRun Unit := put lib g .notice fmt args
def error (fmt : String) (args : List FormatArg) : LogRun Unit := put lib g .error fmt args
def fatal (fmt : String) (args : List FormatArg) : LogRun Unit := put lib g .fatal fmt args
def debug (fmt : String) (args : List FormatArg) : LogRun Unit := put lib g .debug fmt args

def connection (w : World) : Checked (Option CString × Option CString) :=
  match w.sshClient with
  | none => if w.strtokNull then pure (none, none) else throw .nullArgument
  | some s => do
    let cut ← strtok s.block 0 [32]
    match cut.token with
    | none => pure (none, none)
    | some _ => do
      let rest ← strtok cut.block cut.cursor [32]
      pure (← tokenText { rest with token := cut.token }, ← tokenText rest)

def logConnection (user : CString) (rhost rport : Option CString) : LogRun Unit :=
  if rhost ≠ none then
    notice lib g "(%s) connection via %s:%s" [.str (some user), .str rhost, .str rport]
  else notice lib g "(%s) local connection" [.str (some user)]

def loadOptions (w : World) (cl : CommandLine) : LogRun Options := do
  let file ← Traced.lift id (checked (configFile w cl))
  let (result, options) ← Traced.lift id (checked (readConfigFile w.files file staticOptions))
  if result = 0 then do
    error lib g "unable to read configuration file" []
    Traced.stop (.cleanExit exitFailure .undefined)
  else pure (setLogToStderr cl options)

def logOptions (rhost : Option CString) (options : Options) : LogRun Unit := do
  debug lib g "rhost = '%s'" [.str rhost]
  debug lib g "ssh_path = '%s'" [.str options.sshPath]
  debug lib g "nc_path = '%s'" [.str options.ncPath]
  debug lib g "nc_timeout = '%s'" [.str options.ncTimeout]
  debug lib g "enable_proxy = '%i'" [.int options.enableProxy]
  debug lib g "proxy_keyword = '%s'" [.str options.proxyKeyword]
  debug lib g "hosts_file = '%s'" [.str options.hostsFile]
  debug lib g "users_file = '%s'" [.str options.usersFile]
  debug lib g "use_ldap = '%i'" [.int options.useLdap]
  debug lib g "ldap_uri = '%s'" [.str options.ldapUri]
  debug lib g "ldap_base = '%s" [.str options.ldapBase]
  debug lib g "authorized_service_tag = '%s'" [.str options.authorizedServiceTag]
  debug lib g "geoip_dat = '%s'" [.str options.geoipDat]
  debug lib g "geoip6_dat = '%s'" [.str options.geoip6Dat]

def buildCmdline (w : World) : LogRun CString :=
  if w.cmdlineMalloc then do
    let cmdline ← Traced.lift .fault (concatenate (w.argv.map some))
    debug lib g "cmdline = '%s'" [.str (some cmdline)]
    pure cmdline
  else do
    error lib g "unable to allocate memory for cmdline" []
    Traced.stop (.cleanExit exitFailure .undefined)

/-- The one way from the command to `clean_exit` is a proxy request without a host. -/
def parseCommand (user cmdline : CString) (options : Options) (cval : Option CString) : LogRun Command :=
  match Stonesh.parseCommand options cval with
  | .error (.cleanExit status hostent) => do
    error lib g "(%s) cmdline='%s'" [.str (some user), .str (some cmdline)]
    error lib g "(%s) no host specified in proxy access request, exiting" [.str (some user)]
    Traced.stop (.cleanExit status hostent)
  | .error s => Traced.stop s
  | .ok command => pure command

def promptHost (malloc : Nat → Bool) : Nat → Nat → List (List Byte) → LogRun CString
  | 0, _, _ => Traced.stop .outOfRounds
  | fuel + 1, round, lines => do
    debug lib g "no host specified, prompting user for value" []
    if malloc round then
      let text := (CString.ofList (lines.headD [])).bytes.dropLast
      if text = [] then promptHost malloc fuel (round + 1) lines.tail else pure (.ofList text)
    else do
      error lib g "unable to allocate maximum memory for host option" []
      Traced.stop (.cleanExit exitFailure .undefined)

def requestedHost (w : World) (fuel : Nat) (options : Options) (command : Command) : LogRun CString :=
  match command.host with
  | some host =>
    if w.hostMalloc 0 then pure host
    else do
      error lib g "unable to allocate memory for host option" []
      Traced.stop (.cleanExit exitFailure .undefined)
  | none =>
    match options.host with
    | some host => pure host
    | none => promptHost lib g w.hostMalloc fuel 0 (chunks maxHostNameLen w.stdin)

def hostName (w : World) (fuel : Nat) (options : Options) (command : Command) : LogRun CString := do
  let host ← requestedHost lib g w fuel options command
  let host ← if options.allowfqdn = 0 then Traced.lift id (checked (cutDomain host)) else pure host
  debug lib g "host = %s" [.str (some host)]
  debug lib g "cval = %s" [.str command.cval]
  pure host

def findEntry (w : World) (user : CString) (options : Options) (host : CString) : LogRun HostEntry := do
  let lookup ← Traced.lift id (checked (gethostentry w.files .free (some host) options.hostsFile))
  if lookup.found then do
    debug lib g "(%s) requested valid host '%s:%s' (%s)"
      [.str (some user), .str lookup.entry.host, .str lookup.entry.port, .str lookup.entry.countries]
    pure lookup.entry
  else do
    error lib g "(%s) requested invalid host '%s', exiting" [.str (some user), .str (some host)]
    Traced.stop (.cleanExit exitFailure .null)

/-- What is said about the check of the country, if there is one. -/
def logCountry (p : Prepared) (user : Option CString) (before after : Int) : LogRun Unit :=
  if before ≠ 0 ∧ p.entry.countries ≠ none ∧ p.rhost ≠ none then
    if after = 0 then
      error lib g "(%s) not authorized for '%s' from '%s'" [.str user, .str (some p.host), .str p.rhost]
    else debug lib g "(%s) authorized for '%s' from '%s'" [.str user, .str (some p.host), .str p.rhost]
  else pure ()

def logRefused (p : Prepared) (user : Option CString) : LogRun Unit :=
  if p.command.proxy = 0 then
    error lib g "(%s) not authorized to access host '%s', exiting" [.str user, .str (some p.host)]
  else
    error lib g "(%s) not authorized for proxy access to host '%s', exiting"
      [.str user, .str (some p.host)]

def logPermitted (p : Prepared) (user : Option CString) : LogRun Unit :=
  if p.command.proxy = 0 then
    debug lib g "(%s) authorized for access to host '%s'" [.str user, .str (some p.host)]
  else debug lib g "(%s) authorized for proxy access to host '%s'" [.str user, .str (some p.host)]

/-- The result is the user and the host as the authorization has left them. -/
def authorize (w : World) (p : Prepared) : LogRun (Option CString × Option CString) := do
  Traced.emit (.act (.authUser (some p.user) p.entry.host p.authMode))
  let r ← Traced.embed (fun e => .act (.ldap e)) .fault
    (authUser w.ldap w.files p.options (some p.user) p.entry.host p.authMode)
  let auth ← Traced.lift .fault (checkCountry w p r.auth)
  logCountry lib g p r.user r.auth auth
  if auth = 0 then do
    logRefused lib g p r.user
    Traced.stop (.cleanExit exitSuccess .static)
  else do
    logPermitted lib g p r.user
    pure (r.user, r.host)

def newcmdline (argv : List (Option CString)) : Checked (Option CString) :=
  if lib.newcmdlineMalloc then some <$> concatenate argv else pure none

def execute (w : World) (user newcmdline : Option CString) (argv : List (Option CString)) : LogRun Unit := do
  notice lib g "(%s) executing '%s'" [.str user, .str newcmdline]
  Traced.emit (.act (.execvp argv))
  if w.execvpFails then do
    error lib g "(%s) Unable to execute command: %s" [.str user, .str (some lib.strerror)]
    Traced.stop (.cleanExit exitFailure .static)
  else Traced.stop .replaced

def handOver (w : World) (p : Prepared) (user host : Option CString) : LogRun Unit :=
  if p.command.proxy ≠ 1 ∧ w.stdinIsTty = false ∧ p.command.args = none then do
    error lib g "(%s) has no TTY and did not specify a command to be run" [.str user]
    Traced.stop (.cleanExit exitFailure .static)
  else do
    let line ← Traced.lift .fault (newcmdline lib (newargv p host))
    execute lib g w user line (newargv p host)

end

/-- The preparation, and the globals of the log behind it. -/
def prepare (lib : LogLib) (w : World) (fuel : Nat) : LogRun (Prepared × LogGlobals) := do
  match w.user with
  | none => do
    fatal lib ⟨0, 0⟩ "unable to get the username" []
    Traced.stop (.exit exitFailure)
  | some user =>
    let (rhost, rport) ← Traced.lift .fault (connection w)
    logConnection lib ⟨0, 0⟩ user rhost rport
    let cl ← Traced.lift id (commandLine w)
    let options ← loadOptions lib ⟨cl.logToStderr, 0⟩ w cl
    let g : LogGlobals := ⟨cl.logToStderr, options.debug⟩
    logOptions lib g rhost options
    let cmdline ← buildCmdline lib g w
    let command ← parseCommand lib g user cmdline options cl.cval
    let host ← hostName lib g w fuel options command
    let options := { options with host := some host }
    let entry ← findEntry lib g w user options host
    pure ({ user, rhost, options, command, host, entry }, g)

def run (lib : LogLib) (w : World) (fuel : Nat) : LogRun Unit := do
  let (p, g) ← prepare lib w fuel
  let (user, host) ← authorize lib g w p
  handOver lib g w p user host

def main (lib : LogLib) (w : World) (fuel : Nat) : List AuditEvent × Outcome :=
  ((run lib w fuel).trace, finish w (run lib w fuel).result)

end Logged

section
variable {lib : LogLib} {g : LogGlobals} {level : Level} {fmt : String} {args : List FormatArg}
  {text : List Byte}

theorem Logged.put_eq (h : vformat (CString.lit fmt).bytes args = .ok text) (level : Level) :
    Logged.put lib g level fmt args =
      ⟨if level = .debug ∧ g.debugging ≠ 1 then [] else
        [.log level (logRecord lib.malloc g level (.lit fmt) text)], .ok ()⟩ := by
  rw [Logged.put, logMessage_eq h]
  split
  · rfl
  · rfl

theorem Logged.put_always (h : vformat (CString.lit fmt).bytes args = .ok text) (hlevel : level ≠ .debug) :
    Logged.put lib g level fmt args = ⟨[.log level (logRecord lib.malloc g level (.lit fmt) text)], .ok ()⟩ := by
  rw [Logged.put_eq h, if_neg fun hd => hlevel hd.1]

theorem Logged.put_result (h : ∃ text, vformat (CString.lit fmt).bytes args = .ok text) :
    (Logged.put lib g level fmt args).result = .ok () := by
  obtain ⟨text, htext⟩ := h
  rw [Logged.put_eq htext]

section
variable {δ : Type} {kept : AuditEvent → Option δ}

theorem Logged.put_silent (h : ∃ text, vformat (CString.lit fmt).bytes args = .ok text)
    (hlevel : ∀ r, kept (.log level r) = none) : (Logged.put lib g level fmt args).Silent kept := by
  obtain ⟨text, htext⟩ := h
  rw [Logged.put_eq htext]
  refine ⟨rfl, ?_⟩
  simp only
  split
  · rfl
  · rw [List.filterMap_cons_none (hlevel _)]
    rfl

theorem logConnection_silent (user : CString) (rhost rport : Option CString)
    (hnotice : ∀ r, kept (.log .notice r) = none) :
    (Logged.logConnection lib g user rhost rport).Silent kept := by
  unfold Logged.logConnection
  split
  · exact Logged.put_silent ⟨_, rfl⟩ hnotice
  · exact Logged.put_silent ⟨_, rfl⟩ hnotice

theorem logOptions_silent (rhost : Option CString) (o : Options)
    (hdebug : ∀ r, kept (.log .debug r) = none) : (Logged.logOptions lib g rhost o).Silent kept := by
  unfold Logged.logOptions
  repeat' apply Traced.Silent.seq
  all_goals exact Logged.put_silent ⟨_, rfl⟩ hdebug

theorem logCountry_silent (p : Prepared) (user : Option CString) (before after : Int)
    (herror : after = 0 → ∀ r, kept (.log .error r) = none) (hdebug : ∀ r, kept (.log .debug r) = none) :
    (Logged.logCountry lib g p user before after).Silent kept := by
  unfold Logged.logCountry
  split
  · split
    · next hzero => exact Logged.put_silent ⟨_, rfl⟩ (herror hzero)
    · exact Logged.put_silent ⟨_, rfl⟩ hdebug
  · exact Traced.silent_pure

theorem logPermitted_silent (p : Prepared) (user : Option CString)
    (hdebug : ∀ r, kept (.log .debug r) = none) : (Logged.logPermitted lib g p user).Silent kept := by
  unfold Logged.logPermitted
  split
  · exact Logged.put_silent ⟨_, rfl⟩ hdebug
  · exact Logged.put_silent ⟨_, rfl⟩ hdebug

end

end

section
variable {lib : LogLib} {g : LogGlobals} {w : World} {fuel : Nat} {cl : CommandLine}

/-- The second call of `strtok` leaves the address alone. -/
theorem connection_fst (w : World) : (Logged.connection w).map Prod.fst = clientAddress w := by
  rw [Logged.connection, clientAddress]
  cases w.sshClient with
  | none =>
    simp only
    split
    · rfl
    · rfl
  | some s =>
    have hblock : s.block = [] ++ (s.bytes ++ 0 :: []) := by simp [CString.block]
    simp only [hblock]
    rcases strtok_cases (p := 0) [] [] [32] rfl s.noNul with ⟨-, cur, hcut⟩ |
        ⟨sep, t, gap, r, -, -, hmt, hmr, -, hgap, -, hcut⟩
    · rw [hcut]
      rfl
    · have ht : 0 ∉ t := fun hm => s.noNul (hmt _ hm)
      have hr : 0 ∉ r := fun hm => s.noNul (hmr _ hm)
      obtain ⟨v, hv⟩ := gap_terminates hgap []
      have htoken (cursor : Nat) (v : List Byte) :
          tokenText ⟨some ([] ++ sep).length, cursor, [] ++ (sep ++ (t ++ 0 :: v))⟩ =
            .ok (some (.ofList t)) := tokenText_at rfl ht
      have hfront : [] ++ (sep ++ (t ++ (gap ++ (r ++ 0 :: [])))) =
          (sep ++ (t ++ gap)) ++ (r ++ 0 :: []) := by simp
      have hlen : ([] ++ (sep ++ (t ++ gap))).length = (sep ++ (t ++ gap)).length := rfl
      rw [hcut, except_ok_bind, except_ok_bind, hlen, hv, htoken, ← hv, hfront]
      rcases strtok_cases (sep ++ (t ++ gap)) [] [32] rfl hr with ⟨-, cur, hrest⟩ |
          ⟨sep', t', gap', r', -, hne, hmt', -, -, hgap', -, hrest⟩
      · rw [hrest, except_ok_bind, ← hfront, hv]
        simp only [htoken, except_ok_bind]
        rfl
      · have ht' : 0 ∉ t' := fun hm => hr (hmt' _ hm)
        obtain ⟨v', hv'⟩ := gap_terminates hgap' []
        have hport (cursor : Nat) : tokenText ⟨some (sep ++ (t ++ gap) ++ sep').length, cursor,
            sep ++ (t ++ gap) ++ (sep' ++ (t' ++ 0 :: v'))⟩ = .ok (some (.ofList t')) := by
          rw [← List.append_assoc (sep ++ (t ++ gap))]
          exact tokenText_at rfl ht'
        -- a second token stands behind a cut
        have hgap : gap = [0] := by
          rcases hgap with hgap | ⟨-, rfl⟩
          · exact hgap
          · obtain ⟨c, hc⟩ := List.exists_mem_of_ne_nil t' hne
            exact absurd (hmt' c hc) (by simp)
        have haddress : sep ++ (t ++ gap) ++ (sep' ++ (t' ++ 0 :: v')) =
            [] ++ (sep ++ (t ++ 0 :: (sep' ++ (t' ++ 0 :: v')))) := by simp [hgap]
        rw [hrest, except_ok_bind, hv']
        simp only [hport]
        rw [haddress, htoken]
        rfl

theorem loadOptions_erases : (Logged.loadOptions lib g w cl).Erases AuditEvent.act? id
    (Traced.lift id (loadOptions w cl)) := by
  unfold Logged.loadOptions loadOptions
  rw [Traced.lift_bind]
  refine (Traced.erases_lift id _).bind fun file _ => ?_
  simp only [id, Traced.lift_bind]
  refine (Traced.erases_lift id _).bind fun r _ => ?_
  simp only [id]
  split
  · exact (Logged.put_silent ⟨_, rfl⟩ fun _ => rfl).bind (Traced.erases_stop _)
  · exact Traced.erases_pure _

theorem buildCmdline_erases : (Logged.buildCmdline lib g w).Erases AuditEvent.act? (fun _ => ())
    (Traced.lift id (buildCmdline w)) := by
  unfold Logged.buildCmdline
  rw [buildCmdline_eq]
  split
  · cases concatenate (w.argv.map some) with
    | error e => exact ⟨rfl, rfl⟩
    | ok cmdline => exact (Logged.put_silent ⟨_, rfl⟩ fun _ => rfl).bind (Traced.erases_pure _)
  · exact (Logged.put_silent ⟨_, rfl⟩ fun _ => rfl).bind (Traced.erases_stop _)

theorem parseCommand_erases (user cmdline : CString) (o : Options) (cval : Option CString) :
    (Logged.parseCommand lib g user cmdline o cval).Erases AuditEvent.act? id
      (Traced.lift id (parseCommand o cval)) := by
  unfold Logged.parseCommand
  cases h : parseCommand o cval with
  | ok command => exact ⟨rfl, rfl⟩
  | error s =>
    cases s with
    | cleanExit status hostent =>
      exact (Logged.put_silent ⟨_, rfl⟩ fun _ => rfl).bind
        ((Logged.put_silent ⟨_, rfl⟩ fun _ => rfl).bind (Traced.erases_stop _))
    | _ => exact ⟨rfl, rfl⟩

theorem promptHost_erases (malloc : Nat → Bool) (round : Nat) (lines : List (List Byte)) :
    (Logged.promptHost lib g malloc fuel round lines).Erases AuditEvent.act? id
      (Traced.lift id (promptHost malloc fuel round lines)) := by
  induction fuel generalizing round lines with
  | zero => exact Traced.erases_stop _
  | succ fuel ih =>
    unfold Logged.promptHost promptHost
    refine (Logged.put_silent ⟨_, rfl⟩ fun _ => rfl).bind ?_
    split
    · simp only
      split
      · exact ih _ _
      · exact Traced.erases_pure _
    · exact (Logged.put_silent ⟨_, rfl⟩ fun _ => rfl).bind (Traced.erases_stop _)

theorem requestedHost_erases (o : Options) (command : Command) :
    (Logged.requestedHost lib g w fuel o command).Erases AuditEvent.act? id
      (Traced.lift id (requestedHost w fuel o command)) := by
  unfold Logged.requestedHost requestedHost
  cases command.host with
  | some host =>
    simp only
    split
    · exact Traced.erases_pure _
    · exact (Logged.put_silent ⟨_, rfl⟩ fun _ => rfl).bind (Traced.erases_stop _)
  | none =>
    cases o.host with
    | some host => exact Traced.erases_pure _
    | none => exact promptHost_erases _ _ _

theorem hostName_erases (o : Options) (command : Command) :
    (Logged.hostName lib g w fuel o command).Erases AuditEvent.act? id
      (Traced.lift id (hostName w fuel o command)) := by
  unfold Logged.hostName hostName
  rw [Traced.lift_bind]
  refine (requestedHost_erases o command).bind fun host _ => ?_
  have hsaid (host : CString) : (do
      Logged.debug lib g "host = %s" [.str (some host)]
      Logged.debug lib g "cval = %s" [.str command.cval]
      pure host : LogRun CString).Erases AuditEvent.act? id (pure host : Traced MainEvent Stop CString) :=
    (Logged.put_silent ⟨_, rfl⟩ fun _ => rfl).bind ((Logged.put_silent ⟨_, rfl⟩ fun _ => rfl).bind (Traced.erases_pure _))
  simp only [id]
  split
  · cases checked (cutDomain host) with
    | error s => exact Traced.erases_stop _
    | ok host => exact hsaid host
  · exact hsaid host

theorem findEntry_erases (user : CString) (o : Options) (host : CString) :
    (Logged.findEntry lib g w user o host).Erases AuditEvent.act? id
      (Traced.lift id (findEntry w o host)) := by
  unfold Logged.findEntry findEntry
  rw [Traced.lift_bind]
  refine (Traced.erases_lift id _).bind fun lookup _ => ?_
  simp only [id]
  split
  · exact (Logged.put_silent ⟨_, rfl⟩ fun _ => rfl).bind (Traced.erases_pure _)
  · exact (Logged.put_silent ⟨_, rfl⟩ fun _ => rfl).bind (Traced.erases_stop _)

theorem prepare_erases : (Logged.prepare lib w fuel).Erases AuditEvent.act? Prod.fst
    (Traced.lift id (prepare w fuel)) := by
  unfold Logged.prepare prepare
  cases w.user with
  | none => exact (Logged.put_silent ⟨_, rfl⟩ fun _ => rfl).bind (Traced.erases_stop _)
  | some user =>
    simp only [Traced.lift_bind]
    refine Traced.Erases.bind (f := Prod.fst) ?_ ?_
    · rw [← connection_fst]
      refine ⟨?_, rfl⟩
      cases Logged.connection w with
      | error e => rfl
      | ok r => rfl
    · rintro ⟨rhost, rport⟩ -
      refine (logConnection_silent user rhost rport fun _ => rfl).bind ?_
      refine (Traced.erases_lift id _).bind fun cl _ => ?_
      refine loadOptions_erases.bind fun options _ => ?_
      refine (logOptions_silent rhost options fun _ => rfl).bind ?_
      refine buildCmdline_erases.bind fun cmdline _ => ?_
      refine (parseCommand_erases user cmdline options _).bind fun command _ => ?_
      refine (hostName_erases options command).bind fun host _ => ?_
      refine (findEntry_erases user _ host).bind fun entry _ => ?_
      exact Traced.erases_pure _

theorem logRefused_silent (p : Prepared) (user : Option CString) :
    (Logged.logRefused lib g p user).Silent AuditEvent.act? := by
  unfold Logged.logRefused
  split
  · exact Logged.put_silent ⟨_, rfl⟩ fun _ => rfl
  · exact Logged.put_silent ⟨_, rfl⟩ fun _ => rfl

theorem authorize_erases (p : Prepared) : (Logged.authorize lib g w p).Erases AuditEvent.act? Prod.snd
    (authorize w p) := by
  unfold Logged.authorize authorize
  have hkeep (e : LdapEvent) : AuditEvent.act? (.act (.ldap e)) = some (.ldap e) := rfl
  refine (Traced.erases_emit (g := AuditEvent.act?) rfl).bind fun _ _ => ?_
  refine (Traced.erases_embed Stop.fault _ hkeep).bind fun r _ => ?_
  refine (Traced.erases_lift Stop.fault _).bind fun auth _ => ?_
  refine (logCountry_silent p _ _ _ (fun _ _ => rfl) fun _ => rfl).bind ?_
  simp only [id]
  split
  · exact (logRefused_silent p _).bind (Traced.erases_stop _)
  · exact (logPermitted_silent p _ fun _ => rfl).bind (Traced.erases_pure _)

theorem newcmdline_written {p : Prepared} (hp : prepare w fuel = .ok p) (host : Option CString) :
    ∃ line, Logged.newcmdline lib (newargv p host) = .ok line := by
  obtain ⟨cl, o, hof⟩ := prepare_ok hp
  obtain ⟨nc, hnc, -⟩ := hof.accepted.strings .ncPath (by decide) (by decide)
  obtain ⟨ssh, hssh, -⟩ := hof.accepted.strings .sshPath (by decide) (by decide)
  have hnc : p.options.ncPath = some nc := hnc
  have hssh : p.options.sshPath = some ssh := hssh
  unfold Logged.newcmdline
  split
  · rw [newargv, hnc, hssh]
    split
    · rw [concatenate_eq]
      exact ⟨_, rfl⟩
    · rw [List.cons_append, concatenate_eq]
      exact ⟨_, rfl⟩
  · exact ⟨none, rfl⟩

theorem execute_erases (user line : Option CString) (argv : List (Option CString)) :
    (Logged.execute lib g w user line argv).Erases AuditEvent.act? id (do
      Traced.emit (.execvp argv)
      if w.execvpFails then Traced.stop (.cleanExit exitFailure .static) else Traced.stop .replaced) := by
  unfold Logged.execute
  refine (Logged.put_silent ⟨_, rfl⟩ fun _ => rfl).bind ?_
  refine (Traced.erases_emit (g := AuditEvent.act?) rfl).bind fun _ _ => ?_
  split
  · exact (Logged.put_silent ⟨_, rfl⟩ fun _ => rfl).bind (Traced.erases_stop _)
  · exact Traced.erases_stop _

theorem handOver_erases {p : Prepared} {host line : Option CString}
    (hline : Logged.newcmdline lib (newargv p host) = .ok line) (user : Option CString) :
    (Logged.handOver lib g w p user host).Erases AuditEvent.act? id (handOver w p host) := by
  unfold Logged.handOver handOver
  split
  · exact (Logged.put_silent ⟨_, rfl⟩ fun _ => rfl).bind (Traced.erases_stop _)
  · rw [hline]
    exact execute_erases user line _

theorem prepare_of_logged {p : Prepared} (h : (Logged.prepare lib w fuel).result = .ok (p, g)) :
    prepare w fuel = .ok p := by
  have hresult := (@prepare_erases lib w fuel).result
  rw [h, Traced.lift_id_result] at hresult
  exact hresult.symm

/-- Without its messages the run is the one of `main`. -/
theorem run_erases (lib : LogLib) (w : World) (fuel : Nat) :
    (Logged.run lib w fuel).Erases AuditEvent.act? id (run w fuel) := by
  unfold Logged.run run
  refine prepare_erases.bind ?_
  rintro ⟨p, g⟩ hp
  refine (authorize_erases p).bind ?_
  rintro ⟨user, host⟩ -
  obtain ⟨line, hline⟩ := @newcmdline_written lib w fuel p (prepare_of_logged hp) host
  exact handOver_erases hline user

theorem run_result_logged (lib : LogLib) (w : World) (fuel : Nat) :
    (Logged.run lib w fuel).result = (run w fuel).result := by
  rw [← (run_erases lib w fuel).result]
  cases (Logged.run lib w fuel).result with
  | error s => rfl
  | ok a => rfl

/-- `main` with its messages does what it does without them and ends in the same way, whatever is
logged and whatever memory there is for it. -/
theorem main_logged (lib : LogLib) (w : World) (fuel : Nat) :
    ((Logged.main lib w fuel).1.filterMap AuditEvent.act?, (Logged.main lib w fuel).2) = main w fuel := by
  rw [Logged.main, main, (run_erases lib w fuel).trace, run_result_logged]

end

end Stonesh
