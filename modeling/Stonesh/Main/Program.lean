import Stonesh.Auth
import Stonesh.Framework.Getopt
import Stonesh.Geoip
import Stonesh.Hosts

/-!
# The program

`main` from its arguments to the call of `execvp` or to `clean_exit`. What the program does not
decide itself is collected in `World`. The run is cut where `main` cuts it: the preparation reads
the configuration and the command and looks the host up, then the request is authorized, then it
is handed over. A `goto clean_exit` stops the run with the status and the state of `hostent` there.
-/

namespace Stonesh

open CLib

/-- The environment, the files, the answers of the system and what an uninitialised variable
happens to hold. -/
structure World where
  user : Option CString
  sshClient : Option CString
  strtokNull : Bool
  argv : List CString
  posixlyCorrect : Bool
  files : CString → Option (List Byte)
  stdin : List Byte
  stdinIsTty : Bool
  strdup : CString → Bool
  cmdlineMalloc : Bool
  hostMalloc : Nat → Bool
  ldap : LdapLib
  geo : GeoLib
  hostentNull : Bool
  execvpFails : Bool

/-- What the variable `hostent` points to. -/
inductive HostentPtr
  | undefined
  | null
  | static
  deriving DecidableEq, Repr

/-- Why a run stops: a fault, `exit`, `goto clean_exit`, or `execvp` has replaced the program.
Only the loop that prompts for a host can run out of rounds. -/
inductive Stop
  | fault (f : Fault)
  | exit (status : Int)
  | cleanExit (status : Int) (hostent : HostentPtr)
  | replaced
  | outOfRounds
  deriving DecidableEq, Repr

inductive MainEvent
  | authUser (user host : Option CString) (mode : Int)
  | ldap (e : LdapEvent)
  | execvp (argv : List (Option CString))
  deriving DecidableEq

def exitSuccess : Int := 0
def exitFailure : Int := 1

def checked {α : Type} (x : Checked α) : Except Stop α := x.mapError .fault

@[simp] theorem checked_ok {α : Type} (a : α) : checked (.ok a) = .ok a := rfl

@[simp] theorem checked_error {α : Type} (f : Fault) :
    (checked (.error f) : Except Stop α) = .error (.fault f) := rfl

theorem checked_eq_ok {α : Type} {x : Checked α} {a : α} : checked x = .ok a ↔ x = .ok a := by
  cases x <;> simp

/-- `rhost = strtok( getenv( "SSH_CLIENT" ), " ")`. Without the variable `strtok` is called with
NULL before it has had a string. -/
def clientAddress (w : World) : Checked (Option CString) :=
  match w.sshClient with
  | none => if w.strtokNull then pure none else throw .nullArgument
  | some s => do tokenText (← strtok s.block 0 [32])

structure CommandLine where
  cval : Option CString
  configFile : Option CString
  logToStderr : Int
  deriving DecidableEq

def copyString (w : World) (s : CString) : Option CString := if w.strdup s then some s else none

/-- The loop over the options: `c`, `C` and `l` set a variable, `h` and `v` end the program. -/
def readOptions (w : World) : List Opt → CommandLine → Except Stop CommandLine
  | [], cl => pure cl
  | .unknown _ :: opts, cl => readOptions w opts cl
  | .option c optarg :: opts, cl =>
    if c = 99 then readOptions w opts { cl with cval := optarg }
    else if c = 67 then readOptions w opts { cl with configFile := optarg.bind (copyString w) }
    else if c = 108 then readOptions w opts { cl with logToStderr := 1 }
    else throw (.exit exitFailure)

def commandLine (w : World) : Except Stop CommandLine :=
  readOptions w (getopt (bytes "c:C:lhv") w.posixlyCorrect w.argv.tail) ⟨none, none, 0⟩

def defaultConfigFile : String := "/etc/stonesh/stonesh.conf"

def staticOptions : Options where
  debug := 0
  logToStderr := 0
  useLdap := 0
  enableProxy := 0
  authType := 0
  allowfqdn := 0
  disableAuthorization := 0
  disableProxyAuthorization := 0
  host := none
  port := none
  authorizedServiceTag := none
  proxyKeyword := none
  ldapUri := none
  ldapBase := none
  hostsFile := none
  usersFile := none
  sshPath := none
  ncPath := none
  ncTimeout := none
  geoipDat := none
  geoip6Dat := none

def configFile (w : World) (cl : CommandLine) : Checked CString :=
  strdup (cl.configFile.or (copyString w (.lit defaultConfigFile)))

/-- `if ( log_to_stderr > 0 ) { options.log_to_stderr = 1; }` -/
def setLogToStderr (cl : CommandLine) (options : Options) : Options :=
  if cl.logToStderr > 0 then { options with logToStderr := 1 } else options

def loadOptions (w : World) (cl : CommandLine) : Except Stop Options := do
  let file ← checked (configFile w cl)
  let (result, options) ← checked (readConfigFile w.files file staticOptions)
  if result = 0 then throw (.cleanExit exitFailure .undefined)
  else pure (setLogToStderr cl options)

/-- The copy of the command line for the log, which starts with `argv[0]`. -/
def buildCmdline (w : World) : Except Stop Unit :=
  if w.cmdlineMalloc then
    if w.argv = [] then throw (.fault .nullArgument) else pure ()
  else throw (.cleanExit exitFailure .undefined)

/-- The variables set from the command: `cval` itself is cut by `strtok`. -/
structure Command where
  cval : Option CString
  host : Option CString
  args : Option CString
  proxy : Int
  deriving DecidableEq

def parseCommand (options : Options) (cval : Option CString) : Except Stop Command :=
  match cval with
  | none => pure ⟨none, none, none, 0⟩
  | some s => do
    let cut ← checked (strtok s.block 0 [32])
    let host ← checked (strdup (← checked (tokenText cut)))
    let keyword ← checked (strdup options.proxyKeyword)
    if host.bytes.length = keyword.bytes.length ∧
        strncmp host keyword keyword.bytes.length = 0 then
      let cut ← checked (strtok cut.block cut.cursor [32])
      match ← checked (tokenText cut) with
      | none => throw (.cleanExit exitFailure .undefined)
      | some host => pure ⟨some (← checked (str cut.block 0)), some host, none, 1⟩
    else
      let rest ← checked (strtok cut.block cut.cursor [])
      let host ← checked (tokenText { rest with token := cut.token })
      pure ⟨some (← checked (str rest.block 0)), host, ← checked (tokenText rest), 0⟩

def maxHostNameLen : Nat := 64

/-- The loop that prompts for the host: each round allocates a buffer, reads a line into it and
cuts off the last byte. At the end of the input the buffer stays empty and the loop goes on. -/
def promptHost (malloc : Nat → Bool) : Nat → Nat → List (List Byte) → Except Stop CString
  | 0, _, _ => throw .outOfRounds
  | fuel + 1, round, lines =>
    if malloc round then
      let text := (CString.ofList (lines.headD [])).bytes.dropLast
      if text = [] then promptHost malloc fuel (round + 1) lines.tail else pure (.ofList text)
    else throw (.cleanExit exitFailure .undefined)

/-- The host of the command, copied into the options, or the host the user is prompted for. -/
def requestedHost (w : World) (fuel : Nat) (options : Options) (command : Command) :
    Except Stop CString :=
  match command.host with
  | some host => if w.hostMalloc 0 then pure host else throw (.cleanExit exitFailure .undefined)
  | none =>
    match options.host with
    | some host => pure host
    | none => promptHost w.hostMalloc fuel 0 (chunks maxHostNameLen w.stdin)

/-- `host = strtok( options.host, "." ); strncpy( options.host, host, strlen(host) );` -/
def cutDomain (host : CString) : Checked CString := do
  let cut ← strtok host.block 0 [46]
  match cut.token with
  | none => throw .nullArgument
  | some p => do str (← strncpy cut.block 0 p (← strlen cut.block p)) 0

def hostName (w : World) (fuel : Nat) (options : Options) (command : Command) :
    Except Stop CString := do
  let host ← requestedHost w fuel options command
  if options.allowfqdn = 0 then checked (cutDomain host) else pure host

def findEntry (w : World) (options : Options) (host : CString) : Except Stop HostEntry := do
  let lookup ← checked (gethostentry w.files .free (some host) options.hostsFile)
  if lookup.found then pure lookup.entry else throw (.cleanExit exitFailure .null)

/-- The variables of `main` when the host entry has been found. -/
structure Prepared where
  user : CString
  rhost : Option CString
  options : Options
  command : Command
  host : CString
  entry : HostEntry

def prepare (w : World) (fuel : Nat) : Except Stop Prepared := do
  match w.user with
  | none => throw (.exit exitFailure)
  | some user =>
    let rhost ← checked (clientAddress w)
    let cl ← commandLine w
    let options ← loadOptions w cl
    buildCmdline w
    let command ← parseCommand options cl.cval
    let host ← hostName w fuel options command
    let options := { options with host := some host }
    let entry ← findEntry w options host
    pure { user, rhost, options, command, host, entry }

/-- The mode `auth_user` is asked in, from the cut `cval` and the host name. -/
def Prepared.authMode (p : Prepared) : Int :=
  match p.command.cval with
  | none => authBastion
  | some cval => if strncmp cval p.host cval.bytes.length = 0 then authBastion else authProxy

/-- The value of `auth` after the check of the client's country. -/
def checkCountry (w : World) (p : Prepared) (auth : Int) : Checked Int :=
  match p.entry.countries, p.rhost with
  | some countries, some rhost =>
    if auth ≠ 0 then isFromValidCountry w.geo p.options rhost (some countries) (some (.lit ","))
    else pure auth
  | _, _ => pure auth

/-- The result is `hostent->host`, which the authorization may have trimmed. A request that is
refused leaves for `clean_exit` with the status as it was initialised. -/
def authorize (w : World) (p : Prepared) : Traced MainEvent Stop (Option CString) := do
  Traced.emit (.authUser (some p.user) p.entry.host p.authMode)
  let r ← Traced.embed .ldap .fault
    (authUser w.ldap w.files p.options (some p.user) p.entry.host p.authMode)
  let auth ← Traced.lift .fault (checkCountry w p r.auth)
  if auth = 0 then Traced.stop (.cleanExit exitSuccess .static) else pure r.host

def newargv (p : Prepared) (host : Option CString) : List (Option CString) :=
  if p.command.proxy = 1 then
    [p.options.ncPath, some (.lit "-w"), p.options.ncTimeout, host, p.entry.port]
  else
    [p.options.sshPath, some (.lit "-p"), p.entry.port, some (.lit "-q"), host, some (.lit "--")] ++
      p.command.args.toList.map some

def handOver (w : World) (p : Prepared) (host : Option CString) : Traced MainEvent Stop Unit :=
  if p.command.proxy ≠ 1 ∧ w.stdinIsTty = false ∧ p.command.args = none then
    Traced.stop (.cleanExit exitFailure .static)
  else do
    Traced.emit (.execvp (newargv p host))
    if w.execvpFails then Traced.stop (.cleanExit exitFailure .static) else Traced.stop .replaced

/-- The body of `main`; every path through it stops. -/
def run (w : World) (fuel : Nat) : Traced MainEvent Stop Unit := do
  let p ← Traced.lift id (prepare w fuel)
  let host ← authorize w p
  handOver w p host

inductive Outcome
  | returned (status : Int)
  | exited (status : Int)
  | replaced
  | faulted (f : Fault)
  | running
  deriving DecidableEq, Repr

/-- The code behind `clean_exit`, which looks at `hostent` on every path. -/
def finish (w : World) : Except Stop Unit → Outcome
  | .error (.fault f) => .faulted f
  | .error (.exit status) => .exited status
  | .error (.cleanExit status .undefined) =>
    if w.hostentNull then .returned status else .faulted .indeterminate
  | .error (.cleanExit status _) => .returned status
  | .error .replaced => .replaced
  | .error .outOfRounds => .running
  | .ok () => .returned exitSuccess

def main (w : World) (fuel : Nat) : List MainEvent × Outcome :=
  ((run w fuel).trace, finish w (run w fuel).result)

/-- Everything `main` has computed for a request it goes on to authorize. -/
structure Prepared.Of (p : Prepared) (w : World) (fuel : Nat) (cl : CommandLine) (o : Options) :
    Prop where
  user : w.user = some p.user
  rhost : clientAddress w = .ok p.rhost
  line : commandLine w = .ok cl
  config : ∃ file, configFile w cl = .ok file ∧
    readConfigFile w.files file staticOptions = .ok (1, o)
  options : p.options = { setLogToStderr cl o with host := some p.host }
  command : parseCommand o cl.cval = .ok p.command
  host : hostName w fuel o p.command = .ok p.host
  lookup : gethostentry w.files .free (some p.host) p.options.hostsFile = .ok ⟨true, p.entry⟩

section
variable {w : World} {fuel : Nat} {p : Prepared} {cl : CommandLine} {o : Options}

theorem loadOptions_ok {options : Options} (h : loadOptions w cl = .ok options) :
    ∃ file o, configFile w cl = .ok file ∧ readConfigFile w.files file staticOptions = .ok (1, o) ∧
      options = setLogToStderr cl o := by
  obtain ⟨file, hfile, h⟩ := except_bind_eq_ok.mp h
  obtain ⟨⟨result, o⟩, hread, h⟩ := except_bind_eq_ok.mp h
  have hread := checked_eq_ok.mp hread
  by_cases hzero : result = 0
  · simp [hzero] at h
  · simp only [hzero, if_false, except_pure, Except.ok.injEq] at h
    rcases readConfigFile_result hread with hone | ⟨hzero', -⟩
    · exact ⟨file, o, checked_eq_ok.mp hfile, hone ▸ hread, h.symm⟩
    · exact absurd hzero' hzero

private theorem findEntry_ok {host : CString} {entry : HostEntry} (h : findEntry w o host = .ok entry) :
    gethostentry w.files .free (some host) o.hostsFile = .ok ⟨true, entry⟩ := by
  obtain ⟨lookup, hlookup, h⟩ := except_bind_eq_ok.mp h
  by_cases hfound : lookup.found = true
  · simp only [hfound, if_true, except_pure, Except.ok.injEq] at h
    rw [checked_eq_ok.mp hlookup, ← h, ← hfound]
  · simp [hfound] at h

private theorem setLogToStderr_steps (w : World) (fuel : Nat) (cl : CommandLine) (o : Options)
    (command : Command) (cval : Option CString) :
    parseCommand (setLogToStderr cl o) cval = parseCommand o cval ∧
      hostName w fuel (setLogToStderr cl o) command = hostName w fuel o command := by
  unfold setLogToStderr
  split
  · exact ⟨rfl, rfl⟩
  · exact ⟨rfl, rfl⟩

theorem prepare_ok (h : prepare w fuel = .ok p) : ∃ cl o, p.Of w fuel cl o := by
  unfold prepare at h
  cases huser : w.user with
  | none => simp [huser] at h
  | some user =>
    simp only [huser] at h
    obtain ⟨rhost, hrhost, h⟩ := except_bind_eq_ok.mp h
    obtain ⟨cl, hline, h⟩ := except_bind_eq_ok.mp h
    obtain ⟨options, hload, h⟩ := except_bind_eq_ok.mp h
    obtain ⟨file, o, hfile, hread, rfl⟩ := loadOptions_ok hload
    obtain ⟨-, -, h⟩ := except_bind_eq_ok.mp h
    obtain ⟨command, hcommand, h⟩ := except_bind_eq_ok.mp h
    obtain ⟨host, hhost, h⟩ := except_bind_eq_ok.mp h
    obtain ⟨entry, hentry, h⟩ := except_bind_eq_ok.mp h
    obtain ⟨hparse, hname⟩ := setLogToStderr_steps w fuel cl o command cl.cval
    rw [← Except.ok.inj h]
    exact ⟨cl, o, huser, checked_eq_ok.mp hrhost, hline, ⟨file, hfile, hread⟩, rfl, hparse ▸ hcommand,
      hname ▸ hhost, findEntry_ok hentry⟩

theorem Prepared.Of.accepted (h : p.Of w fuel cl o) : p.options.Accepted := by
  obtain ⟨file, -, hread⟩ := h.config
  have ho := readConfigFile_accepted hread
  have hflags (f : IntField) : p.options.int f = o.int f ∨ p.options.int f = 1 := by
    rw [h.options, setLogToStderr]
    split
    · cases f
      case logToStderr => exact Or.inr rfl
      all_goals exact Or.inl rfl
    · cases f <;> exact Or.inl rfl
  have hrest : (∀ f, p.options.str f = o.str f) ∧ p.options.authType = o.authType ∧
      p.options.disableAuthorization = o.disableAuthorization ∧ p.options.useLdap = o.useLdap := by
    rw [h.options, setLogToStderr]
    split
    · exact ⟨fun f => by cases f <;> rfl, rfl, rfl, rfl⟩
    · exact ⟨fun f => by cases f <;> rfl, rfl, rfl, rfl⟩
  obtain ⟨hstr, htype, hdisable, hldap⟩ := hrest
  refine ⟨?_, ?_, ?_, ?_, ?_⟩
  · intro f
    rcases hflags f with hf | hf
    · rw [hf]
      exact ho.flags f
    · exact Or.inr hf
  · intro f huri hbase
    rw [hstr]
    exact ho.strings f huri hbase
  · rw [htype, hdisable]
    exact ho.authAny
  · rw [htype, hdisable, hldap]
    exact ho.authLdap
  · rw [htype, hdisable, hldap]
    exact ho.authLocal

end

end Stonesh
