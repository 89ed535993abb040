import Stonesh.Framework.Ownership
import Stonesh.Main.Program

/-!
# The pointers of the program

`main` holds memory of its own, the strings of its options and the fields of the static host entry.
The functions that `main` is made of are given here with their steps on these pointers, up to the
code behind `clean_exit`; their results are those of the functions without the steps.
-/

namespace Stonesh

open CLib Ownership

inductive EntryField
  | host
  | port
  | countries
  deriving DecidableEq, Repr

/-- The pointers of `main`, of its options and of the static entry; `Cval` is the name of the
configuration file. -/
inductive MainPtr
  | cval
  | cmdline
  | hostent
  | entry (f : EntryField)
  | option (f : StrField)
  | optionHost
  | optionPort
  deriving DecidableEq, Repr

/-- All of them are declared with the value NULL, or static, but for `hostent`. -/
def MainPtr.initialized : MainPtr → Bool
  | .hostent => false
  | _ => true

abbrev MainRun (α : Type) := Traced (Step MainPtr) Stop α

def optionPtrs : List MainPtr :=
  [.option .authorizedServiceTag, .option .proxyKeyword, .option .ldapBase, .option .ldapUri,
    .option .hostsFile, .option .usersFile, .option .sshPath, .option .ncPath, .option .ncTimeout,
    .optionHost, .optionPort, .option .geoipDat, .option .geoip6Dat]

/-- `memset`, and the releases behind it. -/
def initializeOptionsSteps : List (Step MainPtr) :=
  optionPtrs.map (.store · .null) ++ optionPtrs.map .drop

def freeOptionsSteps : List (Step MainPtr) :=
  [.option .ldapUri, .option .ldapBase, .option .ncPath, .option .sshPath, .option .proxyKeyword,
    .option .hostsFile, .option .usersFile, .option .ncTimeout, .option .authorizedServiceTag,
    .optionHost, .optionPort, .option .geoipDat, .option .geoip6Dat].map .drop

def strFields : List StrField :=
  [.authorizedServiceTag, .proxyKeyword, .ldapUri, .ldapBase, .hostsFile, .usersFile, .sshPath,
    .ncPath, .ncTimeout, .geoipDat, .geoip6Dat]

def storedSteps (before after : Options) : List (Step MainPtr) :=
  (strFields.filter fun f => before.str f = none ∧ after.str f ≠ none).map
    fun f => .store (.option f) .fresh

namespace Owned

def readConfigLoop : List (List Byte) → Options → Nat → Traced (Step MainPtr) Fault (Nat × Options)
  | [], options, badOptions => pure (badOptions, options)
  | line :: rest, options, badOptions => do
    let (err, options') ← Traced.lift id (processConfigLine options (line ++ [0]) (some 1))
    Traced.emits (storedSteps options options')
    let badOptions := if err ≠ 0 then badOptions + 1 else badOptions
    if err = -1 then pure (badOptions, options') else readConfigLoop rest options' badOptions

def readConfigFile (files : CString → Option (List Byte)) (filename : CString) (options : Options) :
    Traced (Step MainPtr) Fault (Int × Options) :=
  match files filename with
  | none => do
    Traced.emits freeOptionsSteps
    pure (0, freeOptions options)
  | some content => do
    Traced.emits initializeOptionsSteps
    let (badOptions, options) ← readConfigLoop (chunks maxLineLen content) initializeOptions 0
    if badOptions > 0 then do
      Traced.emits freeOptionsSteps
      pure (0, freeOptions options)
    else do
      Traced.emits (storedSteps options (fillDefaultOptions options))
      pure (1, fillDefaultOptions options)

def readOptions (w : World) : List Opt → CommandLine → MainRun CommandLine
  | [], cl => pure cl
  | .unknown _ :: opts, cl => readOptions w opts cl
  | .option c optarg :: opts, cl =>
    if c = 99 then readOptions w opts { cl with cval := optarg }
    else if c = 67 then do
      let configFile := optarg.bind (copyString w)
      Traced.emit (.store .cval (.ofBool configFile.isSome))
      readOptions w opts { cl with configFile := configFile }
    else if c = 108 then readOptions w opts { cl with logToStderr := 1 }
    else Traced.stop (.exit exitFailure)

def commandLine (w : World) : MainRun CommandLine :=
  readOptions w (getopt (bytes "c:C:lhv") w.posixlyCorrect w.argv.tail) ⟨none, none, 0⟩

def configFile (w : World) (cl : CommandLine) : MainRun CString := do
  Traced.emits (.look .cval ::
    if cl.configFile = none then [.store .cval (.ofBool (copyString w (.lit defaultConfigFile)).isSome)]
    else [])
  Traced.lift .fault (Stonesh.configFile w cl)

def loadOptions (w : World) (cl : CommandLine) : MainRun Options := do
  let file ← configFile w cl
  let (result, options) ← Traced.embed id .fault (readConfigFile w.files file staticOptions)
  Traced.emit (.drop .cval)
  if result = 0 then Traced.stop (.cleanExit exitFailure .undefined)
  else pure (setLogToStderr cl options)

def buildCmdline (w : World) : MainRun Unit := do
  Traced.emit (.store .cmdline (.ofBool w.cmdlineMalloc))
  Traced.lift id (Stonesh.buildCmdline w)

/-- The command line is released on both ways out. -/
def parseCommand (options : Options) (cval : Option CString) : MainRun Command :=
  match Stonesh.parseCommand options cval with
  | .error (.fault f) => Traced.stop (.fault f)
  | result => do
    Traced.emit (.drop .cmdline)
    Traced.lift id result

def promptHost (malloc : Nat → Bool) : Nat → Nat → List (List Byte) → MainRun CString
  | 0, _, _ => Traced.stop .outOfRounds
  | fuel + 1, round, lines => do
    Traced.emit (.store .optionHost (.ofBool (malloc round)))
    if malloc round then
      let text := (CString.ofList (lines.headD [])).bytes.dropLast
      if text = [] then do
        Traced.emit (.drop .optionHost)
        promptHost malloc fuel (round + 1) lines.tail
      else pure (.ofList text)
    else Traced.stop (.cleanExit exitFailure .undefined)

def requestedHost (w : World) (fuel : Nat) (options : Options) (command : Command) : MainRun CString :=
  match command.host with
  | some host => do
    Traced.emits [.drop .optionHost, .store .optionHost (.ofBool (w.hostMalloc 0))]
    if w.hostMalloc 0 then pure host else Traced.stop (.cleanExit exitFailure .undefined)
  | none =>
    match options.host with
    | some host => pure host
    | none => promptHost w.hostMalloc fuel 0 (chunks maxHostNameLen w.stdin)

def hostName (w : World) (fuel : Nat) (options : Options) (command : Command) : MainRun CString := do
  let host ← requestedHost w fuel options command
  if options.allowfqdn = 0 then Traced.lift .fault (cutDomain host) else pure host

def entryPtrs : List MainPtr := [.entry .host, .entry .port, .entry .countries]

/-- The fields of the static entry are released, and those of the entry found are stored. -/
def gethostentry (w : World) (options : Options) (host : CString) : MainRun HostLookup := do
  Traced.emits (if options.hostsFile.isSome then entryPtrs.map .drop else [])
  let lookup ← Traced.lift .fault (Stonesh.gethostentry w.files .free (some host) options.hostsFile)
  Traced.emits (if lookup.found then entryPtrs.map (.store · .fresh) else [])
  pure lookup

/-- The static entry counts as an object that is never released. -/
def findEntry (w : World) (options : Options) (host : CString) : MainRun HostEntry := do
  let lookup ← gethostentry w options host
  Traced.emit (.store .hostent (.ofBool lookup.found))
  if lookup.found then pure lookup.entry else Traced.stop (.cleanExit exitFailure .null)

def prepare (w : World) (fuel : Nat) : MainRun Prepared := do
  match w.user with
  | none => Traced.stop (.exit exitFailure)
  | some user =>
    let rhost ← Traced.lift .fault (clientAddress w)
    let cl ← commandLine w
    let options ← loadOptions w cl
    buildCmdline w
    let command ← parseCommand options cl.cval
    let host ← hostName w fuel options command
    let options := { options with host := some host }
    let entry ← findEntry w options host
    pure { user, rhost, options, command, host, entry }

/-- Behind the preparation no pointer of `main` changes before `clean_exit`. -/
def run (w : World) (fuel : Nat) : MainRun Unit := do
  let p ← prepare w fuel
  let host ← Traced.lift id (authorize w p).result
  Traced.lift id (handOver w p host).result

/-- The code behind the label `clean_exit`. A pointer that is undefined and not NULL leads it to
fields that are not there. -/
def cleanExit (w : World) : HostentPtr → List (Step MainPtr)
  | .undefined => .look .hostent :: if w.hostentNull then freeOptionsSteps else []
  | .null => .look .hostent :: freeOptionsSteps
  | .static => .look .hostent :: entryPtrs.map .drop ++ freeOptionsSteps

def cleanUp (w : World) : Except Stop Unit → List (Step MainPtr)
  | .error (.cleanExit _ hostent) => cleanExit w hostent
  | _ => []

/-- The steps of a run on the pointers, from the declarations to the return. -/
def main (w : World) (fuel : Nat) : List (Step MainPtr) :=
  (run w fuel).trace ++ cleanUp w (run w fuel).result

section
variable {w : World} {fuel : Nat}

theorem readConfigLoop_result (lines : List (List Byte)) (options : Options) (badOptions : Nat) :
    (readConfigLoop lines options badOptions).result = Stonesh.readConfigLoop lines options badOptions := by
  induction lines generalizing options badOptions with
  | nil => rfl
  | cons line lines ih =>
    rw [readConfigLoop, Stonesh.readConfigLoop, Traced.bind_result, Traced.lift_result]
    cases processConfigLine options (line ++ [0]) (some 1) with
    | error f => rfl
    | ok r =>
      obtain ⟨err, options'⟩ := r
      by_cases herr : err = -1
      · simp [herr, Traced.bind_result, Except.mapError]
      · simp [herr, Traced.bind_result, Except.mapError, ih]

theorem readConfigFile_result (files : CString → Option (List Byte)) (filename : CString)
    (options : Options) :
    (readConfigFile files filename options).result = Stonesh.readConfigFile files filename options := by
  unfold readConfigFile Stonesh.readConfigFile
  cases files filename with
  | none => rfl
  | some content =>
    simp only [Traced.bind_result, Traced.emits_result, except_ok_bind, readConfigLoop_result]
    cases Stonesh.readConfigLoop (chunks maxLineLen content) initializeOptions 0 with
    | error f => rfl
    | ok r =>
      obtain ⟨badOptions, options⟩ := r
      by_cases hbad : badOptions > 0
      · simp [hbad, Traced.bind_result]
      · simp [hbad, Traced.bind_result]

theorem readOptions_result (opts : List Opt) (cl : CommandLine) :
    (readOptions w opts cl).result = Stonesh.readOptions w opts cl := by
  induction opts generalizing cl with
  | nil => rfl
  | cons opt opts ih =>
    cases opt with
    | unknown c => exact ih cl
    | option c optarg =>
      rw [readOptions, Stonesh.readOptions]
      split
      · exact ih _
      · split
        · exact ih _
        · split
          · exact ih _
          · rfl

theorem loadOptions_result (cl : CommandLine) : (loadOptions w cl).result = Stonesh.loadOptions w cl := by
  have hfile : (configFile w cl).result = checked (Stonesh.configFile w cl) := rfl
  simp only [loadOptions, Stonesh.loadOptions, Traced.bind_result, hfile, Traced.embed_result,
    readConfigFile_result]
  congr 1
  funext file
  rw [checked]
  cases Stonesh.readConfigFile w.files file staticOptions with
  | error f => rfl
  | ok r =>
    obtain ⟨result, options⟩ := r
    by_cases hzero : result = 0
    · simp [hzero, Except.mapError]
    · simp [hzero, Except.mapError]

theorem buildCmdline_result : (buildCmdline w).result = Stonesh.buildCmdline w := by
  rw [buildCmdline, Traced.emit_bind, Traced.lift_id_result]

theorem parseCommand_result (options : Options) (cval : Option CString) :
    (parseCommand options cval).result = Stonesh.parseCommand options cval := by
  unfold parseCommand
  cases h : Stonesh.parseCommand options cval with
  | ok command => rfl
  | error s => cases s <;> rfl

theorem promptHost_result (malloc : Nat → Bool) (round : Nat) (lines : List (List Byte)) :
    (promptHost malloc fuel round lines).result = Stonesh.promptHost malloc fuel round lines := by
  induction fuel generalizing round lines with
  | zero => rfl
  | succ fuel ih =>
    rw [promptHost, Stonesh.promptHost, Traced.emit_bind]
    split
    · simp only
      split
      · exact ih _ _
      · rfl
    · rfl

theorem hostName_result (options : Options) (command : Command) :
    (hostName w fuel options command).result = Stonesh.hostName w fuel options command := by
  have hrequest : (requestedHost w fuel options command).result =
      Stonesh.requestedHost w fuel options command := by
    unfold requestedHost Stonesh.requestedHost
    cases command.host with
    | some host =>
      simp only [Traced.bind_result, Traced.emits_result, except_ok_bind]
      split <;> rfl
    | none =>
      cases options.host with
      | some host => rfl
      | none => exact promptHost_result _ _ _
  simp only [hostName, Stonesh.hostName, Traced.bind_result, hrequest]
  congr 1
  funext host
  split <;> rfl

theorem findEntry_result (options : Options) (host : CString) :
    (findEntry w options host).result = Stonesh.findEntry w options host := by
  have hlookup : (gethostentry w options host).result =
      checked (Stonesh.gethostentry w.files .free (some host) options.hostsFile) := by
    simp only [gethostentry, Traced.bind_result, Traced.emits_result, Traced.pure_result, except_ok_bind]
    exact bind_pure _
  simp only [findEntry, Stonesh.findEntry, Traced.bind_result, hlookup, Traced.emit_result, except_ok_bind]
  congr 1
  funext lookup
  split <;> rfl

theorem prepare_result : (prepare w fuel).result = Stonesh.prepare w fuel := by
  unfold prepare Stonesh.prepare
  cases w.user with
  | none => rfl
  | some user =>
    simp only [Traced.bind_result, Traced.lift_result, commandLine, readOptions_result, loadOptions_result,
      buildCmdline_result, parseCommand_result, hostName_result, findEntry_result]
    rfl

/-- The steps on the pointers change nothing else. -/
theorem run_result : (run w fuel).result = (Stonesh.run w fuel).result := by
  simp only [run, Stonesh.run, Traced.bind_result, prepare_result, Traced.lift_id_result]

end

end Owned

end Stonesh
