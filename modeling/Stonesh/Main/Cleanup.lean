import Stonesh.AuthLdap.Cleanup
import Stonesh.Main.Pointers
import Stonesh.Main.Request
import Stonesh.Main.Status

/-!
# The clean-up of the program

`main` releases what it holds by macros that set the pointer to NULL, in its own code, in the
functions that read the configuration and the hosts file, and once more behind `clean_exit`. There
it also looks at `hostent`, which has no value until the host is looked up. A run is therefore tidy
unless it leaves before the look-up, and the places where it does are told by the input.
-/

namespace Stonesh

open CLib Ownership

namespace Owned

abbrev Spares : Step MainPtr → Prop := Ledger.Careful (· ≠ .hostent)

/-- The steps leave `hostent` alone, and `clean_exit` is reached with the pointer undefined. -/
structure Early {α : Type} (x : MainRun α) : Prop where
  steps : ∀ s ∈ x.trace, Spares s
  exit : ∀ status hostent, x.result = .error (.cleanExit status hostent) → hostent = .undefined

section
variable {α β : Type} {x : MainRun α} {f : α → MainRun β} {w : World} {fuel : Nat}

theorem Early.bind (hx : Early x) (hf : ∀ a, Early (f a)) : Early (x >>= f) where
  steps := by
    intro s hs
    rcases Traced.mem_trace_bind.mp hs with hs | ⟨a, -, hs⟩
    · exact hx.steps s hs
    · exact (hf a).steps s hs
  exit := by
    intro status hostent h
    rcases Traced.result_bind_eq_error.mp h with h | ⟨a, -, h⟩
    · exact hx.exit status hostent h
    · exact (hf a).exit status hostent h

theorem early_emits {es : List (Step MainPtr)} (h : ∀ s ∈ es, Spares s) :
    Early (Traced.emits es : MainRun Unit) := ⟨h, by simp⟩

theorem early_emit {e : Step MainPtr} (h : Spares e) :
    Early (Traced.emit e : MainRun Unit) := ⟨by simpa using h, by simp⟩

theorem early_store {p : MainPtr} (hp : p ≠ .hostent) (present : Bool) :
    Early (Traced.emit (.store p (.ofBool present)) : MainRun Unit) :=
  early_emit ⟨hp, Stored.ofBool_cases present⟩

theorem early_drop {p : MainPtr} (hp : p ≠ .hostent) : Early (Traced.emit (.drop p) : MainRun Unit) :=
  early_emit hp

theorem early_pure (a : α) : Early (pure a : MainRun α) := ⟨by simp, by simp⟩

theorem early_stop {s : Stop} (h : ∀ status hostent, s = .cleanExit status hostent → hostent = .undefined) :
    Early (Traced.stop s : MainRun α) := ⟨by simp, by simpa using h⟩

theorem early_lift (y : Checked α) : Early (Traced.lift .fault y : MainRun α) := by
  refine ⟨by simp, ?_⟩
  intro status hostent h
  obtain ⟨f, -, hf⟩ := Traced.lift_result_eq_error.mp h
  simp at hf

private theorem storedSteps_careful (before after : Options) :
    ∀ s ∈ storedSteps before after, Spares s := by
  intro s hs
  obtain ⟨f, -, rfl⟩ := List.mem_map.mp hs
  exact ⟨by simp, Or.inr rfl⟩

private theorem freeOptionsSteps_careful : ∀ s ∈ freeOptionsSteps, Spares s :=
  Ledger.careful_drops (by simp)

private theorem readConfigLoop_run (lines : List (List Byte)) (options : Options) (badOptions : Nat) :
    (readConfigLoop lines options badOptions).Run Spares fun _ => True := by
  induction lines generalizing options badOptions with
  | nil => exact Traced.run_pure trivial
  | cons line lines ih =>
    refine (Traced.run_lift (Q := fun _ => True) fun _ _ => trivial).bind fun r _ => ?_
    apply Traced.run_emits_bind (storedSteps_careful _ _)
    by_cases herr : r.1 = -1
    · simp only [herr, if_true]
      exact Traced.run_pure trivial
    · simp only [herr, if_false]
      exact ih _ _

private theorem readConfigFile_run (files : CString → Option (List Byte)) (filename : CString)
    (options : Options) :
    (readConfigFile files filename options).Run Spares fun _ => True := by
  have hinit : ∀ s ∈ initializeOptionsSteps, Spares s := by
    intro s hs
    rcases List.mem_append.mp hs with hs | hs
    · exact Ledger.careful_stores (by simp [optionPtrs]) (Or.inl rfl) s hs
    · exact Ledger.careful_drops (by simp [optionPtrs]) s hs
  unfold readConfigFile
  cases files filename with
  | none => exact Traced.run_emits_bind freeOptionsSteps_careful (Traced.run_pure trivial)
  | some content =>
    apply Traced.run_emits_bind hinit
    refine (readConfigLoop_run _ _ _).bind fun r _ => ?_
    split
    split
    · exact Traced.run_emits_bind freeOptionsSteps_careful (Traced.run_pure trivial)
    · exact Traced.run_emits_bind (storedSteps_careful _ _) (Traced.run_pure trivial)

private theorem early_readOptions (opts : List Opt) (cl : CommandLine) : Early (readOptions w opts cl) := by
  induction opts generalizing cl with
  | nil => exact early_pure _
  | cons opt opts ih =>
    cases opt with
    | unknown c => exact ih cl
    | option c optarg =>
      rw [readOptions]
      split
      · exact ih _
      · split
        · exact (early_store (by simp) _).bind fun _ => ih _
        · split
          · exact ih _
          · exact early_stop (by simp)

private theorem early_loadOptions (cl : CommandLine) : Early (loadOptions w cl) := by
  have hconfig (file : CString) :
      Early (Traced.embed id .fault (readConfigFile w.files file staticOptions) : MainRun (Int × Options)) := by
    refine ⟨by simpa using (readConfigFile_run w.files file staticOptions).events, ?_⟩
    intro status hostent h
    obtain ⟨f, -, hf⟩ := Traced.embed_result_eq_error.mp h
    simp at hf
  have hname : Early (configFile w cl) := by
    refine (early_emits ?_).bind fun _ => early_lift _
    intro s hs
    rcases List.mem_cons.mp hs with rfl | hs
    · exact MainPtr.noConfusion
    · split at hs
      · rw [List.mem_singleton.mp hs]
        exact ⟨by simp, Stored.ofBool_cases _⟩
      · simp at hs
  refine hname.bind fun file => (hconfig file).bind fun r => (early_drop (by simp)).bind fun _ => ?_
  split
  · exact early_stop (by simp)
  · exact early_pure _

private theorem early_buildCmdline : Early (buildCmdline w) := by
  refine (early_store (by simp) _).bind fun _ => ⟨by simp, ?_⟩
  intro status hostent h
  rw [Traced.lift_id_result, Stonesh.buildCmdline] at h
  split at h
  · split at h <;> simp at h
  · exact (Stop.cleanExit.inj (Except.error.inj h)).2.symm

theorem parseCommand_exit {options : Options} {cval : Option CString} {status : Int}
    {hostent : HostentPtr} (h : Stonesh.parseCommand options cval = .error (.cleanExit status hostent)) :
    hostent = .undefined := by
  have hraises : Raises (fun s => ∀ status hostent, s = .cleanExit status hostent → hostent = .undefined)
      (Stonesh.parseCommand options cval) := parseCommand_raises (by simp) (by simp) options cval
  exact hraises _ h status hostent rfl

private theorem early_parseCommand (options : Options) (cval : Option CString) :
    Early (parseCommand options cval) := by
  have hdrop : Spares (.drop .cmdline) := by simp [Ledger.Careful]
  refine ⟨?_, ?_⟩
  · unfold parseCommand
    split
    · simp
    · simpa using hdrop
  · intro status hostent h
    rw [parseCommand_result] at h
    exact parseCommand_exit h

private theorem early_promptHost (malloc : Nat → Bool) (round : Nat) (lines : List (List Byte)) :
    Early (promptHost malloc fuel round lines) := by
  induction fuel generalizing round lines with
  | zero => exact early_stop (by simp)
  | succ fuel ih =>
    refine (early_store (by simp) _).bind fun _ => ?_
    split
    · simp only
      split
      · exact (early_drop (by simp)).bind fun _ => ih _ _
      · exact early_pure _
    · exact early_stop (by simp)

private theorem early_hostName (options : Options) (command : Command) :
    Early (hostName w fuel options command) := by
  have hrequest : Early (requestedHost w fuel options command) := by
    unfold requestedHost
    cases command.host with
    | some host =>
      refine (early_emits ?_).bind fun _ => ?_
      · simp [Ledger.Careful, Stored.ofBool_cases]
      · split
        · exact early_pure _
        · exact early_stop (by simp)
    | none =>
      cases options.host with
      | some host => exact early_pure _
      | none => exact early_promptHost _ _ _
  refine hrequest.bind fun host => ?_
  split
  · exact early_lift _
  · exact early_pure _

private theorem early_gethostentry (options : Options) (host : CString) :
    Early (gethostentry w options host) := by
  have hptrs : ∀ p ∈ entryPtrs, p ≠ .hostent := by simp [entryPtrs]
  refine (early_emits ?_).bind fun _ => (early_lift _).bind fun lookup =>
    (early_emits ?_).bind fun _ => early_pure _
  · split
    · exact Ledger.careful_drops hptrs
    · simp
  · split
    · exact Ledger.careful_stores hptrs (Or.inr rfl)
    · simp

end

/-- The last step stores the result of the look-up in `hostent`, and `clean_exit` is reached with
the pointer assigned. -/
structure Late {α : Type} (x : MainRun α) : Prop where
  steps : ∃ before present, x.trace = before ++ [.store .hostent (.ofBool present)] ∧
    ∀ s ∈ before, Spares s
  exit : ∀ status, x.result ≠ .error (.cleanExit status .undefined)

/-- The run has stopped before the look-up, or it is behind it. -/
def Staged {α : Type} (x : MainRun α) : Prop := Early x ∧ (∃ s, x.result = .error s) ∨ Late x

section
variable {α β : Type} {x : MainRun α} {f : α → MainRun β} {w : World} {fuel : Nat}

theorem Early.bind_staged (hx : Early x) (hf : ∀ a, Staged (f a)) : Staged (x >>= f) := by
  cases hresult : x.result with
  | error s =>
    rw [Traced.bind_of_error hresult]
    refine Or.inl ⟨⟨hx.steps, ?_⟩, s, rfl⟩
    intro status hostent h
    exact hx.exit status hostent (hresult.trans (congrArg Except.error (Except.error.inj h)))
  | ok a =>
    rw [Traced.bind_of_ok hresult]
    rcases hf a with ⟨ha, s, hs⟩ | ha
    · refine Or.inl ⟨⟨?_, ha.exit⟩, s, hs⟩
      intro e he
      rcases List.mem_append.mp he with he | he
      · exact hx.steps e he
      · exact ha.steps e he
    · obtain ⟨before, present, htrace, hbefore⟩ := ha.steps
      refine Or.inr ⟨⟨x.trace ++ before, present, by rw [htrace, List.append_assoc], ?_⟩, ha.exit⟩
      intro e he
      rcases List.mem_append.mp he with he | he
      · exact hx.steps e he
      · exact hbefore e he

theorem Staged.bind_silent (hx : Staged x) (htrace : ∀ a, (f a).trace = [])
    (hexit : ∀ a status, (f a).result ≠ .error (.cleanExit status .undefined)) : Staged (x >>= f) := by
  rcases hx with ⟨hearly, s, hs⟩ | hlate
  · rw [Traced.bind_of_error hs]
    refine Or.inl ⟨⟨hearly.steps, ?_⟩, s, rfl⟩
    intro status hostent h
    exact hearly.exit status hostent (hs.trans (congrArg Except.error (Except.error.inj h)))
  · obtain ⟨before, present, hbefore, hspares⟩ := hlate.steps
    refine Or.inr ⟨⟨before, present, ?_, hspares⟩, ?_⟩
    · cases hresult : x.result with
      | error s => rw [Traced.bind_of_error hresult, hbefore]
      | ok a => rw [Traced.bind_of_ok hresult, htrace, List.append_nil, hbefore]
    · intro status h
      rcases Traced.result_bind_eq_error.mp h with h | ⟨a, -, h⟩
      · exact hlate.exit status h
      · exact hexit a status h

private theorem staged_findEntry (options : Options) (host : CString) :
    Staged (findEntry w options host) := by
  refine (early_gethostentry options host).bind_staged fun lookup => Or.inr ?_
  cases hfound : lookup.found with
  | true => exact ⟨⟨[], true, rfl, by simp⟩, by simp⟩
  | false => exact ⟨⟨[], false, rfl, by simp⟩, by simp⟩

theorem authorized_ne_undefined (p : Prepared) (status : Int) :
    (authorize w p >>= handOver w p).result ≠ .error (.cleanExit status .undefined) := by
  intro h
  rcases Traced.result_bind_eq_error.mp h with h | ⟨host, -, h⟩
  · rcases authorize_error h with ⟨f, hf⟩ | ⟨hs, -⟩
    · simp at hf
    · simp at hs
  · rw [handOver] at h
    split at h
    · simp at h
    · rw [Traced.emit_bind] at h
      split at h <;> simp at h

private theorem staged_run (w : World) (fuel : Nat) : Staged (run w fuel) := by
  have hprepare : Staged (prepare w fuel) := by
    unfold prepare
    cases w.user with
    | none => exact Or.inl ⟨early_stop (by simp), _, rfl⟩
    | some user =>
      refine (early_lift _).bind_staged fun rhost => (early_readOptions _ _).bind_staged fun cl =>
        (early_loadOptions cl).bind_staged fun options => early_buildCmdline.bind_staged fun _ =>
        (early_parseCommand _ _).bind_staged fun command => (early_hostName _ _).bind_staged fun host =>
        (staged_findEntry _ _).bind_silent (fun entry => rfl) ?_
      intro entry status h
      simp at h
  refine hprepare.bind_silent (fun p => ?_) fun p status h => ?_
  · cases hauth : (authorize w p).result with
    | error s => rfl
    | ok host => rfl
  · simp only [Traced.bind_result, Traced.lift_id_result] at h
    rw [← Traced.bind_result] at h
    exact authorized_ne_undefined p status h

private theorem cleanExit_careful (hostent : HostentPtr) :
    ∀ s ∈ cleanExit w hostent, Ledger.Careful (fun _ => True) s := by
  have hfree : ∀ s ∈ freeOptionsSteps, Ledger.Careful (fun _ => True) s := Ledger.careful_drops (by simp)
  have hentry : ∀ s ∈ entryPtrs.map Step.drop, Ledger.Careful (fun _ => True) s :=
    Ledger.careful_drops (by simp)
  intro s hs
  cases hostent with
  | undefined =>
    rcases List.mem_cons.mp hs with rfl | hs
    · trivial
    · split at hs
      · exact hfree s hs
      · simp at hs
  | null =>
    rcases List.mem_cons.mp hs with rfl | hs
    · trivial
    · exact hfree s hs
  | static =>
    rcases List.mem_cons.mp hs with rfl | hs
    · trivial
    · rcases List.mem_append.mp hs with hs | hs
      · exact hentry s hs
      · exact hfree s hs

theorem main_tidy_iff :
    (Ledger.start MainPtr.initialized).Tidy (main w fuel) ↔
      ∀ status, (Stonesh.run w fuel).result ≠ .error (.cleanExit status .undefined) := by
  have hstart : ∀ p, p ≠ .hostent → (Ledger.start MainPtr.initialized).Ready p := by
    intro p hp
    have hinit : p.initialized = true := by
      cases p with
      | hostent => exact absurd rfl hp
      | _ => rfl
    rw [Ledger.ready_iff, Ledger.status_start, hinit]
    exact Or.inl rfl
  rw [← run_result]
  rcases staged_run w fuel with ⟨hearly, s, hs⟩ | hlate
  · obtain ⟨htidy, -⟩ := Ledger.tidy_of_careful hearly.steps hstart
    have hunassigned : ((Ledger.start MainPtr.initialized).run (run w fuel).trace).status .hostent =
        .unassigned := by
      rw [Ledger.status_run hearly.steps (by simp), Ledger.status_start]
      rfl
    have hexit := hearly.exit
    rw [main, hs] at *
    cases s with
    | cleanExit status hostent =>
      obtain rfl := hexit status hostent rfl
      have hnot : ¬ ∀ status', (.error (.cleanExit status .undefined) : Except Stop Unit) ≠
          .error (.cleanExit status' .undefined) := fun h => h status rfl
      simp only [hnot, iff_false]
      intro h
      have hlook := (Ledger.tidy_append.mp h).2.1
      exact Ledger.allows_look.mp hlook hunassigned
    | fault f => simpa [cleanUp] using htidy
    | exit status => simpa [cleanUp] using htidy
    | replaced => simpa [cleanUp] using htidy
    | outOfRounds => simpa [cleanUp] using htidy
  · obtain ⟨before, present, htrace, hbefore⟩ := hlate.steps
    obtain ⟨htidy, hready⟩ := Ledger.tidy_of_careful hbefore hstart
    have hall : ∀ p, True → ((Ledger.start MainPtr.initialized).run (run w fuel).trace).Ready p := by
      intro p _
      rw [htrace, Ledger.run_append, Ledger.run_cons, Ledger.run_nil, Ledger.ready_iff, Ledger.status_store]
      split
      · cases present
        · exact Or.inl rfl
        · exact Or.inr rfl
      · next hp => exact Ledger.ready_iff.mp (hready p hp)
    have htidy' : (Ledger.start MainPtr.initialized).Tidy (run w fuel).trace := by
      rw [htrace, Ledger.tidy_append]
      exact ⟨htidy, trivial, trivial⟩
    have hcareful : ∀ s ∈ cleanUp w (run w fuel).result, Ledger.Careful (fun _ => True) s := by
      unfold cleanUp
      split
      · exact cleanExit_careful _
      · simp
    refine iff_of_true ?_ hlate.exit
    rw [main, Ledger.tidy_append]
    exact ⟨htidy', (Ledger.tidy_of_careful hcareful hall).1⟩

end

end Owned

/-- A request without a host to look up: it has the keyword for its only word, or there is no
memory for the host of the command or for the host that is typed. -/
inductive Unlocated (w : World) (o : Options) : Option CString → Prop
  | proxied (s : CString) (hword : commandWord s.bytes ≠ [])
      (hkeyword : o.proxyKeyword.map CString.bytes = some (commandWord s.bytes))
      (hsecond : commandWord (behindWord s.bytes) = []) : Unlocated w o (some s)
  | named (s : CString) (hword : commandWord s.bytes ≠ [])
      (hsecond : o.proxyKeyword.map CString.bytes = some (commandWord s.bytes) →
        commandWord (behindWord s.bytes) ≠ [])
      (hmalloc : w.hostMalloc 0 = false) : Unlocated w o (some s)
  | typed (k : Nat) (hmalloc : w.hostMalloc k = false)
      (hblank : ∀ line ∈ (chunks maxHostNameLen w.stdin).take k, typedName line = []) : Unlocated w o none

/-- The places that leave for `clean_exit` in front of the look-up: the configuration is rejected,
there is no memory for the copy of the command line, or the request is without a host. -/
inductive World.LeavesEarly (w : World) : Prop
  | config (cl : CommandLine) (file : CString) (o : Options) (huser : w.user ≠ none)
      (hclient : ∃ rhost, clientAddress w = .ok rhost) (hline : commandLine w = .ok cl)
      (hfile : configFile w cl = .ok file)
      (hread : readConfigFile w.files file staticOptions = .ok (0, o))
  | cmdline (cl : CommandLine) (o : Options) (huser : w.user ≠ none)
      (hclient : ∃ rhost, clientAddress w = .ok rhost) (hline : commandLine w = .ok cl)
      (hload : loadOptions w cl = .ok o) (hmalloc : w.cmdlineMalloc = false)
  | request (cl : CommandLine) (o : Options) (hparsing : Parsing w cl o) (h : Unlocated w o cl.cval)

section
variable {w : World} {fuel : Nat} {cl : CommandLine} {o : Options} {status : Int}

theorem promptHost_exit_iff {malloc : Nat → Bool} {round : Nat} {lines : List (List Byte)} :
    (∃ fuel status, promptHost malloc fuel round lines = .error (.cleanExit status .undefined)) ↔
      ∃ k, malloc (round + k) = false ∧ ∀ line ∈ lines.take k, typedName line = [] := by
  constructor
  · rintro ⟨fuel, status, h⟩
    induction fuel generalizing round lines with
    | zero => simp [promptHost] at h
    | succ fuel ih =>
      rw [promptHost_succ] at h
      split at h
      · split at h
        · next hblank =>
          obtain ⟨k, hk, hlines⟩ := ih h
          refine ⟨k + 1, by rwa [Nat.add_comm k, ← Nat.add_assoc], ?_⟩
          cases lines with
          | nil => simp
          | cons line lines => simpa using ⟨hblank, hlines⟩
        · simp at h
      · next hfails => exact ⟨0, by simpa using hfails, by simp⟩
  · rintro ⟨k, hk, hlines⟩
    induction k generalizing round lines with
    | zero =>
      refine ⟨1, exitFailure, ?_⟩
      rw [promptHost_succ, if_neg (by simpa using hk)]
    | succ k ih =>
      by_cases hmalloc : malloc round = true
      · have hblank : typedName (lines.headD []) = [] := by
          cases lines with
          | nil => rfl
          | cons line lines => exact hlines line (by simp)
        have htail : ∀ line ∈ lines.tail.take k, typedName line = [] := by
          cases lines with
          | nil => simp
          | cons line lines => exact fun l hl => hlines l (List.mem_cons_of_mem _ hl)
        obtain ⟨fuel, status, hrun⟩ := ih (by rwa [Nat.add_assoc, Nat.add_comm 1 k]) htail
        exact ⟨fuel + 1, status, by rw [promptHost_succ, if_pos hmalloc, if_pos hblank, hrun]⟩
      · exact ⟨1, exitFailure, by rw [promptHost_succ, if_neg hmalloc]⟩

private theorem checked_ne_cleanExit {α : Type} {x : Checked α} {hostent : HostentPtr} :
    checked x ≠ .error (.cleanExit status hostent) := by
  cases x <;> simp

private theorem commandLine_ne_cleanExit {hostent : HostentPtr} :
    commandLine w ≠ .error (.cleanExit status hostent) := by
  intro h
  have hraises : Raises (fun s => s ≠ .cleanExit status hostent) (commandLine w) :=
    readOptions_raises (by simp) _ _
  exact hraises _ h rfl

private theorem hostName_exit_iff (command : Command) :
    hostName w fuel o command = .error (.cleanExit status .undefined) ↔
      requestedHost w fuel o command = .error (.cleanExit status .undefined) := by
  rw [hostName, except_bind_eq_error]
  constructor
  · rintro (h | ⟨host, -, h⟩)
    · exact h
    · split at h
      · exact absurd h checked_ne_cleanExit
      · simp at h
  · exact Or.inl

private theorem findEntry_ne_undefined (host : CString) :
    findEntry w o host ≠ .error (.cleanExit status .undefined) := by
  intro h
  rcases except_bind_eq_error.mp h with h | ⟨lookup, -, h⟩
  · exact absurd h checked_ne_cleanExit
  · split at h <;> simp at h

private theorem loadOptions_exit_iff :
    (∃ status, loadOptions w cl = .error (.cleanExit status .undefined)) ↔
      ∃ file o, configFile w cl = .ok file ∧ readConfigFile w.files file staticOptions = .ok (0, o) := by
  constructor
  · rintro ⟨status, h⟩
    rcases except_bind_eq_error.mp h with h | ⟨file, hfile, h⟩
    · exact absurd h checked_ne_cleanExit
    · rcases except_bind_eq_error.mp h with h | ⟨r, hread, h⟩
      · exact absurd h checked_ne_cleanExit
      · obtain ⟨result, o⟩ := r
        by_cases hzero : result = 0
        · exact ⟨file, o, checked_eq_ok.mp hfile, hzero ▸ checked_eq_ok.mp hread⟩
        · simp [hzero] at h
  · rintro ⟨file, o, hfile, hread⟩
    refine ⟨exitFailure, ?_⟩
    simp [loadOptions, hfile, hread]

private theorem buildCmdline_exit_iff :
    (∃ status, buildCmdline w = .error (.cleanExit status .undefined)) ↔ w.cmdlineMalloc = false := by
  unfold buildCmdline
  cases w.cmdlineMalloc with
  | false => simp
  | true =>
    simp only [if_true, Bool.true_eq_false, iff_false]
    rintro ⟨status, h⟩
    split at h <;> simp at h

private theorem named_exit_iff {command : Command} {h : CString} (hcommand : command.host = some h) :
    (∃ fuel status, hostName w fuel o command = .error (.cleanExit status .undefined)) ↔
      w.hostMalloc 0 = false := by
  simp only [hostName_exit_iff, requestedHost, hcommand]
  cases w.hostMalloc 0 <;> simp

private theorem requestHost_exit_iff {keyword : CString} (hkey : o.proxyKeyword = some keyword)
    (hhost : o.host = none) (cval : Option CString) :
    (∃ fuel status, requestHost w fuel o cval = .error (.cleanExit status .undefined)) ↔
      Unlocated w o cval := by
  unfold requestHost
  cases cval with
  | none =>
    have hprompt (fuel : Nat) : (parseCommand o none >>= hostName w fuel o) =
        hostName w fuel o ⟨none, none, none, 0⟩ := rfl
    simp only [hprompt, hostName_exit_iff, requestedHost, hhost, promptHost_exit_iff, Nat.zero_add]
    constructor
    · rintro ⟨k, hmalloc, hblank⟩
      exact Unlocated.typed k hmalloc hblank
    · intro h
      cases h with
      | typed k hmalloc hblank => exact ⟨k, hmalloc, hblank⟩
  | some s =>
    have hsame : o.proxyKeyword.map CString.bytes = some (commandWord s.bytes) ↔
        commandWord s.bytes = keyword.bytes := by
      rw [hkey, Option.map_some, Option.some_inj, eq_comm]
    rw [parseCommand_eq s hkey]
    by_cases hword : commandWord s.bytes = []
    · rw [if_pos hword]
      constructor
      · rintro ⟨fuel, status, h⟩
        simp at h
      · intro h
        cases h with
        | proxied _ hne _ _ => exact absurd hword hne
        | named _ hne _ _ => exact absurd hword hne
    · rw [if_neg hword]
      by_cases hproxy : commandWord s.bytes = keyword.bytes
      · rw [if_pos hproxy]
        by_cases hsecond : commandWord (behindWord s.bytes) = []
        · rw [if_pos hsecond]
          exact iff_of_true ⟨0, exitFailure, rfl⟩
            (Unlocated.proxied s hword (hsame.mpr hproxy) hsecond)
        · rw [if_neg hsecond]
          simp only [except_ok_bind]
          rw [named_exit_iff rfl]
          constructor
          · exact Unlocated.named s hword fun _ => hsecond
          · intro h
            cases h with
            | proxied _ _ _ hnil => exact absurd hnil hsecond
            | named _ _ _ hmalloc => exact hmalloc
      · rw [if_neg hproxy]
        simp only [except_ok_bind]
        rw [named_exit_iff rfl]
        constructor
        · exact Unlocated.named s hword fun hkeyword => absurd (hsame.mp hkeyword) hproxy
        · intro h
          cases h with
          | proxied _ _ hkeyword _ => exact absurd (hsame.mp hkeyword) hproxy
          | named _ _ _ hmalloc => exact hmalloc

private def locate (w : World) (fuel : Nat) (cl : CommandLine) : Except Stop CString := do
  let options ← loadOptions w cl
  buildCmdline w
  requestHost w fuel options cl.cval

private theorem prepare_exit_iff_locate (huser : w.user ≠ none)
    (hclient : ∃ rhost, clientAddress w = .ok rhost) (hline : commandLine w = .ok cl) :
    prepare w fuel = .error (.cleanExit status .undefined) ↔
      locate w fuel cl = .error (.cleanExit status .undefined) := by
  obtain ⟨user, huser⟩ := Option.ne_none_iff_exists'.mp huser
  obtain ⟨rhost, hrhost⟩ := hclient
  simp only [prepare, locate, requestHost, huser, hrhost, hline, checked_ok, except_ok_bind]
  simp only [except_bind_eq_error, findEntry_ne_undefined, except_pure, reduceCtorEq, and_false,
    exists_false, or_false]

private theorem started_of_exit (h : prepare w fuel = .error (.cleanExit status .undefined)) :
    w.user ≠ none ∧ (∃ rhost, clientAddress w = .ok rhost) ∧ ∃ cl, commandLine w = .ok cl := by
  unfold prepare at h
  cases huser : w.user with
  | none => simp [huser] at h
  | some user =>
    simp only [huser] at h
    rcases except_bind_eq_error.mp h with h | ⟨rhost, hrhost, h⟩
    · exact absurd h checked_ne_cleanExit
    · rcases except_bind_eq_error.mp h with h | ⟨cl, hline, -⟩
      · exact absurd h commandLine_ne_cleanExit
      · exact ⟨by simp, ⟨rhost, checked_eq_ok.mp hrhost⟩, cl, hline⟩

private theorem locate_exit_iff (huser : w.user ≠ none) (hclient : ∃ rhost, clientAddress w = .ok rhost)
    (hline : commandLine w = .ok cl) :
    (∃ fuel status, locate w fuel cl = .error (.cleanExit status .undefined)) ↔
      (∃ file o, configFile w cl = .ok file ∧ readConfigFile w.files file staticOptions = .ok (0, o)) ∨
        ∃ o, loadOptions w cl = .ok o ∧
          (w.cmdlineMalloc = false ∨ Parsing w cl o ∧ Unlocated w o cl.cval) := by
  rw [← loadOptions_exit_iff]
  constructor
  · rintro ⟨fuel, status, h⟩
    rcases except_bind_eq_error.mp h with h | ⟨o, hload, h⟩
    · exact Or.inl ⟨status, h⟩
    · refine Or.inr ⟨o, hload, ?_⟩
      rcases except_bind_eq_error.mp h with h | ⟨⟨⟩, hcmdline, h⟩
      · exact Or.inl (buildCmdline_exit_iff.mp ⟨status, h⟩)
      · have hparsing : Parsing w cl o := ⟨huser, hclient, hline, hload, hcmdline⟩
        obtain ⟨⟨keyword, hkey⟩, hhost⟩ := hparsing.loaded
        exact Or.inr ⟨hparsing, (requestHost_exit_iff hkey hhost _).mp ⟨fuel, status, h⟩⟩
  · rintro (⟨status, h⟩ | ⟨o, hload, hmalloc | ⟨hparsing, h⟩⟩)
    · exact ⟨0, status, except_bind_eq_error.mpr (Or.inl h)⟩
    · obtain ⟨status, h⟩ := buildCmdline_exit_iff.mpr hmalloc
      refine ⟨0, status, except_bind_eq_error.mpr (Or.inr ⟨o, hload, ?_⟩)⟩
      exact except_bind_eq_error.mpr (Or.inl h)
    · obtain ⟨⟨keyword, hkey⟩, hhost⟩ := hparsing.loaded
      obtain ⟨fuel, status, h⟩ := (requestHost_exit_iff hkey hhost _).mpr h
      refine ⟨fuel, status, except_bind_eq_error.mpr (Or.inr ⟨o, hload, ?_⟩)⟩
      exact except_bind_eq_error.mpr (Or.inr ⟨(), hparsing.cmdline, h⟩)

/-- Some run leaves for `clean_exit` before the look-up exactly if one of the places is reached. -/
theorem prepare_exit_iff :
    (∃ fuel status, prepare w fuel = .error (.cleanExit status .undefined)) ↔ w.LeavesEarly := by
  constructor
  · rintro ⟨fuel, status, h⟩
    obtain ⟨huser, hclient, cl, hline⟩ := started_of_exit h
    have hlocate := (prepare_exit_iff_locate huser hclient hline).mp h
    rcases (locate_exit_iff huser hclient hline).mp ⟨fuel, status, hlocate⟩ with
      ⟨file, o, hfile, hread⟩ | ⟨o, hload, hmalloc | ⟨hparsing, h⟩⟩
    · exact World.LeavesEarly.config cl file o huser hclient hline hfile hread
    · exact World.LeavesEarly.cmdline cl o huser hclient hline hload hmalloc
    · exact World.LeavesEarly.request cl o hparsing h
  · have hexit {cl : CommandLine} (huser : w.user ≠ none) (hclient : ∃ rhost, clientAddress w = .ok rhost)
        (hline : commandLine w = .ok cl)
        (h : ∃ fuel status, locate w fuel cl = .error (.cleanExit status .undefined)) :
        ∃ fuel status, prepare w fuel = .error (.cleanExit status .undefined) := by
      obtain ⟨fuel, status, h⟩ := h
      exact ⟨fuel, status, (prepare_exit_iff_locate huser hclient hline).mpr h⟩
    intro h
    cases h with
    | config cl file o huser hclient hline hfile hread =>
      apply hexit huser hclient hline
      exact (locate_exit_iff huser hclient hline).mpr (Or.inl ⟨file, o, hfile, hread⟩)
    | cmdline cl o huser hclient hline hload hmalloc =>
      apply hexit huser hclient hline
      exact (locate_exit_iff huser hclient hline).mpr (Or.inr ⟨o, hload, Or.inl hmalloc⟩)
    | request cl o hparsing h =>
      apply hexit hparsing.user hparsing.client hparsing.line
      exact (locate_exit_iff hparsing.user hparsing.client hparsing.line).mpr
        (Or.inr ⟨o, hparsing.options, Or.inr ⟨hparsing, h⟩⟩)

theorem run_exit_iff :
    (run w fuel).result = .error (.cleanExit status .undefined) ↔
      prepare w fuel = .error (.cleanExit status .undefined) := by
  have hrun : run w fuel = (Traced.lift id (prepare w fuel) >>= fun p => authorize w p >>= handOver w p) := rfl
  rw [hrun, Traced.result_bind_eq_error, Traced.lift_id_result]
  constructor
  · rintro (h | ⟨p, -, h⟩)
    · exact h
    · exact absurd h (Owned.authorized_ne_undefined p status)
  · exact Or.inl

end

/-- No run of `main` looks at a pointer that was not assigned or releases an object twice. -/
def MainTidy (w : World) : Prop :=
  ∀ fuel, (Ledger.start MainPtr.initialized).Tidy (Owned.main w fuel)

theorem mainTidy_iff (w : World) : MainTidy w ↔ ¬ w.LeavesEarly := by
  have hrun : MainTidy w ↔ ¬ ∃ fuel status, prepare w fuel = .error (.cleanExit status .undefined) := by
    simp only [MainTidy, Owned.main_tidy_iff, ne_eq, run_exit_iff, not_exists]
  rw [hrun, prepare_exit_iff]

/-- Exactly when the clean-up of the two functions touches only what was acquired: where the library
acquires what is released, and where `main` does not leave in front of the look-up. -/
theorem cleanup_tidy_iff (nulls : Bool) (lib : LdapLib) (options : Options)
    (user host tag : Option CString) (w : World) :
    (LdapTidy nulls lib options user host tag ↔
      options.useLdap = 0 ∨ ∃ uri base filter, Exchange lib options user host tag uri base filter ∧
        lib.Acquires nulls uri base filter) ∧
      (MainTidy w ↔ ¬ w.LeavesEarly) :=
  ⟨ldapTidy_iff nulls lib options user host tag, mainTidy_iff w⟩

/-- Neither an address of the directory nor a configuration file: the two functions clean up what
they never had. -/
theorem cleanup_unassigned :
    ¬ LdapTidy true { ldapReplying ⟨100, 1, none⟩ with optionUri := some none }
        { initializeOptions with useLdap := 1 } (some (.lit "bob")) (some (.lit "web")) none ∧
      ¬ MainTidy { bobWorld "web" "" "" "" with files := fun _ => none } := by
  constructor
  · rw [ldapTidy_iff]
    rintro (h | ⟨uri, base, filter, hex, -⟩)
    · exact absurd h (by decide)
    · exact absurd hex.uri_eq (by simp [getLdapUri, initializeOptions])
  · rw [mainTidy_iff, not_not]
    exact World.LeavesEarly.config ⟨some (.lit "web"), none, 0⟩ (.lit defaultConfigFile)
      (freeOptions staticOptions) (by simp [bobWorld]) ⟨none, rfl⟩ (by decide +kernel) rfl rfl

end Stonesh
