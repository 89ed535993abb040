import Stonesh.Main.Messages
import Stonesh.Main.Site
import Stonesh.Main.Status

/-!
# The audit trail

What the messages of `main` tell about a run. There is an error among them exactly if the run jumps
to `clean_exit`, so that who reads the log can tell the requests that were turned down from the
others; and what is executed is announced right before, once, together with the user it is for.
-/

namespace Stonesh

open CLib

def AuditEvent.error? : AuditEvent → Option LogRecord
  | .log .error r => some r
  | _ => none

theorem AuditEvent.eq_of_error {e : AuditEvent} {r : LogRecord} (h : e.error? = some r) :
    e = .log .error r := by
  unfold AuditEvent.error? at h
  split at h
  · rw [Option.some.inj h]
  · simp at h

def Stop.Jumps : Stop → Prop
  | .cleanExit _ _ => True
  | _ => False

section
variable {lib : LogLib} {g : LogGlobals} {w : World} {fuel : Nat} {cl : CommandLine} {α : Type}
  {fmt : String} {args : List FormatArg}

theorem error_alarms (h : ∃ text, vformat (CString.lit fmt).bytes args = .ok text) (status : Int)
    (hostent : HostentPtr) :
    (do Logged.error lib g fmt args; Traced.stop (.cleanExit status hostent) : LogRun α).Alarms
      AuditEvent.error? Stop.Jumps := by
  obtain ⟨text, htext⟩ := h
  rw [Logged.error, Logged.put_always htext (by decide)]
  refine ⟨?_, .cleanExit status hostent, rfl, trivial⟩
  simp [Traced.bind_of_ok, AuditEvent.error?]

theorem checked_signals (z : Checked α) :
    (Traced.lift id (checked z) : LogRun α).Signals AuditEvent.error? Stop.Jumps := by
  refine Traced.signals_lift fun s hs => ?_
  cases z with
  | error f =>
    rw [← Except.error.inj hs]
    exact id
  | ok a => simp at hs

theorem loadOptions_signals : (Logged.loadOptions lib g w cl).Signals AuditEvent.error? Stop.Jumps := by
  unfold Logged.loadOptions
  refine (checked_signals _).bind fun file _ => (checked_signals _).bind fun r _ => ?_
  split
  split
  · exact (error_alarms ⟨_, rfl⟩ _ _).signals
  · exact Traced.signals_pure _

theorem buildCmdline_signals : (Logged.buildCmdline lib g w).Signals AuditEvent.error? Stop.Jumps := by
  unfold Logged.buildCmdline
  split
  · refine (Traced.signals_lift fun _ _ => id).bind fun cmdline _ => ?_
    exact (Logged.put_silent ⟨_, rfl⟩ fun _ => rfl).signals.bind fun _ _ => Traced.signals_pure _
  · exact (error_alarms ⟨_, rfl⟩ _ _).signals

theorem parseCommand_signals (user cmdline : CString) (o : Options) (cval : Option CString) :
    (Logged.parseCommand lib g user cmdline o cval).Signals AuditEvent.error? Stop.Jumps := by
  unfold Logged.parseCommand
  cases parseCommand o cval with
  | ok command => exact Traced.signals_pure _
  | error s =>
    cases s with
    | cleanExit status hostent =>
      refine Traced.Alarms.signals (Traced.Alarms.after (a := ()) ?_ (Logged.put_result ⟨_, rfl⟩))
      exact error_alarms ⟨_, rfl⟩ _ _
    | _ => exact Traced.signals_stop id

theorem promptHost_signals (malloc : Nat → Bool) (round : Nat) (lines : List (List Byte)) :
    (Logged.promptHost lib g malloc fuel round lines).Signals AuditEvent.error? Stop.Jumps := by
  induction fuel generalizing round lines with
  | zero => exact Traced.signals_stop id
  | succ fuel ih =>
    unfold Logged.promptHost
    refine (Logged.put_silent ⟨_, rfl⟩ fun _ => rfl).signals.bind fun _ _ => ?_
    split
    · simp only
      split
      · exact ih _ _
      · exact Traced.signals_pure _
    · exact (error_alarms ⟨_, rfl⟩ _ _).signals

theorem requestedHost_signals (o : Options) (command : Command) :
    (Logged.requestedHost lib g w fuel o command).Signals AuditEvent.error? Stop.Jumps := by
  unfold Logged.requestedHost
  split
  · split
    · exact Traced.signals_pure _
    · exact (error_alarms ⟨_, rfl⟩ _ _).signals
  · split
    · exact Traced.signals_pure _
    · exact promptHost_signals _ _ _

theorem hostName_signals (o : Options) (command : Command) :
    (Logged.hostName lib g w fuel o command).Signals AuditEvent.error? Stop.Jumps := by
  unfold Logged.hostName
  refine (requestedHost_signals o command).bind fun host _ => ?_
  have hsaid (host : CString) : (do
      Logged.debug lib g "host = %s" [.str (some host)]
      Logged.debug lib g "cval = %s" [.str command.cval]
      pure host : LogRun CString).Signals AuditEvent.error? Stop.Jumps := by
    refine (Logged.put_silent ⟨_, rfl⟩ fun _ => rfl).signals.bind fun _ _ => ?_
    exact (Logged.put_silent ⟨_, rfl⟩ fun _ => rfl).signals.bind fun _ _ => Traced.signals_pure _
  split
  · exact (checked_signals _).bind fun host _ => hsaid host
  · exact hsaid host

theorem findEntry_signals (user : CString) (o : Options) (host : CString) :
    (Logged.findEntry lib g w user o host).Signals AuditEvent.error? Stop.Jumps := by
  unfold Logged.findEntry
  refine (checked_signals _).bind fun lookup _ => ?_
  split
  · exact (Logged.put_silent ⟨_, rfl⟩ fun _ => rfl).signals.bind fun _ _ => Traced.signals_pure _
  · exact (error_alarms ⟨_, rfl⟩ _ _).signals

theorem prepare_signals : (Logged.prepare lib w fuel).Signals AuditEvent.error? Stop.Jumps := by
  unfold Logged.prepare
  cases w.user with
  | none =>
    exact (Logged.put_silent ⟨_, rfl⟩ fun _ => rfl).signals.bind fun _ _ => Traced.signals_stop id
  | some user =>
    refine (Traced.signals_lift fun _ _ => id).bind ?_
    rintro ⟨rhost, rport⟩ -
    refine (logConnection_silent user rhost rport fun _ => rfl).signals.bind fun _ _ => ?_
    have hline : (Traced.lift id (commandLine w) : LogRun CommandLine).Signals AuditEvent.error? Stop.Jumps :=
      Traced.signals_lift fun s hs => readOptions_raises (P := fun s => ¬ s.Jumps) id _ _ s hs
    refine hline.bind fun cl _ => ?_
    refine loadOptions_signals.bind fun options _ => ?_
    refine (logOptions_silent rhost options fun _ => rfl).signals.bind fun _ _ => ?_
    refine buildCmdline_signals.bind fun cmdline _ => ?_
    refine (parseCommand_signals user cmdline options _).bind fun command _ => ?_
    refine (hostName_signals options command).bind fun host _ => ?_
    refine (findEntry_signals user _ host).bind fun entry _ => ?_
    exact Traced.signals_pure _

theorem logRefused_alarms (p : Prepared) (user : Option CString) :
    (do Logged.logRefused lib g p user; Traced.stop (.cleanExit exitSuccess .static) : LogRun α).Alarms
      AuditEvent.error? Stop.Jumps := by
  unfold Logged.logRefused
  split
  · exact error_alarms ⟨_, rfl⟩ _ _
  · exact error_alarms ⟨_, rfl⟩ _ _

theorem authorize_signals (p : Prepared) :
    (Logged.authorize lib g w p).Signals AuditEvent.error? Stop.Jumps := by
  unfold Logged.authorize
  have hasked : (Traced.emit (.act (.authUser (some p.user) p.entry.host p.authMode)) :
      LogRun Unit).Silent AuditEvent.error? := ⟨rfl, rfl⟩
  refine hasked.signals.bind fun _ _ => ?_
  refine (Traced.signals_embed _ (fun _ => rfl) fun _ => id).bind fun r _ => ?_
  refine (Traced.signals_lift fun _ _ => id).bind fun auth _ => ?_
  by_cases hauth : auth = 0
  · simp only [hauth, if_true]
    have hsaid := (@logCountry_silent lib g Unit (fun _ => none) p r.user r.auth 0 (fun _ _ => rfl)
      fun _ => rfl).result
    refine Traced.Alarms.signals (Traced.Alarms.after (a := ()) ?_ hsaid)
    exact logRefused_alarms p _
  · simp only [hauth, if_false]
    refine (logCountry_silent p _ _ _ (fun h => absurd h hauth) fun _ => rfl).signals.bind fun _ _ => ?_
    exact (logPermitted_silent p _ fun _ => rfl).signals.bind fun _ _ => Traced.signals_pure _

theorem handOver_signals (p : Prepared) (user host : Option CString) :
    (Logged.handOver lib g w p user host).Signals AuditEvent.error? Stop.Jumps := by
  unfold Logged.handOver
  split
  · exact (error_alarms ⟨_, rfl⟩ _ _).signals
  · refine (Traced.signals_lift fun _ _ => id).bind fun line _ => ?_
    unfold Logged.execute
    refine (Logged.put_silent ⟨_, rfl⟩ fun _ => rfl).signals.bind fun _ _ => ?_
    have hexecuted : (Traced.emit (.act (.execvp (newargv p host))) : LogRun Unit).Silent
        AuditEvent.error? := ⟨rfl, rfl⟩
    refine hexecuted.signals.bind fun _ _ => ?_
    split
    · exact (error_alarms ⟨_, rfl⟩ _ _).signals
    · exact Traced.signals_stop id

theorem run_signals : (Logged.run lib w fuel).Signals AuditEvent.error? Stop.Jumps := by
  unfold Logged.run
  refine prepare_signals.bind ?_
  rintro ⟨p, g⟩ -
  refine (authorize_signals p).bind ?_
  rintro ⟨user, host⟩ -
  exact handOver_signals p user host

/-- There is an error in the log if and only if the run jumps. -/
theorem error_logged_iff : (∃ record, .log .error record ∈ (Logged.run lib w fuel).trace) ↔
    ∃ status hostent, (Logged.run lib w fuel).result = .error (.cleanExit status hostent) := by
  constructor
  · rintro ⟨record, hm⟩
    have hrecord : record ∈ (Logged.run lib w fuel).trace.filterMap AuditEvent.error? :=
      List.mem_filterMap.mpr ⟨_, hm, rfl⟩
    obtain ⟨s, hs, hjumps⟩ := run_signals.mp (List.ne_nil_of_mem hrecord)
    cases s with
    | cleanExit status hostent => exact ⟨status, hostent, hs⟩
    | _ => exact absurd hjumps id
  · rintro ⟨status, hostent, hs⟩
    obtain ⟨record, hrecord⟩ := List.exists_mem_of_ne_nil _ (run_signals.mpr ⟨_, hs, trivial⟩)
    obtain ⟨e, hm, he⟩ := List.mem_filterMap.mp hrecord
    exact ⟨record, AuditEvent.eq_of_error he ▸ hm⟩

end

/-- What is announced: the user in brackets, and the new command line in quotes. -/
def announcementText (user line : Option CString) : List Byte :=
  bytes "(" ++ ((FormatArg.str user).text ++
    (bytes ") executing '" ++ ((FormatArg.str line).text ++ bytes "'")))

def announcement (lib : LogLib) (g : LogGlobals) (user line : Option CString) : LogRecord :=
  logRecord lib.malloc g .notice (.lit "(%s) executing '%s'") (announcementText user line)

section
variable {lib : LogLib} {g : LogGlobals} {w : World} {fuel : Nat} {argv : List (Option CString)}

theorem vformat_announcement (user line : Option CString) :
    vformat (CString.lit "(%s) executing '%s'").bytes [.str user, .str line] =
      .ok (announcementText user line) := rfl

theorem execute_eq (user line : Option CString) (argv : List (Option CString)) :
    ∃ after, (Logged.execute lib g w user line argv).trace =
        .log .notice (announcement lib g user line) :: .act (.execvp argv) :: after ∧
      (after = [] ∧ (Logged.execute lib g w user line argv).result = .error .replaced ∨
        ∃ record, after = [.log .error record] ∧
          (Logged.execute lib g w user line argv).result = .error (.cleanExit exitFailure .static)) := by
  unfold Logged.execute
  rw [Logged.notice, Logged.put_always (vformat_announcement user line) (by decide)]
  cases w.execvpFails with
  | true =>
    obtain ⟨text, htext⟩ : ∃ text, vformat (CString.lit "(%s) Unable to execute command: %s").bytes
        [.str user, .str (some lib.strerror)] = .ok text := ⟨_, rfl⟩
    rw [Logged.error, Logged.put_always htext (by decide)]
    exact ⟨_, rfl, Or.inr ⟨_, rfl, rfl⟩⟩
  | false => exact ⟨_, rfl, Or.inl ⟨rfl, rfl⟩⟩

theorem authorize_user {p : Prepared} {user host : Option CString} (ho : p.options.Accepted)
    (h : (Logged.authorize lib g w p).result = .ok (user, host)) :
    ∃ name, user = some name ∧ (name = p.user ∨ name = trimmedString p.user) := by
  obtain ⟨-, -, h⟩ := Traced.result_bind_eq_ok.mp h
  obtain ⟨r, hr, h⟩ := Traced.result_bind_eq_ok.mp h
  obtain ⟨auth, -, h⟩ := Traced.result_bind_eq_ok.mp h
  obtain ⟨-, -, h⟩ := Traced.result_bind_eq_ok.mp h
  have huser : r.user = user := by
    split at h
    · obtain ⟨-, -, h⟩ := Traced.result_bind_eq_ok.mp h
      exact absurd h (by simp)
    · obtain ⟨-, -, h⟩ := Traced.result_bind_eq_ok.mp h
      exact (Prod.ext_iff.mp (Except.ok.inj h)).1
  obtain ⟨-, htrim, -⟩ := (authUser_run w.ldap w.files ho _ _ _).value r (Traced.embed_result_eq_ok.mp hr)
  rw [huser] at htrim
  rcases htrim with htrim | htrim
  · exact ⟨p.user, htrim, Or.inl rfl⟩
  · exact ⟨trimmedString p.user, htrim, Or.inr rfl⟩

theorem execvp_not_mem_prepare : .act (.execvp argv) ∉ (Logged.prepare lib w fuel).trace := by
  intro hm
  have hact : .execvp argv ∈ (Logged.prepare lib w fuel).trace.filterMap AuditEvent.act? :=
    List.mem_filterMap.mpr ⟨_, hm, rfl⟩
  rw [(@prepare_erases lib w fuel).trace] at hact
  exact absurd hact (by simp)

theorem execvp_not_mem_authorize (p : Prepared) :
    .act (.execvp argv) ∉ (Logged.authorize lib g w p).trace := by
  intro hm
  have hact : .execvp argv ∈ (Logged.authorize lib g w p).trace.filterMap AuditEvent.act? :=
    List.mem_filterMap.mpr ⟨_, hm, rfl⟩
  rw [(authorize_erases p).trace] at hact
  rcases mem_authorize_trace.mp hact with he | ⟨l, -, he⟩
  · exact absurd he (by simp)
  · exact absurd he (by simp)

theorem handOver_execvp {p : Prepared} {user host line : Option CString}
    (hline : Logged.newcmdline lib (newargv p host) = .ok line)
    (h : .act (.execvp argv) ∈ (Logged.handOver lib g w p user host).trace) :
    argv = newargv p host ∧
      Logged.handOver lib g w p user host = Logged.execute lib g w user line (newargv p host) := by
  unfold Logged.handOver at h ⊢
  split at h
  · have hsaid : vformat (CString.lit "(%s) has no TTY and did not specify a command to be run").bytes
        [.str user] = .ok (bytes "(" ++ ((FormatArg.str user).text ++
          bytes ") has no TTY and did not specify a command to be run")) := rfl
    rw [Logged.error, Logged.put_always hsaid (by decide)] at h
    exact absurd h (by simp [Traced.bind_of_ok])
  · next hopen =>
    rw [hline] at h ⊢
    obtain ⟨after, htrace, hend⟩ := @execute_eq lib g w user line (newargv p host)
    have hm : .act (.execvp argv) ∈ (Logged.execute lib g w user line (newargv p host)).trace := h
    rw [htrace] at hm
    refine ⟨?_, by rw [if_neg hopen]; rfl⟩
    rcases hend with ⟨rfl, -⟩ | ⟨record, rfl, -⟩
    · simpa using hm
    · simpa using hm

/-- How a run executes `argv`: what and for whom is announced right before, nothing was executed
until then, and all that can come after is the error that it could not be executed. -/
structure Announced (lib : LogLib) (w : World) (x : LogRun Unit) (argv : List (Option CString))
    (owner user : CString) (line : Option CString) (g : LogGlobals) (before after : List AuditEvent) :
    Prop where
  known : w.user = some owner
  named : user = owner ∨ user = trimmedString owner
  written : Logged.newcmdline lib argv = .ok line
  trace : x.trace = before ++
    .log .notice (announcement lib g (some user) line) :: .act (.execvp argv) :: after
  first : ∀ argv', .act (.execvp argv') ∉ before
  last : after = [] ∧ x.result = .error .replaced ∨
    ∃ record, after = [.log .error record] ∧ x.result = .error (.cleanExit exitFailure .static)

theorem run_announced (h : .act (.execvp argv) ∈ (Logged.run lib w fuel).trace) :
    ∃ owner user line g before after,
      Announced lib w (Logged.run lib w fuel) argv owner user line g before after := by
  obtain hm | ⟨⟨p, g⟩, hp, h⟩ := Traced.mem_trace_bind.mp h
  · exact absurd hm execvp_not_mem_prepare
  obtain hm | ⟨⟨user, host⟩, hauthorized, h⟩ := Traced.mem_trace_bind.mp h
  · exact absurd hm (execvp_not_mem_authorize p)
  obtain ⟨cl, o, hof⟩ := prepare_ok (prepare_of_logged hp)
  obtain ⟨name, rfl, hname⟩ := authorize_user hof.accepted hauthorized
  obtain ⟨line, hline⟩ := @newcmdline_written lib w fuel p (prepare_of_logged hp) host
  obtain ⟨rfl, hexecute⟩ := handOver_execvp hline h
  obtain ⟨after, htrace, hlast⟩ := @execute_eq lib g w (some name) line (newargv p host)
  have hrun : Logged.run lib w fuel = ⟨(Logged.prepare lib w fuel).trace ++
      ((Logged.authorize lib g w p).trace ++
        (Logged.execute lib g w (some name) line (newargv p host)).trace),
      (Logged.execute lib g w (some name) line (newargv p host)).result⟩ := by
    rw [Logged.run, Traced.bind_of_ok hp]
    simp only
    rw [Traced.bind_of_ok hauthorized, hexecute]
  refine ⟨p.user, name, line, g,
    (Logged.prepare lib w fuel).trace ++ (Logged.authorize lib g w p).trace, after, ?_⟩
  refine ⟨hof.user, hname, hline, ?_, ?_, ?_⟩
  · rw [hrun, htrace, List.append_assoc]
  · intro argv' hm
    rcases List.mem_append.mp hm with hm | hm
    · exact execvp_not_mem_prepare hm
    · exact execvp_not_mem_authorize p hm
  · rw [hrun]
    exact hlast

/-- Whatever the run, `main` has logged an error exactly if it jumps to `clean_exit`; and what it
executes it has announced. -/
theorem run_audited (lib : LogLib) (w : World) (fuel : Nat) :
    ((∃ record, .log .error record ∈ (Logged.run lib w fuel).trace) ↔
        ∃ status hostent, (Logged.run lib w fuel).result = .error (.cleanExit status hostent)) ∧
      ∀ argv, .act (.execvp argv) ∈ (Logged.run lib w fuel).trace →
        ∃ owner user line g before after,
          Announced lib w (Logged.run lib w fuel) argv owner user line g before after :=
  ⟨error_logged_iff, fun _ => run_announced⟩

end

section
variable {lib lib' : LogLib} {g g' : LogGlobals} {w w' : World} {fuel fuel' : Nat}
  {argv argv' : List (Option CString)} {user user' : CString} {line line' : Option CString}
  {record : LogRecord}

theorem execvp_of_logged (h : .act (.execvp argv) ∈ (Logged.run lib w fuel).trace) :
    .execvp argv ∈ (main w fuel).1 := by
  rw [main, ← (run_erases lib w fuel).trace]
  exact List.mem_filterMap.mpr ⟨_, h, rfl⟩

theorem announced_unique
    (h : [.log .notice record, .act (.execvp argv)] <:+: (Logged.run lib w fuel).trace) :
    ∃ owner user line g before after,
      Announced lib w (Logged.run lib w fuel) argv owner user line g before after ∧
        record = announcement lib g (some user) line := by
  have hm : .act (.execvp argv) ∈ (Logged.run lib w fuel).trace := h.subset (by simp)
  obtain ⟨front, back, hsplit⟩ := h
  obtain ⟨owner, user, line, g, before, after, hannounced⟩ := run_announced hm
  refine ⟨owner, user, line, g, before, after, hannounced, ?_⟩
  have hbefore : .act (.execvp argv) ∉
      before ++ [.log .notice (announcement lib g (some user) line)] := by
    simp [hannounced.first argv]
  have hafter : .act (.execvp argv) ∉ after := by
    rcases hannounced.last with ⟨rfl, -⟩ | ⟨r, rfl, -⟩
    · simp
    · simp
  have hsame : (before ++ [.log .notice (announcement lib g (some user) line)]) ++
      .act (.execvp argv) :: after = (front ++ [.log .notice record]) ++ .act (.execvp argv) :: back := by
    have hsplit := hsplit.trans hannounced.trace
    simpa using hsplit.symm
  have hfront := ((List.append_cons_inj_of_notMem hbefore hafter).mp hsame).1
  have hlast := List.append_inj_right' hfront rfl
  have hevent := (List.cons.inj hlast).1
  exact ((AuditEvent.log.inj hevent).2).symm

/-- The name ends at the first bracket, and the line in front of the last quote. -/
theorem announcementText_inj {user user' line line' : CString} (huser : 41 ∉ user.bytes)
    (huser' : 41 ∉ user'.bytes)
    (h : announcementText (some user) (some line) = announcementText (some user') (some line')) :
    user = user' ∧ line = line' := by
  have hclose : bytes ") executing '" = 41 :: bytes " executing '" := by decide
  have hfield (s : CString) : (FormatArg.str (some s)).text = s.bytes := rfl
  rw [announcementText, announcementText, hclose] at h
  simp only [hfield, List.cons_append] at h
  have h := List.append_cancel_left h
  have hname : user.bytes = user'.bytes := by
    have htake := congrArg (List.takeWhile (· ≠ 41)) h
    rwa [Text.takeWhile_ne_stop huser, Text.takeWhile_ne_stop huser'] at htake
  rw [hname] at h
  have h := List.append_cancel_left (List.cons.inj (List.append_cancel_left h)).2
  exact ⟨CString.ext hname, CString.ext (List.append_cancel_right h)⟩

theorem announcement_bytes {user line : CString}
    (hwhole : (announcement lib g (some user) (some line)).msgbuf.bytes.length < logBufLen - 1) :
    ∃ tag ∈ [[], bytes "notice: "], (announcement lib g (some user) (some line)).msgbuf.bytes =
      tag ++ announcementText (some user) (some line) := by
  have htag : tagText lib.malloc (.lit Level.notice.tag) (.lit "(%s) executing '%s'") ∈
      [[], bytes "notice: "] := by
    unfold tagText
    split
    · decide
    · simp
  refine ⟨_, htag, ?_⟩
  have h0 : 0 ∉ tagText lib.malloc (.lit Level.notice.tag) (.lit "(%s) executing '%s'") ++
      announcementText (some user) (some line) := by
    have hopen : 0 ∉ bytes "(" := by decide
    have hclose : 0 ∉ bytes ") executing '" := by decide
    have hquote : 0 ∉ bytes "'" := by decide
    have htagged : 0 ∉ bytes "notice: " := by decide
    rw [announcementText]
    simp only [List.mem_append, not_or]
    refine ⟨?_, hopen, user.noNul, hclose, line.noNul, hquote⟩
    rcases List.mem_pair.mp htag with htag | htag
    · simp [htag]
    · rwa [htag]
  rw [announcement, logRecord] at hwhole ⊢
  simp only at hwhole ⊢
  have hcut := CString.ofList_bytes fun hm => h0 (List.mem_of_mem_take (i := logBufLen - 1) hm)
  rw [hcut] at hwhole ⊢
  rw [List.length_take] at hwhole
  exact List.take_of_length_le (by omega)

private theorem tagged_inj {tag tag' : List Byte} (htag : tag ∈ [[], bytes "notice: "])
    (htag' : tag' ∈ [[], bytes "notice: "])
    (h : tag ++ announcementText user line = tag' ++ announcementText user' line') :
    announcementText user line = announcementText user' line' := by
  have hnotice : bytes "notice: " = 110 :: bytes "otice: " := by decide
  have hopen (user line : Option CString) : ∃ text, announcementText user line = 40 :: text := ⟨_, rfl⟩
  obtain ⟨text, htext⟩ := hopen user line
  obtain ⟨text', htext'⟩ := hopen user' line'
  rw [htext, htext'] at h ⊢
  rcases List.mem_pair.mp htag with rfl | rfl
  · rcases List.mem_pair.mp htag' with rfl | rfl
    · exact h
    · rw [hnotice] at h
      exact absurd (List.cons.inj h).1 (by decide)
  · rcases List.mem_pair.mp htag' with rfl | rfl
    · rw [hnotice] at h
      exact absurd (List.cons.inj h).1 (by decide)
    · exact List.append_cancel_left h

theorem newcmdline_of_malloc (hmalloc : lib.newcmdlineMalloc = true)
    (h : Logged.newcmdline lib argv = .ok line) :
    ∃ text, concatenate argv = .ok text ∧ line = some text := by
  rw [Logged.newcmdline, if_pos hmalloc] at h
  cases htext : concatenate argv with
  | error f =>
    rw [htext] at h
    exact absurd h (by simp)
  | ok text =>
    rw [htext] at h
    exact ⟨text, rfl, (Except.ok.inj h).symm⟩

/-- The record of an execution tells what was executed and for whom: in any two runs, on any two
machines, the same message that was not cut stands for the same program with the same arguments
and for the same user, whatever the clients have written behind the names of the hosts. -/
theorem announcement_identifies
    (h : [.log .notice record, .act (.execvp argv)] <:+: (Logged.run lib w fuel).trace)
    (h' : [.log .notice record, .act (.execvp argv')] <:+: (Logged.run lib' w' fuel').trace)
    (hmalloc : lib.newcmdlineMalloc = true) (hmalloc' : lib'.newcmdlineMalloc = true)
    (hwhole : record.msgbuf.bytes.length < logBufLen - 1)
    (hname : ∀ owner ∈ w.user, 41 ∉ owner.bytes) (hname' : ∀ owner ∈ w'.user, 41 ∉ owner.bytes)
    (hfree : ∀ s, some s ∈ argv.take 6 → 34 ∉ s.bytes)
    (hfree' : ∀ s, some s ∈ argv'.take 6 → 34 ∉ s.bytes) :
    argv = argv' ∧ w.user.map trimmedString = w'.user.map trimmedString := by
  obtain ⟨owner, user, line, g, before, after, hannounced, rfl⟩ := announced_unique h
  obtain ⟨owner', user', line', g', before', after', hannounced', hrecord⟩ := announced_unique h'
  obtain ⟨text, htext, rfl⟩ := newcmdline_of_malloc hmalloc hannounced.written
  obtain ⟨text', htext', rfl⟩ := newcmdline_of_malloc hmalloc' hannounced'.written
  have huser {owner user : CString} (hname : 41 ∉ owner.bytes)
      (hnamed : user = owner ∨ user = trimmedString owner) :
      41 ∉ user.bytes ∧ trimmedString user = trimmedString owner := by
    rcases hnamed with rfl | rfl
    · exact ⟨hname, rfl⟩
    · refine ⟨?_, CString.ext (by simp)⟩
      rw [trimmedString_bytes]
      exact fun hm => hname (mem_trimmed hm).1
  obtain ⟨hplain, htrim⟩ := huser (hname owner hannounced.known) hannounced.named
  obtain ⟨hplain', htrim'⟩ := huser (hname' owner' hannounced'.known) hannounced'.named
  obtain ⟨tag, htag, hbytes⟩ := announcement_bytes hwhole
  rw [hrecord] at hwhole hbytes
  obtain ⟨tag', htag', hbytes'⟩ := announcement_bytes hwhole
  have hsame := tagged_inj htag htag' (hbytes.symm.trans hbytes')
  obtain ⟨rfl, rfl⟩ := announcementText_inj hplain hplain' hsame
  obtain ⟨path, args, last, hvector⟩ :=
    vector_of_execvp (execvp_of_logged (h.subset (List.mem_pair.mpr (Or.inr rfl))))
  obtain ⟨path', args', last', hvector'⟩ :=
    vector_of_execvp (execvp_of_logged (h'.subset (List.mem_pair.mpr (Or.inr rfl))))
  refine ⟨hvector.inj hvector' hfree hfree' (htext.trans htext'.symm), ?_⟩
  rw [hannounced.known, hannounced'.known, Option.map_some, Option.map_some, ← htrim, ← htrim']

end

def bobLog : LogLib where
  malloc _ := true
  newcmdlineMalloc := true
  strerror := .lit "No such file or directory"

def bobRecord : LogRecord :=
  ⟨.lit "notice: (bob) executing '/usr/bin/ssh \"-p\" \"2222\" \"-q\" \"web\" \"--\" \"ls -l\"'", false⟩

/-- The same command on two machines with different hosts files. -/
theorem announcement_identifies_bob :
    bobArgv "ls -l" = bobArgv "ls -l" ∧
      (bobWorld "web ls -l" "" "web:2222\n" "bob:web\n").user.map trimmedString =
        (bobWorld "web ls -l" "" "# hosts\nweb:2222\n" "bob:web\n").user.map trimmedString := by
  have hshort : [.log .notice bobRecord, .act (.execvp (bobArgv "ls -l"))] <:+:
      (Logged.run bobLog (bobWorld "web ls -l" "" "web:2222\n" "bob:web\n") 1).trace := by
    decide +kernel
  have hlong : [.log .notice bobRecord, .act (.execvp (bobArgv "ls -l"))] <:+:
      (Logged.run bobLog (bobWorld "web ls -l" "" "# hosts\nweb:2222\n" "bob:web\n") 1).trace := by
    decide +kernel
  have hname (owner : CString) (ho : owner ∈ some (CString.lit "bob")) : 41 ∉ owner.bytes := by
    rw [← Option.mem_some.mp ho]
    decide
  exact announcement_identifies hshort hlong rfl rfl (by decide) hname hname (bobArgv_plain _)
    (bobArgv_plain _)

section
variable {site : Site} {s : Session} {w : World}

end

end Stonesh
