import Stonesh.Main.Command
import Stonesh.Main.Prompt

/-!
# The tokens of a request

`main` calls `strtok` for the client's address, for the words of the command and for the first
label of the host, and uses most of the tokens unseen. Which requests have all of them is a matter
of their bytes. The label is copied over its own buffer without a terminator, so it is the host
name only where it stood at the front.
-/

namespace Stonesh

open CLib

def firstLabel (s : List Byte) : Option (List Byte) := (Text.tokens (· = 46) s).head?

section
variable {s : List Byte}

theorem hostLabel_ne_nil_iff : hostLabel s ≠ [] ↔ ∃ c ∈ s, c ≠ 46 := Text.firstToken_ne_nil_iff

theorem firstLabel_eq (h : hostLabel s ≠ []) : firstLabel s = some (hostLabel s) := by
  have hdots : ∀ c ∈ leadingDots s, decide (c = 46) = true := by
    intro c hc
    simpa using List.mem_takeWhile_imp hc
  have hlabel : ∀ c ∈ hostLabel s, decide (c = 46) = false := by
    intro c hc
    simpa using (mem_hostLabel hc).2
  have hsplit : s = leadingDots s ++ (hostLabel s ++ (s.dropWhile (· = 46)).dropWhile (· ≠ 46)) := by
    rw [leadingDots, hostLabel, List.takeWhile_append_dropWhile, List.takeWhile_append_dropWhile]
  have htokens : Text.tokens (· = 46) s = Text.tokens (· = 46)
      (hostLabel s ++ (s.dropWhile (· = 46)).dropWhile (· ≠ 46)) := by
    conv_lhs => rw [hsplit]
    exact Text.tokens_append_left hdots
  rw [firstLabel, htokens]
  cases hrest : (s.dropWhile (· = 46)).dropWhile (· ≠ 46) with
  | nil => rw [List.append_nil, Text.tokens_single hlabel h, List.head?_cons]
  | cons c r =>
    have hc := Text.dropWhile_head hrest
    rw [Text.tokens_append_sep hlabel h (by simpa using hc), List.head?_cons]

theorem length_withoutDomain : (withoutDomain s).length = (leadingDots s).length + (hostLabel s).length := by
  rw [withoutDomain, List.length_append, List.length_drop, List.length_append]
  omega

theorem withoutDomain_eq_hostLabel_iff : withoutDomain s = hostLabel s ↔ s.head? ≠ some 46 := by
  rw [← leadingDots_eq_nil_iff]
  constructor
  · intro h
    have hlen := length_withoutDomain (s := s)
    rw [h] at hlen
    exact List.length_eq_zero_iff.mp (by omega)
  · intro h
    rw [withoutDomain, h, List.nil_append, List.drop_length, List.append_nil]

end

section
variable {w : World} {fuel : Nat} {options : Options} {command : Command} {host : CString}

/-- Without its domain the host is the first label exactly if the request does not begin with a
dot. -/
theorem hostName_firstLabel_iff (hhost : requestedHost w fuel options command = .ok host)
    (hfqdn : options.allowfqdn = 0) (hlabel : ∃ c ∈ host.bytes, c ≠ 46) :
    (∃ name, hostName w fuel options command = .ok name ∧ firstLabel host.bytes = some name.bytes ∧
        (46 ∉ host.bytes → name = host)) ↔
      host.bytes.head? ≠ some 46 := by
  have hne := hostLabel_ne_nil_iff.mpr hlabel
  have h0 : 0 ∉ withoutDomain host.bytes := fun hm => host.noNul (mem_withoutDomain hm)
  have hname : hostName w fuel options command = .ok (.ofList (withoutDomain host.bytes)) := by
    rw [hostName, hhost, except_ok_bind, if_pos hfqdn, cutDomain_eq, if_neg hne]
    rfl
  rw [hname, firstLabel_eq hne, ← withoutDomain_eq_hostLabel_iff]
  constructor
  · rintro ⟨name, hsame, hfirst, -⟩
    rw [← Except.ok.inj hsame, CString.ofList_bytes h0] at hfirst
    exact (Option.some.inj hfirst).symm
  · intro hleft
    refine ⟨_, rfl, by rw [CString.ofList_bytes h0, hleft], ?_⟩
    intro hdot
    exact CString.ext (by rw [CString.ofList_bytes h0, withoutDomain_eq_self hdot])

/-- A name with its domain. -/
theorem hostName_firstLabel_web :
    ∃ name, hostName (bobWorld "" "" "" "") 0 staticOptions ⟨none, some (.lit "web.example.org"), none, 0⟩ =
        .ok name ∧ firstLabel (CString.lit "web.example.org").bytes = some name.bytes ∧
      (46 ∉ (CString.lit "web.example.org").bytes → name = .lit "web.example.org") :=
  (hostName_firstLabel_iff rfl rfl ⟨119, by decide, by decide⟩).mpr (by decide)

/-- Behind a dot the last character of the label stays where it was. -/
theorem hostName_firstLabel_dot :
    ¬ ∀ (w : World) (fuel : Nat) (options : Options) (command : Command) (host : CString),
      requestedHost w fuel options command = .ok host → options.allowfqdn = 0 →
      (∃ c ∈ host.bytes, c ≠ 46) →
      ∃ name, hostName w fuel options command = .ok name ∧ firstLabel host.bytes = some name.bytes ∧
        (46 ∉ host.bytes → name = host) := by
  intro h
  obtain ⟨name, hname, hfirst, -⟩ := h (bobWorld "" "" "" "") 0 staticOptions
    ⟨none, some (.lit ".foo.bar"), none, 0⟩ (.lit ".foo.bar") rfl rfl ⟨102, by decide, by decide⟩
  have hleft : hostName (bobWorld "" "" "" "") 0 staticOptions
      ⟨none, some (.lit ".foo.bar"), none, 0⟩ = .ok (.lit "fooo") := by decide +kernel
  rw [← Except.ok.inj (hleft.symm.trans hname)] at hfirst
  revert hfirst
  decide

end

structure Parsing (w : World) (cl : CommandLine) (o : Options) : Prop where
  user : w.user ≠ none
  client : ∃ rhost, clientAddress w = .ok rhost
  line : commandLine w = .ok cl
  options : loadOptions w cl = .ok o
  cmdline : buildCmdline w = .ok ()

/-- From the command to the host that is looked up. -/
def requestHost (w : World) (fuel : Nat) (o : Options) (cval : Option CString) : Except Stop CString := do
  let command ← parseCommand o cval
  hostName w fuel o command

/-- A host that is asked for: the first word of a command, its second word behind the keyword, or
what is typed; and there is memory for it. -/
inductive Asked (w : World) (o : Options) : Option CString → List Byte → Prop
  | named (s : CString) (hword : o.proxyKeyword.map CString.bytes ≠ some (commandWord s.bytes))
      (hmalloc : w.hostMalloc 0 = true) : Asked w o (some s) (commandWord s.bytes)
  | proxied (s : CString) (hword : o.proxyKeyword.map CString.bytes = some (commandWord s.bytes))
      (hsecond : commandWord (behindWord s.bytes) ≠ []) (hmalloc : w.hostMalloc 0 = true) :
      Asked w o (some s) (commandWord (behindWord s.bytes))
  | typed (name : List Byte) (htyped : Typed w.hostMalloc 0 (chunks maxHostNameLen w.stdin) name) :
      Asked w o none name

/-- A request ends with a host that is not empty, in the prompt, or in an exit with an error. -/
def Handled (r : Except Stop CString) : Prop :=
  (∃ host, r = .ok host ∧ host.bytes ≠ []) ∨ r = .error .outOfRounds ∨
    r = .error (.cleanExit exitFailure .undefined)

/-- Whatever the library makes of a NULL string, the address of the client is found; and a request
that is parsed is handled. -/
structure TokensPresent (w : World) : Prop where
  client : w.user ≠ none → ∀ tolerated, ∃ rhost, clientAddress { w with strtokNull := tolerated } = .ok rhost
  request : ∀ cl o fuel, Parsing w cl o → Handled (requestHost w fuel o cl.cval)

section
variable {w : World} {fuel : Nat} {cl : CommandLine} {o : Options} {command : Command}
  {host : CString} {s : List Byte}

theorem not_handled_fault (f : Fault) : ¬ Handled (.error (.fault f)) := by
  rintro (⟨host, h, -⟩ | h | h)
  · simp at h
  · simp at h
  · simp at h

theorem handled_ok (h : host.bytes ≠ []) : Handled (.ok host) := Or.inl ⟨host, rfl, h⟩

theorem handled_cleanExit : Handled (.error (.cleanExit exitFailure .undefined)) :=
  Or.inr (Or.inr rfl)

theorem clientAddress_ok (hset : w.sshClient ≠ none) : ∃ rhost, clientAddress w = .ok rhost := by
  obtain ⟨s, hs⟩ := Option.ne_none_iff_exists'.mp hset
  have hblock : s.block = [] ++ (s.bytes ++ 0 :: []) := by simp [CString.block]
  rw [clientAddress, hs]
  simp only [hblock]
  rcases strtok_cases (p := 0) [] [] [32] rfl s.noNul with ⟨-, cur, hcut⟩ |
      ⟨sep, t, gap, r, -, -, hmt, -, -, hgap, -, hcut⟩
  · exact ⟨none, by rw [hcut]; rfl⟩
  · obtain ⟨v, hv⟩ := gap_terminates hgap []
    have htoken (cursor : Nat) : tokenText ⟨some sep.length, cursor, sep ++ (t ++ 0 :: v)⟩ =
        .ok (some (.ofList t)) := tokenText_at rfl fun hm => s.noNul (hmt _ hm)
    refine ⟨some (.ofList t), ?_⟩
    rw [hcut, hv]
    exact htoken _

theorem commandWord_ne_nil_iff : commandWord s ≠ [] ↔ ∃ c ∈ s, c ≠ 32 := Text.firstToken_ne_nil_iff

theorem Parsing.loaded (h : Parsing w cl o) : (∃ keyword, o.proxyKeyword = some keyword) ∧ o.host = none := by
  obtain ⟨file, o', -, hread, rfl⟩ := loadOptions_ok h.options
  obtain ⟨keyword, hkey, -⟩ := (readConfigFile_accepted hread).strings .proxyKeyword (by decide) (by decide)
  have hkey : o'.proxyKeyword = some keyword := hkey
  have hhost := readConfigFile_host hread
  unfold setLogToStderr
  split
  · exact ⟨⟨keyword, hkey⟩, hhost⟩
  · exact ⟨⟨keyword, hkey⟩, hhost⟩

private theorem promptHost_handled (malloc : Nat → Bool) (round : Nat) (lines : List (List Byte)) :
    Handled (promptHost malloc fuel round lines) := by
  induction fuel generalizing round lines with
  | zero => exact Or.inr (Or.inl rfl)
  | succ fuel ih =>
    rw [promptHost_succ]
    split
    · split
      · exact ih _ _
      · next hne => exact handled_ok (by rwa [CString.ofList_bytes (zero_not_mem_typedName _)])
    · exact handled_cleanExit

theorem requestedHost_handled (hhost : o.host = none) (hcommand : ∀ h ∈ command.host, h.bytes ≠ []) :
    Handled (requestedHost w fuel o command) := by
  unfold requestedHost
  cases hword : command.host with
  | none =>
    rw [hhost]
    exact promptHost_handled _ _ _
  | some h =>
    simp only
    split
    · exact handled_ok (hcommand h hword)
    · exact handled_cleanExit

private theorem hostName_handled (hrequest : Handled (requestedHost w fuel o command))
    (hdots : o.allowfqdn = 0 → ∀ host, requestedHost w fuel o command = .ok host →
      ∃ c ∈ host.bytes, c ≠ 46) :
    Handled (hostName w fuel o command) := by
  unfold hostName
  rcases hrequest with ⟨host, hrun, hne⟩ | hrun | hrun
  · rw [hrun, except_ok_bind]
    by_cases hfqdn : o.allowfqdn = 0
    · have hlabel := hostLabel_ne_nil_iff.mpr (hdots hfqdn host hrun)
      have h0 : 0 ∉ withoutDomain host.bytes := fun hm => host.noNul (mem_withoutDomain hm)
      rw [if_pos hfqdn, cutDomain_eq, if_neg hlabel]
      apply handled_ok
      rw [CString.ofList_bytes h0, withoutDomain]
      exact List.append_ne_nil_of_left_ne_nil hlabel _
    · rw [if_neg hfqdn]
      exact handled_ok hne
  · rw [hrun]
    exact Or.inr (Or.inl rfl)
  · rw [hrun]
    exact handled_cleanExit

theorem parseCommand_handled {keyword : CString} (hkey : o.proxyKeyword = some keyword)
    {cval : Option CString} (hword : ∀ s ∈ cval, ∃ c ∈ s.bytes, c ≠ 32) :
    (∃ command, parseCommand o cval = .ok command ∧ ∀ h ∈ command.host, h.bytes ≠ []) ∨
      parseCommand o cval = .error (.cleanExit exitFailure .undefined) := by
  cases cval with
  | none => exact Or.inl ⟨⟨none, none, none, 0⟩, rfl, by simp⟩
  | some s =>
    have hne := commandWord_ne_nil_iff.mpr (hword s rfl)
    have hbytes {t : List Byte} (h0 : 0 ∉ t) (ht : t ≠ []) : ∀ h ∈ some (CString.ofList t), h.bytes ≠ [] := by
      intro h hh
      rwa [← Option.mem_some_iff.mp hh, CString.ofList_bytes h0]
    rw [parseCommand_eq s hkey, if_neg hne]
    by_cases hproxy : commandWord s.bytes = keyword.bytes
    · rw [if_pos hproxy]
      by_cases hsecond : commandWord (behindWord s.bytes) = []
      · rw [if_pos hsecond]
        exact Or.inr rfl
      · rw [if_neg hsecond]
        exact Or.inl ⟨_, rfl, hbytes (zero_not_mem_secondWord s) hsecond⟩
    · rw [if_neg hproxy]
      exact Or.inl ⟨_, rfl, hbytes (zero_not_mem_commandWord s) hne⟩

theorem requestedHost_some {h : CString} (hcommand : command.host = some h) :
    requestedHost w fuel o command = .ok host ↔ w.hostMalloc 0 = true ∧ h = host := by
  unfold requestedHost
  rw [hcommand]
  by_cases hmalloc : w.hostMalloc 0 = true
  · simp [hmalloc]
  · simp [hmalloc]

theorem zero_not_mem_typed {malloc : Nat → Bool} {round : Nat} {lines : List (List Byte)}
    {name : List Byte} (h : Typed malloc round lines name) : 0 ∉ name := by
  obtain ⟨_, line, _, _, _, hname, _, _⟩ := h
  exact hname ▸ zero_not_mem_typedName line

theorem Asked.noNul {cval : Option CString} {name : List Byte} (h : Asked w o cval name) : 0 ∉ name := by
  cases h with
  | named s _ _ => exact zero_not_mem_commandWord s
  | proxied s _ _ _ => exact zero_not_mem_secondWord s
  | typed name htyped => exact zero_not_mem_typed htyped

private theorem asked_iff {keyword : CString} (hkey : o.proxyKeyword = some keyword) (hhost : o.host = none)
    {cval : Option CString} (hword : ∀ s ∈ cval, ∃ c ∈ s.bytes, c ≠ 32) :
    Asked w o cval host.bytes ↔ ∃ fuel command, parseCommand o cval = .ok command ∧
      requestedHost w fuel o command = .ok host := by
  generalize hname : host.bytes = name
  cases cval with
  | none =>
    have hprompt (fuel : Nat) : requestedHost w fuel o ⟨none, none, none, 0⟩ =
        promptHost w.hostMalloc fuel 0 (chunks maxHostNameLen w.stdin) := by rw [requestedHost, hhost]
    constructor
    · intro hasked
      cases hasked with
      | typed _ htyped =>
        rw [← hname] at htyped
        obtain ⟨fuel, hrun⟩ := promptHost_ok_iff.mpr htyped
        exact ⟨fuel, _, rfl, (hprompt fuel).trans hrun⟩
    · rintro ⟨fuel, command, hparse, hrun⟩
      have hcommand : ⟨none, none, none, 0⟩ = command := Except.ok.inj hparse
      rw [← hcommand, hprompt] at hrun
      rw [← hname]
      exact Asked.typed _ (promptHost_ok_iff.mp ⟨fuel, hrun⟩)
  | some s =>
    have hne := commandWord_ne_nil_iff.mpr (hword s rfl)
    have hsame : o.proxyKeyword.map CString.bytes = some (commandWord s.bytes) ↔
        commandWord s.bytes = keyword.bytes := by
      rw [hkey, Option.map_some, Option.some_inj, eq_comm]
    have hcopy : CString.ofList name = host := CString.ext (hname ▸ CString.ofList_bytes host.noNul)
    constructor
    · intro hasked
      cases hasked with
      | named _ hnot hmalloc =>
        refine ⟨0, _, by rw [parseCommand_eq s hkey, if_neg hne, if_neg (mt hsame.mpr hnot)], ?_⟩
        rw [requestedHost_some rfl]
        exact ⟨hmalloc, hcopy⟩
      | proxied _ hproxy hsecond hmalloc =>
        refine ⟨0, _, by rw [parseCommand_eq s hkey, if_neg hne, if_pos (hsame.mp hproxy), if_neg hsecond], ?_⟩
        rw [requestedHost_some rfl]
        exact ⟨hmalloc, hcopy⟩
    · rintro ⟨fuel, command, hparse, hrun⟩
      rw [parseCommand_eq s hkey, if_neg hne] at hparse
      by_cases hproxy : commandWord s.bytes = keyword.bytes
      · rw [if_pos hproxy] at hparse
        by_cases hsecond : commandWord (behindWord s.bytes) = []
        · simp [hsecond] at hparse
        · rw [if_neg hsecond] at hparse
          rw [← Except.ok.inj hparse, requestedHost_some rfl] at hrun
          rw [← hname, ← hrun.2, CString.ofList_bytes (zero_not_mem_secondWord s)]
          exact Asked.proxied s (hsame.mpr hproxy) hsecond hrun.1
      · rw [if_neg hproxy] at hparse
        rw [← Except.ok.inj hparse, requestedHost_some rfl] at hrun
        rw [← hname, ← hrun.2, CString.ofList_bytes (zero_not_mem_commandWord s)]
        exact Asked.named s (mt hsame.mp hproxy) hrun.1

/-- A parsed request is handled exactly if its command, where there is one, has a word in it and
its host, where the domain is to be cut off, is not made of dots alone. -/
theorem requestHost_handled_iff (h : Parsing w cl o) :
    (∀ fuel, Handled (requestHost w fuel o cl.cval)) ↔
      (∀ s ∈ cl.cval, ∃ c ∈ s.bytes, c ≠ 32) ∧
      (o.allowfqdn = 0 → ∀ name, Asked w o cl.cval name → ∃ c ∈ name, c ≠ 46) := by
  obtain ⟨⟨keyword, hkey⟩, hhost⟩ := h.loaded
  unfold requestHost
  constructor
  · intro hhandled
    have hwords : ∀ s ∈ cl.cval, ∃ c ∈ s.bytes, c ≠ 32 := by
      intro s hs
      by_contra hblank
      have hnil : commandWord s.bytes = [] := by
        by_contra hne
        exact hblank (commandWord_ne_nil_iff.mp hne)
      have hparse : parseCommand o cl.cval = .error (.fault .nullArgument) := by
        rw [Option.mem_def.mp hs, parseCommand_eq s hkey, if_pos hnil]
      have hrun := hhandled 0
      rw [hparse] at hrun
      exact not_handled_fault _ hrun
    refine ⟨hwords, ?_⟩
    intro hfqdn name hasked
    by_contra hdots
    have hbytes : (CString.ofList name).bytes = name := CString.ofList_bytes hasked.noNul
    rw [← hbytes] at hasked
    obtain ⟨fuel, command, hparse, hrequest⟩ := (asked_iff hkey hhost hwords).mp hasked
    have hnil : hostLabel (CString.ofList name).bytes = [] := by
      rw [hbytes]
      by_contra hne
      exact hdots (hostLabel_ne_nil_iff.mp hne)
    have hrun := hhandled fuel
    rw [hparse, except_ok_bind, hostName, hrequest, except_ok_bind, if_pos hfqdn, cutDomain_eq,
      if_pos hnil] at hrun
    exact not_handled_fault _ hrun
  · rintro ⟨hwords, hdots⟩ fuel
    rcases parseCommand_handled hkey hwords with ⟨command, hparse, hcommand⟩ | hparse
    · rw [hparse, except_ok_bind]
      apply hostName_handled (requestedHost_handled hhost hcommand)
      intro hfqdn host hrequest
      exact hdots hfqdn host.bytes ((asked_iff hkey hhost hwords).mpr ⟨fuel, command, hparse, hrequest⟩)
    · rw [hparse]
      exact handled_cleanExit

/-- No token is missed exactly if the client variable is set, the command has a word in it, and
the host asked for, where its domain is to be cut off, is not made of dots alone. -/
theorem tokensPresent_iff (w : World) :
    TokensPresent w ↔ (w.user ≠ none → w.sshClient ≠ none) ∧ ∀ cl o, Parsing w cl o →
      (∀ s ∈ cl.cval, ∃ c ∈ s.bytes, c ≠ 32) ∧
      (o.allowfqdn = 0 → ∀ name, Asked w o cl.cval name → ∃ c ∈ name, c ≠ 46) := by
  constructor
  · intro h
    refine ⟨?_, fun cl o hparsing => ?_⟩
    · intro huser hunset
      obtain ⟨rhost, hrun⟩ := h.client huser false
      simp [clientAddress, hunset] at hrun
    · exact (requestHost_handled_iff hparsing).mp fun fuel => h.request cl o fuel hparsing
  · rintro ⟨hset, hrequest⟩
    refine ⟨?_, fun cl o fuel hparsing => ?_⟩
    · intro huser tolerated
      exact clientAddress_ok (w := { w with strtokNull := tolerated }) (hset huser)
    · exact (requestHost_handled_iff hparsing).mpr (hrequest cl o hparsing) fuel

/-- A command of blanks. -/
theorem tokensPresent_blank : ¬ ∀ w, TokensPresent w := by
  intro h
  let cl : CommandLine := ⟨some (.lit " "), none, 0⟩
  have hok : (loadOptions (bobWorld " " "" "" "") cl).isOk = true := by decide +kernel
  cases hload : loadOptions (bobWorld " " "" "" "") cl with
  | error e =>
    rw [hload] at hok
    exact absurd hok (by simp [Except.isOk, Except.toBool])
  | ok o =>
    have hparsing : Parsing (bobWorld " " "" "" "") cl o :=
      ⟨by decide, ⟨none, rfl⟩, by decide +kernel, hload, rfl⟩
    have hrun := (h (bobWorld " " "" "" "")).request cl o 0 hparsing
    exact not_handled_fault .nullArgument hrun

end

end Stonesh
