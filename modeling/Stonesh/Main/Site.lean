import Stonesh.Backends
import Stonesh.Framework.Gateway
import Stonesh.Geoip.Countries
import Stonesh.Hosts.Table
import Stonesh.Main.Mode
import Stonesh.Main.Prompt
import Stonesh.Main.Request

/-!
# A site

A site is what an administrator sets up: the options, a table of hosts and a table of users. It is a
gateway, which decides what users ask for without any strings to cut. A machine on which the site is
installed runs the program; here every run for a well-formed request is shown to do what the gateway
decides.
-/

namespace Stonesh

open CLib

structure Site where
  options : Options
  hosts : List HostRow
  users : List UserRow

/-- What a user asks for: a host, typed at the prompt or named in the command, there a command, or
the connection to a host. -/
inductive Demand
  | typed (host : TableName)
  | shell (host : TableName)
  | command (host : TableName) (args : CString)
  | forward (host : TableName)

namespace Demand

def host : Demand → TableName
  | .typed h => h
  | .shell h => h
  | .command h _ => h
  | .forward h => h

def mode : Demand → Int
  | .forward _ => authProxy
  | _ => authBastion

def args : Demand → Option CString
  | .command _ args => some args
  | _ => none

/-- The string behind `-c`, if the user is not prompted. -/
def text (keyword : List Byte) : Demand → Option (List Byte)
  | .typed _ => none
  | .shell h => some h.bytes
  | .command h args => some (h.bytes ++ 32 :: args.bytes)
  | .forward h => some (keyword ++ 32 :: h.bytes)

def Interactive : Demand → Prop
  | .typed _ => True
  | .shell _ => True
  | _ => False

instance (d : Demand) : Decidable d.Interactive := by
  unfold Interactive
  cases d <;> infer_instance

end Demand

/-- The host is told from the keyword, and the keyword from the beginning of a host. -/
def Demand.Apart (keyword : List Byte) : Demand → Prop
  | .forward h => 32 ∉ keyword ∧ ¬ keyword <+: h.bytes
  | d => d.host.bytes ≠ keyword

/-- A demand that is read as it is meant: the host is not cut, and a command says something. -/
structure Demand.WellFormed (d : Demand) (o : Options) : Prop where
  whole : o.allowfqdn ≠ 0 ∨ 46 ∉ d.host.bytes
  apart : ∀ keyword ∈ o.proxyKeyword, d.Apart keyword.bytes
  args : ∀ args ∈ d.args, args.bytes ≠ []

/-- The address of a client and the ports behind it, as in `SSH_CLIENT`. -/
structure Client where
  address : CString
  ports : CString
  ne_nil : address.bytes ≠ []
  word : 32 ∉ address.bytes

/-- What the login service says about the client. -/
def Client.Announced (w : World) : Option Client → Prop
  | none => w.sshClient = none ∧ w.strtokNull = true
  | some c => ∃ text, w.sshClient = some text ∧ text.bytes = c.address.bytes ++ 32 :: c.ports.bytes

structure Session where
  user : TableName
  demand : Demand
  client : Option Client
  tty : Bool

def Demand.argv (d : Demand) (o : Options) (row : HostRow) : List (Option CString) :=
  match d with
  | .forward h => [o.ncPath, some (.lit "-w"), o.ncTimeout, some h.string, row.entry.port]
  | d =>
    [o.sshPath, some (.lit "-p"), row.entry.port, some (.lit "-q"), some d.host.string,
      some (.lit "--")] ++ d.args.toList.map some

/-- The row has no countries, or the client is a neighbour, or his country is one of the row. -/
def HostRow.Welcomes (row : HostRow) (geo : GeoLib) (o : Options) (address : CString) : Prop :=
  row.countries = [] ∨ Loopback geo address ∨
    ∃ code ∈ countryCode geo o address, ∃ c ∈ row.countries, code.bytes = c.bytes.map toupper

namespace Site

/-- What the site permits, under the options and by the two tables. -/
def gateway (site : Site) (geo : GeoLib) :
    Gateway (List Byte) (List Byte) Int HostRow (Option CString) where
  service host := site.hosts.find? fun r => r.name.bytes = host
  grants user host mode := ¬ (site.options.enableProxy = 0 ∧ mode = authProxy) ∧
    (site.options.authType = authTypeAny ∨
      TableGrants site.users user host (AsksForMark site.options mode))
  welcomes row origin := ∀ address ∈ origin, row.Welcomes geo site.options address

end Site

def Session.request (s : Session) :
    Gateway.Request (List Byte) (List Byte) Int (Option CString) where
  user := s.user.bytes
  host := s.demand.host.bytes
  mode := s.demand.mode
  origin := s.client.map Client.address

inductive Verdict
  | unlisted
  | refused
  | noTerminal
  | handedOver (argv : List (Option CString))

def Verdict.outcome (execvpFails : Bool) : Verdict → Outcome
  | .unlisted => .returned exitFailure
  | .refused => .returned exitSuccess
  | .noTerminal => .returned exitFailure
  | .handedOver _ => if execvpFails then .returned exitFailure else .replaced

def Verdict.stop (execvpFails : Bool) : Verdict → Stop
  | .unlisted => .cleanExit exitFailure .null
  | .refused => .cleanExit exitSuccess .static
  | .noTerminal => .cleanExit exitFailure .static
  | .handedOver _ => if execvpFails then .cleanExit exitFailure .static else .replaced

theorem Verdict.finish_stop (v : Verdict) (w : World) :
    finish w (.error (v.stop w.execvpFails)) = v.outcome w.execvpFails := by
  cases v with
  | handedOver argv =>
    rw [Verdict.stop, Verdict.outcome]
    split
    · rfl
    · rfl
  | _ => rfl

def Session.verdict (s : Session) (o : Options) : Gateway.Decision HostRow → Verdict
  | .unlisted => .unlisted
  | .refused => .refused
  | .permitted row =>
    if s.demand.Interactive ∧ s.tty = false then .noTerminal else .handedOver (s.demand.argv o row)

noncomputable def Site.verdict (site : Site) (geo : GeoLib) (s : Session) : Verdict :=
  s.verdict site.options ((site.gateway geo).decide s.request)

/-- The site is installed on the machine, which has memory: the default file has its options, and
the hosts file and the backend of the configuration hold its tables. -/
structure Site.Installed (site : Site) (w : World) : Prop where
  config : readConfigFile w.files (.lit defaultConfigFile) staticOptions = .ok (1, site.options)
  hosts : ∃ file content, site.options.hostsFile = some file ∧ w.files file = some content ∧
    HoldsRows hostFormat content site.hosts
  users : site.options.authType = authTypeAny ∨ KeptInFile w.files site.options site.users ∨
    KeptInDirectory w.ldap site.options site.users
  strdup : w.strdup (.lit defaultConfigFile) = true
  cmdlineMalloc : w.cmdlineMalloc = true
  hostMalloc : ∀ n, w.hostMalloc n = true

/-- The names of the session mean themselves to the backend. -/
structure Site.Understands (site : Site) (s : Session) : Prop where
  file : site.options.authType = authTypeLocal →
    NoLongerName site.users s.user.bytes s.demand.host.bytes
  directory : site.options.authType = authTypeLdap → LdapFilter.Plain s.user.bytes ∧ LdapFilter.Plain s.demand.host.bytes

/-- The session is one of the user, as it comes from the remote login service. -/
structure Session.Posed (s : Session) (o : Options) (w : World) : Prop where
  user : w.user = some s.user.string
  client : Client.Announced w s.client
  argv : ∀ keyword ∈ o.proxyKeyword, ∃ name,
    w.argv = name :: (s.demand.text keyword.bytes).elim [] fun t => [.lit "-c", .ofList t]
  typed : ∀ h, s.demand = .typed h → h.bytes.length ≤ 62 ∧ ∃ rest, w.stdin = h.bytes ++ 10 :: rest
  tty : w.stdinIsTty = s.tty

/-- A session that reaches a machine of the site, and means there what it says. -/
structure Site.Receives (site : Site) (s : Session) (w : World) : Prop where
  installed : site.Installed w
  posed : s.Posed site.options w
  wellFormed : s.demand.WellFormed site.options
  understood : site.Understands s

section
variable {a b : List Byte}

private theorem words_two (ha : 32 ∉ a) (hne : a ≠ []) :
    leadingBlanks (a ++ 32 :: b) = [] ∧ commandWord (a ++ 32 :: b) = a ∧
      behindWord (a ++ 32 :: b) = b := by
  obtain ⟨c, l, rfl⟩ := List.exists_cons_of_ne_nil hne
  have hc : c ≠ 32 := fun h => ha (by simp [h])
  have hlead : (c :: l ++ 32 :: b).dropWhile (· = 32) = c :: l ++ 32 :: b := by simp [hc]
  have hdrop : (c :: l ++ 32 :: b).dropWhile (· ≠ 32) = 32 :: b :=
    Text.dropWhile_stop (by simpa using forall_ne_of_not_mem ha) (by simp)
  refine ⟨by simp [leadingBlanks, hc], ?_, ?_⟩
  · rw [commandWord, hlead]
    exact Text.takeWhile_ne_stop ha
  · rw [behindWord, hlead, hdrop]
    rfl

private theorem words_one (ha : 32 ∉ a) (hne : a ≠ []) :
    leadingBlanks a = [] ∧ commandWord a = a ∧ behindWord a = [] := by
  obtain ⟨c, l, rfl⟩ := List.exists_cons_of_ne_nil hne
  have hc : c ≠ 32 := fun h => ha (by simp [h])
  have hlead : (c :: l).dropWhile (· = 32) = c :: l := by simp [hc]
  have hdrop : (c :: l).dropWhile (· ≠ 32) = [] :=
    List.dropWhile_eq_nil_iff.mpr (by simpa using forall_ne_of_not_mem ha)
  refine ⟨by simp [leadingBlanks, hc], ?_, ?_⟩
  · rw [commandWord, hlead]
    exact takeWhile_ne_of_not_mem ha
  · rw [behindWord, hlead, hdrop]
    rfl

end

section
variable {site : Site} {s : Session} {w : World}

private theorem ofList_bytes_self (s : CString) : CString.ofList s.bytes = s :=
  CString.ext (CString.ofList_bytes s.noNul)

private theorem clientAddress_announced {client : Option Client} (h : Client.Announced w client) :
    clientAddress w = .ok (client.map Client.address) := by
  cases client with
  | none =>
    rw [clientAddress, h.1]
    simp [h.2]
  | some c =>
    obtain ⟨text, hset, hbytes⟩ := h
    obtain ⟨hlead, hword, -⟩ := words_two (b := c.ports.bytes) c.word c.ne_nil
    rw [← hbytes] at hlead hword
    rw [clientAddress, hset]
    rcases strtok_word [] [] 32 rfl text.noNul (rfl : leadingBlanks text.bytes = _)
      (rfl : commandWord text.bytes = _) rfl with ⟨hnil, -⟩ | ⟨-, gap, hgap, hcut⟩
    · exact absurd (hword.symm.trans hnil) c.ne_nil
    · obtain ⟨v, hv⟩ := gap_terminates hgap []
      simp only [List.nil_append, List.length_nil, hlead, hword, hv] at hcut
      have htoken (cursor : Nat) : tokenText ⟨some 0, cursor, [] ++ (c.address.bytes ++ 0 :: v)⟩ =
          .ok (some (.ofList c.address.bytes)) := tokenText_at rfl c.address.noNul
      simp only [List.nil_append, ofList_bytes_self] at htoken
      simp only [CString.block, hcut, except_ok_bind, htoken, Option.map_some]

private theorem commandLine_posed {name : CString} {text : Option (List Byte)}
    (hargv : w.argv = name :: text.elim [] fun t => [.lit "-c", .ofList t]) :
    commandLine w = .ok ⟨text.map .ofList, none, 0⟩ := by
  rw [commandLine, hargv]
  cases text with
  | none => rfl
  | some t => rfl

private theorem loadOptions_installed (h : site.Installed w) (text : Option CString) :
    loadOptions w ⟨text, none, 0⟩ = .ok site.options := by
  have hfile : configFile w ⟨text, none, 0⟩ = .ok (.lit defaultConfigFile) := by
    rw [configFile, copyString, if_pos h.strdup]
    rfl
  rw [loadOptions, hfile]
  simp only [checked_ok, except_ok_bind, h.config]
  rfl

end

/-- The variables `main` sets from the command. -/
def Demand.parsed (keyword : CString) : Demand → Command
  | .typed _ => ⟨none, none, none, 0⟩
  | .shell h => ⟨some h.string, some h.string, none, 0⟩
  | .command h args => ⟨some h.string, some h.string, some args, 0⟩
  | .forward h => ⟨some keyword, some h.string, none, 1⟩

section
variable {o : Options} {d : Demand} {keyword : CString}

private theorem parseCommand_host (hkey : o.proxyKeyword = some keyword) {h : TableName} {t : List Byte}
    (h0 : 0 ∉ t) (hlead : leadingBlanks t = []) (hword : commandWord t = h.bytes)
    (hapart : h.bytes ≠ keyword.bytes) :
    parseCommand o (some (.ofList t)) = .ok ⟨some h.string, some h.string,
      if behindWord t = [] then none else some (.ofList (behindWord t)), 0⟩ := by
  rw [parseCommand_eq _ hkey, CString.ofList_bytes h0, cutCommand, hlead, hword, if_neg h.ne_nil,
    if_neg hapart, List.nil_append]
  rfl

private theorem parseCommand_demand (hkey : o.proxyKeyword = some keyword) (hne : keyword.bytes ≠ [])
    (hd : d.WellFormed o) :
    parseCommand o ((d.text keyword.bytes).map .ofList) = .ok (d.parsed keyword) := by
  have hblank (h : TableName) : 32 ∉ h.bytes := fun hm => h.not_blank hm (by decide)
  have hzero (h : TableName) : 0 ∉ h.bytes := h.not_mem (by decide)
  have hapart := hd.apart keyword hkey
  cases d with
  | typed h => rfl
  | shell h =>
    obtain ⟨hlead, hword, hrest⟩ := words_one (hblank h) h.ne_nil
    have hrun := parseCommand_host hkey (hzero h) hlead hword hapart
    rw [hrest] at hrun
    exact hrun
  | command h args =>
    obtain ⟨hlead, hword, hrest⟩ := words_two (b := args.bytes) (hblank h) h.ne_nil
    have h0 : 0 ∉ h.bytes ++ 32 :: args.bytes := by
      simp only [List.mem_append, List.mem_cons, not_or]
      exact ⟨hzero h, by decide, args.noNul⟩
    have hrun := parseCommand_host hkey h0 hlead hword hapart
    rw [hrest, if_neg (hd.args args rfl), ofList_bytes_self] at hrun
    exact hrun
  | forward h =>
    obtain ⟨hkeyword, -⟩ := hapart
    obtain ⟨hlead, hword, hrest⟩ := words_two (b := h.bytes) hkeyword hne
    obtain ⟨-, hhost, -⟩ := words_one (hblank h) h.ne_nil
    have h0 : 0 ∉ keyword.bytes ++ 32 :: h.bytes := by
      simp only [List.mem_append, List.mem_cons, not_or]
      exact ⟨keyword.noNul, by decide, hzero h⟩
    rw [Demand.text, Option.map_some, parseCommand_eq _ hkey, CString.ofList_bytes h0, cutCommand, hlead,
      hword, hrest, hhost, if_neg hne, if_pos rfl, if_neg h.ne_nil, List.nil_append, ofList_bytes_self]
    rfl

end

section
variable {site : Site} {s : Session} {w : World} {fuel : Nat}

private theorem promptHost_typed {host : TableName} {rest : List Byte} (hmalloc : w.hostMalloc 0 = true)
    (hlen : host.bytes.length ≤ 62) (hstdin : w.stdin = host.bytes ++ 10 :: rest) :
    promptHost w.hostMalloc (fuel + 1) 0 (chunks maxHostNameLen w.stdin) = .ok host.string := by
  have hline : 10 ∉ host.bytes := fun hm => host.not_blank hm (by decide)
  have hzero : 0 ∉ host.bytes ++ [10] := by
    simp only [List.mem_append, List.mem_singleton, not_or]
    exact ⟨host.not_mem (by decide), by decide⟩
  have hname : typedName (host.bytes ++ [10]) = host.bytes := by
    rw [typedName, takeWhile_ne_of_not_mem hzero, List.dropLast_concat]
  rw [hstdin, chunks_line hline (by rw [maxHostNameLen]; omega), promptHost_succ, if_pos hmalloc,
    List.headD_cons, hname, if_neg host.ne_nil]
  rfl

private theorem requestedHost_demand (h : site.Installed w) (hs : s.Posed site.options w)
    (hhost : site.options.host = none) (keyword : CString) :
    requestedHost w (fuel + 1) site.options (s.demand.parsed keyword) = .ok s.demand.host.string := by
  have hmalloc := h.hostMalloc 0
  have hnamed {command : Command} {host : TableName} (hcommand : command.host = some host.string) :
      requestedHost w (fuel + 1) site.options command = .ok host.string :=
    (requestedHost_some hcommand).mpr ⟨hmalloc, rfl⟩
  cases hdemand : s.demand with
  | typed host =>
    obtain ⟨hlen, rest, hstdin⟩ := hs.typed host hdemand
    rw [Demand.parsed, requestedHost, hhost]
    exact promptHost_typed hmalloc hlen hstdin
  | shell host => exact hnamed rfl
  | command host args => exact hnamed rfl
  | forward host => exact hnamed rfl

private theorem hostName_demand (h : site.Installed w) (hs : s.Posed site.options w)
    (hhost : site.options.host = none) (hd : s.demand.WellFormed site.options) (keyword : CString) :
    hostName w (fuel + 1) site.options (s.demand.parsed keyword) = .ok s.demand.host.string := by
  rw [hostName, requestedHost_demand h hs hhost, except_ok_bind]
  split
  · next hcut =>
    have hdot : 46 ∉ s.demand.host.bytes := hd.whole.resolve_left fun hne => hne hcut
    have hlabel : hostLabel s.demand.host.string.bytes ≠ [] := by
      rw [TableName.string_bytes, hostLabel_ne_nil_iff]
      obtain ⟨c, l, hl⟩ := List.exists_cons_of_ne_nil s.demand.host.ne_nil
      exact ⟨c, by simp [hl], fun hc => hdot (by simp [hl, hc])⟩
    rw [cutDomain_eq, if_neg hlabel, TableName.string_bytes, withoutDomain_eq_self hdot]
    rfl
  · rfl

/-- What `main` has computed for a session when the row for the host has been found. -/
def Session.prepared (s : Session) (o : Options) (keyword : CString) (row : HostRow) : Prepared where
  user := s.user.string
  rhost := s.client.map Client.address
  options := { o with host := some s.demand.host.string }
  command := s.demand.parsed keyword
  host := s.demand.host.string
  entry := row.entry

private theorem prepare_session (h : site.Installed w) (hs : s.Posed site.options w)
    (hd : s.demand.WellFormed site.options) {keyword : CString}
    (hkey : site.options.proxyKeyword = some keyword) (hne : keyword.bytes ≠ []) (fuel : Nat) :
    prepare w (fuel + 1) =
      match site.hosts.find? fun r => r.name.bytes = s.demand.host.bytes with
      | none => .error (.cleanExit exitFailure .null)
      | some row => .ok (s.prepared site.options keyword row) := by
  obtain ⟨name, hargv⟩ := hs.argv keyword hkey
  obtain ⟨file, content, hfile, hcontent, hrows⟩ := h.hosts
  have hcmdline : buildCmdline w = .ok () := by
    rw [buildCmdline, if_pos h.cmdlineMalloc, hargv, if_neg (by simp)]
    rfl
  have hentry : findEntry w { site.options with host := some s.demand.host.string } s.demand.host.string =
      match site.hosts.find? fun r => r.name.bytes = s.demand.host.bytes with
      | none => .error (.cleanExit exitFailure .null)
      | some row => .ok row.entry := by
    rw [findEntry, hfile, gethostentry_eq, contentOf, hcontent, Option.getD_some, lookupHost_rows hrows,
      TableName.string_bytes]
    cases site.hosts.find? fun r => r.name.bytes = s.demand.host.bytes with
    | none => rfl
    | some row => rfl
  rw [prepare, hs.user]
  simp only [clientAddress_announced hs.client, commandLine_posed hargv, loadOptions_installed h, hcmdline,
    parseCommand_demand hkey hne hd, hostName_demand h hs (readConfigFile_host h.config) hd, hentry,
    checked_ok, except_ok_bind]
  cases site.hosts.find? fun r => r.name.bytes = s.demand.host.bytes with
  | none => rfl
  | some row => rfl

end

section
variable {site : Site} {s : Session} {w : World} {fuel : Nat} {keyword : CString} {row : HostRow}

private theorem authMode_prepared (hd : s.demand.WellFormed site.options)
    (hkey : site.options.proxyKeyword = some keyword) :
    (s.prepared site.options keyword row).authMode = s.demand.mode := by
  have hapart := hd.apart keyword hkey
  have hhost : (s.prepared site.options keyword row).host = s.demand.host.string := rfl
  have hnamed (hcval : (s.prepared site.options keyword row).command.cval = some s.demand.host.string) :
      (s.prepared site.options keyword row).authMode = authBastion :=
    (Prepared.authMode_bastion_iff hcval).mpr (hhost ▸ List.prefix_refl _)
  cases hdemand : s.demand with
  | typed h => rw [Prepared.authMode, Session.prepared, hdemand, Demand.parsed]; rfl
  | shell h => exact hnamed (by rw [Session.prepared, hdemand]; rfl)
  | command h args => exact hnamed (by rw [Session.prepared, hdemand]; rfl)
  | forward h =>
    rw [hdemand] at hapart
    have hcval : (s.prepared site.options keyword row).command.cval = some keyword := by
      rw [Session.prepared, hdemand]
      rfl
    rcases Prepared.authMode_cases (s.prepared site.options keyword row) with hmode | hmode
    · rw [Prepared.authMode_bastion_iff hcval, hhost, hdemand, TableName.string_bytes] at hmode
      exact absurd hmode hapart.2
    · exact hmode

private theorem authUser_session (h : site.Installed w) (hu : site.Understands s) :
    ∃ r, (authUser w.ldap w.files { site.options with host := some s.demand.host.string }
        (some s.user.string) (some s.demand.host.string) s.demand.mode).result = .ok r ∧
      (r.auth = authFailure ∨ r.auth = authSuccess) ∧
      (r.auth = authSuccess ↔
        (site.gateway w.geo).grants s.user.bytes s.demand.host.bytes s.demand.mode) := by
  have hbackend (hany : site.options.authType ≠ authTypeAny) :
      ModeGrants site.options site.users s.user.bytes s.demand.host.bytes s.demand.mode ↔
        (site.gateway w.geo).grants s.user.bytes s.demand.host.bytes s.demand.mode :=
    and_congr_right fun _ => (or_iff_right hany).symm
  rcases h.users with hany | hfile | hdirectory
  · by_cases hgate : site.options.enableProxy = 0 ∧ s.demand.mode = authProxy
    · refine ⟨_, by rw [authUser, if_pos hgate]; rfl, Or.inl rfl, ?_⟩
      exact iff_of_false (by simp [authFailure, authSuccess]) fun hgrants => hgrants.1 hgate
    · refine ⟨_, by rw [authUser, if_neg hgate, if_pos hany]; rfl, Or.inr rfl, ?_⟩
      exact iff_of_true rfl ⟨hgate, Or.inl hany⟩
  · rw [← hbackend (by rw [hfile.authType]; decide)]
    have hkept : KeptInFile w.files { site.options with host := some s.demand.host.string } site.users :=
      ⟨hfile.authType, hfile.holds⟩
    exact authUser_file w.ldap hkept (hu.file hfile.authType) s.demand.mode
  · rw [← hbackend (by rw [hdirectory.authType]; decide)]
    obtain ⟨tag, htag, hsafe, hserves⟩ := hdirectory.holds
    have hkept : KeptInDirectory w.ldap { site.options with host := some s.demand.host.string } site.users :=
      ⟨hdirectory.authType, hdirectory.useLdap,
        ⟨tag, htag, hsafe, ⟨hserves.uri, hserves.base, hserves.malloc, hserves.connects, hserves.binds,
          hserves.sends, hserves.answers⟩⟩, hdirectory.hosts⟩
    obtain ⟨huser, hhost⟩ := hu.directory hdirectory.authType
    exact authUser_directory w.files hkept huser hhost s.demand.mode

private theorem countryNames_row (countries : List TableName) :
    countryNames [44] (countriesField countries) = countries.map fun c => c.bytes.map toupper := by
  have htokens : Text.tokens (· ∈ [44]) (countriesField countries) = countries.map TableName.bytes := by
    apply Text.tokens_intercalate (by simp)
    intro t ht
    obtain ⟨c, -, rfl⟩ := List.mem_map.mp ht
    refine ⟨c.ne_nil, ?_⟩
    intro b hb
    have hne : b ≠ 44 := fun he => c.not_mem (by decide) (he ▸ hb)
    simpa using hne
  rw [countryNames, htokens, List.map_map]
  simp only [Function.comp_def, countryName, TableName.trimmed_bytes]

private theorem countriesField_eq_nil_iff (countries : List TableName) :
    countriesField countries = [] ↔ countries = [] := by
  constructor
  · intro h
    have hnames := countryNames_row countries
    rw [h] at hnames
    exact List.map_eq_nil_iff.mp hnames.symm
  · rintro rfl
    rfl

private theorem fromValidCountry_row (geo : GeoLib) (o : Options) (address : CString) :
    FromValidCountry geo o address row.entry.countries (some (.lit ",")) ↔
      row.Welcomes geo o address := by
  have hlist : (CString.ofList (countriesField row.countries)).bytes = countriesField row.countries :=
    CString.ofList_bytes fun hm => (HostRow.plainField_countries row.countries 0 hm).2 (by decide)
  have hcomma : ((some (CString.lit ",")).getD (.lit ",")).bytes = [44] := by decide
  have hmem (code : CString) : code.bytes ∈ row.countries.map (fun c => c.bytes.map toupper) ↔
      ∃ c ∈ row.countries, code.bytes = c.bytes.map toupper := by
    simp only [List.mem_map, eq_comm]
  simp only [FromValidCountry, HostRow.Welcomes, HostRow.entry, Option.mem_def, Option.some.injEq,
    forall_eq', exists_eq_left', hlist, hcomma, countriesField_eq_nil_iff, countryNames_row, hmem]

private theorem checkCountry_session (site : Site) (s : Session) (w : World) (keyword : CString)
    (row : HostRow) {auth : Int} (hauth : auth ≠ 0) :
    ∃ n, checkCountry w (s.prepared site.options keyword row) auth = .ok n ∧
      (n ≠ 0 ↔ (site.gateway w.geo).welcomes row (s.client.map Client.address)) := by
  rw [checkCountry, Session.prepared]
  cases hclient : s.client with
  | none => exact ⟨auth, rfl, iff_of_true hauth (by simp [Site.gateway])⟩
  | some c =>
    have hwelcomes : (site.gateway w.geo).welcomes row ((some c).map Client.address) ↔
        row.Welcomes w.geo site.options c.address := by simp [Site.gateway]
    obtain ⟨n, hrun, hn⟩ := isFromValidCountry_answers w.geo
      { site.options with host := some s.demand.host.string } c.address row.entry.countries
      (some (.lit ","))
    refine ⟨n, ?_, ?_⟩
    · simp only [HostRow.entry, Option.map_some, if_pos hauth]
      exact hrun
    · rw [hwelcomes, ← fromValidCountry_row]
      rcases hn with ⟨rfl, hvalid⟩ | ⟨rfl, hnot⟩
      · exact iff_of_true (by decide) hvalid
      · exact iff_of_false (by simp) hnot

private theorem authorize_result {p : Prepared} {r : LocalAuth} {n : Int}
    (hr : (authUser w.ldap w.files p.options (some p.user) p.entry.host p.authMode).result = .ok r)
    (hn : checkCountry w p r.auth = .ok n) :
    (authorize w p).result =
      if n = 0 then .error (.cleanExit exitSuccess .static) else .ok r.host := by
  have hasked : (Traced.embed MainEvent.ldap Stop.fault (authUser w.ldap w.files p.options (some p.user)
      p.entry.host p.authMode)).result = .ok r := Traced.embed_result_eq_ok.mpr hr
  have hchecked : (Traced.lift Stop.fault (checkCountry w p r.auth) : Traced MainEvent Stop Int).result =
      .ok n := Traced.lift_result_eq_ok.mpr hn
  rw [authorize, Traced.bind_result, Traced.emit_result, except_ok_bind, Traced.bind_result, hasked,
    except_ok_bind, Traced.bind_result, hchecked, except_ok_bind]
  split
  · rfl
  · rfl

private theorem authorize_session (h : site.Installed w) (hd : s.demand.WellFormed site.options)
    (hu : site.Understands s) (hkey : site.options.proxyKeyword = some keyword)
    (hp : prepare w fuel = .ok (s.prepared site.options keyword row))
    (hrow : site.hosts.find? (fun r => r.name.bytes = s.demand.host.bytes) = some row) :
    (site.gateway w.geo).Permits s.request row ∧
        (authorize w (s.prepared site.options keyword row)).result = .ok (some s.demand.host.string) ∨
      ¬ (site.gateway w.geo).Permits s.request row ∧
        (authorize w (s.prepared site.options keyword row)).result =
          .error (.cleanExit exitSuccess .static) := by
  have hname : row.name.bytes = s.demand.host.bytes := by simpa using List.find?_some hrow
  have hentry : (s.prepared site.options keyword row).entry.host = some s.demand.host.string :=
    congrArg some (TableName.string_inj.mpr hname)
  have hpermits : (site.gateway w.geo).Permits s.request row ↔
      (site.gateway w.geo).grants s.user.bytes s.demand.host.bytes s.demand.mode ∧
        (site.gateway w.geo).welcomes row (s.client.map Client.address) := and_iff_right hrow
  obtain ⟨r, hr, hanswer, hgrants⟩ := authUser_session h hu
  have hcall : (authUser w.ldap w.files (s.prepared site.options keyword row).options
      (some (s.prepared site.options keyword row).user) (s.prepared site.options keyword row).entry.host
      (s.prepared site.options keyword row).authMode).result = .ok r := by
    rw [hentry, authMode_prepared hd hkey]
    exact hr
  obtain ⟨cl, o, hof⟩ := prepare_ok hp
  obtain ⟨-, -, htrim⟩ := (authUser_run w.ldap w.files hof.accepted _ _ _).value r hcall
  have hhost : r.host = some s.demand.host.string := by
    rw [hentry] at htrim
    rcases htrim with htrim | htrim
    · exact htrim
    · rw [htrim, Option.map_some, trimmedString, TableName.string_bytes, TableName.trimmed_bytes]
      rfl
  rw [hpermits, ← hgrants]
  rcases hanswer with hzero | hone
  · -- the country of a request that is refused is not looked up
    have hchecked : checkCountry w (s.prepared site.options keyword row) r.auth = .ok 0 := by
      rw [hzero, checkCountry]
      split
      · rfl
      · rfl
    refine Or.inr ⟨fun hp => absurd (hzero.symm.trans hp.1) (by decide), ?_⟩
    rw [authorize_result hcall hchecked, if_pos rfl]
  · obtain ⟨n, hchecked, hwelcomes⟩ := checkCountry_session site s w keyword row
      (show r.auth ≠ 0 by rw [hone]; decide)
    rw [← hwelcomes, authorize_result hcall hchecked, hhost]
    by_cases hn : n = 0
    · exact Or.inr ⟨fun hp => hp.2 hn, if_pos hn⟩
    · exact Or.inl ⟨⟨hone, hn⟩, if_neg hn⟩

private theorem handOver_session (keyword : CString) (row : HostRow) (hs : s.Posed site.options w) :
    (handOver w (s.prepared site.options keyword row) (some s.demand.host.string)).trace =
        (if s.demand.Interactive ∧ s.tty = false then [] else
          [.execvp (s.demand.argv site.options row)]) ∧
      (handOver w (s.prepared site.options keyword row) (some s.demand.host.string)).result =
        .error ((if s.demand.Interactive ∧ s.tty = false then Verdict.noTerminal else
          .handedOver (s.demand.argv site.options row)).stop w.execvpFails) := by
  have hstops : ((s.prepared site.options keyword row).command.proxy ≠ 1 ∧ w.stdinIsTty = false ∧
      (s.prepared site.options keyword row).command.args = none) ↔
        s.demand.Interactive ∧ s.tty = false := by
    rw [hs.tty, Session.prepared]
    cases s.demand <;> simp [Demand.parsed, Demand.Interactive]
  have hargv : newargv (s.prepared site.options keyword row) (some s.demand.host.string) =
      s.demand.argv site.options row := by
    rw [newargv, Session.prepared]
    cases s.demand <;> rfl
  rw [handOver]
  by_cases hterminal : s.demand.Interactive ∧ s.tty = false
  · rw [if_pos (hstops.mpr hterminal), if_pos hterminal, if_pos hterminal]
    exact ⟨rfl, rfl⟩
  · rw [if_neg fun hp => hterminal (hstops.mp hp), if_neg hterminal, if_neg hterminal, hargv,
      Traced.emit_bind, Verdict.stop]
    cases w.execvpFails with
    | true => exact ⟨rfl, rfl⟩
    | false => exact ⟨rfl, rfl⟩

private theorem execvp_mem_run_iff {p : Prepared} (hp : prepare w fuel = .ok p)
    (argv : List (Option CString)) :
    .execvp argv ∈ (run w fuel).trace ↔
      ∃ host, (authorize w p).result = .ok host ∧ .execvp argv ∈ (handOver w p host).trace := by
  have hnot : .execvp argv ∉ (authorize w p).trace := by
    intro he
    rcases mem_authorize_trace.mp he with he | ⟨l, -, he⟩
    · exact absurd he (by simp)
    · exact absurd he (by simp)
  rw [mem_run_trace]
  constructor
  · rintro ⟨p', hp', hevent⟩
    have hsame : p' = p := Except.ok.inj (hp'.symm.trans hp)
    subst hsame
    exact hevent.resolve_left hnot
  · rintro hevent
    exact ⟨p, hp, Or.inr hevent⟩

/-- A run for a session hands it over as the gateway of the site decides, and stops there. -/
theorem run_session (h : site.Receives s w) (fuel : Nat) :
    (∀ argv, .execvp argv ∈ (run w (fuel + 1)).trace ↔ site.verdict w.geo s = .handedOver argv) ∧
      (run w (fuel + 1)).result = .error ((site.verdict w.geo s).stop w.execvpFails) := by
  obtain ⟨keyword, hkey, hne⟩ :=
    (readConfigFile_accepted h.installed.config).strings .proxyKeyword (by decide) (by decide)
  have hkey : site.options.proxyKeyword = some keyword := hkey
  have hprepared := prepare_session h.installed h.posed h.wellFormed hkey hne fuel
  have hresult : (run w (fuel + 1)).result = (prepare w (fuel + 1) >>= fun p =>
      (authorize w p).result >>= fun host => (handOver w p host).result) := by
    simp only [run, Traced.bind_result, Traced.lift_id_result]
  cases hrow : site.hosts.find? fun r => r.name.bytes = s.demand.host.bytes with
  | none =>
    have hverdict : site.verdict w.geo s = .unlisted := by
      rw [Site.verdict, Gateway.decide_unlisted hrow]
      rfl
    rw [hrow] at hprepared
    rw [hresult, hprepared, hverdict]
    refine ⟨?_, rfl⟩
    intro argv
    refine iff_of_false ?_ (by simp)
    intro he
    obtain ⟨p, hp, -⟩ := mem_run_trace.mp he
    simp [hprepared] at hp
  | some row =>
    rw [hrow] at hprepared
    rw [hresult, hprepared, except_ok_bind]
    simp only [execvp_mem_run_iff hprepared]
    rcases authorize_session h.installed h.wellFormed h.understood hkey hprepared hrow with ⟨hpermits, hauthorized⟩ | ⟨hnot, hrefused⟩
    · obtain ⟨htrace, hend⟩ := handOver_session keyword row h.posed
      rw [Site.verdict, Gateway.decide_permitted hpermits, Session.verdict, hauthorized, except_ok_bind, hend]
      refine ⟨?_, rfl⟩
      intro argv
      simp only [Except.ok.injEq, exists_eq_left', htrace]
      split
      · simp
      · simp [eq_comm]
    · rw [Site.verdict, Gateway.decide_refused hrow hnot, Session.verdict, hrefused]
      refine ⟨?_, rfl⟩
      intro argv
      simp

/-- What is executed for a session is what the verdict says. -/
theorem execvp_session (h : site.Receives s w) (fuel : Nat) (argv : List (Option CString)) :
    .execvp argv ∈ (main w (fuel + 1)).1 ↔ site.verdict w.geo s = .handedOver argv :=
  (run_session h fuel).1 argv

theorem outcome_session (h : site.Receives s w) (fuel : Nat) :
    (main w (fuel + 1)).2 = (site.verdict w.geo s).outcome w.execvpFails := by
  rw [main, (run_session h fuel).2]
  exact Verdict.finish_stop _ _

end

def bobSite : Site where
  options := localOptions
  hosts := [webRow, dbRow]
  users := [bobRow]

def bobSession : Session where
  user := bobRow.user
  demand := .forward webName
  client := some ⟨.lit "192.0.2.1", .lit "50000 22", by decide, by decide⟩
  tty := true

def bobMachine : World :=
  { bobWorld "direct web" "enableProxy yes" "# hosts\nweb:2222\n\n  db::US,CA # spare\n" "bob:web+,db\n" with
    sshClient := some (.lit "192.0.2.1 50000 22") }

theorem bobSite_receives : bobSite.Receives bobSession bobMachine where
  installed :=
    { config := by decide +kernel
      hosts := ⟨.lit "/etc/stonesh/hosts.lst", hostsExample, rfl, rfl, hostsExample_rows⟩
      users := Or.inr (Or.inl ⟨rfl, .lit "/etc/stonesh/users.lst", bytes "bob:web+,db\n", rfl, rfl,
        by unfold LinesFit; decide, by decide⟩)
      strdup := rfl
      cmdlineMalloc := rfl
      hostMalloc := fun _ => rfl }
  posed :=
    { user := rfl
      client := ⟨.lit "192.0.2.1 50000 22", rfl, by decide⟩
      argv := by
        rintro keyword ⟨⟩
        exact ⟨.lit "stonesh", by decide⟩
      typed := by simp [bobSession]
      tty := rfl }
  wellFormed :=
    { whole := Or.inr (by decide)
      apart := by
        rintro keyword ⟨⟩
        exact ⟨by decide, by decide⟩
      args := by simp [bobSession, Demand.args] }
  understood :=
    { file := fun _ => by unfold NoLongerName; decide
      directory := fun h => absurd h (by decide) }

end Stonesh
