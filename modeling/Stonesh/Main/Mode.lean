import Stonesh.Main.Execution

/-!
# The mode a request is authorized in

The proxy flag is set when the first word of the command is the keyword. The mode is chosen later,
by comparing what is left at `cval` with the name of the host, and only over the length of the
former. Both decisions are compared here for every command, keyword and host.
-/

namespace Stonesh

open CLib

section
variable {w : World} {fuel : Nat} {p : Prepared} {cl : CommandLine} {o : Options} {s : CString}

theorem Prepared.authMode_bastion_iff {cval : CString} (h : p.command.cval = some cval) :
    p.authMode = authBastion ↔ cval.bytes <+: p.host.bytes := by
  rw [Prepared.authMode, h, ← strncmp_length_eq_zero_iff]
  simp [authBastion, authProxy]

theorem Prepared.authMode_cases (p : Prepared) : p.authMode = authBastion ∨ p.authMode = authProxy := by
  unfold Prepared.authMode
  split
  · exact Or.inl rfl
  · split
    · exact Or.inl rfl
    · exact Or.inr rfl

theorem authUser_mem_run (hp : prepare w fuel = .ok p) {user host : Option CString} {mode : Int} :
    .authUser user host mode ∈ (main w fuel).1 ↔
      user = some p.user ∧ host = p.entry.host ∧ mode = p.authMode := by
  constructor
  · intro h
    obtain ⟨p', hp', hevent⟩ := mem_run_trace.mp h
    have hsame : p' = p := Except.ok.inj (hp'.symm.trans hp)
    subst hsame
    rcases hevent with hevent | ⟨argHost, -, hevent⟩
    · rcases mem_authorize_trace.mp hevent with he | ⟨l, -, he⟩
      · simpa using he
      · exact absurd he (by simp)
    · exact absurd (mem_handOver_trace hevent) (by simp)
  · rintro ⟨rfl, rfl, rfl⟩
    exact mem_run_trace.mpr ⟨p, hp, Or.inl (mem_authorize_trace.mpr (Or.inl rfl))⟩

theorem Prepared.Of.words (h : p.Of w fuel cl o) (hcval : cl.cval = some s) :
    p.command.cval = some (cutCommand s.bytes) ∧ commandWord s.bytes ≠ [] ∧
      ∃ keyword, p.options.proxyKeyword = some keyword ∧
        (commandWord s.bytes = keyword.bytes ∧ p.command.proxy = 1 ∧
            p.command.host = some (.ofList (commandWord (behindWord s.bytes))) ∨
          commandWord s.bytes ≠ keyword.bytes ∧ p.command.proxy = 0 ∧
            p.command.host = some (.ofList (commandWord s.bytes))) := by
  have hcommand := h.command
  obtain ⟨keyword, hkey, hkey'⟩ := h.keyword
  rw [hcval, parseCommand_eq s hkey] at hcommand
  split at hcommand
  · simp at hcommand
  · next hne =>
    split at hcommand
    · next hword =>
      split at hcommand
      · simp at hcommand
      · rw [← Except.ok.inj hcommand]
        exact ⟨rfl, hne, keyword, hkey', Or.inl ⟨hword, rfl, rfl⟩⟩
    · next hword =>
      rw [← Except.ok.inj hcommand]
      exact ⟨rfl, hne, keyword, hkey', Or.inr ⟨hword, rfl, rfl⟩⟩

theorem Prepared.Of.hostBytes (h : p.Of w fuel cl o) {host : CString}
    (hcommand : p.command.host = some host) :
    p.options.allowfqdn ≠ 0 ∧ p.host = host ∨
      p.options.allowfqdn = 0 ∧ hostLabel host.bytes ≠ [] ∧
        p.host.bytes = withoutDomain host.bytes := by
  have hallow : p.options.allowfqdn = o.allowfqdn := by
    rw [h.options, setLogToStderr]
    split
    · rfl
    · rfl
  have hname := h.host
  rw [hallow]
  obtain ⟨host', hrequest, hname⟩ := except_bind_eq_ok.mp hname
  have hsame : host' = host := by
    rw [requestedHost, hcommand] at hrequest
    by_cases hmalloc : w.hostMalloc 0 = true
    · simp only [hmalloc, if_true, except_pure, Except.ok.injEq] at hrequest
      exact hrequest.symm
    · simp [hmalloc] at hrequest
  subst hsame
  by_cases hfqdn : o.allowfqdn = 0
  · right
    rw [if_pos hfqdn, checked_eq_ok, cutDomain_eq] at hname
    split at hname
    · simp at hname
    · next hlabel =>
      refine ⟨hfqdn, hlabel, ?_⟩
      rw [← Except.ok.inj hname]
      exact CString.ofList_bytes fun hm => host'.noNul (mem_withoutDomain hm)
  · left
    rw [if_neg hfqdn] at hname
    exact ⟨hfqdn, (Except.ok.inj hname).symm⟩

theorem Prepared.Of.host_no_blank (h : p.Of w fuel cl o) {host : CString}
    (hcommand : p.command.host = some host) (hblank : 32 ∉ host.bytes) : 32 ∉ p.host.bytes := by
  rcases h.hostBytes hcommand with ⟨-, hname⟩ | ⟨-, -, hname⟩
  · rwa [hname]
  · rw [hname]
    exact fun hm => hblank (mem_withoutDomain hm)

theorem cutCommand_prefix_iff {host : CString} (hblank : 32 ∉ host.bytes) :
    (cutCommand s.bytes).bytes <+: host.bytes ↔
      s.bytes.head? ≠ some 32 ∧ commandWord s.bytes <+: host.bytes := by
  rw [cutCommand_bytes]
  by_cases hlead : leadingBlanks s.bytes = []
  · have hhead : s.bytes.head? ≠ some 32 := by
      intro hhead
      obtain ⟨l, hl⟩ := List.head?_eq_some_iff.mp hhead
      rw [leadingBlanks, hl, List.takeWhile_cons_of_pos (by simp)] at hlead
      exact absurd hlead (by simp)
    rw [hlead, List.nil_append]
    exact (and_iff_right hhead).symm
  · obtain ⟨c, l, hl⟩ := List.exists_cons_of_ne_nil hlead
    have hc : c = 32 := @mem_leadingBlanks s.bytes c (by rw [hl]; simp)
    have hhead : s.bytes.head? = some 32 := by
      rcases command_split s.bytes with ⟨hsplit, -⟩ | hsplit
      · rw [hsplit, hl, hc]
        rfl
      · rw [hsplit, hl, hc]
        rfl
    refine iff_of_false ?_ (fun h => h.1 hhead)
    intro hprefix
    apply hblank
    apply hprefix.subset
    rw [hl, hc]
    simp

end

section
variable {lib : LdapLib} {files files' : CString → Option (List Byte)} {o : Options}

end

section
variable {w : World} {fuel : Nat} {p : Prepared} {cl : CommandLine} {s : CString}

private theorem prepared_of_map {α : Type} {f : Prepared → α} {a : α}
    (h : (prepare w fuel).toOption.map f = some a) : ∃ p, prepare w fuel = .ok p ∧ f p = a := by
  cases hp : prepare w fuel with
  | error e => simp [hp, Except.toOption] at h
  | ok p => exact ⟨p, rfl, by simpa [hp, Except.toOption] using h⟩

end

/-- The command begins with a blank, or the keyword is not the beginning of the host's name. -/
def KeywordApart (s keyword host : CString) : Prop :=
  s.bytes.head? = some 32 ∨ ¬ keyword.bytes <+: host.bytes

section
variable {w : World} {fuel : Nat} {p : Prepared}

/-- With the proxy flag set, the mode is proxy exactly when the keyword is told from the host. -/
theorem Prepared.Of.authMode_proxy_iff {cl : CommandLine} {o : Options} (h : p.Of w fuel cl o)
    (hproxy : p.command.proxy = 1) :
    ∃ s keyword, cl.cval = some s ∧ p.options.proxyKeyword = some keyword ∧
      (p.authMode = authProxy ↔ KeywordApart s keyword p.host) := by
  cases hcval : cl.cval with
  | none =>
    have hcommand := h.command
    rw [hcval] at hcommand
    rw [← Except.ok.inj hcommand] at hproxy
    exact absurd hproxy (by decide)
  | some s =>
    obtain ⟨hcut, -, keyword, hkey, hform⟩ := h.words hcval
    refine ⟨s, keyword, rfl, hkey, ?_⟩
    rcases hform with ⟨hword, -, hcommand⟩ | ⟨-, hzero, -⟩
    · have hblank : 32 ∉ p.host.bytes := by
        apply h.host_no_blank hcommand
        rw [CString.ofList_bytes (zero_not_mem_secondWord s)]
        exact fun hm => (mem_commandWord hm).2 rfl
      have hbastion := (Prepared.authMode_bastion_iff hcut).trans (cutCommand_prefix_iff hblank)
      have hnot : p.authMode = authProxy ↔ ¬ p.authMode = authBastion := by
        rcases p.authMode_cases with hmode | hmode
        · rw [hmode]
          decide
        · rw [hmode]
          decide
      rw [hnot, hbastion, hword, KeywordApart, not_and_or, not_not]
    · rw [hzero] at hproxy
      exact absurd hproxy (by decide)

/-- When a run executes `nc`, the authorization that allowed it was one for proxy mode, and proxy
mode is enabled, exactly when the keyword of the command is told from the host. -/
theorem execvp_proxy_iff {argv : List (Option CString)} (h : .execvp argv ∈ (main w fuel).1)
    (hp : prepare w fuel = .ok p) (hproxy : p.command.proxy = 1) :
    ∃ cl s keyword, commandLine w = .ok cl ∧ cl.cval = some s ∧
      p.options.proxyKeyword = some keyword ∧
      (.authUser (some p.user) p.entry.host authProxy ∈ (main w fuel).1 ∧ p.options.enableProxy ≠ 0 ↔
        KeywordApart s keyword p.host) := by
  obtain ⟨cl, o, hof⟩ := prepare_ok hp
  obtain ⟨s, keyword, hcval, hkey, hmode⟩ := hof.authMode_proxy_iff hproxy
  refine ⟨cl, s, keyword, hof.line, hcval, hkey, ?_⟩
  rw [authUser_mem_run hp, ← hmode]
  constructor
  · exact fun h => h.1.2.2.symm
  · intro hmode
    refine ⟨⟨rfl, rfl, hmode.symm⟩, ?_⟩
    -- the run got past the authorization, which refuses proxy mode where it is disabled
    intro hdisabled
    obtain ⟨p', hp', hevent⟩ := mem_run_trace.mp h
    have hsame : p' = p := Except.ok.inj (hp'.symm.trans hp)
    subst hsame
    rcases hevent with hevent | ⟨argHost, hauthorized, -⟩
    · rcases mem_authorize_trace.mp hevent with he | ⟨l, -, he⟩
      · exact absurd he (by simp)
      · exact absurd he (by simp)
    · obtain ⟨r, auth, hr, hcheck, hne, -⟩ := authorize_ok hauthorized
      have hzero : r.auth = 0 := by
        rw [authUser, if_pos ⟨hdisabled, hmode⟩] at hr
        rw [← Except.ok.inj hr]
        rfl
      exact (checkCountry_ok hcheck hne).1 hzero

/-- A proxy request that is told from its host. -/
theorem execvp_proxy_bob :
    ∃ p cl s keyword, prepare (bobWorld "direct web" "enableProxy yes" "web:22\n" "bob:web+\n") 1 = .ok p ∧
      commandLine (bobWorld "direct web" "enableProxy yes" "web:22\n" "bob:web+\n") = .ok cl ∧
      cl.cval = some s ∧ p.options.proxyKeyword = some keyword ∧
      (.authUser (some p.user) p.entry.host authProxy ∈
          (main (bobWorld "direct web" "enableProxy yes" "web:22\n" "bob:web+\n") 1).1 ∧
          p.options.enableProxy ≠ 0 ↔
        KeywordApart s keyword p.host) := by
  have hevent : .execvp [some (.lit "/bin/nc"), some (.lit "-w"), some (.lit "1"), some (.lit "web"),
      some (.lit "22")] ∈
        (main (bobWorld "direct web" "enableProxy yes" "web:22\n" "bob:web+\n") 1).1 := by decide +kernel
  have hrun : (prepare (bobWorld "direct web" "enableProxy yes" "web:22\n" "bob:web+\n") 1).toOption.map
      (fun p => p.command.proxy) = some 1 := by decide +kernel
  obtain ⟨p, hp, hproxy⟩ := prepared_of_map hrun
  obtain ⟨cl, s, keyword, h⟩ := execvp_proxy_iff hevent hp hproxy
  exact ⟨p, cl, s, keyword, hp, h⟩

/-- With a host whose name begins with the keyword, `nc` is executed on a bastion authorization,
although proxy mode is disabled. -/
theorem execvp_proxy_unauthorized :
    ¬ ∀ (w : World) (fuel : Nat) (argv : List (Option CString)) (p : Prepared),
      .execvp argv ∈ (main w fuel).1 → prepare w fuel = .ok p → p.command.proxy = 1 →
      .authUser (some p.user) p.entry.host authProxy ∈ (main w fuel).1 ∧ p.options.enableProxy ≠ 0 := by
  intro h
  have hevent : .execvp [some (.lit "/bin/nc"), some (.lit "-w"), some (.lit "1"),
      some (.lit "direct1"), some (.lit "22")] ∈
        (main (bobWorld "direct direct1" "" "direct1:22\n" "bob:direct1\n") 1).1 := by decide +kernel
  have hrun : (prepare (bobWorld "direct direct1" "" "direct1:22\n" "bob:direct1\n") 1).toOption.map
      (fun p => (p.command.proxy, p.options.enableProxy)) = some (1, 0) := by decide +kernel
  obtain ⟨p, hp, hfacts⟩ := prepared_of_map hrun
  obtain ⟨hproxy, hdisabled⟩ := Prod.mk.inj hfacts
  exact (h _ 1 _ p hevent hp hproxy).2 hdisabled

end

end Stonesh
