import Stonesh.Main.Execution

/-!
# The exit status

The status is initialised to success and set to failure at each place that gives up, but for the
one where the request is refused. A run that ends by itself reports failure exactly when it was
not refused by the authorization.
-/

namespace Stonesh

open CLib

/-- A reason to stop that the caller of the program can tell from success. -/
def Stop.Failing : Stop → Prop
  | .exit status => status ≠ 0
  | .cleanExit status _ => status ≠ 0
  | _ => True

/-- `auth_user`, or behind it the check of the country, answers 0 to the request. -/
def Refused (w : World) (fuel : Nat) : Prop :=
  ∃ p r, prepare w fuel = .ok p ∧
    (authUser w.ldap w.files p.options (some p.user) p.entry.host p.authMode).result = .ok r ∧
    checkCountry w p r.auth = .ok 0

section
variable {w : World} {fuel : Nat} {p : Prepared}

private theorem checked_raises {α : Type} {P : Stop → Prop} (hfault : ∀ f, P (.fault f)) (x : Checked α) :
    Raises P (checked x) := by
  cases x with
  | error f => exact raises_error (hfault f)
  | ok a => exact raises_ok a

private theorem checked_failing {α : Type} (x : Checked α) : Raises Stop.Failing (checked x) :=
  checked_raises (fun _ => trivial) x

theorem readOptions_raises {P : Stop → Prop} (hexit : P (.exit exitFailure)) (opts : List Opt)
    (cl : CommandLine) : Raises P (readOptions w opts cl) := by
  induction opts generalizing cl with
  | nil => exact raises_ok cl
  | cons opt opts ih =>
    cases opt with
    | unknown c => exact ih cl
    | option c optarg =>
      rw [readOptions]
      split
      · exact ih _
      · split
        · exact ih _
        · split
          · exact ih _
          · exact raises_error hexit

private theorem loadOptions_failing (cl : CommandLine) : Raises Stop.Failing (loadOptions w cl) := by
  refine (checked_failing _).bind fun file => (checked_failing _).bind fun result => ?_
  split
  split
  · exact raises_error (by decide : exitFailure ≠ 0)
  · exact raises_ok _

private theorem buildCmdline_failing : Raises Stop.Failing (buildCmdline w) := by
  unfold buildCmdline
  split
  · split
    · exact raises_error trivial
    · exact raises_ok _
  · exact raises_error (by decide : exitFailure ≠ 0)

theorem parseCommand_raises {P : Stop → Prop} (hfault : ∀ f, P (.fault f))
    (hexit : P (.cleanExit exitFailure .undefined)) (options : Options) (cval : Option CString) :
    Raises P (parseCommand options cval) := by
  have hchecked {α : Type} (x : Checked α) : Raises P (checked x) := checked_raises hfault x
  cases cval with
  | none => exact raises_ok _
  | some s =>
    refine (hchecked _).bind fun cut => (hchecked _).bind fun token =>
      (hchecked _).bind fun host => (hchecked _).bind fun keyword => ?_
    split
    · refine (hchecked _).bind fun cut => (hchecked _).bind fun token => ?_
      split
      · exact raises_error hexit
      · exact (hchecked _).bind fun cval => raises_ok _
    · exact (hchecked _).bind fun rest => (hchecked _).bind fun host =>
        (hchecked _).bind fun cval => (hchecked _).bind fun args => raises_ok _

private theorem parseCommand_failing (options : Options) (cval : Option CString) :
    Raises Stop.Failing (parseCommand options cval) :=
  parseCommand_raises (fun _ => trivial) (by decide : exitFailure ≠ 0) options cval

private theorem promptHost_failing (malloc : Nat → Bool) (round : Nat) (lines : List (List Byte)) :
    Raises Stop.Failing (promptHost malloc fuel round lines) := by
  induction fuel generalizing round lines with
  | zero => exact raises_error trivial
  | succ fuel ih =>
    rw [promptHost]
    split
    · simp only
      split
      · exact ih _ _
      · exact raises_ok _
    · exact raises_error (by decide : exitFailure ≠ 0)

private theorem hostName_failing (options : Options) (command : Command) :
    Raises Stop.Failing (hostName w fuel options command) := by
  have hrequest : Raises Stop.Failing (requestedHost w fuel options command) := by
    unfold requestedHost
    split
    · split
      · exact raises_ok _
      · exact raises_error (by decide : exitFailure ≠ 0)
    · split
      · exact raises_ok _
      · exact promptHost_failing _ _ _
  refine hrequest.bind fun host => ?_
  split
  · exact checked_failing _
  · exact raises_ok _

private theorem findEntry_failing (options : Options) (host : CString) :
    Raises Stop.Failing (findEntry w options host) := by
  refine (checked_failing _).bind fun lookup => ?_
  split
  · exact raises_ok _
  · exact raises_error (by decide : exitFailure ≠ 0)

theorem prepare_failing : Raises Stop.Failing (prepare w fuel) := by
  unfold prepare
  split
  · exact raises_error (by decide : exitFailure ≠ 0)
  · exact (checked_failing _).bind fun rhost => (readOptions_raises (by decide : exitFailure ≠ 0) _ _).bind fun cl =>
      (loadOptions_failing cl).bind fun options => buildCmdline_failing.bind fun _ =>
      (parseCommand_failing _ _).bind fun command => (hostName_failing _ _).bind fun host =>
      (findEntry_failing _ _).bind fun entry => raises_ok _

theorem authorize_error {s : Stop} (h : (authorize w p).result = .error s) :
    (∃ f, s = .fault f) ∨ s = .cleanExit exitSuccess .static ∧ ∃ r,
      (authUser w.ldap w.files p.options (some p.user) p.entry.host p.authMode).result = .ok r ∧
      checkCountry w p r.auth = .ok 0 := by
  rcases Traced.result_bind_eq_error.mp h with h | ⟨-, -, h⟩
  · simp at h
  · rcases Traced.result_bind_eq_error.mp h with h | ⟨r, hr, h⟩
    · obtain ⟨f, -, hf⟩ := Traced.embed_result_eq_error.mp h
      exact Or.inl ⟨f, hf.symm⟩
    · rcases Traced.result_bind_eq_error.mp h with h | ⟨auth, hauth, h⟩
      · obtain ⟨f, -, hf⟩ := Traced.lift_result_eq_error.mp h
        exact Or.inl ⟨f, hf.symm⟩
      · by_cases hzero : auth = 0
        · rw [if_pos hzero] at h
          refine Or.inr ⟨(Except.error.inj h).symm, r, Traced.embed_result_eq_ok.mp hr, ?_⟩
          rw [← hzero]
          exact Traced.lift_result_eq_ok.mp hauth
        · rw [if_neg hzero] at h
          simp at h

theorem handOver_failing (host : Option CString) : Raises Stop.Failing (handOver w p host).result := by
  unfold handOver
  split
  · exact raises_error (by decide : exitFailure ≠ 0)
  · split
    · exact raises_error (by decide : exitFailure ≠ 0)
    · exact raises_error trivial

/-- How a run ends: with a failure, with the hand-over, or refused. -/
theorem run_error {s : Stop} (h : (run w fuel).result = .error s) :
    s.Failing ∧ ¬ Refused w fuel ∨ (∃ f, s = .fault f) ∨
      s = .cleanExit exitSuccess .static ∧ Refused w fuel := by
  have hnot {p : Prepared} {host : Option CString} (hp : prepare w fuel = .ok p)
      (hok : (authorize w p).result = .ok host) : ¬ Refused w fuel := by
    rintro ⟨p', r', hp', hr', hcheck'⟩
    have hsame : p' = p := Except.ok.inj (hp'.symm.trans hp)
    subst hsame
    obtain ⟨r, auth, hr, hcheck, hne, -⟩ := authorize_ok hok
    rw [Except.ok.inj (hr.symm.trans hr'), hcheck'] at hcheck
    exact hne (Except.ok.inj hcheck).symm
  rcases Traced.result_bind_eq_error.mp h with h | ⟨p, hp, h⟩
  · obtain ⟨t, ht, rfl⟩ := Traced.lift_result_eq_error.mp h
    refine Or.inl ⟨prepare_failing t ht, ?_⟩
    rintro ⟨p, r, hp, -⟩
    rw [hp] at ht
    simp at ht
  · have hp := Traced.lift_result_eq_ok.mp hp
    rcases Traced.result_bind_eq_error.mp h with h | ⟨host, hauthorized, h⟩
    · rcases authorize_error h with hfault | ⟨hs, r, hr, hcheck⟩
      · exact Or.inr (Or.inl hfault)
      · exact Or.inr (Or.inr ⟨hs, p, r, hp, hr, hcheck⟩)
    · exact Or.inl ⟨handOver_failing host s h, hnot hp hauthorized⟩

theorem run_not_ok : (run w fuel).result ≠ .ok () := by
  intro h
  obtain ⟨p, -, h⟩ := Traced.result_bind_eq_ok.mp h
  obtain ⟨host, -, h⟩ := Traced.result_bind_eq_ok.mp h
  unfold handOver at h
  split at h
  · simp at h
  · split at h <;> simp at h

end

private theorem finish_exited {w : World} {s : Stop} {status : Int}
    (h : finish w (.error s) = .exited status) : s = .exit status := by
  cases s with
  | exit st => rw [Outcome.exited.inj h]
  | cleanExit st hostent =>
    cases hostent with
    | undefined =>
      rw [finish] at h
      split at h <;> simp at h
    | null => simp [finish] at h
    | static => simp [finish] at h
  | fault f => simp [finish] at h
  | replaced => simp [finish] at h
  | outOfRounds => simp [finish] at h

theorem finish_returned {w : World} {s : Stop} {status : Int}
    (h : finish w (.error s) = .returned status) : ∃ hostent, s = .cleanExit status hostent := by
  cases s with
  | cleanExit st hostent =>
    cases hostent with
    | undefined =>
      rw [finish] at h
      split at h
      · exact ⟨_, by rw [Outcome.returned.inj h]⟩
      · simp at h
    | null => exact ⟨_, by rw [Outcome.returned.inj h]⟩
    | static => exact ⟨_, by rw [Outcome.returned.inj h]⟩
  | exit st => simp [finish] at h
  | fault f => simp [finish] at h
  | replaced => simp [finish] at h
  | outOfRounds => simp [finish] at h

/-- A run that exits reports failure, and a run that returns reports failure exactly when it was
not refused by the authorization. -/
theorem main_status (w : World) (fuel : Nat) :
    (∀ status, (main w fuel).2 = .exited status → status ≠ 0) ∧
      ∀ status, (main w fuel).2 = .returned status → (status ≠ 0 ↔ ¬ Refused w fuel) := by
  have hmain : (main w fuel).2 = finish w (run w fuel).result := rfl
  rw [hmain]
  cases hresult : (run w fuel).result with
  | ok u => exact absurd hresult run_not_ok
  | error s =>
    have hend := run_error hresult
    constructor
    · intro status h
      rw [finish_exited h] at hend
      rcases hend with ⟨hfailing, -⟩ | ⟨f, hf⟩ | ⟨hs, -⟩
      · exact hfailing
      · simp at hf
      · simp at hs
    · intro status h
      obtain ⟨hostent, rfl⟩ := finish_returned h
      rcases hend with ⟨hfailing, hnot⟩ | ⟨f, hf⟩ | ⟨hs, hrefused⟩
      · exact iff_of_true hfailing hnot
      · simp at hf
      · have hzero : status = exitSuccess := (Stop.cleanExit.inj hs).1
        exact iff_of_false (not_not.mpr hzero) (not_not.mpr hrefused)

/-- A request for a host that is not listed ends in failure. -/
theorem main_status_unlisted :
    (main (bobWorld "mail ls" "" "web:22\n" "bob:web\n") 1).2 = .returned 1 ∧
      ((1 : Int) ≠ 0 ↔ ¬ Refused (bobWorld "mail ls" "" "web:22\n" "bob:web\n") 1) := by
  have hend : (main (bobWorld "mail ls" "" "web:22\n" "bob:web\n") 1).2 = .returned 1 := by
    decide +kernel
  exact ⟨hend, (main_status (bobWorld "mail ls" "" "web:22\n" "bob:web\n") 1).2 1 hend⟩

/-- A refused request ends like a successful one. -/
theorem main_refused_success :
    ¬ ∀ (w : World) (fuel : Nat) (status : Int), (main w fuel).2 = .returned status → status ≠ 0 := by
  intro h
  exact h (bobWorld "web ls" "" "web:22\n" "alice:web\n") 1 0 (by decide +kernel) rfl

end Stonesh
