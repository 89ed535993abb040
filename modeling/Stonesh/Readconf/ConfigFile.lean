import Stonesh.Readconf.ConfigLine

/-!
# Reading the configuration file

`read_config_file` processes the file line by line, counts the bad lines and gives up at the
first abort. What it accepts is described by an invariant: each line that does not abort sets at
most one option that was unset, and to a valid value.
-/

namespace Stonesh

open CLib

/-- The loop over the file: the number of bad lines and the options as they stand at its end. -/
def readConfigLoop : List (List Byte) → Options → Nat → Checked (Nat × Options)
  | [], options, badOptions => pure (badOptions, options)
  | line :: rest, options, badOptions => do
    let (err, options) ← processConfigLine options (line ++ [0]) (some 1)
    let badOptions := if err ≠ 0 then badOptions + 1 else badOptions
    if err = -1 then pure (badOptions, options) else readConfigLoop rest options badOptions

def readConfigFile (files : CString → Option (List Byte)) (filename : CString) (options : Options) :
    Checked (Int × Options) :=
  match files filename with
  | none => pure (0, freeOptions options)
  | some content => do
    let (badOptions, options) ← readConfigLoop (chunks maxLineLen content) initializeOptions 0
    if badOptions > 0 then pure (0, freeOptions options) else pure (1, fillDefaultOptions options)

def readRecords : List (List Byte) → Options → Nat → Checked (Nat × Options)
  | [], options, badOptions => pure (badOptions, options)
  | text :: rest, options, badOptions => do
    let (err, options) ← processText options text (some 1)
    let badOptions := if err ≠ 0 then badOptions + 1 else badOptions
    if err = -1 then pure (badOptions, options) else readRecords rest options badOptions

theorem readConfigLoop_eq (lines : List (List Byte)) (options : Options) (badOptions : Nat) :
    readConfigLoop lines options badOptions =
      readRecords ((lines.map lineText).filter (· ≠ [])) options badOptions := by
  induction lines generalizing options badOptions with
  | nil => rfl
  | cons line lines ih =>
    rw [readConfigLoop, processConfigLine_eq, List.map_cons]
    by_cases hblank : lineText line = []
    · rw [List.filter_cons_of_neg (by simpa using hblank), hblank]
      simp [processText, ih]
    · rw [List.filter_cons_of_pos (by simpa using hblank), readRecords]
      simp only [ih]

theorem readConfigFile_eq {files : CString → Option (List Byte)} {filename : CString}
    {content : List Byte} (hfile : files filename = some content) (options : Options) :
    readConfigFile files filename options = (do
      let (badOptions, options) ← readRecords (records content) initializeOptions 0
      if badOptions > 0 then pure (0, freeOptions options) else pure (1, fillDefaultOptions options)) := by
  simp only [readConfigFile, hfile, readConfigLoop_eq, records]

/-- What a line does to the options when it does not abort. -/
inductive Sets (o : Options) : Options → Prop
  | nothing : Sets o o
  | flag (f : IntField) (v : Int) (hv : v = 0 ∨ v = 1) :
      Sets o (if o.int f = -1 then o.setInt f v else o)
  | string (f : StrField) (arg : CString) (harg : arg.bytes ≠ []) :
      Sets o (if o.str f = none then o.setStr f (some arg) else o)

section
variable {o o' : Options} {text : List Byte} {status : Int}

private theorem flagValue_value (arg : CString) : (flagValue arg).2 = 0 ∨ (flagValue arg).2 = 1 := by
  unfold flagValue
  split
  · exact Or.inr rfl
  · split <;> exact Or.inl rfl

private theorem missing_eq_false {arg : Option CString} (h : missing arg = false) :
    ∃ a, arg = some a ∧ a.bytes ≠ [] := by
  cases arg with
  | none => simp [missing] at h
  | some a => exact ⟨a, rfl, by simpa [missing] using h⟩

private theorem storeArgument_active (f : StrField) (arg : CString) :
    storeArgument o f (some 1) (some arg) =
      .ok (if o.str f = none then o.setStr f (some arg) else o) := by
  simp [storeArgument_some]

theorem assign_sets {target : Target} {arg : Option CString}
    (h : target.assign o (some 1) arg = .ok (status, o')) (habort : status ≠ -1) : Sets o o' := by
  cases target with
  | bad =>
    simp only [Target.assign, except_pure, Except.ok.injEq, Prod.mk.injEq] at h
    rw [← h.2]
    exact Sets.nothing
  | unimplemented =>
    simp only [Target.assign, except_pure, Except.ok.injEq, Prod.mk.injEq] at h
    exact absurd h.1.symm habort
  | flag f =>
    simp only [Target.assign, parseFlag] at h
    cases arg with
    | none =>
      simp only [except_pure, Except.ok.injEq, Prod.mk.injEq] at h
      exact absurd h.1.symm habort
    | some arg =>
      by_cases hempty : arg.bytes = []
      · simp only [hempty, if_true, except_pure, Except.ok.injEq, Prod.mk.injEq] at h
        exact absurd h.1.symm habort
      · simp only [hempty, if_false, Option.isSome_some, true_and, except_pure, Except.ok.injEq,
          Prod.mk.injEq] at h
        rw [← h.2]
        exact Sets.flag f _ (flagValue_value arg)
  | string f =>
    simp only [Target.assign, parseString] at h
    obtain ⟨options, hstore, h⟩ := except_bind_eq_ok.mp h
    simp only [except_pure, Except.ok.injEq, Prod.mk.injEq] at h
    cases hmissing : missing arg with
    | true =>
      rw [hmissing, if_pos rfl] at h
      exact absurd h.1.symm habort
    | false =>
      obtain ⟨a, rfl, hne⟩ := missing_eq_false hmissing
      rw [storeArgument_active, Except.ok.injEq] at hstore
      rw [← h.2, ← hstore]
      exact Sets.string f a hne
  | timeout =>
    simp only [Target.assign, parseTimeout] at h
    obtain ⟨options, hstore, h⟩ := except_bind_eq_ok.mp h
    simp only [except_pure, Except.ok.injEq, Prod.mk.injEq] at h
    obtain ⟨a, rfl, hne⟩ : ∃ a, arg = some a ∧ a.bytes ≠ [] := by
      cases arg with
      | none => exact absurd h.1.symm habort
      | some a =>
        refine ⟨a, rfl, ?_⟩
        intro he
        rw [timeoutStatus, if_pos (Or.inl he)] at h
        exact habort h.1.symm
    rw [storeArgument_active, Except.ok.injEq] at hstore
    rw [← h.2, ← hstore]
    exact Sets.string .ncTimeout a hne

theorem processText_sets (h : processText o text (some 1) = .ok (status, o')) (habort : status ≠ -1) :
    Sets o o' := by
  unfold processText at h
  split at h
  · simp only [except_pure, Except.ok.injEq, Prod.mk.injEq] at h
    rw [← h.2]
    exact Sets.nothing
  · obtain ⟨keyword, hkey, h⟩ := except_bind_eq_ok.mp h
    split at h
    · simp only [except_pure, Except.ok.injEq, Prod.mk.injEq] at h
      rw [← h.2]
      exact Sets.nothing
    · simp only [except_pure, Except.ok.injEq, Prod.mk.injEq] at h
      exact absurd h.1.symm habort
    · obtain ⟨⟨status', o''⟩, hassign, h⟩ := except_bind_eq_ok.mp h
      by_cases hzero : status' = 0
      · simp only [hzero, if_true] at h
        obtain ⟨status'', -, h⟩ := except_bind_eq_ok.mp h
        simp only [except_pure, Except.ok.injEq, Prod.mk.injEq] at h
        rw [← h.2]
        exact assign_sets hassign (by omega)
      · simp only [hzero, if_false, except_pure, Except.ok.injEq, Prod.mk.injEq] at h
        rw [← h.2]
        exact assign_sets hassign (by omega)

end

/-- The options while an acceptable file is being read. -/
structure Options.Pending (o : Options) : Prop where
  flags : ∀ f, o.int f = -1 ∨ o.int f = 0 ∨ o.int f = 1
  strings : ∀ f, ∀ s ∈ o.str f, s.bytes ≠ []
  authType : o.authType = -1
  host : o.host = none

/-- The options an accepted configuration leaves to the program. -/
structure Options.Accepted (o : Options) : Prop where
  flags : ∀ f, o.int f = 0 ∨ o.int f = 1
  strings : ∀ f, f ≠ .ldapUri → f ≠ .ldapBase → ∃ s, o.str f = some s ∧ s.bytes ≠ []
  authAny : o.authType = authTypeAny ↔ o.disableAuthorization = 1
  authLdap : o.disableAuthorization ≠ 1 → (o.authType = authTypeLdap ↔ o.useLdap = 1)
  authLocal : o.disableAuthorization ≠ 1 → (o.authType = authTypeLocal ↔ o.useLdap ≠ 1)

theorem initializeOptions_pending : initializeOptions.Pending where
  flags f := Or.inl (int_initializeOptions f)
  strings f := by simp
  authType := rfl
  host := rfl

theorem Sets.pending {o o' : Options} (h : Sets o o') (ho : o.Pending) : o'.Pending := by
  cases h with
  | nothing => exact ho
  | flag f v hv =>
    split
    · refine ⟨?_, ?_, ?_, ?_⟩
      · intro g
        rw [Options.int_setInt]
        split
        · exact Or.inr hv
        · exact ho.flags g
      · simpa using ho.strings
      · simpa using ho.authType
      · simpa using ho.host
    · exact ho
  | string f arg harg =>
    split
    · refine ⟨?_, ?_, ?_, ?_⟩
      · simpa using ho.flags
      · intro g s hs
        rw [Options.str_setStr] at hs
        split at hs
        · rwa [← Option.mem_some_iff.mp hs]
        · exact ho.strings g s hs
      · simpa using ho.authType
      · simpa using ho.host
    · exact ho

theorem readRecords_pending (texts : List (List Byte)) {o o' : Options} {bad : Nat} (ho : o.Pending)
    (h : readRecords texts o bad = .ok (0, o')) : o'.Pending := by
  induction texts generalizing o bad with
  | nil =>
    simp only [readRecords, except_pure, Except.ok.injEq, Prod.mk.injEq] at h
    rwa [← h.2]
  | cons text texts ih =>
    rw [readRecords] at h
    obtain ⟨⟨err, o''⟩, hline, h⟩ := except_bind_eq_ok.mp h
    by_cases habort : err = -1
    · simp [habort] at h
    · simp only [habort, if_false] at h
      exact ih ((processText_sets hline habort).pending ho) h

theorem Options.Pending.fillDefaultOptions {o : Options} (ho : o.Pending) :
    (fillDefaultOptions o).Accepted := by
  have hflag (f : IntField) : fillInt (o.int f) 0 = 0 ∨ fillInt (o.int f) 0 = 1 := by
    rcases ho.flags f with h | h | h <;> simp [fillInt, h]
  have hauth : (Stonesh.fillDefaultOptions o).authType =
      if fillInt o.disableAuthorization 0 = 1 then authTypeAny
      else if fillInt o.useLdap 0 = 1 then authTypeLdap else authTypeLocal := by
    simp [Stonesh.fillDefaultOptions, fillInt, ho.authType]
  have hdisable : (Stonesh.fillDefaultOptions o).disableAuthorization =
      fillInt o.disableAuthorization 0 := rfl
  have hldap : (Stonesh.fillDefaultOptions o).useLdap = fillInt o.useLdap 0 := rfl
  refine ⟨?_, ?_, ?_, ?_, ?_⟩
  · intro f
    rw [int_fillDefaultOptions]
    exact hflag f
  · intro f huri hbase
    rw [str_fillDefaultOptions]
    cases hf : o.str f with
    | some s => exact ⟨s, rfl, ho.strings f s hf⟩
    | none =>
      cases f
      case ldapUri => exact absurd rfl huri
      case ldapBase => exact absurd rfl hbase
      all_goals exact ⟨_, rfl, by decide⟩
  · rw [hauth, hdisable]
    split
    · next h => exact iff_of_true rfl h
    · next h =>
      split <;> exact iff_of_false (by decide) h
  · intro h
    rw [hauth, hldap, if_neg (hdisable ▸ h)]
    split
    · next h => exact iff_of_true rfl h
    · next h => exact iff_of_false (by decide) h
  · intro h
    rw [hauth, hldap, if_neg (hdisable ▸ h)]
    split
    · next h => exact iff_of_false (by decide) (not_not.mpr h)
    · next h => exact iff_of_true rfl h

private theorem readConfigFile_pending {files : CString → Option (List Byte)} {filename : CString}
    {options o : Options} (h : readConfigFile files filename options = .ok (1, o)) :
    ∃ q : Options, q.Pending ∧ o = fillDefaultOptions q := by
  cases hfile : files filename with
  | none => simp [readConfigFile, hfile] at h
  | some content =>
    rw [readConfigFile_eq hfile] at h
    obtain ⟨⟨bad, q⟩, hread, h⟩ := except_bind_eq_ok.mp h
    by_cases hbad : bad > 0
    · simp [hbad] at h
    · have hzero : bad = 0 := by omega
      subst hzero
      simp only [Nat.lt_irrefl, gt_iff_lt, if_false, except_pure, Except.ok.injEq, Prod.mk.injEq,
        true_and] at h
      exact ⟨q, readRecords_pending _ initializeOptions_pending hread, h.symm⟩

/-- Whatever file is accepted, the options it leaves satisfy the invariant. -/
theorem readConfigFile_accepted {files : CString → Option (List Byte)} {filename : CString}
    {options o : Options} (h : readConfigFile files filename options = .ok (1, o)) : o.Accepted := by
  obtain ⟨q, hq, rfl⟩ := readConfigFile_pending h
  exact hq.fillDefaultOptions

theorem readConfigFile_host {files : CString → Option (List Byte)} {filename : CString}
    {options o : Options} (h : readConfigFile files filename options = .ok (1, o)) :
    o.host = none := by
  obtain ⟨q, hq, rfl⟩ := readConfigFile_pending h
  exact hq.host

theorem readConfigFile_result {files : CString → Option (List Byte)} {filename : CString}
    {options o : Options} {result : Int} (h : readConfigFile files filename options = .ok (result, o)) :
    result = 1 ∨ result = 0 ∧ o.host = none ∧ ∀ f, o.str f = none := by
  have hfree (p : Options) : ∀ f, (freeOptions p).str f = none := by
    intro f
    cases f <;> rfl
  cases hfile : files filename with
  | none =>
    simp only [readConfigFile, hfile, except_pure, Except.ok.injEq, Prod.mk.injEq] at h
    obtain ⟨rfl, rfl⟩ := h
    exact Or.inr ⟨rfl, rfl, hfree options⟩
  | some content =>
    rw [readConfigFile_eq hfile] at h
    obtain ⟨⟨bad, o'⟩, -, h⟩ := except_bind_eq_ok.mp h
    by_cases hbad : bad > 0
    · simp only [hbad, if_true, except_pure, Except.ok.injEq, Prod.mk.injEq] at h
      obtain ⟨rfl, rfl⟩ := h
      exact Or.inr ⟨rfl, rfl, hfree o'⟩
    · simp only [hbad, if_false, except_pure, Except.ok.injEq, Prod.mk.injEq] at h
      exact Or.inl h.1.symm

end Stonesh
