import Stonesh.Framework.WriteOnce
import Stonesh.Readconf.ConfigFile
import Stonesh.Readconf.Totality

/-!
# What a configuration file says

Read as a whole, a configuration file is a list of writes to options that are written once: each
record that is accepted contributes the one value it has. A file is accepted exactly if each of its
records is, by itself, and then an option has the first value the file has for it, or its default.
So reading two files as one is reading the first and filling what it leaves open from the second.
-/

namespace Stonesh

open CLib

/-- The values of an option: a flag is on or off, any other option is a string. -/
def OptionValue : IntField ⊕ StrField → Type
  | .inl _ => Bool
  | .inr _ => CString

def Options.get (o : Options) : (k : IntField ⊕ StrField) → Option (OptionValue k)
  | .inl f => if o.int f = -1 then none else some (o.int f = 1 : Bool)
  | .inr f => o.str f

def flagInt (v : Bool) : Int := if v then 1 else 0

def Options.put (o : Options) : Sigma OptionValue → Options
  | ⟨.inl f, v⟩ => if o.int f = -1 then o.setInt f (flagInt v) else o
  | ⟨.inr f, s⟩ => if o.str f = none then o.setStr f (some s) else o

private theorem Options.get_put_same (o : Options) (k : IntField ⊕ StrField) (v : OptionValue k) :
    (o.put ⟨k, v⟩).get k = (o.get k).or (some v) := by
  cases k with
  | inl f =>
    by_cases hset : o.int f = -1
    · have hget : (o.setInt f (flagInt v)).get (.inl f) = some v := by
        cases v <;> simp [Options.get, flagInt]
      simp only [Options.put, hset, if_true, hget]
      simp [Options.get, hset]
    · simp only [Options.put, Options.get, hset, if_false]
      rfl
  | inr f =>
    cases hset : o.str f with
    | none =>
      have hget : (o.setStr f (some v)).get (.inr f) = some v :=
        (Options.str_setStr o f f (some v)).trans (if_pos rfl)
      simp only [Options.put, Options.get, hset, if_true]
      exact hget
    | some s =>
      simp only [Options.put, Options.get, hset, reduceCtorEq, if_false]
      rfl

private theorem Options.get_put_other (o : Options) {j k : IntField ⊕ StrField} (v : OptionValue k)
    (h : j ≠ k) : (o.put ⟨k, v⟩).get j = o.get j := by
  cases k with
  | inl f =>
    by_cases hset : o.int f = -1
    · cases j with
      | inl g =>
        have hne : g ≠ f := fun he => h (he ▸ rfl)
        simp [Options.put, Options.get, hset, hne]
      | inr g =>
        simp only [Options.put, Options.get, hset, if_true]
        exact Options.str_setInt o f g _
    · simp [Options.put, hset]
  | inr f =>
    by_cases hset : o.str f = none
    · cases j with
      | inl g => simp [Options.put, Options.get, hset]
      | inr g =>
        have hne : g ≠ f := fun he => h (he ▸ rfl)
        have hget := Options.str_setStr o f g (some v)
        rw [if_neg hne] at hget
        simp only [Options.put, Options.get, hset, if_true]
        exact hget
    · simp [Options.put, hset]

/-- The options of the program are written once. -/
def optionSlots : WriteOnce Options OptionValue where
  get := Options.get
  put := Options.put
  get_put := by
    rintro o ⟨k, v⟩ j
    by_cases hj : j = k
    · subst hj
      rw [List.dlookup_cons_eq, Options.get_put_same]
    · rw [List.dlookup_cons_ne _ _ hj, List.dlookup_nil, Option.or_none, Options.get_put_other o v hj]

def Target.write (target : Target) (arg : CString) : List (Sigma OptionValue) :=
  match target with
  | .flag f => [⟨.inl f, ((flagValue arg).2 = 1 : Bool)⟩]
  | .string f => [⟨.inr f, arg⟩]
  | .timeout => [⟨.inr .ncTimeout, arg⟩]
  | .bad => []
  | .unimplemented => []

def textWrites (text : List Byte) : List (Sigma OptionValue) :=
  (argWord text).text.toList.flatMap (textTarget text).write

def fileWrites (content : List Byte) : List (Sigma OptionValue) :=
  (records content).flatMap textWrites

section
variable {o o' : Options} {text : List Byte} {status : Int}

theorem flagInt_flagValue (arg : CString) :
    flagInt ((flagValue arg).2 = 1 : Bool) = (flagValue arg).2 := by
  unfold flagValue
  split
  · rfl
  · split <;> rfl

private theorem storeArgument_put (f : StrField) (arg : CString) :
    storeArgument o f (some 1) (some arg) = .ok (o.put ⟨.inr f, arg⟩) := by
  rw [storeArgument_some]
  simp only [ne_eq, Int.one_ne_zero, not_false_iff, true_and]
  rfl

theorem assign_writes {target : Target} {arg : Option CString}
    (h : target.assign o (some 1) arg = .ok (0, o')) :
    o' = optionSlots.writes o (arg.toList.flatMap target.write) := by
  cases arg with
  | none =>
    cases target with
    | bad => simp [Target.assign] at h
    | unimplemented => simp [Target.assign] at h
    | flag f => simp [Target.assign, parseFlag] at h
    | string f => simp [Target.assign, parseString, missing, except_bind_eq_ok] at h
    | timeout => simp [Target.assign, parseTimeout, timeoutStatus, except_bind_eq_ok] at h
  | some arg =>
    rw [Option.toList_some, List.flatMap_singleton]
    cases target with
    | bad => simp [Target.assign] at h
    | unimplemented => simp [Target.assign] at h
    | flag f =>
      simp only [Target.assign, parseFlag] at h
      by_cases hempty : arg.bytes = []
      · simp [hempty] at h
      · simp only [hempty, if_false, Option.isSome_some, true_and, except_pure, Except.ok.injEq,
          Prod.mk.injEq] at h
        rw [← h.2, ← flagInt_flagValue arg]
        rfl
    | string f =>
      simp only [Target.assign, parseString, storeArgument_put, except_ok_bind, except_pure,
        Except.ok.injEq, Prod.mk.injEq] at h
      exact h.2.symm
    | timeout =>
      simp only [Target.assign, parseTimeout, storeArgument_put, except_ok_bind, except_pure,
        Except.ok.injEq, Prod.mk.injEq] at h
      exact h.2.symm

private theorem processText_writes (hne : text ≠ []) (h : processText o text (some 1) = .ok (0, o')) :
    o' = optionSlots.writes o (textWrites text) := by
  have hwords : nextWord (keyWord text).rest = argWord text := rfl
  rw [processText, if_neg hne] at h
  obtain ⟨keyword, hkey, h⟩ := except_bind_eq_ok.mp h
  have hkey : strdup (keyWord text).text = .ok keyword := hkey
  have htarget : textTarget text = (parseToken keyword).target := by
    cases htext : (keyWord text).text with
    | none => simp [htext, strdup] at hkey
    | some k =>
      rw [htext, strdup, except_pure, Except.ok.injEq] at hkey
      rw [textTarget, htext, hkey]
  unfold textWrites
  rw [← htarget] at h
  split at h
  · simp at h
  · simp at h
  · obtain ⟨⟨status, o''⟩, hassign, h⟩ := except_bind_eq_ok.mp h
    by_cases hzero : status = 0
    · subst hzero
      simp only [if_true] at h
      obtain ⟨status, -, h⟩ := except_bind_eq_ok.mp h
      simp only [except_pure, Except.ok.injEq, Prod.mk.injEq] at h
      rw [← h.2]
      exact assign_writes hassign
    · simp [hzero] at h

theorem processText_zero_iff (o : Options) (h0 : 0 ∉ text) (hne : text ≠ []) :
    processText o text (some 1) = .ok (0, o') ↔
      (Accepted text ∧ Ended text) ∧ o' = optionSlots.writes o (textWrites text) := by
  have hrun := processText_run o 1 h0
  constructor
  · intro h
    refine ⟨?_, processText_writes hne h⟩
    rw [h] at hrun
    cases hrun with
    | blank hnil => exact absurd hnil hne
    | rejected status o' _ _ _ _ hstatus => omega
    | accepted o' _ haccepted hended => exact ⟨haccepted, hended⟩
  · rintro ⟨⟨haccepted, hended⟩, rfl⟩
    obtain ⟨result, hresult⟩ : ∃ result, processText o text (some 1) = result := ⟨_, rfl⟩
    rw [hresult] at hrun
    cases hrun with
    | blank hnil => exact absurd hnil hne
    | noKeyword _ hkey => exact absurd hkey haccepted.key
    | noArgument _ _ hnull => exact absurd hnull haccepted.not_duplicatesNull
    | rejected _ _ _ _ _ hnot _ => exact absurd haccepted hnot
    | garbage _ _ hnot => exact absurd hended hnot
    | accepted o' _ _ _ => rw [hresult, processText_writes hne hresult]

end

def ConfigAccepted (content : List Byte) : Prop :=
  ∀ text ∈ records content, Accepted text ∧ Ended text

section
variable {o o' : Options} {content : List Byte}

private theorem readRecords_count {texts : List (List Byte)} {bad bad' : Nat}
    (h : readRecords texts o bad = .ok (bad', o')) : bad ≤ bad' := by
  induction texts generalizing o bad with
  | nil =>
    simp only [readRecords, except_pure, Except.ok.injEq, Prod.mk.injEq] at h
    omega
  | cons text texts ih =>
    rw [readRecords] at h
    obtain ⟨⟨err, o''⟩, -, h⟩ := except_bind_eq_ok.mp h
    by_cases habort : err = -1
    · simp only [habort, if_true, except_pure, Except.ok.injEq, Prod.mk.injEq] at h
      have hcount := h.1
      rw [if_pos (by decide)] at hcount
      omega
    · simp only [habort, if_false] at h
      have hcount := ih h
      split at hcount <;> omega

theorem readRecords_zero_iff {texts : List (List Byte)} (o : Options)
    (htexts : ∀ text ∈ texts, text ≠ [] ∧ 0 ∉ text) :
    readRecords texts o 0 = .ok (0, o') ↔
      (∀ text ∈ texts, Accepted text ∧ Ended text) ∧
        o' = optionSlots.writes o (texts.flatMap textWrites) := by
  induction texts generalizing o with
  | nil => simp [readRecords, WriteOnce.writes, eq_comm]
  | cons text texts ih =>
    obtain ⟨hne, h0⟩ := htexts text (by simp)
    have ih := fun o => ih o fun t ht => htexts t (List.mem_cons_of_mem _ ht)
    have hwrites : optionSlots.writes o ((text :: texts).flatMap textWrites) =
        optionSlots.writes (optionSlots.writes o (textWrites text)) (texts.flatMap textWrites) := by
      rw [List.flatMap_cons, WriteOnce.writes, List.foldl_append]
      rfl
    rw [List.forall_mem_cons, hwrites]
    constructor
    · intro h
      rw [readRecords] at h
      obtain ⟨⟨err, o''⟩, hline, h⟩ := except_bind_eq_ok.mp h
      have hzero : err = 0 := by
        by_contra herr
        by_cases habort : err = -1
        · simp [habort] at h
        · simp only [habort, if_false, ne_eq, herr, not_false_iff, if_true] at h
          have hcount := readRecords_count h
          omega
      subst hzero
      obtain ⟨haccepted, rfl⟩ := (processText_zero_iff o h0 hne).mp hline
      simp only [ne_eq, not_true, if_false, Int.reduceNeg] at h
      obtain ⟨hrest, ho'⟩ := (ih _).mp h
      exact ⟨⟨haccepted, hrest⟩, ho'⟩
    · rintro ⟨⟨haccepted, hrest⟩, ho'⟩
      have hline := (processText_zero_iff o h0 hne).mpr ⟨haccepted, rfl⟩
      rw [readRecords, hline]
      exact (ih _).mpr ⟨hrest, ho'⟩

theorem records_text (content : List Byte) : ∀ text ∈ records content, text ≠ [] ∧ 0 ∉ text := by
  intro text h
  obtain ⟨hmem, hne⟩ := List.mem_filter.mp h
  obtain ⟨line, -, rfl⟩ := List.mem_map.mp hmem
  exact ⟨by simpa using hne, zero_not_mem_lineText line⟩

def configured (content : List Byte) : Options :=
  optionSlots.writes initializeOptions (fileWrites content)

/-- A configuration is accepted exactly if each of its records is, and then the options are what
the file says, with the defaults filled in. -/
theorem readConfigFile_accepts_iff {files : CString → Option (List Byte)} {filename : CString}
    (hfile : files filename = some content) (options : Options) :
    readConfigFile files filename options = .ok (1, o) ↔
      ConfigAccepted content ∧ o = fillDefaultOptions (configured content) := by
  have hzero (p : Options) : readRecords (records content) initializeOptions 0 = .ok (0, p) ↔
      (∀ text ∈ records content, Accepted text ∧ Ended text) ∧ p = configured content :=
    readRecords_zero_iff initializeOptions (records_text content)
  rw [readConfigFile_eq hfile]
  constructor
  · intro h
    obtain ⟨⟨bad, o''⟩, hread, h⟩ := except_bind_eq_ok.mp h
    by_cases hbad : bad > 0
    · simp [hbad] at h
    · obtain rfl : bad = 0 := by omega
      obtain ⟨haccepted, rfl⟩ := (hzero o'').mp hread
      simp only [gt_iff_lt, Nat.lt_irrefl, if_false, except_pure, Except.ok.injEq, Prod.mk.injEq,
        true_and] at h
      exact ⟨haccepted, h.symm⟩
  · rintro ⟨haccepted, rfl⟩
    rw [(hzero _).mpr ⟨haccepted, rfl⟩]
    rfl

def defaultValue : (k : IntField ⊕ StrField) → Option (OptionValue k)
  | .inl _ => some false
  | .inr f => f.default.map CString.lit

private theorem int_put (w : Sigma OptionValue) (ho : ∀ f, o.int f = -1 ∨ o.int f = 0 ∨ o.int f = 1)
    (f : IntField) : (o.put w).int f = -1 ∨ (o.put w).int f = 0 ∨ (o.put w).int f = 1 := by
  have hflag : ∀ v, flagInt v = 0 ∨ flagInt v = 1 := by decide
  obtain ⟨k | k, v⟩ := w
  · by_cases hset : o.int k = -1
    · simp only [Options.put, hset, if_true, Options.int_setInt]
      split
      · exact Or.inr (hflag v)
      · exact ho f
    · simpa only [Options.put, hset, if_false] using ho f
  · by_cases hset : o.str k = none
    · simpa only [Options.put, hset, if_true, Options.int_setStr] using ho f
    · simpa only [Options.put, hset, if_false] using ho f

private theorem int_configured (content : List Byte) (f : IntField) :
    (configured content).int f = -1 ∨ (configured content).int f = 0 ∨
      (configured content).int f = 1 := by
  have hwrites (ws : List (Sigma OptionValue)) : ∀ o : Options,
      (∀ f, o.int f = -1 ∨ o.int f = 0 ∨ o.int f = 1) →
      ∀ f, (ws.foldl Options.put o).int f = -1 ∨ (ws.foldl Options.put o).int f = 0 ∨
        (ws.foldl Options.put o).int f = 1 := by
    induction ws with
    | nil => exact fun o ho => ho
    | cons w ws ih => exact fun o ho => ih (o.put w) (int_put w ho)
  exact hwrites (fileWrites content) initializeOptions (fun f => Or.inl (int_initializeOptions f)) f

theorem get_configured (content : List Byte) (k : IntField ⊕ StrField) :
    (fillDefaultOptions (configured content)).get k =
      ((fileWrites content).dlookup k).or (defaultValue k) := by
  have hempty : initializeOptions.get k = none := by
    cases k with
    | inl f => simp [Options.get]
    | inr f => exact str_initializeOptions f
  have hslot : (configured content).get k = (fileWrites content).dlookup k := by
    have hget := optionSlots.get_writes initializeOptions (fileWrites content) k
    have hstart : optionSlots.get initializeOptions k = none := hempty
    rw [hstart, Option.none_or] at hget
    exact hget
  rw [← hslot]
  cases k with
  | inl f =>
    have hfill := int_fillDefaultOptions (configured content) f
    rcases int_configured content f with h | h | h
    · rw [h] at hfill
      simp only [Options.get, hfill, h]
      rfl
    · rw [h] at hfill
      simp only [Options.get, hfill, h]
      rfl
    · rw [h] at hfill
      simp only [Options.get, hfill, h]
      rfl
  | inr f => exact str_fillDefaultOptions (configured content) f

/-- A file is accepted exactly if each of its records is, by itself; an option then has the first
value that the file has for it, and without one its default. -/
theorem readConfigFile_firstValue {files : CString → Option (List Byte)} {filename : CString}
    (hfile : files filename = some content) (options : Options) :
    ((∃ o, readConfigFile files filename options = .ok (1, o)) ↔ ConfigAccepted content) ∧
      ∀ o, readConfigFile files filename options = .ok (1, o) →
        ∀ k, o.get k = ((fileWrites content).dlookup k).or (defaultValue k) := by
  simp only [readConfigFile_accepts_iff hfile]
  refine ⟨⟨?_, ?_⟩, ?_⟩
  · rintro ⟨o, haccepted, -⟩
    exact haccepted
  · intro haccepted
    exact ⟨_, haccepted, rfl⟩
  · rintro o ⟨-, rfl⟩ k
    exact get_configured content k

/-- A file that sets the timeout twice. -/
theorem readConfigFile_firstValue_twice :
    ((∃ o, readConfigFile (fun _ => some (bytes "ncTimeout 3\nncTimeout 5\n"))
        (.lit "stonesh.conf") initializeOptions = .ok (1, o)) ↔
        ConfigAccepted (bytes "ncTimeout 3\nncTimeout 5\n")) ∧
      ∀ o, readConfigFile (fun _ => some (bytes "ncTimeout 3\nncTimeout 5\n"))
          (.lit "stonesh.conf") initializeOptions = .ok (1, o) →
        ∀ k, o.get k = ((fileWrites (bytes "ncTimeout 3\nncTimeout 5\n")).dlookup k).or
          (defaultValue k) :=
  @readConfigFile_firstValue (bytes "ncTimeout 3\nncTimeout 5\n")
    (fun _ => some (bytes "ncTimeout 3\nncTimeout 5\n")) (.lit "stonesh.conf") rfl
    initializeOptions

/-- The file is empty, or its last line is ended. -/
def Terminated (content : List Byte) : Prop := content = [] ∨ content.getLast? = some 10

instance (content : List Byte) : Decidable (Terminated content) := inferInstanceAs (Decidable (_ ∨ _))

private theorem Terminated.lines (h : Terminated content) :
    ∃ ls, (∀ l ∈ ls, 10 ∉ l) ∧ content = joinLines ls [] := by
  obtain ⟨hlines, hlast⟩ := newline_not_mem_splitLines content
  have hjoin := joinLines_splitLines content
  generalize (splitLines content).1 = ls at hlines hjoin
  generalize (splitLines content).2 = last at hlast hjoin
  have hnil : last = [] := by
    by_contra hne
    rw [← hjoin, joinLines] at h
    rcases h with h | h
    · exact hne (List.append_eq_nil_iff.mp h).2
    · rw [List.getLast?_append_of_ne_nil _ hne] at h
      exact hlast (List.mem_of_getLast? h)
  exact ⟨ls, hlines, by rw [← hjoin, hnil]⟩

theorem records_append {first : List Byte} (h : Terminated first) (second : List Byte) :
    records (first ++ second) = records first ++ records second := by
  obtain ⟨ls, hlines, rfl⟩ := h.lines
  have hboth : joinLines ls [] ++ second = joinLines ls second := by
    rw [joinLines, joinLines, List.append_nil]
  have hempty : records [] = [] := rfl
  rw [hboth, records_joinLines second hlines, records_joinLines [] hlines, hempty, List.append_nil]

/-- A configuration put behind another one is accepted exactly if both are, and it decides only
about the options the other one leaves alone. -/
theorem readConfigFile_append {files : CString → Option (List Byte)} {f g both : CString}
    {first second : List Byte} (hended : Terminated first) (hf : files f = some first)
    (hg : files g = some second) (hboth : files both = some (first ++ second)) (options : Options) :
    ((∃ o, readConfigFile files both options = .ok (1, o)) ↔
        (∃ o, readConfigFile files f options = .ok (1, o)) ∧
          ∃ o, readConfigFile files g options = .ok (1, o)) ∧
      ∀ o o₁ o₂, readConfigFile files both options = .ok (1, o) →
        readConfigFile files f options = .ok (1, o₁) →
        readConfigFile files g options = .ok (1, o₂) →
        ∀ k, (k ∈ (fileWrites first).keys → o.get k = o₁.get k) ∧
          (k ∉ (fileWrites first).keys → o.get k = o₂.get k) := by
  have hrecords := records_append hended second
  have haccepted : ConfigAccepted (first ++ second) ↔ ConfigAccepted first ∧ ConfigAccepted second := by
    simp only [ConfigAccepted, hrecords, List.forall_mem_append]
  have hwrites : fileWrites (first ++ second) = fileWrites first ++ fileWrites second := by
    rw [fileWrites, hrecords, List.flatMap_append]
    rfl
  simp only [readConfigFile_accepts_iff hf, readConfigFile_accepts_iff hg,
    readConfigFile_accepts_iff hboth, haccepted]
  constructor
  · constructor
    · rintro ⟨o, ⟨h₁, h₂⟩, -⟩
      exact ⟨⟨_, h₁, rfl⟩, ⟨_, h₂, rfl⟩⟩
    · rintro ⟨⟨o₁, h₁, -⟩, ⟨o₂, h₂, -⟩⟩
      exact ⟨_, ⟨h₁, h₂⟩, rfl⟩
  · rintro o o₁ o₂ ⟨-, rfl⟩ ⟨-, rfl⟩ ⟨-, rfl⟩ k
    rw [get_configured, get_configured, get_configured, hwrites, List.dlookup_append, Option.or_assoc]
    constructor
    · intro hk
      obtain ⟨v, hv⟩ := Option.isSome_iff_exists.mp (List.dlookup_isSome.mpr hk)
      rw [hv]
      rfl
    · intro hk
      rw [List.dlookup_eq_none.mpr hk]
      rfl

/-- Three files: one turns LDAP on, one turns it off and enables proxy mode, and both as one. -/
def twoConfigs (name : CString) : Option (List Byte) :=
  if name = .lit "first" then some (bytes "useLDAP yes\n")
  else if name = .lit "second" then some (bytes "useLDAP no\nenableProxy yes\n")
  else some (bytes "useLDAP yes\n" ++ bytes "useLDAP no\nenableProxy yes\n")

theorem readConfigFile_append_twoConfigs :
    ((∃ o, readConfigFile twoConfigs (.lit "both") initializeOptions = .ok (1, o)) ↔
        (∃ o, readConfigFile twoConfigs (.lit "first") initializeOptions = .ok (1, o)) ∧
          ∃ o, readConfigFile twoConfigs (.lit "second") initializeOptions = .ok (1, o)) ∧
      ∀ o o₁ o₂, readConfigFile twoConfigs (.lit "both") initializeOptions = .ok (1, o) →
        readConfigFile twoConfigs (.lit "first") initializeOptions = .ok (1, o₁) →
        readConfigFile twoConfigs (.lit "second") initializeOptions = .ok (1, o₂) →
        ∀ k, (k ∈ (fileWrites (bytes "useLDAP yes\n")).keys → o.get k = o₁.get k) ∧
          (k ∉ (fileWrites (bytes "useLDAP yes\n")).keys → o.get k = o₂.get k) :=
  have hsecond : twoConfigs (.lit "second") = some (bytes "useLDAP no\nenableProxy yes\n") := by decide
  readConfigFile_append (f := .lit "first") (by decide) (by decide) hsecond (by decide) initializeOptions

end

end Stonesh
