import Stonesh.Readconf.ConfigFile
import Stonesh.Readconf.Quoted

/-!
# Writing and reading a configuration

A list of settings written one to a line, as keyword, separator and quoted value, reads back as
the first value given for each option, whatever blank and comment lines stand between them.
-/

namespace Stonesh

open CLib

def OpCode.option (code : OpCode) : Option (IntField ⊕ StrField) :=
  match code.target with
  | .flag f => some (.inl f)
  | .string f => some (.inr f)
  | .timeout => some (.inr .ncTimeout)
  | .bad => none
  | .unimplemented => none

/-- What the value of a keyword has to be. -/
def OpCode.Takes (code : OpCode) (value : List Byte) : Prop :=
  match code.target with
  | .flag _ => value ∈ [bytes "yes", bytes "true", bytes "no", bytes "false"]
  | .timeout => (∀ c ∈ value, isdigit c) ∧ 0 < decimalValue value ∧ decimalValue value ≤ intMax
  | _ => True

/-- A keyword in any letter case with a value for it, and the separator between the two. -/
structure Setting where
  keyword : List Byte
  separator : List Byte
  value : List Byte
  entry : String × OpCode
  entry_mem : entry ∈ keywords
  keyword_eq : keyword.map tolower = bytes entry.1
  isSeparator : IsSeparator separator
  value_ne_nil : value ≠ []
  value_plain : ∀ c ∈ value, c ∉ [(0 : Byte), 10, 34, 35]
  value_ok : entry.2.Takes value
  fits : (keyword ++ (separator ++ 34 :: (value ++ [34]))).length ≤ 1022

namespace Setting

def line (s : Setting) : List Byte := s.keyword ++ (s.separator ++ 34 :: (s.value ++ [34]))

def option (s : Setting) : Option (IntField ⊕ StrField) := s.entry.2.option

def flag (s : Setting) : Int :=
  if s.value = bytes "yes" ∨ s.value = bytes "true" then 1 else 0

def string (s : Setting) : CString := .ofList s.value

def apply (s : Setting) (o : Options) : Options :=
  match s.option with
  | some (.inl f) => if o.int f = -1 then o.setInt f s.flag else o
  | some (.inr f) => if o.str f = none then o.setStr f (some s.string) else o
  | none => o

end Setting

/-- A line of a written configuration: a setting, or a blank or comment line. -/
inductive ConfLine
  | setting (s : Setting)
  | silent (l : List Byte) (blank : ∃ a b, l = a ++ b ∧ (∀ c ∈ a, isspace c) ∧
      (b = [] ∨ b.head? = some 35)) (single : 10 ∉ l) (fits : l.length ≤ 1022)

def ConfLine.line : ConfLine → List Byte
  | .setting s => s.line
  | .silent l _ _ _ => l

def ConfLine.setting? : ConfLine → Option Setting
  | .setting s => some s
  | .silent _ _ _ _ => none

def render (lines : List ConfLine) : List Byte := joinLines (lines.map ConfLine.line) []

private theorem keyword_byte {s : Setting} {c : Byte} (hc : c ∈ s.keyword) :
    c ∉ delimiters ∧ c ≠ 35 ∧ c ≠ 0 ∧ c ≠ 10 ∧ ¬ isspace c :=
  keyword_plain s.entry_mem s.keyword_eq hc

private theorem mem_line {s : Setting} {c : Byte} (hc : c ∈ s.line) :
    c ∈ s.keyword ∨ c ∈ s.separator ∨ c = 34 ∨ c ∈ s.value := by
  simp only [Setting.line, List.mem_append, List.mem_cons, List.not_mem_nil, or_false] at hc
  tauto

private theorem line_byte {s : Setting} {c : Byte} (hc : c ∈ s.line) : c ≠ 0 ∧ c ≠ 10 ∧ c ≠ 35 := by
  rcases mem_line hc with hc | hc | rfl | hc
  · have hk := keyword_byte hc
    exact ⟨hk.2.2.1, hk.2.2.2.1, hk.2.1⟩
  · have hs := separator_byte s.isSeparator hc
    exact ⟨hs.1, hs.2.1, hs.2.2.2⟩
  · decide
  · have hv := s.value_plain c hc
    simp only [List.mem_cons, List.not_mem_nil, or_false, not_or] at hv
    exact ⟨hv.1, hv.2.1, hv.2.2.2⟩

private theorem value_byte {s : Setting} : 0 ∉ s.value ∧ 34 ∉ s.value ∧ 35 ∉ s.value :=
  ⟨fun hm => absurd (s.value_plain 0 hm) (by decide), fun hm => absurd (s.value_plain 34 hm) (by decide),
    fun hm => absurd (s.value_plain 35 hm) (by decide)⟩

private theorem lineText_setting (s : Setting) : lineText s.line = s.line := by
  have h0 : 0 ∉ s.line := fun hm => (line_byte hm).1 rfl
  rw [lineText, takeWhile_ne_of_not_mem h0]
  exact trimmed_keyword_quote s.entry_mem s.keyword_eq s.isSeparator
    (by simpa using (value_byte (s := s)).2.2) (closed_quote s.value)

private theorem flagValue_flag (s : Setting)
    (h : s.value ∈ [bytes "yes", bytes "true", bytes "no", bytes "false"]) :
    flagValue (.ofList s.value) = (0, s.flag) := by
  unfold Setting.flag
  simp only [List.mem_cons, List.not_mem_nil, or_false] at h
  rcases h with h | h | h | h <;> rw [h] <;> decide

private theorem timeoutStatus_numeral (s : Setting) (hdigit : ∀ c ∈ s.value, isdigit c)
    (hpos : 0 < decimalValue s.value) (hle : decimalValue s.value ≤ intMax) :
    timeoutStatus (some (.ofList s.value)) = 0 := by
  have h0 : 0 ∉ s.value := fun hm => absurd (s.value_plain 0 hm) (by decide)
  rw [timeoutStatus, if_neg]
  rw [CString.ofList_bytes h0, atoi_digits hdigit hle]
  rintro (h | h)
  · exact s.value_ne_nil h
  · omega

theorem processText_setting (s : Setting) (o : Options) :
    processText o s.line (some 1) = .ok (0, s.apply o) := by
  obtain ⟨h0, h34, h35⟩ := value_byte (s := s)
  have hvalue : (CString.ofList s.value).bytes ≠ [] := by
    rw [CString.ofList_bytes h0]
    exact s.value_ne_nil
  have htakes := s.value_ok
  have hknown : ∀ e ∈ keywords, e.2.target ≠ .bad ∧ e.2.target ≠ .unimplemented := by decide
  obtain ⟨hbad, hunimplemented⟩ := hknown s.entry s.entry_mem
  have hoption : s.option = s.entry.2.option := rfl
  unfold OpCode.Takes at htakes
  unfold OpCode.option at hoption
  rw [Setting.line, processText_quoted s.entry_mem s.keyword_eq s.isSeparator h34 h35]
  unfold Setting.apply
  cases htarget : s.entry.2.target with
  | bad => exact absurd htarget hbad
  | unimplemented => exact absurd htarget hunimplemented
  | flag f =>
    rw [htarget] at htakes hoption
    simp only [Target.assign, parseFlag, hvalue, if_false, flagValue_flag s htakes, Option.isSome_some,
      true_and, except_pure, hoption]
  | string f =>
    rw [htarget] at hoption
    have hmissing : missing (some (CString.ofList s.value)) = false := by simpa [missing] using hvalue
    simp [Target.assign, parseString, storeArgument_some, hmissing, hoption, Setting.string]
  | timeout =>
    rw [htarget] at htakes hoption
    have hstatus := timeoutStatus_numeral s htakes.1 htakes.2.1 htakes.2.2
    simp [Target.assign, parseTimeout, storeArgument_some, hstatus, hoption, Setting.string]

theorem readRecords_settings (ss : List Setting) (o : Options) :
    readRecords (ss.map Setting.line) o 0 = .ok (0, ss.foldl (fun o s => s.apply o) o) := by
  induction ss generalizing o with
  | nil => rfl
  | cons s ss ih =>
    simp only [List.map_cons, readRecords, processText_setting, except_ok_bind, List.foldl_cons]
    exact ih (s.apply o)

private theorem records_silent {l : List Byte} (hsingle : 10 ∉ l) (hfit : l.length ≤ 1022)
    (hblank : ∃ a b, l = a ++ b ∧ (∀ c ∈ a, isspace c) ∧ (b = [] ∨ b.head? = some 35)) :
    records (l ++ [10]) = [] := by
  obtain ⟨a, b, rfl, ha, hb⟩ := hblank
  have htext : lineText (a ++ b) = [] := by
    have ha0 : ∀ c ∈ a, decide (c ≠ 0) := by
      intro c hc
      have hne : c ≠ 0 := fun he => absurd (ha c hc) (by rw [he]; decide)
      simpa using hne
    have ha35 : ∀ c ∈ a, decide (c ≠ 35) := by
      intro c hc
      have hne : c ≠ 35 := fun he => absurd (ha c hc) (by rw [he]; decide)
      simpa using hne
    have hcomment : uncomment (b.takeWhile (· ≠ 0)) = [] := by
      rcases hb with rfl | hb
      · rfl
      · cases b with
        | nil => rfl
        | cons c b =>
          have hc : c = 35 := by simpa using hb
          subst hc
          rfl
    rw [lineText, trimmed, List.takeWhile_append_of_pos ha0, uncomment,
      List.takeWhile_append_of_pos ha35, ← uncomment, hcomment, List.append_nil]
    exact Text.strip_eq_nil_iff.mpr ha
  rw [records_line hsingle hfit, htext]
  rfl

theorem records_render (lines : List ConfLine) :
    records (render lines) = (lines.filterMap ConfLine.setting?).map Setting.line := by
  have hsingle : ∀ l ∈ lines.map ConfLine.line, 10 ∉ l := by
    intro l hl
    obtain ⟨line, -, rfl⟩ := List.mem_map.mp hl
    cases line with
    | setting s => exact fun hm => (line_byte hm).2.1 rfl
    | silent l _ hs _ => exact hs
  rw [render, records_joinLines [] hsingle]
  clear hsingle
  induction lines with
  | nil => rfl
  | cons line lines ih =>
    have hrest : ∀ l : List (List Byte), l ++ records [] = l := fun l => List.append_nil l
    rw [hrest] at ih ⊢
    rw [List.map_cons, List.flatMap_cons, ih]
    cases line with
    | setting s =>
      have hs : 10 ∉ s.line := fun hm => (line_byte hm).2.1 rfl
      have htext : records (s.line ++ [10]) = [s.line] := by
        rw [records_line hs s.fits, lineText_setting]
        exact List.filter_cons_of_pos (by simp [Setting.line])
      simp [ConfLine.line, ConfLine.setting?, htext]
    | silent l hblank hs hfit =>
      rw [ConfLine.line, records_silent hs hfit hblank]
      rfl

def firstSetting (ss : List Setting) (x : IntField ⊕ StrField) : Option Setting :=
  ss.find? fun s => s.option = some x

@[simp] theorem firstSetting_cons (s : Setting) (ss : List Setting) (x : IntField ⊕ StrField) :
    firstSetting (s :: ss) x = if s.option = some x then some s else firstSetting ss x := by
  by_cases h : s.option = some x <;> simp [firstSetting, h]

private theorem int_apply (s : Setting) (o : Options) (f : IntField) :
    (s.apply o).int f = if s.option = some (.inl f) ∧ o.int f = -1 then s.flag else o.int f := by
  unfold Setting.apply
  cases hoption : s.option with
  | none => simp
  | some x =>
    cases x with
    | inl g =>
      by_cases hg : g = f
      · subst hg
        by_cases hunset : o.int g = -1 <;> simp [hunset]
      · by_cases hunset : o.int g = -1 <;> simp [hunset, hg, Ne.symm hg]
    | inr k => by_cases hunset : o.str k = none <;> simp [hunset]

private theorem str_apply (s : Setting) (o : Options) (k : StrField) :
    (s.apply o).str k =
      if s.option = some (.inr k) ∧ o.str k = none then some s.string else o.str k := by
  unfold Setting.apply
  cases hoption : s.option with
  | none => simp
  | some x =>
    cases x with
    | inl f => by_cases hunset : o.int f = -1 <;> simp [hunset]
    | inr l =>
      by_cases hl : l = k
      · subst hl
        by_cases hunset : o.str l = none <;> simp [hunset]
      · by_cases hunset : o.str l = none <;> simp [hunset, hl, Ne.symm hl]

private theorem int_settings (ss : List Setting) (o : Options) (f : IntField) :
    (ss.foldl (fun o s => s.apply o) o).int f =
      if o.int f = -1 then ((firstSetting ss (.inl f)).map Setting.flag).getD (-1) else o.int f := by
  induction ss generalizing o with
  | nil =>
    by_cases hunset : o.int f = -1 <;> simp [hunset, firstSetting]
  | cons s ss ih =>
    have hflag : s.flag ≠ -1 := by
      unfold Setting.flag
      split <;> decide
    rw [List.foldl_cons, ih, int_apply, firstSetting_cons]
    by_cases hs : s.option = some (.inl f)
    · by_cases hunset : o.int f = -1 <;> simp [hs, hunset, hflag]
    · simp [hs]

private theorem str_settings (ss : List Setting) (o : Options) (k : StrField) :
    (ss.foldl (fun o s => s.apply o) o).str k =
      (o.str k).or ((firstSetting ss (.inr k)).map Setting.string) := by
  induction ss generalizing o with
  | nil => simp [firstSetting]
  | cons s ss ih =>
    rw [List.foldl_cons, ih, str_apply, firstSetting_cons]
    by_cases hs : s.option = some (.inr k)
    · cases hunset : o.str k <;> simp [hs]
    · simp [hs]

/-- A written configuration is accepted, each option it sets has its first value, and each other
option has its default. -/
theorem readConfigFile_render {files : CString → Option (List Byte)} {filename : CString}
    {lines : List ConfLine} (hfile : files filename = some (render lines)) (options : Options) :
    ∃ o, readConfigFile files filename options = .ok (1, o) ∧
      (∀ f, o.int f = ((firstSetting (lines.filterMap ConfLine.setting?) (.inl f)).map
        Setting.flag).getD 0) ∧
      ∀ k, o.str k = ((firstSetting (lines.filterMap ConfLine.setting?) (.inr k)).map
        Setting.string).or (k.default.map .lit) := by
  obtain ⟨ss, hss⟩ : ∃ ss, ss = lines.filterMap ConfLine.setting? := ⟨_, rfl⟩
  rw [← hss]
  refine ⟨fillDefaultOptions (ss.foldl (fun o s => s.apply o) initializeOptions), ?_, ?_, ?_⟩
  · rw [readConfigFile_eq hfile, records_render, ← hss, readRecords_settings]
    rfl
  · intro f
    rw [int_fillDefaultOptions, int_settings, int_initializeOptions, if_pos rfl, fillInt]
    cases hfirst : firstSetting ss (.inl f) with
    | none => rfl
    | some s =>
      have hflag : s.flag ≠ -1 := by
        unfold Setting.flag
        split <;> decide
      simp [hflag]
  · intro k
    rw [str_fillDefaultOptions, str_settings, str_initializeOptions, Option.none_or]

def debugOn : Setting where
  keyword := bytes "Debug"
  separator := bytes " "
  value := bytes "yes"
  entry := ("debug", .oDebug)
  entry_mem := by decide
  keyword_eq := by decide
  isSeparator := ⟨bytes " ", [], by decide, by decide, Or.inl ⟨rfl, by decide⟩⟩
  value_ne_nil := by decide
  value_plain := by decide
  value_ok := List.mem_cons_self
  fits := by decide

def debugOff : Setting where
  keyword := bytes "debug"
  separator := bytes " = "
  value := bytes "no"
  entry := ("debug", .oDebug)
  entry_mem := by decide
  keyword_eq := by decide
  isSeparator := ⟨bytes " ", bytes " ", by decide, by decide, Or.inr rfl⟩
  value_ne_nil := by decide
  value_plain := by decide
  value_ok := by change bytes "no" ∈ _; decide
  fits := by decide

def hostsAt : Setting where
  keyword := bytes "hostsFile"
  separator := bytes "="
  value := bytes "/srv/my hosts.lst"
  entry := ("hostsfile", .oHostsFile)
  entry_mem := by decide
  keyword_eq := by decide
  isSeparator := ⟨[], [], by decide, by decide, Or.inr rfl⟩
  value_ne_nil := by decide
  value_plain := by decide
  value_ok := trivial
  fits := by decide

def settingLines : List ConfLine :=
  [.silent (bytes "# site") ⟨[], bytes "# site", rfl, by decide, Or.inr rfl⟩ (by decide) (by decide),
    .setting debugOn, .setting hostsAt,
    .silent (bytes "  ") ⟨bytes "  ", [], rfl, by decide, Or.inl rfl⟩ (by decide) (by decide),
    .setting debugOff]

theorem readConfigFile_render_twice :
    ∃ o, readConfigFile (fun _ => some (render settingLines)) (.lit "stonesh.conf") initializeOptions =
        .ok (1, o) ∧
      o.int .debug = 1 ∧ o.int .useLdap = 0 ∧ o.str .hostsFile = some (.lit "/srv/my hosts.lst") ∧
      o.str .usersFile = StrField.usersFile.default.map .lit := by
  obtain ⟨o, hrun, hint, hstr⟩ := @readConfigFile_render (fun _ => some (render settingLines))
    (.lit "stonesh.conf") settingLines rfl initializeOptions
  exact ⟨o, hrun, (hint .debug).trans (by decide), (hint .useLdap).trans (by decide),
    (hstr .hostsFile).trans (by decide), (hstr .usersFile).trans (by decide)⟩

end Stonesh
