import Stonesh.Framework.Trace
import Stonesh.Log
import Stonesh.Readconf.Faults

/-!
# The messages of the configuration reader

`read_config_file` with what it logs. It numbers the lines it reads, and what it says about a line
has the name of the file and the number of the line. The functions are given here once more with
their messages; none of the messages changes anything, and the errors among them say which records
are bad.
-/

namespace Stonesh

open CLib

abbrev ReaderRun (α : Type) := Traced Message Fault α

structure ReaderLib where
  strerror : CString
  fcloseFails : Bool

section
variable (filename : CString) (linenum : Nat)

def badOption (cp : CString) : Message :=
  ⟨.error, "%s: line %d: Bad configuration option: %s",
    [.str (some filename), .int linenum, .str (some cp)]⟩

def missingFlag : Message :=
  ⟨.error, "%.200s line %d: Missing yes/no argument.", [.str (some filename), .int linenum]⟩

def badFlag : Message :=
  ⟨.error, "%.200s line %d: Bad yes/no argument.", [.str (some filename), .int linenum]⟩

def missingArgument : Message :=
  ⟨.error, "%.200s line %d: Missing argument.", [.str (some filename), .int linenum]⟩

def invalidTimeout (arg : CString) : Message :=
  ⟨.error, "%.200s line %d: Invalid timeout value '%s'",
    [.str (some filename), .int linenum, .str (some arg)]⟩

/-- What the cases of the switch have to say about an argument. -/
def Target.complaint (target : Target) (arg : Option CString) : Option Message :=
  match target, arg with
  | .flag _, none => some (missingFlag filename linenum)
  | .flag _, some arg =>
    if arg.bytes = [] then some (missingFlag filename linenum)
    else if (flagValue arg).1 = 0 then none
    else some (badFlag filename linenum)
  | .string _, arg => if missing arg then some (missingArgument filename linenum) else none
  | .timeout, none => some (missingArgument filename linenum)
  | .timeout, some arg =>
    if arg.bytes = [] then some (missingArgument filename linenum)
    else if atoi arg ≤ 0 then some (invalidTimeout filename linenum arg)
    else none
  | .bad, _ => none
  | .unimplemented, _ => none

end

def unimplementedOpcode (opcode : OpCode) : Message :=
  ⟨.error, "process_config_line: Unimplemented opcode %d", [.int opcode.ctorIdx]⟩

def unableToOpen (lib : ReaderLib) (filename : CString) : Message :=
  ⟨.error, "unable to open file '%s': %s", [.str (some filename), .str (some lib.strerror)]⟩

def unableToClose (lib : ReaderLib) (filename : CString) : Message :=
  ⟨.error, "unable to close '%s': %s", [.str (some filename), .str (some lib.strerror)]⟩

def terminating (filename : CString) (badOptions : Nat) : Message :=
  ⟨.error, "%s: terminating, %d bad configuration options", [.str (some filename), .int badOptions]⟩

namespace Logged

def say (level : Level) (fmt : String) (args : List FormatArg) : ReaderRun Unit :=
  Traced.emit ⟨level, fmt, args⟩

section
variable (filename : CString) (linenum : Nat)

def parseToken (cp : CString) : ReaderRun OpCode :=
  match keywords.find? fun k => strcasecmp cp (.lit k.1) = 0 with
  | some k => pure k.2
  | none => do
    Traced.emit (badOption filename linenum cp)
    pure .oBadOption

def announce (opcode : OpCode) : ReaderRun Unit :=
  if opcode = .oAuthorizedServiceTag then say .debug "processing authorized_service_tag" []
  else pure ()

/-- The cases of the switch that read an argument, and the check behind the switch. -/
def readArgument (opcode : OpCode) (target : Target) (options : Options) (cut : Cut (Option Nat))
    (activep : Option Int) : ReaderRun (Int × Options) := do
  announce opcode
  let cut ← Traced.lift id (strdelim cut.block cut.cursor)
  let arg ← Traced.lift id (tokenText cut)
  Traced.emits (target.complaint filename linenum arg).toList
  let (status, options) ← Traced.lift id (target.assign options activep arg)
  if status = 0 then
    let cut ← Traced.lift id (strdelim cut.block cut.cursor)
    let arg ← Traced.lift id (tokenText cut)
    let status ← Traced.lift id (endOfLine arg)
    pure (status, options)
  else pure (status, options)

def processConfigLine (options : Options) (line : Block) (activep : Option Int) :
    ReaderRun (Int × Options) := do
  let line ← Traced.lift id (trim line (some 0))
  if (← Traced.lift id (load line 0)) = 0 then pure (0, options)
  else
    let s ← Traced.lift id (str line 0)
    say .debug "%s: line %d: parsing '%s'" [.str (some filename), .int linenum, .str (some s)]
    let cut ← Traced.lift id (strdelim line (some 0))
    let keyword ← Traced.lift id (tokenText cut)
    let keyword ← Traced.lift id (strdup keyword)
    let opcode ← parseToken filename linenum keyword
    match opcode.target with
    | .bad => pure (1, options)
    | .unimplemented => do
      Traced.emit (unimplementedOpcode opcode)
      pure (-1, options)
    | target => readArgument filename linenum opcode target options cut activep

/-- The loop over the file, with the number of the line before. -/
def readConfigLoop : Nat → List (List Byte) → Options → Nat → ReaderRun (Nat × Options)
  | _, [], options, badOptions => pure (badOptions, options)
  | linenum, line :: rest, options, badOptions => do
    let (err, options) ← processConfigLine filename (linenum + 1) options (line ++ [0]) (some 1)
    let badOptions := if err ≠ 0 then badOptions + 1 else badOptions
    if err = -1 then pure (badOptions, options)
    else readConfigLoop (linenum + 1) rest options badOptions

end

def readConfigFile (lib : ReaderLib) (files : CString → Option (List Byte)) (filename : CString)
    (options : Options) : ReaderRun (Int × Options) :=
  match files filename with
  | none => do
    Traced.emit (unableToOpen lib filename)
    pure (0, freeOptions options)
  | some content => do
    let (badOptions, options) ←
      readConfigLoop filename 0 (chunks maxLineLen content) initializeOptions 0
    if lib.fcloseFails then Traced.emit (unableToClose lib filename)
    if badOptions > 0 then do
      Traced.emit (terminating filename badOptions)
      pure (0, freeOptions options)
    else pure (1, fillDefaultOptions options)

end Logged

def textMessages (filename : CString) (linenum : Nat) (text : List Byte) : List Message :=
  if text = [] then []
  else ⟨.debug, "%s: line %d: parsing '%s'",
      [.str (some filename), .int linenum, .str (some (.ofList text))]⟩ ::
    (keyWord text).text.elim [] fun keyword =>
      match (parseToken keyword).target with
      | .bad => [badOption filename linenum keyword]
      | .unimplemented => [unimplementedOpcode (parseToken keyword)]
      | target => (Logged.announce (parseToken keyword)).trace ++
          (target.complaint filename linenum (argWord text).text).toList

section
variable {filename : CString} {linenum : Nat}

private theorem lift_ok_bind {α β : Type} (a : α) (k : α → ReaderRun β) :
    (Traced.lift id (.ok a : Checked α) : ReaderRun α) >>= k = k a := rfl

private theorem lift_error_bind {α β : Type} (f : Fault) (k : α → ReaderRun β) :
    (Traced.lift id (.error f : Checked α) : ReaderRun α) >>= k = ⟨[], .error f⟩ := rfl

theorem parseToken_logged (cp : CString) : Logged.parseToken filename linenum cp =
    ⟨if (parseToken cp).target = .bad then [badOption filename linenum cp] else [],
      .ok (parseToken cp)⟩ := by
  unfold Logged.parseToken parseToken
  cases hfind : keywords.find? fun k => decide (strcasecmp cp (.lit k.1) = 0) with
  | none => rfl
  | some entry =>
    have hknown : ∀ e ∈ keywords, e.2.target ≠ .bad := by decide
    simp only [if_neg (hknown entry (List.mem_of_find?_eq_some hfind))]
    rfl

private theorem announce_eq (opcode : OpCode) :
    Logged.announce opcode = ⟨(Logged.announce opcode).trace, .ok ()⟩ := by
  unfold Logged.announce
  split
  · rfl
  · rfl

private theorem readArgument_logged {w : Word} {pre : List Byte} {cut : Cut (Option Nat)}
    (hshown : w.ShownBy pre cut) (hw : w.NoNul) (opcode : OpCode) (target : Target) (o : Options)
    (activep : Option Int) :
    Logged.readArgument filename linenum opcode target o cut activep =
      ⟨(Logged.announce opcode).trace ++
        (target.complaint filename linenum (nextWord w.rest).text).toList, do
          let (status, options) ← target.assign o activep (nextWord w.rest).text
          if status = 0 then
            let status ← endOfLine (nextWord (nextWord w.rest).rest).text
            pure (status, options)
          else pure (status, options)⟩ := by
  obtain ⟨pre', cut', harg, hshown'⟩ := strdelim_next hshown hw
  have hw' := nextWord_noNul hw.2
  obtain ⟨pre'', cut'', hend, hshown''⟩ := strdelim_next hshown' hw'
  rw [Logged.readArgument, announce_eq, Traced.bind_of_ok rfl]
  simp only [harg, hshown'.tokenText hw', hend, hshown''.tokenText (nextWord_noNul hw'.2), lift_ok_bind]
  rw [Traced.bind_of_ok rfl]
  cases target.assign o activep (nextWord w.rest).text with
  | error f => simp [lift_error_bind]
  | ok r =>
    simp only [lift_ok_bind, except_ok_bind]
    split
    · cases endOfLine (nextWord (nextWord w.rest).rest).text with
      | error f => simp [lift_error_bind]
      | ok status => simp [lift_ok_bind]
    · simp

theorem processConfigLine_logged (o : Options) (line : List Byte) (activep : Option Int) :
    Logged.processConfigLine filename linenum o (line ++ [0]) activep =
      ⟨textMessages filename linenum (lineText line), processConfigLine o (line ++ [0]) activep⟩ := by
  rw [processConfigLine_eq]
  obtain ⟨post, hb⟩ := terminated_split line
  have hs0 : 0 ∉ line.takeWhile (· ≠ 0) := not_mem_takeWhile_ne_zero line
  rw [hb, lineText]
  generalize line.takeWhile (· ≠ 0) = s at hs0
  obtain ⟨mid, htrim, -, -⟩ := trim_spec [] s post (p := 0) rfl hs0
  have hw0 : 0 ∉ trimmed s := zero_not_mem_trimmed hs0
  simp only [List.nil_append] at htrim
  simp only [Logged.processConfigLine, htrim, lift_ok_bind]
  generalize trimmed s = w at hw0
  generalize mid ++ post = post
  cases w with
  | nil => rfl
  | cons c w =>
    have hc : c ≠ 0 := fun he => hw0 (by simp [he])
    have hload : load ((c :: w) ++ 0 :: post) 0 = .ok c := rfl
    obtain ⟨cut, hkey, hshown⟩ := strdelim_spec [] post hw0
    have hword : (keyWord (c :: w)).NoNul := nextWord_noNul (by simpa using hw0)
    simp only [List.nil_append, List.length_nil] at hkey
    have hfirst : nextWord (some (c :: w)) = keyWord (c :: w) := rfl
    have hsecond : nextWord (keyWord (c :: w)).rest = argWord (c :: w) := rfl
    rw [hfirst] at hshown
    rw [hload, processText, textMessages, if_neg (by simp), if_neg (by simp)]
    simp only [lift_ok_bind, hc, if_false, str_start post hw0, hkey, hshown.tokenText hword, Logged.say,
      Traced.emit_bind, hfirst, hsecond]
    cases htext : (keyWord (c :: w)).text with
    | none => rfl
    | some keyword =>
      simp only [strdup, except_pure, lift_ok_bind, except_ok_bind, Option.elim_some]
      rw [parseToken_logged, Traced.bind_of_ok rfl]
      have hargument := @readArgument_logged filename linenum _ _ _ hshown hword (parseToken keyword)
      cases htarget : (parseToken keyword).target with
      | bad => simp only [if_true]; rfl
      | unimplemented => rfl
      | flag f =>
        simp only [reduceCtorEq, if_false, List.nil_append, hargument]
        rfl
      | string f =>
        simp only [reduceCtorEq, if_false, List.nil_append, hargument]
        rfl
      | timeout =>
        simp only [reduceCtorEq, if_false, List.nil_append, hargument]
        rfl

end

def errors (messages : List Message) : List Message := messages.filter (·.level = .error)

/-- The error for a record, if it is a bad one. -/
def textError (filename : CString) (linenum : Nat) (text : List Byte) : Option Message :=
  (keyWord text).text.bind fun keyword =>
    match (parseToken keyword).target with
    | .bad => some (badOption filename linenum keyword)
    | .unimplemented => some (unimplementedOpcode (parseToken keyword))
    | target => target.complaint filename linenum (argWord text).text

instance (text : List Byte) : Decidable (Accepted text) :=
  inferInstanceAs (Decidable (∃ t ∈ (argWord text).token, _))

instance (text : List Byte) : Decidable (Ended text) :=
  inferInstanceAs (Decidable (∀ t ∈ (tailWord text).token, _))

instance (text : List Byte) : Decidable (Passed text) := inferInstanceAs (Decidable (_ ∨ _))

/-- The texts of these lines that are not blank, with the numbers of their lines from `linenum` on. -/
def numbered (linenum : Nat) (lines : List (List Byte)) : List (List Byte × Nat) :=
  ((lines.map lineText).zipIdx linenum).filter (·.1 ≠ [])

/-- The errors for the records of a file up to the one that ends it. -/
def recordErrors (filename : CString) : List (List Byte × Nat) → List Message
  | [] => []
  | (text, linenum) :: rest =>
    (textError filename linenum text).toList ++ if Passed text then recordErrors filename rest else []

def fileErrors (filename : CString) (content : List Byte) : List Message :=
  recordErrors filename (numbered 1 (chunks maxLineLen content))

def closing (lib : ReaderLib) (filename : CString) (badOptions : Nat) : List Message :=
  (if lib.fcloseFails then [unableToClose lib filename] else []) ++
    if badOptions > 0 then [terminating filename badOptions] else []

/-- The message begins with the name of the file and the number of the line. -/
def Message.Names (m : Message) (filename : CString) (linenum : Nat) : Prop :=
  ∃ rest, m.text = .ok (filename.bytes ++ (bytes ": line " ++ (bytes (toString (linenum : Int)) ++ rest))) ∨
    m.text = .ok (filename.bytes.take 200 ++ (bytes " line " ++ (bytes (toString (linenum : Int)) ++ rest)))

section
variable {filename : CString} {linenum : Nat} {args : List FormatArg} {fmt back : String}

private theorem names_colon (hfmt : (CString.lit fmt).bytes = bytes "%s: line %d" ++ bytes back)
    (hback : ∃ text, vformat (bytes back) args = .ok text) :
    (⟨.error, fmt, .str (some filename) :: .int linenum :: args⟩ : Message).Names filename linenum := by
  obtain ⟨text, htext⟩ := hback
  have hline : bytes "%s: line %d" = 37 :: 115 :: (bytes ": line " ++ [37, 100]) := by decide
  have hplain : 37 ∉ bytes ": line " := by decide
  refine ⟨text, Or.inl ?_⟩
  rw [Message.text, hfmt, hline, List.cons_append, List.cons_append, vformat_str, List.append_assoc,
    vformat_append hplain, List.cons_append, List.cons_append, vformat_int, List.nil_append, htext]
  rfl

private theorem names_precise (hfmt : (CString.lit fmt).bytes = bytes "%.200s line %d" ++ bytes back)
    (hback : ∃ text, vformat (bytes back) args = .ok text) :
    (⟨.error, fmt, .str (some filename) :: .int linenum :: args⟩ : Message).Names filename linenum := by
  obtain ⟨text, htext⟩ := hback
  have hline : bytes "%.200s line %d" = 37 :: 46 :: (bytes "200" ++ 115 :: (bytes " line " ++ [37, 100])) := by
    decide
  have hplain : 37 ∉ bytes " line " := by decide
  have hvalue : decimalValue (bytes "200") = 200 := by decide
  refine ⟨text, Or.inr ?_⟩
  rw [Message.text, hfmt, hline, List.cons_append, List.cons_append, List.append_assoc,
    List.cons_append, vformat_precision (by decide), hvalue, List.append_assoc, vformat_append hplain,
    List.cons_append, List.cons_append, vformat_int, List.nil_append, htext]
  rfl

end

section
variable {filename : CString} {linenum : Nat} {text : List Byte} {target : Target} {m : Message}

private theorem complaint_names {arg : Option CString} (h : target.complaint filename linenum arg = some m) :
    m.level = .error ∧ m.Names filename linenum := by
  have hflag : (missingFlag filename linenum).Names filename linenum :=
    @names_precise _ _ _ _ ": Missing yes/no argument." (by decide) ⟨_, rfl⟩
  have hbad : (badFlag filename linenum).Names filename linenum :=
    @names_precise _ _ _ _ ": Bad yes/no argument." (by decide) ⟨_, rfl⟩
  have hargument : (missingArgument filename linenum).Names filename linenum :=
    @names_precise _ _ _ _ ": Missing argument." (by decide) ⟨_, rfl⟩
  have htimeout (arg : CString) : (invalidTimeout filename linenum arg).Names filename linenum :=
    @names_precise _ _ _ _ ": Invalid timeout value '%s'" (by decide) ⟨_, rfl⟩
  cases target with
  | bad => cases h
  | unimplemented => cases h
  | flag f =>
    cases arg with
    | none =>
      obtain rfl := Option.some.inj h
      exact ⟨rfl, hflag⟩
    | some arg =>
      simp only [Target.complaint] at h
      split at h
      · obtain rfl := Option.some.inj h
        exact ⟨rfl, hflag⟩
      · split at h
        · cases h
        · obtain rfl := Option.some.inj h
          exact ⟨rfl, hbad⟩
  | string f =>
    simp only [Target.complaint] at h
    split at h
    · obtain rfl := Option.some.inj h
      exact ⟨rfl, hargument⟩
    · cases h
  | timeout =>
    cases arg with
    | none =>
      obtain rfl := Option.some.inj h
      exact ⟨rfl, hargument⟩
    | some arg =>
      simp only [Target.complaint] at h
      split at h
      · obtain rfl := Option.some.inj h
        exact ⟨rfl, hargument⟩
      · split at h
        · obtain rfl := Option.some.inj h
          exact ⟨rfl, htimeout arg⟩
        · cases h

private theorem known_target (keyword : CString) : (parseToken keyword).target ≠ .unimplemented := by
  have hknown : ∀ e ∈ keywords, e.2.target ≠ .unimplemented := by decide
  unfold parseToken
  cases hfind : keywords.find? fun k => decide (strcasecmp keyword (.lit k.1) = 0) with
  | none => decide
  | some entry => exact hknown entry (List.mem_of_find?_eq_some hfind)

theorem textError_names (h : textError filename linenum text = some m) :
    m.level = .error ∧ m.Names filename linenum := by
  have hoption (cp : CString) : (badOption filename linenum cp).Names filename linenum :=
    @names_colon _ _ _ _ ": Bad configuration option: %s" (by decide) ⟨_, rfl⟩
  obtain ⟨keyword, -, h⟩ := Option.bind_eq_some_iff.mp h
  have hknown := known_target keyword
  cases htarget : (parseToken keyword).target with
  | bad =>
    simp only [htarget] at h
    obtain rfl := Option.some.inj h
    exact ⟨rfl, hoption keyword⟩
  | unimplemented => exact absurd htarget hknown
  | flag f => exact complaint_names (by simpa only [htarget] using h)
  | string f => exact complaint_names (by simpa only [htarget] using h)
  | timeout => exact complaint_names (by simpa only [htarget] using h)

theorem errors_textMessages (hne : text ≠ []) :
    errors (textMessages filename linenum text) = (textError filename linenum text).toList := by
  have hannounce (opcode : OpCode) : errors (Logged.announce opcode).trace = [] := by
    unfold Logged.announce
    split
    · rfl
    · rfl
  have hcomplaint (target : Target) (arg : Option CString) :
      errors (target.complaint filename linenum arg).toList =
        (target.complaint filename linenum arg).toList := by
    cases h : target.complaint filename linenum arg with
    | none => rfl
    | some m => simp [errors, (complaint_names h).1]
  rw [textMessages, if_neg hne, errors, List.filter_cons_of_neg (by simp), textError]
  cases (keyWord text).text with
  | none => rfl
  | some keyword =>
    rw [Option.elim_some, Option.bind_some]
    cases (parseToken keyword).target with
    | bad => rfl
    | unimplemented => rfl
    | flag f => rw [List.filter_append]; exact congrArg₂ _ (hannounce _) (hcomplaint _ _)
    | string f => rw [List.filter_append]; exact congrArg₂ _ (hannounce _) (hcomplaint _ _)
    | timeout => rw [List.filter_append]; exact congrArg₂ _ (hannounce _) (hcomplaint _ _)

private theorem complaint_eq_none_iff (hbad : target ≠ .bad) (hun : target ≠ .unimplemented) {w : Word}
    (hw : w.NoNul) : target.complaint filename linenum w.text = none ↔ ∃ t ∈ w.token, target.Valid t := by
  cases htoken : w.token with
  | none =>
    have htext : w.text = none := by simp [Word.text, htoken]
    rw [htext]
    cases target with
    | bad => exact absurd rfl hbad
    | unimplemented => exact absurd rfl hun
    | flag f => simp [Target.complaint]
    | string f => simp [Target.complaint, missing]
    | timeout => simp [Target.complaint]
  | some t =>
    have h0 : 0 ∉ t := hw.1 t htoken
    have htext : w.text = some (.ofList t) := by simp [Word.text, htoken]
    have hbytes : (CString.ofList t).bytes = t := CString.ofList_bytes h0
    rw [htext]
    simp only [Option.mem_some_iff, exists_eq_left']
    cases target with
    | bad => exact absurd rfl hbad
    | unimplemented => exact absurd rfl hun
    | flag f =>
      rw [Target.complaint, hbytes, flagValue_status h0]
      by_cases hnil : t = []
      · simp [hnil, Target.Valid]
      · by_cases hvalid : t ∈ [bytes "yes", bytes "true", bytes "no", bytes "false"]
        · simp [hnil, hvalid, Target.Valid]
        · simp [hnil, hvalid, Target.Valid]
    | string f =>
      simp only [Target.complaint, missing, hbytes]
      by_cases hnil : t = []
      · simp [hnil, Target.Valid]
      · simp [hnil, Target.Valid]
    | timeout =>
      rw [Target.complaint, hbytes]
      by_cases hnil : t = []
      · simp [hnil, Target.Valid]
      · by_cases hpos : atoi (.ofList t) ≤ 0
        · simp [hnil, hpos, Target.Valid]
        · simp [hnil, hpos, Target.Valid]
          omega

theorem textError_eq_none_iff (h0 : 0 ∉ text) :
    textError filename linenum text = none ↔ (keyWord text).token = none ∨ Accepted text := by
  cases htoken : (keyWord text).token with
  | none => simp [textError, Word.text, htoken]
  | some t =>
    have htext : (keyWord text).text = some (.ofList t) := by simp [Word.text, htoken]
    have htarget : textTarget text = (parseToken (.ofList t)).target := by rw [textTarget, htext]
    have hkey : (keyWord text).NoNul := nextWord_noNul (by simpa using h0)
    have hword : (argWord text).NoNul := nextWord_noNul hkey.2
    have hargument (hbad : textTarget text ≠ .bad) :=
      @complaint_eq_none_iff filename linenum _ hbad (htarget ▸ known_target _) _ hword
    rw [textError, htext, Option.bind_some, ← htarget]
    simp only [reduceCtorEq, false_or]
    rw [Accepted]
    cases hcase : textTarget text with
    | bad => simp [Target.Valid]
    | unimplemented => exact absurd hcase (htarget ▸ known_target _)
    | flag f =>
      rw [hcase] at hargument
      exact hargument (by simp)
    | string f =>
      rw [hcase] at hargument
      exact hargument (by simp)
    | timeout =>
      rw [hcase] at hargument
      exact hargument (by simp)

private theorem processText_counted {o o' : Options} {status : Int} (h0 : 0 ∉ text) (hne : text ≠ [])
    (h : processText o text (some 1) = .ok (status, o')) :
    status = 0 ↔ textError filename linenum text = none := by
  rw [textError_eq_none_iff h0]
  have hrun := processText_run o 1 h0
  rw [h] at hrun
  cases hrun with
  | blank hnil => exact absurd hnil hne
  | rejected _ _ _ hkey _ hnot hstatus =>
    refine iff_of_false (by omega) ?_
    rintro (hnone | haccepted)
    · exact hkey hnone
    · exact hnot haccepted
  | accepted _ _ haccepted _ => exact iff_of_true rfl (Or.inr haccepted)

private theorem errors_append (l m : List Message) : errors (l ++ m) = errors l ++ errors m :=
  List.filter_append ..

private theorem length_toList {α : Type} (x : Option α) : x.toList.length = if x = none then 0 else 1 := by
  cases x <;> simp

/-- The loop says what is wrong with each record it gets to, and counts those with an error. -/
theorem readConfigLoop_logged (lines : List (List Byte)) (k : Nat) (o : Options) (bad : Nat) :
    (Logged.readConfigLoop filename k lines o bad).result = readConfigLoop lines o bad ∧
      errors (Logged.readConfigLoop filename k lines o bad).trace =
        recordErrors filename (numbered (k + 1) lines) ∧
      ∀ bad' o', readConfigLoop lines o bad = .ok (bad', o') →
        bad' = bad + (recordErrors filename (numbered (k + 1) lines)).length := by
  induction lines generalizing k o bad with
  | nil =>
    refine ⟨rfl, rfl, ?_⟩
    intro bad' o' h
    rw [← (Prod.mk.inj (Except.ok.inj h)).1]
    rfl
  | cons line lines ih =>
    have h0 : 0 ∉ lineText line := zero_not_mem_lineText line
    rw [Logged.readConfigLoop, readConfigLoop, processConfigLine_logged, processConfigLine_eq]
    by_cases hnil : lineText line = []
    · have hnumbered : numbered (k + 1) (line :: lines) = numbered (k + 1 + 1) lines := by
        simp [numbered, hnil]
      have hline : processText o (lineText line) (some 1) = .ok (0, o) := by rw [hnil]; rfl
      rw [hnumbered, hline, hnil]
      exact ih (k + 1) o bad
    · have hnumbered : numbered (k + 1) (line :: lines) =
          (lineText line, k + 1) :: numbered (k + 1 + 1) lines := by
        simp [numbered, hnil]
      have herrors := @errors_textMessages filename (k + 1) _ hnil
      rw [hnumbered, recordErrors]
      cases hline : processText o (lineText line) (some 1) with
      | error f =>
        have hnot : ¬ Passed (lineText line) := by
          intro hpassed
          obtain ⟨status, -, hok⟩ := @processText_passed o _ h0 hnil hpassed
          rw [hline] at hok
          cases hok
        rw [if_neg hnot, List.append_nil]
        refine ⟨rfl, herrors, ?_⟩
        intro bad' o' h
        cases h
      | ok r =>
        obtain ⟨status, o'⟩ := r
        have hcounted := @processText_counted filename (k + 1) _ o o' status h0 hnil hline
        by_cases hpassed : Passed (lineText line)
        · have hstatus : status ≠ -1 := by
            obtain ⟨status', hne, hok⟩ := @processText_passed o _ h0 hnil hpassed
            rw [hline] at hok
            rwa [(Prod.mk.inj (Except.ok.inj hok)).1]
          obtain ⟨hresult, htrace, hcount⟩ := ih (k + 1) o' (if status ≠ 0 then bad + 1 else bad)
          rw [Traced.bind_of_ok rfl, if_pos hpassed]
          simp only [hstatus, if_false, except_ok_bind, errors_append, herrors]
          refine ⟨hresult, congrArg _ htrace, ?_⟩
          intro bad' o'' h
          rw [hcount bad' o'' h, List.length_append, length_toList]
          simp only [← hcounted]
          split
          · omega
          · next hzero => rw [if_pos (not_not.mp hzero)]; omega
        · obtain rfl := processText_stops h0 hnil hpassed hline
          rw [Traced.bind_of_ok rfl, if_neg hpassed, List.append_nil]
          simp only [if_true, except_ok_bind, errors_append, herrors]
          refine ⟨rfl, List.append_nil _, ?_⟩
          intro bad' o'' h
          rw [length_toList, if_neg fun hnone => absurd (hcounted.mpr hnone) (by decide)]
          exact ((Prod.mk.inj (Except.ok.inj h)).1).symm

private theorem mem_recordErrors {records : List (List Byte × Nat)} (h : m ∈ recordErrors filename records) :
    ∃ r ∈ records, textError filename r.2 r.1 = some m := by
  induction records with
  | nil => cases h
  | cons r records ih =>
    rcases List.mem_append.mp h with h | h
    · exact ⟨r, by simp, Option.mem_toList.mp h⟩
    · split at h
      · obtain ⟨r', hr', hm⟩ := ih h
        exact ⟨r', List.mem_cons_of_mem _ hr', hm⟩
      · cases h

-- the last line counts only if it has text
private theorem numbered_chunks {ls : List (List Byte)} {last : List Byte}
    (hls : ∀ l ∈ ls, 10 ∉ l ∧ l.length ≤ 1022) (hlast : 10 ∉ last ∧ last.length ≤ 1022) (k : Nat) :
    numbered k (chunks maxLineLen (joinLines ls last)) = numbered k (ls ++ [last]) := by
  induction ls generalizing k with
  | nil =>
    by_cases hnil : last = []
    · subst hnil
      rfl
    · have hlen : last.length ≤ maxLineLen - 1 := by
        rw [maxLineLen]
        omega
      have hchunk : chunks maxLineLen (joinLines [] last) = [last] := chunks_last hlast.1 hnil hlen
      rw [hchunk]
      rfl
  | cons l ls ih =>
    obtain ⟨hl, hlen⟩ := hls l (by simp)
    have hjoin : joinLines (l :: ls) last = l ++ 10 :: joinLines ls last := by simp [joinLines]
    have hrest := ih (fun l' hl' => hls l' (List.mem_cons_of_mem _ hl')) (k + 1)
    rw [hjoin, chunks_line hl (by rw [maxLineLen]; omega)]
    unfold numbered at hrest ⊢
    rw [List.cons_append, List.map_cons, List.map_cons, List.zipIdx_cons, List.zipIdx_cons,
      List.filter_cons, List.filter_cons, hrest, lineText_newline]

-- the loop, and what is said behind it
private theorem readConfigFile_logged (lib : ReaderLib) {files : CString → Option (List Byte)}
    {content : List Byte} (hfile : files filename = some content) (options : Options) :
    (∃ f, readConfigFile files filename options = .error f ∧
        (Logged.readConfigFile lib files filename options).result = .error f ∧
        errors (Logged.readConfigFile lib files filename options).trace = fileErrors filename content) ∨
      ∃ result o, readConfigFile files filename options = .ok (result, o) ∧
        (Logged.readConfigFile lib files filename options).result = .ok (result, o) ∧
        errors (Logged.readConfigFile lib files filename options).trace = fileErrors filename content ++
          closing lib filename (fileErrors filename content).length ∧
        (result = 1 ↔ fileErrors filename content = []) := by
  obtain ⟨hresult, htrace, hcount⟩ :=
    @readConfigLoop_logged filename (chunks maxLineLen content) 0 initializeOptions 0
  rw [Nat.zero_add] at htrace hcount
  simp only [readConfigFile, Logged.readConfigFile, hfile]
  cases hloop : readConfigLoop (chunks maxLineLen content) initializeOptions 0 with
  | error f =>
    rw [hloop] at hresult
    rw [Traced.bind_of_error hresult]
    exact Or.inl ⟨f, rfl, rfl, htrace⟩
  | ok r =>
    obtain ⟨bad, o⟩ := r
    have hbad : bad = (fileErrors filename content).length := by rw [hcount bad o hloop, Nat.zero_add]; rfl
    rw [hloop] at hresult
    rw [Traced.bind_of_ok hresult]
    simp only [except_ok_bind, errors_append, htrace]
    rw [← fileErrors, ← hbad]
    by_cases hpos : bad > 0
    · have hne : fileErrors filename content ≠ [] := List.ne_nil_of_length_pos (by omega)
      simp only [hpos, if_true]
      refine Or.inr ⟨0, freeOptions o, rfl, ?_, ?_, iff_of_false (by decide) hne⟩
      · cases lib.fcloseFails with
        | true => rfl
        | false => rfl
      · rw [closing, if_pos hpos]
        cases lib.fcloseFails with
        | true => rfl
        | false => rfl
    · have hnil : fileErrors filename content = [] := List.eq_nil_of_length_eq_zero (by omega)
      simp only [hpos, if_false]
      refine Or.inr ⟨1, fillDefaultOptions o, rfl, ?_, ?_, iff_of_true rfl hnil⟩
      · cases lib.fcloseFails with
        | true => rfl
        | false => rfl
      · rw [closing, if_neg hpos]
        cases lib.fcloseFails with
        | true => rfl
        | false => rfl

theorem numbered_lines {content : List Byte} (hfit : LinesFit content) :
    numbered 1 (chunks maxLineLen content) = numbered 1 (fileLines content) := by
  obtain ⟨hls, hlast⟩ := newline_not_mem_splitLines content
  conv_lhs => rw [← joinLines_splitLines content]
  exact numbered_chunks (fun l hl => ⟨hls l hl, hfit l (List.mem_append_left _ hl)⟩)
    ⟨hlast, hfit _ (by simp [fileLines])⟩ 1

/-- The errors of a file are right. For each record up to the one that ends the file there is one
error exactly if the record has a keyword and is not accepted; it begins with the name of the file
and the number of the line; and behind them comes their number, if there are any and the reader
gets there. None of the messages changes what is returned, and the file is accepted if and only if
there is no error for a record. -/
theorem readConfigFile_diagnosed (lib : ReaderLib) {files : CString → Option (List Byte)}
    {content : List Byte} (hfile : files filename = some content) (options : Options) :
    (Logged.readConfigFile lib files filename options).result = readConfigFile files filename options ∧
      (∀ result o, readConfigFile files filename options = .ok (result, o) →
        errors (Logged.readConfigFile lib files filename options).trace =
            fileErrors filename content ++ closing lib filename (fileErrors filename content).length ∧
          (result = 1 ↔ fileErrors filename content = [])) ∧
      (∀ f, readConfigFile files filename options = .error f →
        errors (Logged.readConfigFile lib files filename options).trace = fileErrors filename content) ∧
      (∀ text linenum, 0 ∉ text → (textError filename linenum text ≠ none ↔
        (keyWord text).token ≠ none ∧ ¬ Accepted text)) ∧
      (∀ m ∈ fileErrors filename content, ∃ r ∈ numbered 1 (chunks maxLineLen content),
        textError filename r.2 r.1 = some m ∧ m.Names filename r.2) ∧
      (LinesFit content → numbered 1 (chunks maxLineLen content) = numbered 1 (fileLines content)) := by
  have hiff (text : List Byte) (linenum : Nat) (h0 : 0 ∉ text) : textError filename linenum text ≠ none ↔
      (keyWord text).token ≠ none ∧ ¬ Accepted text := by
    rw [ne_eq, textError_eq_none_iff h0, not_or]
  have hnamed (m : Message) (hm : m ∈ fileErrors filename content) :
      ∃ r ∈ numbered 1 (chunks maxLineLen content), textError filename r.2 r.1 = some m ∧
        m.Names filename r.2 := by
    obtain ⟨r, hr, herror⟩ := mem_recordErrors hm
    exact ⟨r, hr, herror, (textError_names herror).2⟩
  rcases readConfigFile_logged lib hfile options with ⟨f, hrun, hresult, htrace⟩ |
      ⟨result, o, hrun, hresult, htrace, haccepted⟩
  · refine ⟨hresult.trans hrun.symm, ?_, fun _ _ => htrace, hiff, hnamed, numbered_lines⟩
    intro result o h
    rw [hrun] at h
    cases h
  · refine ⟨hresult.trans hrun.symm, ?_, ?_, hiff, hnamed, numbered_lines⟩
    · intro result' o' h
      obtain ⟨rfl, -⟩ := Prod.mk.inj (Except.ok.inj (hrun.symm.trans h))
      exact ⟨htrace, haccepted⟩
    · intro f h
      rw [hrun] at h
      cases h

end

/-- A comment, an unknown keyword, a bad value, and a line the reader does not get to. -/
def faultyConf : List Byte := bytes "# site\n\ndebug yes\nhosts = web\nuseLDAP maybe\nncTimeout 0\n"

theorem readConfigFile_diagnosed_faulty :
    errors (Logged.readConfigFile ⟨.lit "Success", false⟩ (fun _ => some faultyConf) (.lit "a.conf")
        initializeOptions).trace =
      [badOption (.lit "a.conf") 4 (.lit "hosts"), badFlag (.lit "a.conf") 5, terminating (.lit "a.conf") 2] := by
  have hrun : readConfigFile (fun _ => some faultyConf) (.lit "a.conf") initializeOptions =
      .ok (0, freeOptions ((initializeOptions.setInt .debug 1).setInt .useLdap 0)) := by decide +kernel
  obtain ⟨-, hreturned, -⟩ := @readConfigFile_diagnosed (.lit "a.conf") ⟨.lit "Success", false⟩
    (fun _ => some faultyConf) faultyConf rfl initializeOptions
  rw [(hreturned 0 _ hrun).1]
  decide +kernel

end Stonesh
