import Stonesh.Framework.Printf

/-!
# The log

`do_log` puts the level of a message in front of its format and formats the message into a buffer
of fixed size, from where it goes to the system log and, if that is asked for, to standard error.
Without memory for the longer format the level is left out.
-/

namespace Stonesh

open CLib

def logBufLen : Nat := 1024

structure LogGlobals where
  logToStderr : Int
  debugging : Int
  deriving DecidableEq

inductive Level
  | notice
  | error
  | fatal
  | debug
  deriving DecidableEq, Repr

def Level.tag : Level → String
  | .notice => "notice"
  | .error => "error"
  | .fatal => "fatal"
  | .debug => "debug"

/-- A call of `notice`, `error`, `fatal` or `debug`. -/
structure Message where
  level : Level
  fmt : String
  args : List FormatArg
  deriving DecidableEq

def Message.text (m : Message) : Checked (List Byte) := vformat (CString.lit m.fmt).bytes m.args

structure LogRecord where
  msgbuf : CString
  stderr : Bool
  deriving DecidableEq

/-- `malloc` is asked for the size of a format. -/
def doLog (malloc : Nat → Bool) (g : LogGlobals) (txt : Option CString) (fmt : CString)
    (args : List FormatArg) : Checked LogRecord := do
  let msgbuf ← match txt with
    | some txt =>
      let fmtlen := txt.bytes.length + fmt.bytes.length + 3
      if malloc fmtlen then do
        let fmtbuf ← vsnprintf fmtlen (.lit "%s: %s") [.str (some txt), .str (some fmt)]
        vsnprintf logBufLen fmtbuf args
      else vsnprintf logBufLen fmt args
    | none => vsnprintf logBufLen fmt args
  pure ⟨msgbuf, g.logToStderr = 1⟩

/-- `notice`, `error` and `fatal` log always, `debug` only while debugging. -/
def logMessage (malloc : Nat → Bool) (g : LogGlobals) (level : Level) (fmt : CString)
    (args : List FormatArg) : Checked (Option LogRecord) :=
  if level = .debug ∧ g.debugging ≠ 1 then pure none
  else some <$> doLog malloc g (some (.lit level.tag)) fmt args

def tagText (malloc : Nat → Bool) (txt fmt : CString) : List Byte :=
  if malloc (txt.bytes.length + fmt.bytes.length + 3) then txt.bytes ++ bytes ": " else []

section
variable {malloc : Nat → Bool} {g : LogGlobals} {txt : CString}

private theorem fmtbuf_eq (txt fmt : CString) :
    vsnprintf (txt.bytes.length + fmt.bytes.length + 3) (.lit "%s: %s") [.str (some txt), .str (some fmt)] =
      .ok (.ofList (txt.bytes ++ bytes ": " ++ fmt.bytes)) := by
  have hformat : (CString.lit "%s: %s").bytes = 37 :: 115 :: (bytes ": " ++ 37 :: 115 :: []) := by decide
  have hsep : 37 ∉ bytes ": " := by decide
  have htext : vformat (CString.lit "%s: %s").bytes [.str (some txt), .str (some fmt)] =
      .ok (txt.bytes ++ (bytes ": " ++ fmt.bytes)) := by
    rw [hformat, vformat_str, vformat_append hsep, vformat_str]
    simp [vformat]
  have hfit : (txt.bytes ++ (bytes ": " ++ fmt.bytes)).length ≤ txt.bytes.length + fmt.bytes.length + 3 - 1 := by
    have hlen : (bytes ": ").length = 2 := rfl
    simp only [List.length_append, hlen]
    omega
  rw [vsnprintf, htext, except_ok_bind, List.take_of_length_le hfit, List.append_assoc]
  rfl

/-- A message is its level and its text, cut to the buffer; the text is the one of its own format,
and nothing that comes from an argument is read as a format. -/
theorem doLog_eq (htag : 37 ∉ txt.bytes) (fmt : CString) (args : List FormatArg) :
    doLog malloc g (some txt) fmt args = (vformat fmt.bytes args).map fun text =>
      ⟨.ofList ((tagText malloc txt fmt ++ text).take (logBufLen - 1)), g.logToStderr = 1⟩ := by
  have h0 : 0 ∉ txt.bytes ++ bytes ": " ++ fmt.bytes := by
    have hsep : 0 ∉ bytes ": " := by decide
    simp only [List.mem_append, not_or]
    exact ⟨⟨txt.noNul, hsep⟩, fmt.noNul⟩
  have hfront : 37 ∉ txt.bytes ++ bytes ": " := by
    have hsep : 37 ∉ bytes ": " := by decide
    simp only [List.mem_append, not_or]
    exact ⟨htag, hsep⟩
  rw [doLog, tagText]
  by_cases hmalloc : malloc (txt.bytes.length + fmt.bytes.length + 3) = true
  · simp only [hmalloc, if_true, fmtbuf_eq, except_ok_bind]
    rw [vsnprintf, CString.ofList_bytes h0, vformat_append hfront]
    cases vformat fmt.bytes args with
    | error e => rfl
    | ok text => rfl
  · simp only [hmalloc, if_false, Bool.false_eq_true, vsnprintf, List.nil_append]
    cases vformat fmt.bytes args with
    | error e => rfl
    | ok text => rfl

def logRecord (malloc : Nat → Bool) (g : LogGlobals) (level : Level) (fmt : CString) (text : List Byte) :
    LogRecord :=
  ⟨.ofList ((tagText malloc (.lit level.tag) fmt ++ text).take (logBufLen - 1)), g.logToStderr = 1⟩

theorem logMessage_eq {fmt : CString} {args : List FormatArg} {text : List Byte}
    (h : vformat fmt.bytes args = .ok text) (level : Level) :
    logMessage malloc g level fmt args =
      .ok (if level = .debug ∧ g.debugging ≠ 1 then none else some (logRecord malloc g level fmt text)) := by
  have htag : 37 ∉ (CString.lit level.tag).bytes := by cases level <;> decide
  rw [logMessage, doLog_eq htag, h]
  split
  · rfl
  · rfl

end

end Stonesh
