import Stonesh.Records

/-!
# The hosts file

`gethostentry` looks a host up in hosts.lst, whose lines are `host:port:countries`. It returns the
static entry, filled from the first line whose host field is the host asked for; the other two
fields have defaults. Seen from the records of the file it is a search for the first match.
-/

namespace Stonesh

open CLib

structure HostEntry where
  host : Option CString
  countries : Option CString
  port : Option CString
  deriving DecidableEq

def HostEntry.free : HostEntry := ⟨none, none, none⟩

/-- The result of a look-up: whether the pointer returned is NULL, and the static entry. -/
structure HostLookup where
  found : Bool
  entry : HostEntry
  deriving DecidableEq

/-- A copy of a field, or of its default where the field is absent or empty; then trimmed. -/
def hostField (field : Option CString) (default : String) : Checked CString :=
  match field with
  | none => trimString (.lit default)
  | some f => trimString (if f.bytes = [] then .lit default else f)

/-- The loop over the lines of the file. -/
def gethostentryLoop (hostname : CString) : List (List Byte) → Checked (Option HostEntry)
  | [] => pure none
  | line :: rest => do
    let line ← trim (line ++ [0]) (some 0)
    if (← strlen line 0) > 0 then
      let cut ← strsep line (some 0) [58]
      match ← tokenText cut with
      | none => gethostentryLoop hostname rest
      | some host =>
        if host.bytes.length = hostname.bytes.length ∧
            strncmp host hostname hostname.bytes.length = 0 then
          let cut ← strsep cut.block cut.cursor [58]
          let port ← hostField (← tokenText cut) "22"
          let cut ← strsep cut.block cut.cursor [58]
          let countries ← hostField (← tokenText cut) ""
          pure (some ⟨some host, some countries, some port⟩)
        else gethostentryLoop hostname rest
    else gethostentryLoop hostname rest

def gethostentry (files : CString → Option (List Byte)) (he : HostEntry)
    (hostname hostsFile : Option CString) : Checked HostLookup :=
  match hostname, hostsFile with
  | some hostname, some hostsFile =>
    match files hostsFile with
    | none => pure ⟨false, .free⟩
    | some content => do
      match ← gethostentryLoop hostname (chunks maxLineLen content) with
      | none => pure ⟨false, .free⟩
      | some entry => pure ⟨true, entry⟩
  | _, _ => pure ⟨false, he⟩

def fieldOrDefault (field : Option CString) (default : String) : CString :=
  match field with
  | none => trimmedString (.lit default)
  | some f => trimmedString (if f.bytes = [] then .lit default else f)

def HostEntry.parse (text : List Byte) : HostEntry :=
  let host := Word.field 58 (some text)
  let port := Word.field 58 host.rest
  let countries := Word.field 58 port.rest
  ⟨host.text, some (fieldOrDefault countries.text ""), some (fieldOrDefault port.text "22")⟩

def lookupHost (content : List Byte) (hostname : CString) : Option HostEntry :=
  ((records content).find? fun text => (Word.field 58 (some text)).text = some hostname).map
    HostEntry.parse

theorem hostField_eq (field : Option CString) (default : String) :
    hostField field default = .ok (fieldOrDefault field default) := by
  cases field with
  | none => exact trimString_eq _
  | some f => exact trimString_eq _

theorem gethostentryLoop_eq (hostname : CString) (lines : List (List Byte)) :
    gethostentryLoop hostname lines =
      .ok ((((lines.map lineText).filter (· ≠ [])).find?
        fun text => (Word.field 58 (some text)).text = some hostname).map HostEntry.parse) := by
  induction lines with
  | nil => rfl
  | cons line lines ih =>
    obtain ⟨post, hb⟩ := terminated_split line
    have hs0 : 0 ∉ line.takeWhile (· ≠ 0) := not_mem_takeWhile_ne_zero line
    rw [gethostentryLoop, hb, List.map_cons, lineText]
    generalize line.takeWhile (· ≠ 0) = s at hs0
    obtain ⟨mid, htrim, -, -⟩ := trim_spec [] s post (p := 0) rfl hs0
    have hw0 : 0 ∉ trimmed s := zero_not_mem_trimmed hs0
    simp only [List.nil_append] at htrim
    simp only [htrim, except_ok_bind]
    generalize trimmed s = w at hw0
    generalize mid ++ post = post
    rw [strlen_start post hw0, except_ok_bind]
    by_cases hw : w = []
    · rw [List.filter_cons_of_neg (by simpa using hw), ← ih, hw]
      rfl
    · have hpos : w.length > 0 := List.length_pos_iff.mpr hw
      obtain ⟨cut, hsep, hshown⟩ := strsep_shown (d := 58) [] post hw0
      have hhost : (Word.field 58 (some w)).NoNul := Word.field_noNul (by simpa using hw0)
      obtain ⟨pre', cut', hsep', hshown'⟩ := hshown.strsep hhost 58
      have hport := Word.field_noNul (d := 58) hhost.2
      obtain ⟨pre'', cut'', hsep'', hshown''⟩ := hshown'.strsep hport 58
      have hcountries := Word.field_noNul (d := 58) hport.2
      simp only [List.nil_append, List.length_nil] at hsep
      obtain ⟨host, hname⟩ : ∃ host, (Word.field 58 (some w)).text = some host := ⟨_, rfl⟩
      rw [if_pos hpos, hsep, List.filter_cons_of_pos (by simpa using hw), List.find?_cons]
      simp only [except_ok_bind, hshown.tokenText hhost, hname, length_strncmp_iff, Option.some.injEq]
      by_cases hsame : host = hostname
      · simp only [hsame, if_true, decide_true, hsep', except_ok_bind, hshown'.tokenText hport,
          hostField_eq, hsep'', hshown''.tokenText hcountries, except_pure, Option.map_some]
        rw [HostEntry.parse, hname, hsame]
      · simp only [hsame, if_false, decide_false]
        exact ih

/-- `gethostentry` finds the first record for the host, and otherwise leaves the entry empty. -/
theorem gethostentry_eq (files : CString → Option (List Byte)) (he : HostEntry)
    (hostname hostsFile : CString) :
    gethostentry files he (some hostname) (some hostsFile) =
      .ok (match lookupHost (contentOf files hostsFile) hostname with
        | none => ⟨false, .free⟩
        | some entry => ⟨true, entry⟩) := by
  unfold lookupHost contentOf
  cases hfile : files hostsFile with
  | none =>
    simp only [gethostentry, hfile]
    rfl
  | some content =>
    simp only [gethostentry, hfile, gethostentryLoop_eq, except_ok_bind, Option.getD_some, records]
    cases (((chunks maxLineLen content).map lineText).filter (· ≠ [])).find?
        fun text => (Word.field 58 (some text)).text = some hostname with
    | none => rfl
    | some text => rfl

theorem lookupHost_some {content : List Byte} {hostname : CString} {entry : HostEntry}
    (h : lookupHost content hostname = some entry) :
    entry.host = some hostname ∧ ∃ text ∈ records content, entry = .parse text := by
  obtain ⟨text, hfind, rfl⟩ := Option.map_eq_some_iff.mp h
  have hhost := List.find?_some hfind
  exact ⟨by simpa [HostEntry.parse] using hhost, text, List.mem_of_find?_eq_some hfind, rfl⟩

end Stonesh
