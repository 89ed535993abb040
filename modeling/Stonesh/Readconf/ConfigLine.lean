import Stonesh.Readconf.Options
import Stonesh.Readconf.Strdelim
import Stonesh.Records

/-!
# Processing a configuration line

`process_config_line` works on the line buffer: it trims it, takes the keyword, the argument and
what may follow from `strdelim`, and sets one option. `processText` does the same on the text of
the line, and the two agree on every line.
-/

namespace Stonesh

open CLib

def missing (arg : Option CString) : Bool :=
  match arg with
  | none => true
  | some arg => arg.bytes = []

def flagValue (arg : CString) : Int × Int :=
  if strcmp arg (.lit "yes") = 0 ∨ strcmp arg (.lit "true") = 0 then (0, 1)
  else if strcmp arg (.lit "no") = 0 ∨ strcmp arg (.lit "false") = 0 then (0, 0)
  else (-1, 0)

def parseFlag (options : Options) (intptr : IntField) (activep : Option Int) (arg : Option CString) :
    Checked (Int × Options) :=
  match arg with
  | none => pure (-1, options)
  | some arg =>
    if arg.bytes = [] then pure (-1, options)
    else
      let (status, value) := flagValue arg
      let options :=
        if activep.isSome ∧ options.int intptr = -1 then options.setInt intptr value else options
      pure (status, options)

/-- `if ( *activep != 0 && *charptr == NULL ) { *charptr = strdup( arg ); }` -/
def storeArgument (options : Options) (charptr : StrField) (activep : Option Int)
    (arg : Option CString) : Checked Options :=
  match activep with
  | none => throw .nullArgument
  | some active =>
    if active ≠ 0 ∧ options.str charptr = none then do
      let arg ← strdup arg
      pure (options.setStr charptr (some arg))
    else pure options

theorem storeArgument_some (o : Options) (f : StrField) (active : Int) (arg : CString) :
    storeArgument o f (some active) (some arg) =
      .ok (if active ≠ 0 ∧ o.str f = none then o.setStr f (some arg) else o) := by
  by_cases hset : active ≠ 0 ∧ o.str f = none
  · rw [storeArgument, if_pos hset, if_pos hset]
    rfl
  · rw [storeArgument, if_neg hset, if_neg hset]
    rfl

theorem storeArgument_none (o : Options) (f : StrField) (active : Int) :
    storeArgument o f (some active) none =
      if active ≠ 0 ∧ o.str f = none then .error .nullArgument else .ok o := rfl

def parseString (options : Options) (charptr : StrField) (activep : Option Int)
    (arg : Option CString) : Checked (Int × Options) := do
  let status := if missing arg then -1 else 0
  let options ← storeArgument options charptr activep arg
  pure (status, options)

def timeoutStatus (arg : Option CString) : Int :=
  match arg with
  | none => -1
  | some arg => if arg.bytes = [] ∨ atoi arg ≤ 0 then -1 else 0

def parseTimeout (options : Options) (activep : Option Int) (arg : Option CString) :
    Checked (Int × Options) := do
  let options ← storeArgument options .ncTimeout activep arg
  pure (timeoutStatus arg, options)

def Target.assign (target : Target) (options : Options) (activep : Option Int)
    (arg : Option CString) : Checked (Int × Options) :=
  match target with
  | .flag intptr => parseFlag options intptr activep arg
  | .string charptr => parseString options charptr activep arg
  | .timeout => parseTimeout options activep arg
  | .bad => pure (1, options)
  | .unimplemented => pure (-1, options)

/-- The check for garbage at the end of the line. The token it finds lies inside the line buffer,
and it is handed to `free`. -/
def endOfLine (arg : Option CString) : Checked Int :=
  if missing arg then pure 0 else throw .invalidFree

def processConfigLine (options : Options) (line : Block) (activep : Option Int) :
    Checked (Int × Options) := do
  let line ← trim line (some 0)
  if (← load line 0) = 0 then pure (0, options)
  else
    let cut ← strdelim line (some 0)
    let keyword ← strdup (← tokenText cut)
    match (parseToken keyword).target with
    | .bad => pure (1, options)
    | .unimplemented => pure (-1, options)
    | target =>
      let cut ← strdelim cut.block cut.cursor
      let (status, options) ← target.assign options activep (← tokenText cut)
      if status = 0 then
        let cut ← strdelim cut.block cut.cursor
        let status ← endOfLine (← tokenText cut)
        pure (status, options)
      else pure (status, options)

section
variable {k : List Byte} {entry : String × OpCode}

theorem isspace_lt {c : Byte} (h : isspace c) : c < 65 := by
  simp only [isspace, Bool.or_eq_true, beq_iff_eq, Bool.and_eq_true, decide_eq_true_eq] at h
  rcases h with rfl | h
  · decide
  · exact UInt8.lt_of_le_of_lt h.2 (by decide)

theorem keyword_plain (hentry : entry ∈ keywords) (hk : k.map tolower = bytes entry.1) {c : Byte}
    (hc : c ∈ k) : c ∉ delimiters ∧ c ≠ 35 ∧ c ≠ 0 ∧ c ≠ 10 ∧ ¬ isspace c := by
  have hmem : tolower c ∈ bytes entry.1 := by
    rw [← hk]
    exact List.mem_map_of_mem hc
  have hsafe : ∀ e ∈ keywords, ∀ d ∈ bytes e.1,
      d ∉ delimiters ∧ d ≠ 35 ∧ d ≠ 0 ∧ d ≠ 10 ∧ ¬ isspace d := by decide
  have hlower := hsafe entry hentry _ hmem
  by_cases hcase : 65 ≤ c
  · have hlow : ∀ d ∈ delimiters, d < 65 := by decide
    refine ⟨?_, ?_, ?_, ?_, ?_⟩
    · exact fun hm => absurd (hlow c hm) (UInt8.not_lt.mpr hcase)
    · exact fun he => absurd hcase (by rw [he]; decide)
    · exact fun he => absurd hcase (by rw [he]; decide)
    · exact fun he => absurd hcase (by rw [he]; decide)
    · exact fun hsp => absurd (isspace_lt hsp) (UInt8.not_lt.mpr hcase)
  · have hsame : tolower c = c := by
      unfold tolower
      rw [if_neg]
      simp [hcase]
    rwa [hsame] at hlower

private theorem strcasecmp_keyword (hentry : entry ∈ keywords) (cp : CString) :
    strcasecmp cp (.lit entry.1) = 0 ↔ cp.bytes.map tolower = bytes entry.1 := by
  have hlit : ∀ e ∈ keywords, (CString.lit e.1).bytes.map tolower = bytes e.1 := by decide
  rw [strcasecmp_eq_zero_iff, hlit entry hentry]

theorem parseToken_eq (hentry : entry ∈ keywords) (hk : k.map tolower = bytes entry.1) :
    parseToken (.ofList k) = entry.2 := by
  have h0 : 0 ∉ k := fun hm => (keyword_plain hentry hk hm).2.2.1 rfl
  have hname (e : String × OpCode) (he : e ∈ keywords) :
      strcasecmp (.ofList k) (.lit e.1) = 0 ↔ e.1 = entry.1 := by
    have hinj : ∀ e ∈ keywords, ∀ l ∈ keywords, bytes l.1 = bytes e.1 ↔ e.1 = l.1 := by decide
    rw [strcasecmp_keyword he, CString.ofList_bytes h0, hk]
    exact hinj e he entry hentry
  have hfind : ∀ e ∈ keywords, keywords.find? (fun k => decide (k.1 = e.1)) = some e := by decide
  have hsame : keywords.find? (fun e => decide (strcasecmp (.ofList k) (.lit e.1) = 0)) =
      keywords.find? (fun e => decide (e.1 = entry.1)) := by
    rw [← List.head?_filter, ← List.head?_filter]
    congr 1
    apply List.filter_congr
    intro e he
    simp only [hname e he]
  simp only [parseToken, hsame, hfind entry hentry]

theorem parseToken_entry {cp : CString} (h : (parseToken cp).target ≠ .bad) :
    ∃ entry ∈ keywords, cp.bytes.map tolower = bytes entry.1 ∧ parseToken cp = entry.2 := by
  cases hfind : keywords.find? fun k => decide (strcasecmp cp (.lit k.1) = 0) with
  | none =>
    have hbad : parseToken cp = .oBadOption := by simp only [parseToken, hfind]
    exact absurd (by rw [hbad]; rfl) h
  | some entry =>
    have hentry := List.mem_of_find?_eq_some hfind
    have hcmp : strcasecmp cp (.lit entry.1) = 0 := by simpa using List.find?_some hfind
    exact ⟨entry, hentry, (strcasecmp_keyword hentry cp).mp hcmp, by simp only [parseToken, hfind]⟩

end

def processText (options : Options) (text : List Byte) (activep : Option Int) :
    Checked (Int × Options) :=
  if text = [] then pure (0, options)
  else do
    let key := nextWord (some text)
    let keyword ← strdup key.text
    match (parseToken keyword).target with
    | .bad => pure (1, options)
    | .unimplemented => pure (-1, options)
    | target =>
      let arg := nextWord key.rest
      let (status, options) ← target.assign options activep arg.text
      if status = 0 then
        let status ← endOfLine (nextWord arg.rest).text
        pure (status, options)
      else pure (status, options)

section
variable {pre s : List Byte} {cut : Cut (Option Nat)} {w : Word}

theorem zero_not_mem_skipBlanks {l : List Byte} (h : 0 ∉ l) : 0 ∉ skipBlanks l :=
  fun hm => h ((List.dropWhile_sublist _).subset hm)

private theorem zero_not_mem_afterDelimiter {c : Byte} {u : List Byte} (h : 0 ∉ u) :
    0 ∉ afterDelimiter c u := by
  have hskip := zero_not_mem_skipBlanks h
  unfold afterDelimiter
  split
  · next v hv =>
    rw [hv] at hskip
    split
    · exact hskip
    · exact zero_not_mem_skipBlanks fun hm => hskip (List.mem_cons_of_mem _ hm)
  · exact hskip

theorem firstWord_noNul (hw : 0 ∉ s) : (firstWord s).NoNul := by
  have htake : 0 ∉ s.takeWhile (· ∉ delimiters) := fun hm => hw (List.takeWhile_subset _ hm)
  have hdrop : 0 ∉ s.dropWhile (· ∉ delimiters) :=
    fun hm => hw ((List.dropWhile_sublist _).subset hm)
  unfold firstWord Word.NoNul
  split
  · simpa using hw
  · next c u hu =>
    rw [hu] at hdrop
    have hu0 : 0 ∉ u := fun hm => hdrop (List.mem_cons_of_mem _ hm)
    simp only
    split
    · split
      · simp
      · next d v hv =>
        have hquote : 0 ∉ u.takeWhile (· ∉ quote) := fun hm => hu0 (List.takeWhile_subset _ hm)
        have hv0 : 0 ∉ v := by
          intro hm
          have hmem : 0 ∈ u.dropWhile (· ∉ quote) := by
            rw [hv]
            exact List.mem_cons_of_mem _ hm
          exact hu0 ((List.dropWhile_sublist _).subset hmem)
        constructor
        · intro t ht
          rw [← Option.mem_some_iff.mp ht, List.mem_append]
          exact fun hm => hm.elim htake hquote
        · intro r hr
          rw [← Option.mem_some_iff.mp hr]
          exact zero_not_mem_skipBlanks hv0
    · constructor
      · intro t ht
        rw [← Option.mem_some_iff.mp ht]
        exact htake
      · intro r hr
        rw [← Option.mem_some_iff.mp hr]
        exact zero_not_mem_afterDelimiter hu0

theorem nextWord_noNul {s : Option (List Byte)} (hs : ∀ u ∈ s, 0 ∉ u) : (nextWord s).NoNul := by
  cases s with
  | none => simp [nextWord, Word.NoNul]
  | some u => exact firstWord_noNul (zero_not_mem_trimmed (hs u rfl))

theorem strdelim_next (h : w.ShownBy pre cut) (hw : w.NoNul) :
    ∃ pre' cut', strdelim cut.block cut.cursor = .ok cut' ∧ (nextWord w.rest).ShownBy pre' cut' := by
  rcases h.cursor with ⟨hrest, hcursor⟩ | ⟨r, pre', post, hrest, hcursor, hblock⟩
  · rw [hrest, hcursor]
    exact ⟨[], _, rfl, rfl, rfl⟩
  · obtain ⟨cut', hrun, hshown⟩ := strdelim_spec pre' post (hw.2 r hrest)
    exact ⟨pre', cut', by rw [hblock, hcursor, hrun], hrest ▸ hshown⟩

/-- `process_config_line` sees only the text of the line. -/
theorem processConfigLine_eq (options : Options) (line : List Byte) (activep : Option Int) :
    processConfigLine options (line ++ [0]) activep = processText options (lineText line) activep := by
  obtain ⟨post, hb⟩ := terminated_split line
  have hs0 : 0 ∉ line.takeWhile (· ≠ 0) := not_mem_takeWhile_ne_zero line
  rw [hb, lineText]
  generalize line.takeWhile (· ≠ 0) = s at hs0
  obtain ⟨mid, htrim, -, -⟩ := trim_spec [] s post (p := 0) rfl hs0
  have hw0 : 0 ∉ trimmed s := zero_not_mem_trimmed hs0
  simp only [List.nil_append] at htrim
  simp only [processConfigLine, htrim, except_ok_bind]
  generalize trimmed s = w at hw0
  generalize mid ++ post = post
  cases w with
  | nil => simp [processText, load]
  | cons c w =>
    have hc : c ≠ 0 := fun he => hw0 (by simp [he])
    have hload : load ((c :: w) ++ 0 :: post) 0 = .ok c := rfl
    obtain ⟨cut, hkey, hshown⟩ := strdelim_spec [] post hw0
    have hword : (nextWord (some (c :: w))).NoNul := nextWord_noNul (by simpa using hw0)
    simp only [List.nil_append, List.length_nil] at hkey
    rw [hload, processText, if_neg (by simp)]
    simp only [except_ok_bind, hc, if_false, hkey, hshown.tokenText hword]
    cases strdup (nextWord (some (c :: w))).text with
    | error e => rfl
    | ok keyword =>
      simp only [except_ok_bind]
      obtain ⟨pre', cut', harg, hshown'⟩ := strdelim_next hshown hword
      have hword' := nextWord_noNul hword.2
      obtain ⟨pre'', cut'', hend, hshown''⟩ := strdelim_next hshown' hword'
      simp only [harg, except_ok_bind, hshown'.tokenText hword', hend,
        hshown''.tokenText (nextWord_noNul hword'.2)]

end

end Stonesh
