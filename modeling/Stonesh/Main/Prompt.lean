import Stonesh.Main.Execution

/-!
# The prompt

Without a host in the command `main` prompts for one. A round takes the text of a line without its
last byte, which is the newline only if the line ends with one inside the buffer; and a round that
has taken nothing is followed by another, at the end of the input as well. The host is therefore
the first non-empty name a round takes, and without such a name the loop does not end.
-/

namespace Stonesh

open CLib

def typedName (line : List Byte) : List Byte := (line.takeWhile (· ≠ 0)).dropLast

def firstName (lines : List (List Byte)) : Option (List Byte) := (lines.map typedName).find? (· ≠ [])

/-- A name that is typed behind lines without one, and for which there is memory in time. -/
def Typed (malloc : Nat → Bool) (round : Nat) (lines : List (List Byte)) (name : List Byte) : Prop :=
  ∃ before line after, lines = before ++ line :: after ∧ (∀ l ∈ before, typedName l = []) ∧
    typedName line = name ∧ name ≠ [] ∧ ∀ k ≤ before.length, malloc (round + k) = true

section
variable {malloc : Nat → Bool} {fuel round : Nat} {line : List Byte} {lines : List (List Byte)}
  {host : CString} {name : List Byte}

theorem zero_not_mem_typedName (line : List Byte) : 0 ∉ typedName line :=
  fun hm => not_mem_takeWhile_ne_zero line (List.dropLast_subset _ hm)

theorem typedName_ne_nil_iff : typedName line ≠ [] ↔ 2 ≤ (line.takeWhile (· ≠ 0)).length := by
  rw [typedName, ← List.length_pos_iff, List.length_dropLast]
  omega

theorem firstName_cons (hline : typedName line = []) : firstName (line :: lines) = firstName lines := by
  simp [firstName, hline]

theorem firstName_cons_of_ne_nil (hline : typedName line ≠ []) :
    firstName (line :: lines) = some (typedName line) := by
  simp [firstName, hline]

theorem firstName_isSome_iff :
    (∃ name, firstName lines = some name) ↔ ∃ line ∈ lines, typedName line ≠ [] := by
  rw [← Option.isSome_iff_exists, firstName, List.find?_isSome]
  simp

theorem malloc_of_typed (h : Typed malloc round lines name) : malloc round = true := by
  obtain ⟨_, _, _, _, _, _, _, henough⟩ := h
  exact henough 0 (Nat.zero_le _)

theorem not_typed_nil : ¬ Typed malloc round [] name := by
  rintro ⟨before, line, after, hsplit, _⟩
  simp at hsplit

theorem typed_cons_blank (hmalloc : malloc round = true) (hline : typedName line = []) :
    Typed malloc round (line :: lines) name ↔ Typed malloc (round + 1) lines name := by
  constructor
  · rintro ⟨before, line', after, hsplit, hblank, hname, hne, henough⟩
    cases before with
    | nil =>
      have hsame : line = line' := (List.cons.inj hsplit).1
      rw [← hsame, hline] at hname
      exact absurd hname.symm hne
    | cons l before =>
      refine ⟨before, line', after, (List.cons.inj hsplit).2, ?_, hname, hne, ?_⟩
      · exact fun l' hl' => hblank l' (List.mem_cons_of_mem _ hl')
      · intro k hk
        rw [Nat.add_assoc, Nat.add_comm 1 k]
        exact henough (k + 1) (by simpa using hk)
  · rintro ⟨before, line', after, hsplit, hblank, hname, hne, henough⟩
    refine ⟨line :: before, line', after, by rw [hsplit, List.cons_append], ?_, hname, hne, ?_⟩
    · simpa using ⟨hline, hblank⟩
    · intro k hk
      cases k with
      | zero => exact hmalloc
      | succ k =>
        rw [Nat.add_comm k, ← Nat.add_assoc]
        exact henough k (by simpa using hk)

theorem typed_cons_name (hmalloc : malloc round = true) (hline : typedName line ≠ []) :
    Typed malloc round (line :: lines) name ↔ typedName line = name := by
  constructor
  · rintro ⟨before, line', after, hsplit, hblank, hname, _, _⟩
    cases before with
    | nil => rw [(List.cons.inj hsplit).1, hname]
    | cons l before =>
      have hsame : line = l := (List.cons.inj hsplit).1
      exact absurd (hsame ▸ hblank l (by simp)) hline
  · intro hname
    refine ⟨[], line, lines, rfl, by simp, hname, hname ▸ hline, ?_⟩
    intro k hk
    rw [Nat.le_zero.mp hk]
    exact hmalloc

theorem firstName_of_typed (h : Typed malloc round lines name) : firstName lines = some name := by
  obtain ⟨before, line, after, rfl, hblank, hname, hne, -⟩ := h
  induction before with
  | nil => rw [List.nil_append, firstName_cons_of_ne_nil (by rwa [hname]), hname]
  | cons l before ih =>
    rw [List.cons_append, firstName_cons (hblank l (by simp))]
    exact ih fun l' hl' => hblank l' (List.mem_cons_of_mem _ hl')

theorem promptHost_succ :
    promptHost malloc (fuel + 1) round lines =
      if malloc round then
        if typedName (lines.headD []) = [] then promptHost malloc fuel (round + 1) lines.tail
        else .ok (.ofList (typedName (lines.headD [])))
      else .error (.cleanExit exitFailure .undefined) := rfl

/-- The loop ends with a name exactly if the name is typed. -/
theorem promptHost_ok_iff :
    (∃ fuel, promptHost malloc fuel round lines = .ok host) ↔ Typed malloc round lines host.bytes := by
  constructor
  · rintro ⟨fuel, h⟩
    induction fuel generalizing round lines with
    | zero => simp [promptHost] at h
    | succ fuel ih =>
      rw [promptHost_succ] at h
      split at h
      · next hmalloc =>
        cases lines with
        | nil => exact absurd (ih h) not_typed_nil
        | cons line lines =>
          rw [List.headD_cons, List.tail_cons] at h
          split at h
          · next hblank => exact (typed_cons_blank hmalloc hblank).mpr (ih h)
          · next hne =>
            apply (typed_cons_name hmalloc hne).mpr
            rw [← Except.ok.inj h, CString.ofList_bytes (zero_not_mem_typedName _)]
      · simp at h
  · intro h
    induction lines generalizing round with
    | nil => exact absurd h not_typed_nil
    | cons line lines ih =>
      have hmalloc := malloc_of_typed h
      by_cases hblank : typedName line = []
      · obtain ⟨fuel, hrun⟩ := ih ((typed_cons_blank hmalloc hblank).mp h)
        refine ⟨fuel + 1, ?_⟩
        rw [promptHost_succ, if_pos hmalloc, List.headD_cons, if_pos hblank]
        exact hrun
      · have hname := (typed_cons_name hmalloc hblank).mp h
        refine ⟨1, ?_⟩
        rw [promptHost_succ, if_pos hmalloc, List.headD_cons, if_neg hblank, hname]
        exact congrArg Except.ok (CString.ext (CString.ofList_bytes host.noNul))

theorem promptHost_ok (h : promptHost malloc fuel round lines = .ok host) :
    firstName lines = some host.bytes :=
  firstName_of_typed (promptHost_ok_iff.mp ⟨fuel, h⟩)

theorem promptHost_cleanExit {status : Int} {hostent : HostentPtr}
    (h : promptHost malloc fuel round lines = .error (.cleanExit status hostent)) :
    ∃ k, malloc k = false := by
  induction fuel generalizing round lines with
  | zero => simp [promptHost] at h
  | succ fuel ih =>
    rw [promptHost_succ] at h
    split at h
    · split at h
      · exact ih h
      · simp at h
    · next hfails => exact ⟨round, by simpa using hfails⟩

theorem promptHost_of_firstName (hname : firstName lines = some name) (malloc : Nat → Bool)
    (round : Nat) :
    ∃ fuel, promptHost malloc fuel round lines = .ok (.ofList name) ∨
      promptHost malloc fuel round lines = .error (.cleanExit exitFailure .undefined) ∧
        ∃ k, malloc k = false := by
  induction lines generalizing round with
  | nil => simp [firstName] at hname
  | cons line lines ih =>
    by_cases hmalloc : malloc round = true
    · by_cases hblank : typedName line = []
      · rw [firstName_cons hblank] at hname
        obtain ⟨fuel, hrun⟩ := ih hname (round + 1)
        refine ⟨fuel + 1, ?_⟩
        rw [promptHost_succ, if_pos hmalloc, List.headD_cons, if_pos hblank]
        exact hrun
      · rw [firstName_cons_of_ne_nil hblank] at hname
        refine ⟨1, Or.inl ?_⟩
        rw [promptHost_succ, if_pos hmalloc, List.headD_cons, if_neg hblank, ← Option.some.inj hname]
    · refine ⟨1, Or.inr ⟨?_, round, by simpa using hmalloc⟩⟩
      rw [promptHost_succ, if_neg hmalloc]

theorem promptHost_of_malloc (k round : Nat) (lines : List (List Byte))
    (hfails : malloc (round + k) = false) :
    ∃ fuel, (∃ host, promptHost malloc fuel round lines = .ok host ∧ host.bytes ≠ []) ∨
      promptHost malloc fuel round lines = .error (.cleanExit exitFailure .undefined) := by
  induction k generalizing round lines with
  | zero =>
    refine ⟨1, Or.inr ?_⟩
    rw [promptHost_succ, if_neg (by simpa using hfails)]
  | succ k ih =>
    by_cases hmalloc : malloc round = true
    · by_cases hblank : typedName (lines.headD []) = []
      · obtain ⟨fuel, hrun⟩ := ih (round + 1) lines.tail (by rwa [Nat.add_assoc, Nat.add_comm 1 k])
        refine ⟨fuel + 1, ?_⟩
        rw [promptHost_succ, if_pos hmalloc, if_pos hblank]
        exact hrun
      · refine ⟨1, Or.inl ⟨.ofList (typedName (lines.headD [])), ?_, ?_⟩⟩
        · rw [promptHost_succ, if_pos hmalloc, if_neg hblank]
        · rwa [CString.ofList_bytes (zero_not_mem_typedName _)]
    · refine ⟨1, Or.inr ?_⟩
      rw [promptHost_succ, if_neg hmalloc]

end

/-- The loop ends with a host that is not empty, or it is left for `clean_exit`. -/
def PromptEnds (malloc : Nat → Bool) (stdin : List Byte) : Prop :=
  ∃ fuel, (∃ host, promptHost malloc fuel 0 (chunks maxHostNameLen stdin) = .ok host ∧ host.bytes ≠ []) ∨
    promptHost malloc fuel 0 (chunks maxHostNameLen stdin) = .error (.cleanExit exitFailure .undefined)

/-- The end of the input does not end the loop: only a read with text in front of its last byte
does, or want of memory. -/
theorem promptEnds_iff (malloc : Nat → Bool) (stdin : List Byte) :
    PromptEnds malloc stdin ↔ (∃ k, malloc k = false) ∨
      ∃ line ∈ chunks maxHostNameLen stdin, 2 ≤ (line.takeWhile (· ≠ 0)).length := by
  have hname : (∃ line ∈ chunks maxHostNameLen stdin, 2 ≤ (line.takeWhile (· ≠ 0)).length) ↔
      ∃ name, firstName (chunks maxHostNameLen stdin) = some name := by
    rw [firstName_isSome_iff]
    simp only [typedName_ne_nil_iff]
  rw [hname]
  constructor
  · rintro ⟨fuel, ⟨host, hrun, -⟩ | hrun⟩
    · exact Or.inr ⟨_, promptHost_ok hrun⟩
    · exact Or.inl (promptHost_cleanExit hrun)
  · rintro (⟨k, hfails⟩ | ⟨name, hfirst⟩)
    · exact promptHost_of_malloc k 0 _ (by rwa [Nat.zero_add])
    · obtain ⟨fuel, hrun | ⟨hrun, -⟩⟩ := promptHost_of_firstName hfirst malloc 0
      · refine ⟨fuel, Or.inl ⟨_, hrun, ?_⟩⟩
        have hne := List.find?_some (promptHost_ok hrun)
        simpa using hne
      · exact ⟨fuel, Or.inr hrun⟩

/-- With no input at all the loop prompts for ever. -/
theorem promptEnds_empty : ¬ ∀ stdin, PromptEnds (fun _ => true) stdin := by
  intro h
  obtain ⟨fuel, ⟨host, hrun, -⟩ | hrun⟩ := h []
  · have hfirst := promptHost_ok hrun
    simp [firstName] at hfirst
  · obtain ⟨k, hk⟩ := promptHost_cleanExit hrun
    simp at hk

/-- The first line of the input that is not empty. -/
def firstLine (stdin : List Byte) : Option (List Byte) := (fileLines stdin).find? (· ≠ [])

private theorem flatten_blank {ls : List (List Byte)} (h : ∀ l ∈ ls, l = []) :
    (ls.map (· ++ [10])).flatten = List.replicate ls.length (10 : Byte) := by
  induction ls with
  | nil => rfl
  | cons l ls ih =>
    rw [List.map_cons, List.flatten_cons, ih fun l' hl' => h l' (List.mem_cons_of_mem _ hl'),
      h l (by simp)]
    rfl

private theorem firstLine_split {stdin l : List Byte} (h : firstLine stdin = some l) :
    l ≠ [] ∧ 10 ∉ l ∧ ∃ n, (l ∈ (splitLines stdin).1 ∧
        ∃ s, stdin = List.replicate n 10 ++ (l ++ 10 :: s)) ∨
      l ∉ (splitLines stdin).1 ∧ stdin = List.replicate n 10 ++ l := by
  obtain ⟨hls, hlast⟩ := newline_not_mem_splitLines stdin
  have hjoin := joinLines_splitLines stdin
  have hne : l ≠ [] := by simpa using List.find?_some h
  rw [firstLine, fileLines, List.find?_append] at h
  generalize (splitLines stdin).1 = ls at *
  generalize (splitLines stdin).2 = last at *
  cases hfind : ls.find? (· ≠ []) with
  | some l' =>
    have hsame : l' = l := by
      rw [hfind] at h
      exact Option.some.inj h
    subst hsame
    obtain ⟨-, before, after, rfl, hbefore⟩ := List.find?_eq_some_iff_append.mp hfind
    have hblank : ∀ a ∈ before, a = [] := by simpa using hbefore
    refine ⟨hne, hls l' (by simp), before.length, Or.inl ⟨by simp, joinLines after last, ?_⟩⟩
    rw [← hjoin, ← flatten_blank hblank]
    simp [joinLines]
  | none =>
    have hblank : ∀ a ∈ ls, a = [] := by simpa using List.find?_eq_none.mp hfind
    have hsame : last = l := by
      rw [hfind, Option.none_or, List.find?_cons] at h
      split at h
      · exact Option.some.inj h
      · simp at h
    subst hsame
    refine ⟨hne, hlast, ls.length, Or.inr ⟨fun hm => hne (hblank _ hm), ?_⟩⟩
    rw [← hjoin, joinLines, flatten_blank hblank]

private theorem firstName_blanks (n : Nat) (s : List Byte) :
    firstName (chunks maxHostNameLen (List.replicate n 10 ++ s)) =
      firstName (chunks maxHostNameLen s) := by
  induction n with
  | zero => rfl
  | succ n ih =>
    have hchunk : chunks maxHostNameLen ([] ++ 10 :: (List.replicate n 10 ++ s)) =
        ([] ++ [10]) :: chunks maxHostNameLen (List.replicate n 10 ++ s) :=
      chunks_line (by simp) (by decide)
    rw [List.replicate_succ, List.cons_append, ← List.nil_append (10 :: _), hchunk,
      firstName_cons (by decide), ih]

private theorem firstName_full {l s : List Byte} (hl : 10 ∉ l) (h0 : 0 ∉ l) (hfull : 63 ≤ l.length) :
    firstName (chunks maxHostNameLen (l ++ s)) = some (l.take 62) := by
  have hchunk : chunks maxHostNameLen (l ++ s) = l.take 63 :: chunks maxHostNameLen (l.drop 63 ++ s) :=
    chunks_full (by decide) hl hfull
  have hname : typedName (l.take 63) = l.take 62 := by
    rw [typedName, takeWhile_ne_of_not_mem fun hm => h0 (List.mem_of_mem_take hm),
      List.dropLast_eq_take, List.length_take, List.take_take]
    congr 1
    omega
  rw [hchunk, firstName_cons_of_ne_nil, hname]
  rw [hname, ← List.length_pos_iff, List.length_take]
  omega

private theorem firstName_firstLine {stdin l : List Byte} (h : firstLine stdin = some l) (h0 : 0 ∉ l) :
    firstName (chunks maxHostNameLen stdin) = some l ↔
      l ∈ (splitLines stdin).1 ∧ l.length ≤ 62 := by
  obtain ⟨hne, hl, n, ⟨hended, s, hstdin⟩ | ⟨hopen, hstdin⟩⟩ := firstLine_split h
  · rw [hstdin, firstName_blanks, ← hstdin]
    by_cases hfits : l.length ≤ 62
    · have hchunk : chunks maxHostNameLen (l ++ 10 :: s) = (l ++ [10]) :: chunks maxHostNameLen s :=
        chunks_line hl (by rw [maxHostNameLen]; omega)
      have hname : typedName (l ++ [10]) = l := by
        rw [typedName, takeWhile_ne_of_not_mem (by simpa using h0), List.dropLast_concat]
      rw [hchunk, firstName_cons_of_ne_nil (by rwa [hname]), hname]
      exact iff_of_true rfl ⟨hended, hfits⟩
    · rw [firstName_full hl h0 (by omega)]
      apply iff_of_false
      · intro he
        have hlen := congrArg List.length (Option.some.inj he)
        rw [List.length_take] at hlen
        omega
      · exact fun hfit => hfits hfit.2
  · have hnot : ¬ (l ∈ (splitLines stdin).1 ∧ l.length ≤ 62) := fun hfit => hopen hfit.1
    rw [iff_false_right hnot, hstdin, firstName_blanks]
    by_cases hfits : l.length ≤ 63
    · -- the last byte of the line is taken for its newline
      have hchunk : chunks maxHostNameLen l = [l] := chunks_last hl hne hfits
      have hname : typedName l = l.dropLast := by rw [typedName, takeWhile_ne_of_not_mem h0]
      rw [hchunk]
      intro hfirst
      have hpos := List.length_pos_iff.mpr hne
      by_cases hnil : typedName l = []
      · rw [firstName_cons hnil] at hfirst
        simp [firstName] at hfirst
      · rw [firstName_cons_of_ne_nil hnil, hname] at hfirst
        have hlen := congrArg List.length (Option.some.inj hfirst)
        rw [List.length_dropLast] at hlen
        omega
    · have hfull := firstName_full (s := []) hl h0 (by omega)
      rw [List.append_nil] at hfull
      rw [hfull]
      intro he
      have hlen := congrArg List.length (Option.some.inj he)
      rw [List.length_take] at hlen
      omega

/-- The host of the request is the line, or the request is refused: because the line exceeds the
buffer, or because an allocation fails. -/
def TakesLine (w : World) (options : Options) (command : Command) (l : List Byte) : Prop :=
  ∃ fuel, (∃ host, requestedHost w fuel options command = .ok host ∧ host.bytes = l) ∨
    requestedHost w fuel options command = .error (.cleanExit exitFailure .undefined) ∧
      (62 < l.length ∨ ∃ k, w.hostMalloc k = false)

/-- In all runs on this input the host is the first line with text, exactly if that line has no
NUL, ends with a newline and fits the buffer together with it. -/
theorem requestedHost_line_iff {stdin l : List Byte} (h : firstLine stdin = some l) :
    (∀ (w : World) (options : Options) (command : Command), w.stdin = stdin → command.host = none →
        options.host = none → TakesLine w options command l) ↔
      0 ∉ l ∧ l ∈ (splitLines stdin).1 ∧ l.length ≤ 62 := by
  have hprompt {w : World} {options : Options} {command : Command} (hstdin : w.stdin = stdin)
      (hcommand : command.host = none) (hhost : options.host = none) (fuel : Nat) :
      requestedHost w fuel options command =
        promptHost w.hostMalloc fuel 0 (chunks maxHostNameLen stdin) := by
    rw [requestedHost, hcommand, hhost, hstdin]
  constructor
  · intro htakes
    obtain ⟨fuel, ⟨host, hrun, hbytes⟩ | ⟨hrun, -⟩⟩ := htakes { bobWorld "" "" "" "" with stdin }
      staticOptions ⟨none, none, none, 0⟩ rfl rfl rfl
    · rw [hprompt rfl rfl rfl] at hrun
      have h0 : 0 ∉ l := hbytes ▸ host.noNul
      have hfirst := promptHost_ok hrun
      rw [hbytes, firstName_firstLine h h0] at hfirst
      exact ⟨h0, hfirst⟩
    · rw [hprompt rfl rfl rfl] at hrun
      obtain ⟨k, hk⟩ := promptHost_cleanExit hrun
      simp [bobWorld] at hk
  · rintro ⟨h0, hfits⟩ w options command hstdin hcommand hhost
    have hfirst := (firstName_firstLine h h0).mpr hfits
    obtain ⟨fuel, hrun⟩ := promptHost_of_firstName hfirst w.hostMalloc 0
    refine ⟨fuel, ?_⟩
    rw [hprompt hstdin hcommand hhost]
    rcases hrun with hrun | ⟨hrun, hfails⟩
    · exact Or.inl ⟨_, hrun, CString.ofList_bytes h0⟩
    · exact Or.inr ⟨hrun, Or.inr hfails⟩

/-- A line with its newline. -/
theorem requestedHost_line_web : firstLine (bytes "\nweb\n") = some (bytes "web") ∧
    ∀ (w : World) (options : Options) (command : Command), w.stdin = bytes "\nweb\n" →
      command.host = none → options.host = none → TakesLine w options command (bytes "web") := by
  have hfirst : firstLine (bytes "\nweb\n") = some (bytes "web") := by decide
  exact ⟨hfirst, (requestedHost_line_iff hfirst).mpr (by decide)⟩

/-- The last line of an input that does not end with a newline loses its last character. -/
theorem requestedHost_line_unterminated :
    ¬ ∀ (stdin l : List Byte), firstLine stdin = some l →
      ∀ (w : World) (options : Options) (command : Command), w.stdin = stdin → command.host = none →
        options.host = none → TakesLine w options command l := by
  intro h
  obtain ⟨fuel, ⟨host, hrun, hbytes⟩ | ⟨hrun, -⟩⟩ := h (bytes "web1") (bytes "web1") (by decide)
    { bobWorld "" "" "" "" with stdin := bytes "web1" } staticOptions ⟨none, none, none, 0⟩ rfl rfl rfl
  · have hfirst := promptHost_ok hrun
    rw [hbytes] at hfirst
    revert hfirst
    decide
  · obtain ⟨k, hk⟩ := promptHost_cleanExit hrun
    simp [bobWorld] at hk

end Stonesh
