import Stonesh.Main.Program

/-!
# The words of the command

`main` cuts the string behind `-c` with `strtok` in place. Its first word is the host or the proxy
keyword, and what it leaves at `cval` is the string up to the end of that word, blanks in front of
it included.
-/

namespace Stonesh

open CLib

def leadingBlanks (s : List Byte) : List Byte := s.takeWhile (· = 32)

def commandWord (s : List Byte) : List Byte := (s.dropWhile (· = 32)).takeWhile (· ≠ 32)

/-- The command behind its first word and the one blank that ends the word. -/
def behindWord (s : List Byte) : List Byte := ((s.dropWhile (· = 32)).dropWhile (· ≠ 32)).tail

/-- What `strtok` leaves at `cval`. -/
def cutCommand (s : List Byte) : CString := .ofList (leadingBlanks s ++ commandWord s)

section
variable {s : List Byte} {c : Byte}

theorem command_split (s : List Byte) :
    s = leadingBlanks s ++ commandWord s ∧ behindWord s = [] ∨
      s = leadingBlanks s ++ (commandWord s ++ 32 :: behindWord s) := by
  have hsplit : s = leadingBlanks s ++
      (commandWord s ++ (s.dropWhile (· = 32)).dropWhile (· ≠ 32)) := by
    rw [leadingBlanks, commandWord, List.takeWhile_append_dropWhile, List.takeWhile_append_dropWhile]
  cases hu : (s.dropWhile (· = 32)).dropWhile (· ≠ 32) with
  | nil =>
    rw [hu, List.append_nil] at hsplit
    exact Or.inl ⟨hsplit, by rw [behindWord, hu]; rfl⟩
  | cons c r =>
    have hc : c = 32 := by simpa using Text.dropWhile_head hu
    rw [hu, hc] at hsplit
    rw [behindWord, hu]
    exact Or.inr hsplit

theorem mem_leadingBlanks (h : c ∈ leadingBlanks s) : c = 32 := by
  simpa using List.mem_takeWhile_imp h

theorem mem_commandWord (h : c ∈ commandWord s) : c ∈ s ∧ c ≠ 32 := Text.mem_firstToken h

theorem mem_behindWord (h : c ∈ behindWord s) : c ∈ s :=
  (List.dropWhile_sublist _).subset ((List.dropWhile_sublist _).subset (List.mem_of_mem_tail h))

theorem zero_not_mem_commandWord (s : CString) : 0 ∉ commandWord s.bytes :=
  fun hm => s.noNul (mem_commandWord hm).1

theorem zero_not_mem_secondWord (s : CString) : 0 ∉ commandWord (behindWord s.bytes) :=
  fun hm => s.noNul (mem_behindWord (mem_commandWord hm).1)

private theorem zero_not_mem_cutCommand (h : 0 ∉ s) : 0 ∉ leadingBlanks s ++ commandWord s := by
  intro hm
  rcases List.mem_append.mp hm with hm | hm
  · exact absurd (mem_leadingBlanks hm) (by decide)
  · exact h (mem_commandWord hm).1

theorem cutCommand_bytes (s : CString) :
    (cutCommand s.bytes).bytes = leadingBlanks s.bytes ++ commandWord s.bytes :=
  CString.ofList_bytes (zero_not_mem_cutCommand s.noNul)

end

section
variable {front behind : List Byte}

private theorem parse_secondWord (h0 : 0 ∉ behind) {cval : CString}
    (hcval : commandWord behind ≠ [] → ∀ x, str (front ++ x) 0 = .ok cval) :
    (do
      let cut ← checked (strtok (front ++ (behind ++ [0])) front.length [32])
      match ← checked (tokenText cut) with
      | none => throw (.cleanExit exitFailure .undefined)
      | some host => pure ⟨some (← checked (str cut.block 0)), some host, none, 1⟩ :
        Except Stop Command) =
      if commandWord behind = [] then .error (.cleanExit exitFailure .undefined)
      else .ok ⟨some cval, some (.ofList (commandWord behind)), none, 1⟩ := by
  rcases strtok_word front [] 32 rfl h0 (rfl : leadingBlanks behind = _)
    (rfl : commandWord behind = _) rfl with ⟨hnil, hcut⟩ | ⟨hne, gap, hgap, hcut⟩
  · rw [hcut, if_pos hnil]
    rfl
  · change gap = [0] ∨ gap = [] ∧ behindWord behind = [] at hgap
    change strtok _ _ _ = .ok ⟨_, _, front ++ (leadingBlanks behind ++
      (commandWord behind ++ (gap ++ (behindWord behind ++ [0]))))⟩ at hcut
    obtain ⟨v, hv⟩ := gap_terminates hgap []
    have hhost (cursor : Nat) : tokenText ⟨some (front ++ leadingBlanks behind).length, cursor,
        front ++ (leadingBlanks behind ++ (commandWord behind ++ 0 :: v))⟩ =
          .ok (some (.ofList (commandWord behind))) := by
      rw [← List.append_assoc]
      exact tokenText_at rfl fun hm => h0 (mem_commandWord hm).1
    rw [hcut, if_neg hne, hv]
    simp only [checked_ok, except_ok_bind, hhost, hcval hne, except_pure]

private theorem parse_rest (h0 : 0 ∉ behind) {token : Option Nat} {host : Option CString}
    {cval : CString} (hhost : ∀ cursor : Nat, tokenText ⟨token, cursor, front ++ (behind ++ [0])⟩ = .ok host)
    (hcval : str (front ++ (behind ++ [0])) 0 = .ok cval) :
    (do
      let rest ← checked (strtok (front ++ (behind ++ [0])) front.length [])
      let host ← checked (tokenText { rest with token := token })
      pure ⟨some (← checked (str rest.block 0)), host, ← checked (tokenText rest), 0⟩ :
        Except Stop Command) =
      .ok ⟨some cval, host, if behind = [] then none else some (.ofList behind), 0⟩ := by
  by_cases hnil : behind = []
  · have hcut : strtok (front ++ (behind ++ [0])) front.length [] =
        .ok ⟨none, front.length + behind.length, front ++ (behind ++ [0])⟩ :=
      strtok_none front [] rfl h0 (by simp [hnil])
    rw [hcut, if_pos hnil]
    simp only [checked_ok, except_ok_bind, hhost, hcval, tokenText_none, except_pure]
  · have hcut : strtok (front ++ (([] ++ behind) ++ [0])) front.length [] = .ok _ :=
      strtok_last front [] rfl h0 (by simp) hnil (by simp)
    have hrest (cursor : Nat) : tokenText ⟨some front.length, cursor, front ++ (behind ++ [0])⟩ =
        .ok (some (.ofList behind)) := tokenText_at rfl h0
    simp only [List.nil_append, List.append_nil] at hcut
    rw [hcut, if_neg hnil]
    simp only [checked_ok, except_ok_bind, hhost, hcval, hrest, except_pure]

end

theorem parseCommand_eq {options : Options} {keyword : CString} (s : CString)
    (hkeyword : options.proxyKeyword = some keyword) :
    parseCommand options (some s) =
      if commandWord s.bytes = [] then .error (.fault .nullArgument)
      else if commandWord s.bytes = keyword.bytes then
        if commandWord (behindWord s.bytes) = [] then .error (.cleanExit exitFailure .undefined)
        else .ok ⟨some (cutCommand s.bytes), some (.ofList (commandWord (behindWord s.bytes))), none, 1⟩
      else .ok ⟨some (cutCommand s.bytes), some (.ofList (commandWord s.bytes)),
        if behindWord s.bytes = [] then none else some (.ofList (behindWord s.bytes)), 0⟩ := by
  have hword0 := zero_not_mem_commandWord s
  have hbehind0 : 0 ∉ behindWord s.bytes := fun hm => s.noNul (mem_behindWord hm)
  have hcut0 := zero_not_mem_cutCommand s.noNul
  rcases strtok_word [] [] 32 rfl s.noNul (rfl : leadingBlanks s.bytes = _)
    (rfl : commandWord s.bytes = _) rfl with ⟨hnil, hcut⟩ | ⟨hne, gap, hgap, hcut⟩
  · simp only [List.nil_append, List.length_nil] at hcut
    rw [parseCommand, CString.block, hcut, if_pos hnil]
    rfl
  · change gap = [0] ∨ gap = [] ∧ behindWord s.bytes = [] at hgap
    change strtok (s.bytes ++ [0]) 0 [32] = .ok ⟨some (leadingBlanks s.bytes).length,
      (leadingBlanks s.bytes ++ (commandWord s.bytes ++ gap)).length,
      leadingBlanks s.bytes ++ (commandWord s.bytes ++ (gap ++ (behindWord s.bytes ++ [0])))⟩ at hcut
    rw [if_neg hne, parseCommand, CString.block, hcut, cutCommand]
    generalize leadingBlanks s.bytes = lead at *
    generalize commandWord s.bytes = word at *
    generalize behindWord s.bytes = behind at *
    -- the word is terminated by the cut, or by the end of the string
    obtain ⟨v, hv⟩ := gap_terminates hgap []
    have hfront : lead ++ (word ++ (gap ++ (behind ++ [0]))) =
        (lead ++ (word ++ gap)) ++ (behind ++ [0]) := by simp
    have htoken (cursor : Nat) :
        tokenText ⟨some lead.length, cursor, lead ++ (word ++ (gap ++ (behind ++ [0])))⟩ =
          .ok (some (.ofList word)) := by
      rw [hv]
      exact tokenText_at rfl hword0
    have hcval : str (lead ++ (word ++ (gap ++ (behind ++ [0])))) 0 = .ok (.ofList (lead ++ word)) := by
      rw [hv, ← List.append_assoc]
      exact str_start _ hcut0
    have hsame : ((CString.ofList word).bytes.length = keyword.bytes.length ∧
        strncmp (.ofList word) keyword keyword.bytes.length = 0) ↔ word = keyword.bytes := by
      rw [length_strncmp_iff, CString.ext_iff, CString.ofList_bytes hword0]
    simp only [checked_ok, except_ok_bind, htoken, strdup, except_pure, hkeyword, hsame]
    rw [hfront] at hcval ⊢
    simp only [hfront] at htoken
    by_cases hkey : word = keyword.bytes
    · rw [if_pos hkey, if_pos hkey]
      apply parse_secondWord hbehind0
      intro hsecond x
      rcases hgap with rfl | ⟨-, hnil⟩
      · rw [← List.append_assoc lead, List.append_assoc, List.singleton_append]
        exact str_start _ hcut0
      · exact absurd (by rw [hnil]; rfl) hsecond
    · rw [if_neg hkey, if_neg hkey]
      exact parse_rest hbehind0 htoken hcval

def leadingDots (s : List Byte) : List Byte := s.takeWhile (· = 46)

def hostLabel (s : List Byte) : List Byte := (s.dropWhile (· = 46)).takeWhile (· ≠ 46)

/-- The first label with what the copying leaves behind it: nothing, unless dots stood in front
of the label. -/
def withoutDomain (s : List Byte) : List Byte :=
  hostLabel s ++ (leadingDots s ++ hostLabel s).drop (hostLabel s).length

section
variable {s : List Byte} {c : Byte}

theorem mem_hostLabel (h : c ∈ hostLabel s) : c ∈ s ∧ c ≠ 46 := Text.mem_firstToken h

theorem leadingDots_eq_nil_iff : leadingDots s = [] ↔ s.head? ≠ some 46 := by
  cases s with
  | nil => simp [leadingDots]
  | cons c s =>
    by_cases hc : c = 46
    · simp [leadingDots, hc]
    · simp [leadingDots, hc]

theorem mem_withoutDomain (h : c ∈ withoutDomain s) : c ∈ s := by
  rcases List.mem_append.mp h with h | h
  · exact (mem_hostLabel h).1
  · rcases List.mem_append.mp (List.mem_of_mem_drop h) with h | h
    · exact List.takeWhile_subset _ h
    · exact (mem_hostLabel h).1

theorem withoutDomain_eq_self (h : 46 ∉ s) : withoutDomain s = s := by
  have hdots : leadingDots s = [] := by
    apply leadingDots_eq_nil_iff.mpr
    intro hhead
    exact h (List.mem_of_mem_head? hhead)
  have hdrop : s.dropWhile (· = 46) = s := by
    have hsplit := List.takeWhile_append_dropWhile (p := fun c => decide (c = 46)) (l := s)
    rwa [show s.takeWhile (fun c => decide (c = 46)) = [] from hdots, List.nil_append] at hsplit
  have hlabel : hostLabel s = s := by
    rw [hostLabel, hdrop, takeWhile_ne_of_not_mem h]
  rw [withoutDomain, hdots, hlabel, List.nil_append, List.drop_length, List.append_nil]

end

theorem cutDomain_eq (host : CString) :
    cutDomain host =
      if hostLabel host.bytes = [] then .error .nullArgument
      else .ok (.ofList (withoutDomain host.bytes)) := by
  have hdots0 : 0 ∉ leadingDots host.bytes := fun hm => host.noNul (List.takeWhile_subset _ hm)
  have hlabel0 : 0 ∉ hostLabel host.bytes := fun hm => host.noNul (mem_hostLabel hm).1
  have hleft0 : 0 ∉ withoutDomain host.bytes := fun hm => host.noNul (mem_withoutDomain hm)
  rcases strtok_word [] [] 46 rfl host.noNul (rfl : leadingDots host.bytes = _)
    (rfl : hostLabel host.bytes = _) rfl with ⟨hnil, hcut⟩ | ⟨hne, gap, hgap, hcut⟩
  · simp only [List.nil_append, List.length_nil] at hcut
    rw [cutDomain, CString.block, hcut, if_pos hnil]
    rfl
  · generalize ((host.bytes.dropWhile (· = 46)).dropWhile (· ≠ 46)).tail = rest at hgap hcut
    simp only [List.nil_append, List.length_nil] at hcut
    rw [cutDomain, CString.block, hcut, if_neg hne]
    rw [withoutDomain] at hleft0 ⊢
    generalize leadingDots host.bytes = dots at *
    generalize hostLabel host.bytes = label at *
    obtain ⟨v, hv⟩ := gap_terminates hgap []
    have hlen : strlen (dots ++ (label ++ 0 :: v)) dots.length = .ok label.length :=
      strlen_at rfl hlabel0
    simp only [except_ok_bind, hv, hlen, strncpy_start v hlabel0]
    exact str_start _ hleft0

end Stonesh
