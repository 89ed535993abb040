import Stonesh.Readconf.ConfigLine

/-!
# What can become of a configuration line

`process_config_line` takes up to three words of a line: keyword, argument and what may follow.
A line of its own ends in one of six ways, which are told apart by the words alone; two of them
are no way for a C program to end, since NULL is duplicated or a piece of the line is freed.
-/

namespace Stonesh

open CLib

/-- The values a keyword accepts. -/
def Target.Valid (target : Target) (value : List Byte) : Prop :=
  value ≠ [] ∧ match target with
    | .flag _ => value ∈ [bytes "yes", bytes "true", bytes "no", bytes "false"]
    | .string _ => True
    | .timeout => 0 < atoi (.ofList value)
    | .bad => False
    | .unimplemented => False

instance (target : Target) (value : List Byte) : Decidable (target.Valid value) :=
  match target with
  | .flag _ => inferInstanceAs (Decidable (_ ∧ _ ∈ _))
  | .string _ => inferInstanceAs (Decidable (_ ∧ True))
  | .timeout => inferInstanceAs (Decidable (_ ∧ (0 : Int) < _))
  | .bad => inferInstanceAs (Decidable (_ ∧ False))
  | .unimplemented => inferInstanceAs (Decidable (_ ∧ False))

def Target.Unset (target : Target) (o : Options) : Prop :=
  match target with
  | .string f => o.str f = none
  | .timeout => o.str .ncTimeout = none
  | _ => False

def keyWord (text : List Byte) : Word := nextWord (some text)
def argWord (text : List Byte) : Word := nextWord (keyWord text).rest
def tailWord (text : List Byte) : Word := nextWord (argWord text).rest

def textTarget (text : List Byte) : Target :=
  match (keyWord text).text with
  | none => .bad
  | some keyword => (parseToken keyword).target

def Accepted (text : List Byte) : Prop := ∃ t ∈ (argWord text).token, (textTarget text).Valid t

/-- There is no argument to copy for an option that has no string yet. -/
def DuplicatesNull (o : Options) (active : Int) (text : List Byte) : Prop :=
  (argWord text).token = none ∧ active ≠ 0 ∧ (textTarget text).Unset o

def Ended (text : List Byte) : Prop := ∀ t ∈ (tailWord text).token, t = []

inductive LineRun (o : Options) (active : Int) (text : List Byte) : Checked (Int × Options) → Prop
  | blank (hnil : text = []) : LineRun o active text (.ok (0, o))
  | noKeyword (hne : text ≠ []) (hkey : (keyWord text).token = none) :
      LineRun o active text (.error .nullArgument)
  | noArgument (hne : text ≠ []) (hkey : (keyWord text).token ≠ none)
      (hnull : DuplicatesNull o active text) : LineRun o active text (.error .nullArgument)
  | rejected (status : Int) (o' : Options) (hne : text ≠ []) (hkey : (keyWord text).token ≠ none)
      (hnull : ¬ DuplicatesNull o active text) (hnot : ¬ Accepted text)
      (hstatus : status = 1 ∨ status = -1) : LineRun o active text (.ok (status, o'))
  | accepted (o' : Options) (hne : text ≠ []) (haccepted : Accepted text) (hended : Ended text) :
      LineRun o active text (.ok (0, o'))
  | garbage (hne : text ≠ []) (haccepted : Accepted text) (hnot : ¬ Ended text) :
      LineRun o active text (.error .invalidFree)

section
variable {o : Options} {active : Int} {text : List Byte}

theorem Accepted.key (h : Accepted text) : (keyWord text).token ≠ none := by
  intro hkey
  obtain ⟨t, -, hvalid⟩ := h
  have htarget : textTarget text = .bad := by simp [textTarget, Word.text, hkey]
  rw [htarget] at hvalid
  exact hvalid.2

theorem Accepted.not_duplicatesNull (h : Accepted text) : ¬ DuplicatesNull o active text := by
  rintro ⟨hnone, -⟩
  obtain ⟨t, ht, -⟩ := h
  simp [hnone] at ht

theorem flagValue_status {t : List Byte} (h0 : 0 ∉ t) :
    (flagValue (.ofList t)).1 =
      if t ∈ [bytes "yes", bytes "true", bytes "no", bytes "false"] then 0 else -1 := by
  have hcmp (s : String) (hs : 0 ∉ bytes s) : strcmp (.ofList t) (.lit s) = 0 ↔ t = bytes s := by
    rw [strcmp_eq_zero_iff, CString.ext_iff, CString.ofList_bytes h0, CString.lit,
      CString.ofList_bytes hs]
  simp only [flagValue, hcmp "yes" (by decide), hcmp "true" (by decide), hcmp "no" (by decide),
    hcmp "false" (by decide), List.mem_cons, List.not_mem_nil, or_false]
  split
  · next h => rw [if_pos (by tauto)]
  · split
    · next h => rw [if_pos (by tauto)]
    · rw [if_neg (by tauto)]

private theorem assign_some {target : Target} (hbad : target ≠ .bad) (hun : target ≠ .unimplemented)
    {t : List Byte} (h0 : 0 ∉ t) :
    ∃ o', target.assign o (some active) (some (.ofList t)) =
      .ok (if target.Valid t then 0 else -1, o') := by
  have hbytes : (CString.ofList t).bytes = t := CString.ofList_bytes h0
  cases target with
  | bad => exact absurd rfl hbad
  | unimplemented => exact absurd rfl hun
  | flag f =>
    by_cases hnil : t = []
    · refine ⟨o, ?_⟩
      rw [Target.assign, parseFlag, hbytes, if_pos hnil, if_neg fun h => h.1 hnil]
      rfl
    · have hstatus := flagValue_status h0
      have hvalid : (Target.flag f).Valid t ↔ t ∈ [bytes "yes", bytes "true", bytes "no", bytes "false"] :=
        and_iff_right hnil
      refine ⟨if o.int f = -1 then o.setInt f (flagValue (.ofList t)).2 else o, ?_⟩
      rw [Target.assign, parseFlag, hbytes, if_neg hnil]
      simp only [hstatus, hvalid, Option.isSome_some, true_and]
      rfl
  | string f =>
    refine ⟨if active ≠ 0 ∧ o.str f = none then o.setStr f (some (.ofList t)) else o, ?_⟩
    rw [Target.assign, parseString, storeArgument_some, missing, hbytes]
    by_cases hnil : t = []
    · simp [hnil, Target.Valid]
    · simp [hnil, Target.Valid]
  | timeout =>
    refine ⟨if active ≠ 0 ∧ o.str .ncTimeout = none then o.setStr .ncTimeout (some (.ofList t)) else o, ?_⟩
    rw [Target.assign, parseTimeout, storeArgument_some, timeoutStatus, hbytes]
    by_cases hvalid : t = [] ∨ atoi (.ofList t) ≤ 0
    · have hnot : ¬ Target.timeout.Valid t := by
        rintro ⟨hne, hpos⟩
        have hpos : 0 < atoi (.ofList t) := hpos
        rcases hvalid with h | h
        · exact hne h
        · omega
      rw [if_pos hvalid, if_neg hnot]
      rfl
    · have hok : Target.timeout.Valid t :=
        ⟨fun h => hvalid (Or.inl h), by simpa using fun h => hvalid (Or.inr h)⟩
      rw [if_neg hvalid, if_pos hok]
      rfl

private theorem assign_none {target : Target} (hbad : target ≠ .bad) (hun : target ≠ .unimplemented) :
    (active ≠ 0 ∧ target.Unset o) ∧ target.assign o (some active) none = .error .nullArgument ∨
      ¬ (active ≠ 0 ∧ target.Unset o) ∧ target.assign o (some active) none = .ok (-1, o) := by
  cases target with
  | bad => exact absurd rfl hbad
  | unimplemented => exact absurd rfl hun
  | flag f => exact Or.inr ⟨fun h => h.2, rfl⟩
  | string f =>
    rw [Target.assign, parseString, storeArgument_none]
    by_cases hset : active ≠ 0 ∧ o.str f = none
    · exact Or.inl ⟨hset, by rw [if_pos hset]; rfl⟩
    · exact Or.inr ⟨hset, by rw [if_neg hset]; rfl⟩
  | timeout =>
    rw [Target.assign, parseTimeout, storeArgument_none]
    by_cases hset : active ≠ 0 ∧ o.str .ncTimeout = none
    · exact Or.inl ⟨hset, by rw [if_pos hset]; rfl⟩
    · exact Or.inr ⟨hset, by rw [if_neg hset]; rfl⟩

private theorem endOfLine_ended (h : (tailWord text).NoNul) :
    Ended text ∧ endOfLine (tailWord text).text = .ok 0 ∨
      ¬ Ended text ∧ endOfLine (tailWord text).text = .error .invalidFree := by
  unfold Ended Word.text
  cases htoken : (tailWord text).token with
  | none => exact Or.inl ⟨by simp, rfl⟩
  | some t =>
    have hbytes : (CString.ofList t).bytes = t := CString.ofList_bytes (h.1 t htoken)
    by_cases hnil : t = []
    · refine Or.inl ⟨by simpa using hnil, ?_⟩
      rw [Option.map_some, endOfLine, missing, hbytes, hnil]
      rfl
    · refine Or.inr ⟨by simpa using hnil, ?_⟩
      rw [Option.map_some, endOfLine, missing, hbytes, if_neg (by simpa using hnil)]
      rfl

private theorem argument_run (o : Options) (active : Int) (h0 : 0 ∉ text) (hne : text ≠ [])
    (hkey : (keyWord text).token ≠ none) (hbad : textTarget text ≠ .bad)
    (hun : textTarget text ≠ .unimplemented) :
    LineRun o active text (do
      let (status, options) ← (textTarget text).assign o (some active) (argWord text).text
      if status = 0 then
        let status ← endOfLine (tailWord text).text
        pure (status, options)
      else pure (status, options)) := by
  have hargNul : (argWord text).NoNul := nextWord_noNul (nextWord_noNul (by simpa using h0)).2
  cases hargument : (argWord text).token with
  | none =>
    have htext : (argWord text).text = none := by simp [Word.text, hargument]
    rw [htext]
    rcases assign_none hbad hun with ⟨hnull, hrun⟩ | ⟨hnull, hrun⟩
    · rw [hrun]
      exact LineRun.noArgument hne hkey ⟨hargument, hnull⟩
    · rw [hrun]
      apply LineRun.rejected (-1) o hne hkey (fun hdup => hnull hdup.2) _ (Or.inr rfl)
      rintro ⟨t, ht, -⟩
      simp [hargument] at ht
  | some t =>
    have htext : (argWord text).text = some (.ofList t) := by simp [Word.text, hargument]
    obtain ⟨o', hrun⟩ : ∃ o', (textTarget text).assign o (some active) (some (.ofList t)) =
        .ok (if (textTarget text).Valid t then 0 else -1, o') :=
      assign_some hbad hun (hargNul.1 t hargument)
    rw [htext, hrun]
    by_cases hvalid : (textTarget text).Valid t
    · have haccepted : Accepted text := ⟨t, hargument, hvalid⟩
      rw [if_pos hvalid]
      rcases endOfLine_ended (nextWord_noNul hargNul.2) with ⟨hended, hend⟩ | ⟨hended, hend⟩
      · simp only [except_ok_bind, if_true, hend]
        exact LineRun.accepted o' hne haccepted hended
      · simp only [except_ok_bind, if_true, hend]
        exact LineRun.garbage hne haccepted hended
    · rw [if_neg hvalid]
      apply LineRun.rejected (-1) o' hne hkey _ _ (Or.inr rfl)
      · rintro ⟨hnone, -⟩
        simp [hargument] at hnone
      · rintro ⟨t', ht', hvalid'⟩
        rw [hargument, Option.mem_some_iff] at ht'
        exact hvalid (ht' ▸ hvalid')

/-- A line runs in one of the six ways. -/
theorem processText_run (o : Options) (active : Int) (h0 : 0 ∉ text) :
    LineRun o active text (processText o text (some active)) := by
  by_cases hnil : text = []
  · rw [processText, if_pos hnil]
    exact LineRun.blank hnil
  rw [processText, if_neg hnil]
  have hfirst : nextWord (some text) = keyWord text := rfl
  simp only [hfirst]
  cases hkey : (keyWord text).text with
  | none =>
    have htoken : (keyWord text).token = none := by simpa [Word.text] using hkey
    exact LineRun.noKeyword hnil htoken
  | some keyword =>
    have htoken : (keyWord text).token ≠ none := by
      intro he
      simp [Word.text, he] at hkey
    have htarget : textTarget text = (parseToken keyword).target := by rw [textTarget, hkey]
    have hrefused (status : Int) (hstatus : status = 1 ∨ status = -1)
        (hnone : ∀ value, ¬ (textTarget text).Valid value) (hset : ¬ (textTarget text).Unset o) :
        LineRun o active text (.ok (status, o)) := by
      apply LineRun.rejected status o hnil htoken (fun h => hset h.2.2) _ hstatus
      rintro ⟨t, -, hvalid⟩
      exact hnone t hvalid
    have hrun (hbad : textTarget text ≠ .bad) (hun : textTarget text ≠ .unimplemented) :=
      argument_run o active h0 hnil htoken hbad hun
    rw [strdup]
    simp only [except_pure, except_ok_bind, ← htarget]
    cases hcase : textTarget text with
    | bad => exact hrefused 1 (Or.inl rfl) (by rw [hcase]; exact fun _ h => h.2) (by rw [hcase]; exact id)
    | unimplemented =>
      exact hrefused (-1) (Or.inr rfl) (by rw [hcase]; exact fun _ h => h.2) (by rw [hcase]; exact id)
    | flag f =>
      rw [hcase] at hrun
      exact hrun (by simp) (by simp)
    | string f =>
      rw [hcase] at hrun
      exact hrun (by simp) (by simp)
    | timeout =>
      rw [hcase] at hrun
      exact hrun (by simp) (by simp)

end

end Stonesh
