import Stonesh.Readconf.Merge

/-!
# Configuration files that break the reader

The reader goes on behind a record that is accepted and behind an unknown keyword. The first record
that is neither ends the file: with an error, or in one of the ways no C program should end. Which
of the two it is depends on the record and on the options that the records in front of it have set.
-/

namespace Stonesh

open CLib

def Target.slot : Target → Option StrField
  | .string f => some f
  | .timeout => some .ncTimeout
  | _ => none

def Passed (text : List Byte) : Prop :=
  Accepted text ∧ Ended text ∨ (keyWord text).token ≠ none ∧ textTarget text = .bad

/-- The record breaks the reader when these options are set: it has no keyword, it lacks the
argument for another option, or something stands behind its argument. -/
inductive Breaks (written : List (IntField ⊕ StrField)) (text : List Byte) : Prop
  | keyword (hkey : (keyWord text).token = none)
  | argument (f : StrField) (hslot : (textTarget text).slot = some f)
      (hnone : (argWord text).token = none) (hfree : .inr f ∉ written)
  | garbage (haccepted : Accepted text) (hnot : ¬ Ended text)

/-- Some record breaks the reader, and the reader gets there. -/
def FileBreaks (content : List Byte) : Prop :=
  ∃ before text behind, records content = before ++ text :: behind ∧ (∀ t ∈ before, Passed t) ∧
    Breaks (before.flatMap textWrites).keys text

section
variable {o o' : Options} {text : List Byte} {status : Int} {written : List (IntField ⊕ StrField)}

private theorem unset_iff {target : Target} :
    target.Unset o ↔ ∃ f, target.slot = some f ∧ o.str f = none := by
  cases target <;> simp [Target.Unset, Target.slot]

private theorem assign_status {target : Target} (hbad : target ≠ .bad) {arg : Option CString}
    (h : target.assign o (some 1) arg = .ok (status, o')) : status = 0 ∨ status = -1 := by
  cases target with
  | flag f =>
    cases arg with
    | none => exact Or.inr (Prod.mk.inj (Except.ok.inj h)).1.symm
    | some arg =>
      simp only [Target.assign, parseFlag] at h
      split at h
      · exact Or.inr (Prod.mk.inj (Except.ok.inj h)).1.symm
      · rw [← (Prod.mk.inj (Except.ok.inj h)).1]
        unfold flagValue
        split
        · exact Or.inl rfl
        · split
          · exact Or.inl rfl
          · exact Or.inr rfl
  | string f =>
    obtain ⟨o'', -, h⟩ := except_bind_eq_ok.mp h
    rw [← (Prod.mk.inj (Except.ok.inj h)).1]
    split
    · exact Or.inr rfl
    · exact Or.inl rfl
  | timeout =>
    obtain ⟨o'', -, h⟩ := except_bind_eq_ok.mp h
    rw [← (Prod.mk.inj (Except.ok.inj h)).1]
    unfold timeoutStatus
    split
    · exact Or.inr rfl
    · split
      · exact Or.inr rfl
      · exact Or.inl rfl
  | bad => exact absurd rfl hbad
  | unimplemented => exact Or.inr (Prod.mk.inj (Except.ok.inj h)).1.symm

private theorem textTarget_of_key {keyword : CString} (h : (keyWord text).text = some keyword) :
    textTarget text = (parseToken keyword).target := by
  rw [textTarget, h]

private theorem processText_bad (hne : text ≠ []) (hkey : (keyWord text).token ≠ none)
    (hbad : textTarget text = .bad) : processText o text (some 1) = .ok (1, o) := by
  have hfirst : nextWord (some text) = keyWord text := rfl
  obtain ⟨t, ht⟩ := Option.ne_none_iff_exists'.mp hkey
  have htext : (keyWord text).text = some (.ofList t) := by simp [Word.text, ht]
  rw [textTarget_of_key htext] at hbad
  rw [processText, if_neg hne]
  simp only [hfirst, htext, strdup, except_pure, except_ok_bind, hbad]

private theorem processText_one (h : processText o text (some 1) = .ok (1, o')) :
    textTarget text = .bad := by
  by_contra hbad
  rw [processText] at h
  split at h
  · exact absurd (Prod.mk.inj (Except.ok.inj h)).1 (by decide)
  · obtain ⟨keyword, hkey, h⟩ := except_bind_eq_ok.mp h
    have htext : (keyWord text).text = some keyword := by
      change strdup (keyWord text).text = .ok keyword at hkey
      cases hword : (keyWord text).text with
      | none => simp [hword, strdup] at hkey
      | some k =>
        rw [hword] at hkey
        rw [Except.ok.inj hkey]
    rw [← textTarget_of_key htext] at h
    split at h
    · next hcase => exact hbad hcase
    · exact absurd (Prod.mk.inj (Except.ok.inj h)).1 (by decide)
    · obtain ⟨⟨status, o''⟩, hassign, h⟩ := except_bind_eq_ok.mp h
      simp only at h
      split at h
      · obtain ⟨status', hend, h⟩ := except_bind_eq_ok.mp h
        have hone : status' = 1 := (Prod.mk.inj (Except.ok.inj h)).1
        unfold endOfLine at hend
        split at hend
        · have hzero := Except.ok.inj hend
          omega
        · simp at hend
      · have hone : status = 1 := (Prod.mk.inj (Except.ok.inj h)).1
        have hstatus := assign_status hbad hassign
        omega

theorem processText_passed (h0 : 0 ∉ text) (hne : text ≠ []) (h : Passed text) :
    ∃ status, status ≠ -1 ∧
      processText o text (some 1) = .ok (status, optionSlots.writes o (textWrites text)) := by
  rcases h with h | ⟨hkey, hbad⟩
  · exact ⟨0, by decide, (processText_zero_iff o h0 hne).mpr ⟨h, rfl⟩⟩
  · have hsilent : textWrites text = [] := by
      rw [textWrites, hbad]
      exact List.flatMap_eq_nil_iff.mpr fun _ _ => rfl
    refine ⟨1, by decide, ?_⟩
    rw [processText_bad hne hkey hbad, hsilent]
    rfl

theorem processText_stops (h0 : 0 ∉ text) (hne : text ≠ []) (hnot : ¬ Passed text)
    (h : processText o text (some 1) = .ok (status, o')) : status = -1 := by
  have hrun := processText_run o 1 h0
  rw [h] at hrun
  cases hrun with
  | blank hnil => exact absurd hnil hne
  | rejected _ _ _ hkey _ _ hstatus =>
    rcases hstatus with rfl | rfl
    · exact absurd (Or.inr ⟨hkey, processText_one h⟩) hnot
    · rfl
  | accepted _ _ haccepted hended => exact absurd (Or.inl ⟨haccepted, hended⟩) hnot

private theorem processText_breaks_iff (h0 : 0 ∉ text) (hne : text ≠ [])
    (hwritten : ∀ f, o.str f = none ↔ .inr f ∉ written) :
    (∃ f, processText o text (some 1) = .error f) ↔ Breaks written text := by
  have hnull : DuplicatesNull o 1 text ↔ (argWord text).token = none ∧
      ∃ f, (textTarget text).slot = some f ∧ .inr f ∉ written := by
    simp only [DuplicatesNull, unset_iff, hwritten, ne_eq, Int.one_ne_zero, not_false_iff, true_and]
  have hrun := processText_run o 1 h0
  generalize processText o text (some 1) = result at hrun
  cases hrun with
  | blank hnil => exact absurd hnil hne
  | noKeyword _ hkey => exact iff_of_true ⟨_, rfl⟩ (Breaks.keyword hkey)
  | noArgument _ _ hdup =>
    obtain ⟨hnone, f, hslot, hfree⟩ := hnull.mp hdup
    exact iff_of_true ⟨_, rfl⟩ (Breaks.argument f hslot hnone hfree)
  | rejected status o' _ hkey hdup hnot _ =>
    refine iff_of_false (by simp) ?_
    intro h
    cases h with
    | keyword hnone => exact hkey hnone
    | argument f hslot hnone hfree => exact hdup (hnull.mpr ⟨hnone, f, hslot, hfree⟩)
    | garbage haccepted _ => exact hnot haccepted
  | accepted o' _ haccepted hended =>
    refine iff_of_false (by simp) ?_
    intro h
    cases h with
    | keyword hnone => exact haccepted.key hnone
    | argument f hslot hnone hfree =>
      have hdup : DuplicatesNull o 1 text := hnull.mpr ⟨hnone, f, hslot, hfree⟩
      exact haccepted.not_duplicatesNull hdup
    | garbage _ hnot => exact hnot hended
  | garbage _ haccepted hnot => exact iff_of_true ⟨_, rfl⟩ (Breaks.garbage haccepted hnot)

private theorem str_writes (hwritten : ∀ f, o.str f = none ↔ .inr f ∉ written)
    (ws : List (Sigma OptionValue)) (f : StrField) :
    (optionSlots.writes o ws).str f = none ↔ .inr f ∉ written ++ ws.keys := by
  have hget := optionSlots.get_writes o ws (.inr f)
  have hiff : optionSlots.get (optionSlots.writes o ws) (.inr f) = none ↔
      o.str f = none ∧ .inr f ∉ ws.keys := by
    rw [hget, Option.or_eq_none_iff, List.dlookup_eq_none]
    rfl
  rw [List.mem_append, not_or, ← hwritten]
  exact hiff

private theorem readRecords_breaks_iff {texts : List (List Byte)} (bad : Nat)
    (htexts : ∀ text ∈ texts, text ≠ [] ∧ 0 ∉ text) (hwritten : ∀ f, o.str f = none ↔ .inr f ∉ written) :
    (∃ f, readRecords texts o bad = .error f) ↔
      ∃ before text behind, texts = before ++ text :: behind ∧ (∀ t ∈ before, Passed t) ∧
        Breaks (written ++ (before.flatMap textWrites).keys) text := by
  induction texts generalizing o written bad with
  | nil => simp [readRecords]
  | cons text texts ih =>
    obtain ⟨hne, h0⟩ := htexts text (by simp)
    have hbreaks := processText_breaks_iff h0 hne hwritten
    by_cases hpassed : Passed text
    · obtain ⟨status, hstatus, hline⟩ := @processText_passed o text h0 hne hpassed
      have hnot : ¬ Breaks written text := by
        rw [← hbreaks, hline]
        simp
      rw [readRecords, hline, except_ok_bind]
      simp only [hstatus, if_false]
      rw [ih _ (fun t ht => htexts t (List.mem_cons_of_mem _ ht)) (str_writes hwritten _)]
      constructor
      · rintro ⟨before, t, behind, rfl, hbefore, ht⟩
        refine ⟨text :: before, t, behind, rfl, List.forall_mem_cons.mpr ⟨hpassed, hbefore⟩, ?_⟩
        rwa [List.flatMap_cons, List.keys, List.map_append, ← List.append_assoc]
      · rintro ⟨before, t, behind, heq, hbefore, ht⟩
        cases before with
        | nil =>
          obtain ⟨rfl, -⟩ := List.cons.inj heq
          exact absurd (by simpa using ht) hnot
        | cons first before =>
          obtain ⟨rfl, rfl⟩ := List.cons.inj heq
          refine ⟨before, t, behind, rfl, fun s hs => hbefore s (List.mem_cons_of_mem _ hs), ?_⟩
          rwa [List.flatMap_cons, List.keys, List.map_append, ← List.append_assoc] at ht
    · have hends : (∃ f, readRecords (text :: texts) o bad = .error f) ↔
          ∃ f, processText o text (some 1) = .error f := by
        rw [readRecords]
        cases hline : processText o text (some 1) with
        | error f => simp
        | ok r =>
          obtain ⟨status, o'⟩ := r
          obtain rfl := processText_stops h0 hne hpassed hline
          simp
      rw [hends, hbreaks]
      constructor
      · intro h
        exact ⟨[], text, texts, rfl, by simp, by simpa using h⟩
      · rintro ⟨before, t, behind, heq, hbefore, ht⟩
        cases before with
        | nil =>
          obtain ⟨rfl, -⟩ := List.cons.inj heq
          simpa using ht
        | cons first before =>
          obtain ⟨rfl, -⟩ := List.cons.inj heq
          exact absurd (hbefore _ (by simp)) hpassed

/-- The reader breaks on a file exactly if it gets to a record that breaks it. -/
theorem readConfigFile_breaks_iff {files : CString → Option (List Byte)} {filename : CString}
    {content : List Byte} (hfile : files filename = some content) (options : Options) :
    (∃ f, readConfigFile files filename options = .error f) ↔ FileBreaks content := by
  have hempty (f : StrField) : initializeOptions.str f = none ↔ .inr f ∉ ([] : List (IntField ⊕ StrField)) :=
    iff_of_true (str_initializeOptions f) (by simp)
  have hrecords := readRecords_breaks_iff 0 (records_text content) hempty
  rw [readConfigFile_eq hfile, FileBreaks]
  simp only [List.nil_append] at hrecords
  rw [← hrecords]
  cases readRecords (records content) initializeOptions 0 with
  | error f => simp
  | ok r =>
    refine iff_of_false ?_ (by simp)
    rintro ⟨f, h⟩
    simp only [except_ok_bind] at h
    split at h
    · simp at h
    · simp at h

end

end Stonesh
