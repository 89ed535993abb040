import Stonesh.Readconf.Totality

/-!
# The grammar of a configuration line

A line is a keyword, a separator and one argument, bare or in quotes. The parser asks the
tokenizer for a keyword, an argument and one word more, and accepts a line on which there is no
such word. The tokenizer gives none in front of an unbalanced quote and an empty one in front of a
pair of quotes or a stray `=`, so text can be left over on a line that is accepted.
-/

namespace Stonesh

open CLib

/-- Whitespace and at most one `=`. -/
structure Separates (sep : List Byte) : Prop where
  ne_nil : sep ≠ []
  plain : ∀ c ∈ sep, isspace c ∨ c = 61
  one : sep.count 61 ≤ 1

inductive Argument : List Byte → List Byte → Prop
  | bare (value : List Byte) (hne : value ≠ []) (hplain : ∀ c ∈ value, c ∉ delimiters)
      (hhead : ∀ c ∈ value.head?, ¬ isspace c) : Argument value value
  | quoted (value : List Byte) (hplain : 34 ∉ value) : Argument (34 :: (value ++ [34])) value

def Names (key : List Byte) (target : Target) : Prop :=
  ∃ entry ∈ keywords, key.map tolower = bytes entry.1 ∧ entry.2.target = target

/-- A keyword, a separator and a valid argument. -/
def Assigns (text : List Byte) : Prop :=
  ∃ key sep arg value target, text = key ++ (sep ++ arg) ∧ Names key target ∧ Separates sep ∧
    Argument arg value ∧ target.Valid value

/-- The text of a line is blank or an assignment. -/
def InGrammar (text : List Byte) : Prop := text = [] ∨ Assigns text

/-- An assignment with a complete argument, and text behind it. -/
def FurtherText (text : List Byte) : Prop :=
  ∃ front more, text = front ++ more ∧ Assigns front ∧ (∃ c ∈ more, ¬ isspace c) ∧
    (front.getLast? = some 34 ∨ ∀ c ∈ more.head?, c ∈ delimiters)

/-- What the tokenizer sees of a line behind the keyword. -/
def argText (text : List Byte) : List Byte := trimmed ((keyWord text).rest.getD [])

/-- The text behind the argument: behind its closing quote, or from the first delimiter on. -/
def leftover (text : List Byte) : List Byte :=
  match text with
  | 34 :: u => (u.dropWhile (· ∉ quote)).tail
  | _ => text.dropWhile (· ∉ delimiters)

/-- The keyword is not cut off by a quote, and nothing is left behind the argument. -/
def Exhausted (text : List Byte) : Prop :=
  (text.dropWhile (· ∉ delimiters)).head? ≠ some 34 ∧ leftover (argText text) = []

instance (text : List Byte) : Decidable (Exhausted text) := inferInstanceAs (Decidable (_ ∧ _))

section
variable {r t value : List Byte}

theorem argument_of_leftover (hhead : ∀ c ∈ r.head?, ¬ isspace c) (hword : (firstWord r).token = some t)
    (hne : t ≠ []) (hleft : leftover r = []) : Argument r t := by
  by_cases hquote : r.head? = some 34
  · obtain ⟨u, rfl⟩ : ∃ u, r = 34 :: u := by
      cases r with
      | nil => simp at hquote
      | cons c u => exact ⟨u, by rw [Option.some.inj hquote]⟩
    have hdrop : (34 :: u).dropWhile (· ∉ delimiters) = 34 :: u :=
      List.dropWhile_cons_of_neg (by decide)
    have htake : (34 :: u).takeWhile (· ∉ delimiters) = [] := List.takeWhile_cons_of_neg (by decide)
    simp only [firstWord, hdrop, htake, if_true, List.nil_append] at hword
    rw [leftover] at hleft
    cases hclose : u.dropWhile (· ∉ quote) with
    | nil =>
      rw [hclose] at hword
      simp at hword
    | cons c v =>
      rw [hclose] at hword hleft
      have hc : c = 34 := by simpa [quote, bytes] using Text.dropWhile_head hclose
      have hv : v = [] := hleft
      have hvalue : u.takeWhile (· ∉ quote) = t := Option.some.inj hword
      have hu := Text.split_of_dropWhile hclose
      rw [hvalue, hc, hv] at hu
      rw [hu]
      apply Argument.quoted
      intro hm
      rw [← hvalue] at hm
      exact absurd (List.mem_takeWhile_imp hm) (by decide)
  · have hdrop : r.dropWhile (· ∉ delimiters) = [] := by
      unfold leftover at hleft
      split at hleft
      · exact absurd rfl hquote
      · exact hleft
    simp only [firstWord, hdrop, Option.some.injEq] at hword
    subst hword
    exact Argument.bare r hne (by simpa using List.dropWhile_eq_nil_iff.mp hdrop) hhead

theorem leftover_of_argument (h : Argument r value) : leftover r = [] := by
  cases h with
  | bare _ hne hplain hhead =>
    have hdrop : r.dropWhile (· ∉ delimiters) = [] :=
      List.dropWhile_eq_nil_iff.mpr (by simpa using hplain)
    unfold leftover
    split
    · exact absurd (by decide) (hplain 34 (by simp))
    · exact hdrop
  | quoted _ hplain =>
    have hclose : (value ++ [34]).dropWhile (· ∉ quote) = [34] := by
      apply Text.dropWhile_stop
      · intro c hc
        have hne : c ≠ 34 := fun he => hplain (he ▸ hc)
        simpa [quote, bytes] using hne
      · decide
    rw [leftover, hclose]
    rfl

theorem Argument.head (h : Argument r value) : ∃ c l, r = c :: l ∧ ¬ isspace c ∧ c ≠ 61 := by
  cases h with
  | bare _ hne hplain hhead =>
    obtain ⟨c, l, rfl⟩ := List.exists_cons_of_ne_nil hne
    refine ⟨c, l, rfl, hhead c rfl, ?_⟩
    intro hc
    exact hplain c (by simp) (by rw [hc]; decide)
  | quoted _ hplain => exact ⟨34, _, rfl, by decide, by decide⟩

end

section
variable {text u key sep t : List Byte} {c : Byte} {target : Target}

theorem Names.plain (h : Names key target) (hc : c ∈ key) : c ∉ delimiters ∧ ¬ isspace c := by
  obtain ⟨entry, hentry, hname, -⟩ := h
  have hplain := keyword_plain hentry hname hc
  exact ⟨hplain.1, hplain.2.2.2.2⟩

theorem Accepted.names (h0 : 0 ∉ text) (h : Accepted text) :
    ∃ t, (keyWord text).token = some t ∧ Names t (textTarget text) := by
  obtain ⟨t, ht⟩ := Option.ne_none_iff_exists'.mp h.key
  have ht0 : 0 ∉ t := (nextWord_noNul (by simpa using h0)).1 t ht
  have htarget : textTarget text = (parseToken (.ofList t)).target := by
    simp [textTarget, Word.text, ht]
  have hgood : (parseToken (.ofList t)).target ≠ .bad := by
    intro hbad
    obtain ⟨a, -, hvalid⟩ := h
    rw [htarget, hbad] at hvalid
    exact hvalid.2
  obtain ⟨entry, hentry, hname, hcode⟩ := parseToken_entry hgood
  rw [CString.ofList_bytes ht0] at hname
  exact ⟨t, ht, entry, hentry, hname, by rw [htarget, hcode]⟩

theorem mem_token (htrim : trimmed text = text) (htoken : (keyWord text).token = some t)
    (hc : c ∈ text.takeWhile (· ∉ delimiters)) : c ∈ t := by
  rw [keyWord, nextWord, htrim, firstWord] at htoken
  split at htoken
  · rw [← Option.some.inj htoken]
    exact List.takeWhile_subset _ hc
  · simp only at htoken
    split at htoken
    · split at htoken
      · simp at htoken
      · rw [← Option.some.inj htoken]
        exact List.mem_append_left _ hc
    · rw [← Option.some.inj htoken]
      exact hc

theorem afterDelimiter_split (c : Byte) (u : List Byte) :
    ∃ dropped, u = dropped ++ afterDelimiter c u ∧ (∀ d ∈ dropped, isspace d ∨ d = 61) ∧
      (c :: dropped).count 61 ≤ 1 := by
  have hblank : ∀ d ∈ whitespace, isspace d ∧ d ≠ 61 := by decide
  have hskip (l : List Byte) : ∃ ws, l = ws ++ skipBlanks l ∧ (∀ d ∈ ws, isspace d) ∧ ws.count 61 = 0 := by
    refine ⟨l.takeWhile (· ∈ whitespace), List.takeWhile_append_dropWhile.symm, ?_, ?_⟩
    · intro d hd
      exact (hblank d (by simpa using List.mem_takeWhile_imp hd)).1
    · apply List.count_eq_zero_of_not_mem
      intro hm
      exact (hblank 61 (by simpa using List.mem_takeWhile_imp hm)).2 rfl
  obtain ⟨ws, hu, hws, hcount⟩ := hskip u
  have hone : (c :: ws).count 61 ≤ 1 := by
    rw [List.count_cons, hcount]
    split <;> omega
  unfold afterDelimiter
  split
  · next v hv =>
    rw [hv] at hu
    by_cases h61 : c = 61
    · rw [if_pos h61]
      exact ⟨ws, hu, fun d hd => Or.inl (hws d hd), hone⟩
    · rw [if_neg h61]
      obtain ⟨ws', hv', hws', hcount'⟩ := hskip v
      refine ⟨ws ++ 61 :: ws', ?_, ?_, ?_⟩
      · rw [hu]
        conv_lhs => rw [hv']
        simp
      · intro d hd
        rcases List.mem_append.mp hd with hd | hd
        · exact Or.inl (hws d hd)
        · rcases List.mem_cons.mp hd with hd | hd
          · exact Or.inr hd
          · exact Or.inl (hws' d hd)
      · rw [List.count_cons_of_ne h61, List.count_append, List.count_cons_self, hcount, hcount']
  · exact ⟨ws, hu, fun d hd => Or.inl (hws d hd), hone⟩

theorem argText_split (htrim : trimmed text = text) (hdrop : text.dropWhile (· ∉ delimiters) = c :: u)
    (hquote : c ≠ 34) :
    ∃ sep, text = text.takeWhile (· ∉ delimiters) ++ (sep ++ argText text) ∧ Separates sep := by
  have hc : c ∈ delimiters := by simpa using Text.dropWhile_head hdrop
  have htext := Text.split_of_dropWhile hdrop
  obtain ⟨dropped, hu, hdropped, hcount⟩ : ∃ dropped, u = dropped ++ afterDelimiter c u ∧
      (∀ d ∈ dropped, isspace d ∨ d = 61) ∧ (c :: dropped).count 61 ≤ 1 := afterDelimiter_split c u
  have hseen : argText text = trimmed (afterDelimiter c u) := by
    have hrest : (keyWord text).rest = some (afterDelimiter c u) := by
      rw [keyWord, nextWord, htrim]
      simp only [firstWord, hdrop, hquote, if_false]
    rw [argText, hrest, Option.getD_some]
  have hhash : 35 ∉ text := htrim ▸ hash_not_mem_trimmed text
  have hlast : ∀ d ∈ text.getLast?, ¬ isspace d := by
    intro d hd
    rw [← htrim] at hd
    exact Text.strip_getLast hd
  -- the end of the line is the end of what is left of it
  obtain ⟨x, hx⟩ : ∃ x, x = afterDelimiter c u := ⟨_, rfl⟩
  rw [← hx] at hu hseen
  have hend : text = (text.takeWhile (· ∉ delimiters) ++ c :: dropped) ++ x := by
    conv_lhs => rw [htext, hu]
    simp
  have hxlast : ∀ d ∈ x.getLast?, ¬ isspace d := by
    intro d hd
    apply hlast
    rw [hend, List.getLast?_append, Option.mem_def.mp hd]
    rfl
  have hxhash : 35 ∉ x := fun hm => hhash (by rw [hend]; exact List.mem_append_right _ hm)
  rw [trimmed_eq_dropWhile hxlast hxhash] at hseen
  have hblanks : ∀ d ∈ x.takeWhile isspace, isspace d := fun d hd => List.mem_takeWhile_imp hd
  refine ⟨c :: dropped ++ x.takeWhile isspace, ?_, by simp, ?_, ?_⟩
  · rw [hseen]
    conv_lhs => rw [hend, ← List.takeWhile_append_dropWhile (p := isspace) (l := x)]
    simp
  · have hfirst : ∀ d ∈ delimiters, d ≠ 34 → isspace d ∨ d = 61 := by decide
    intro d hd
    rcases List.mem_append.mp hd with hd | hd
    · rcases List.mem_cons.mp hd with rfl | hd
      · exact hfirst d hc hquote
      · exact hdropped d hd
    · exact Or.inl (hblanks d hd)
  · have hnone : (x.takeWhile isspace).count 61 = 0 := by
      apply List.count_eq_zero_of_not_mem
      intro hm
      exact absurd (hblanks 61 hm) (by decide)
    rw [List.count_append, hnone]
    exact hcount

private theorem cut_of_assigns {arg : List Byte} (h0 : 0 ∉ text) (htrim : trimmed text = text)
    (haccepted : Accepted text) (htext : text = key ++ (sep ++ arg)) (hkey : Names key target)
    (hsep : Separates sep) :
    text.takeWhile (· ∉ delimiters) = key ∧
      ∃ c u, text.dropWhile (· ∉ delimiters) = c :: u ∧ c ≠ 34 := by
  obtain ⟨d, sep', hd⟩ := List.exists_cons_of_ne_nil hsep.ne_nil
  have hplain : ∀ c ∈ key, decide (c ∉ delimiters) := by
    intro c hc
    simpa using (hkey.plain hc).1
  have hcons : text = key ++ d :: (sep' ++ arg) := by rw [htext, hd, List.cons_append]
  have hkind : isspace d ∨ d = 61 := hsep.plain d (by simp [hd])
  by_cases hdelim : d ∈ delimiters
  · refine ⟨?_, d, sep' ++ arg, ?_, ?_⟩
    · rw [hcons, Text.takeWhile_stop hplain (by simpa using hdelim)]
    · rw [hcons, Text.dropWhile_stop hplain (by simpa using hdelim)]
    · rintro rfl
      exact absurd hkind (by decide)
  · -- a vertical tab or a form feed belongs to the token, and no keyword has one
    have hspace : isspace d := by
      apply hkind.resolve_right
      rintro rfl
      exact hdelim (by decide)
    have hmem : d ∈ text.takeWhile (· ∉ delimiters) := by
      rw [hcons, List.takeWhile_append_of_pos hplain, List.takeWhile_cons_of_pos (by simpa using hdelim)]
      simp
    obtain ⟨t, htoken, hname⟩ := haccepted.names h0
    exact absurd hspace (hname.plain (mem_token htrim htoken hmem)).2

private theorem dropWhile_separator {arg : List Byte} (hsep : Separates sep)
    (harg : ∃ c l, arg = c :: l ∧ ¬ isspace c ∧ c ≠ 61) :
    (sep ++ arg).dropWhile (fun c => isspace c || c == 61) = arg := by
  obtain ⟨c, l, rfl, hspace, h61⟩ := harg
  apply Text.dropWhile_stop
  · intro d hd
    simpa using hsep.plain d hd
  · simp [hspace, h61]

private theorem argText_head (hrest : (keyWord text).rest ≠ none) (haccepted : Accepted text) :
    (∃ c l, argText text = c :: l ∧ ¬ isspace c ∧ c ≠ 61) ∧
      ∃ t, (firstWord (argText text)).token = some t ∧ (textTarget text).Valid t := by
  obtain ⟨t, ht, hvalid⟩ := haccepted
  obtain ⟨r, hr⟩ := Option.ne_none_iff_exists'.mp hrest
  have hword : argWord text = firstWord (argText text) := by
    rw [argWord, argText, hr]
    rfl
  rw [hword] at ht
  refine ⟨?_, t, ht, hvalid⟩
  cases hseen : argText text with
  | nil =>
    rw [hseen] at ht
    exact absurd (Option.some.inj ht).symm hvalid.1
  | cons c l =>
    refine ⟨c, l, rfl, ?_, ?_⟩
    · have hhead : c ∈ (argText text).head? := by rw [hseen]; rfl
      exact Text.strip_head hhead
    · rintro rfl
      rw [hseen] at ht
      exact absurd (Option.some.inj ht).symm hvalid.1

theorem assigns_iff_exhausted (h0 : 0 ∉ text) (htrim : trimmed text = text) (haccepted : Accepted text) :
    Assigns text ↔ Exhausted text := by
  have hrest : (keyWord text).rest ≠ none := by
    intro hnone
    obtain ⟨t, ht, -⟩ := haccepted
    simp [argWord, hnone, nextWord] at ht
  obtain ⟨hhead, t, hword, hvalid⟩ := argText_head hrest haccepted
  constructor
  · rintro ⟨key, sep, arg, value, target, htext, hkey, hsep, harg, -⟩
    obtain ⟨htake, c, u, hdrop, hquote⟩ := cut_of_assigns h0 htrim haccepted htext hkey hsep
    obtain ⟨sep', hsplit, hsep'⟩ := argText_split htrim hdrop hquote
    have hsame : sep ++ arg = sep' ++ argText text := by
      rw [htake] at hsplit
      exact List.append_cancel_left (htext.symm.trans hsplit)
    have hseen : argText text = arg := by
      rw [← dropWhile_separator hsep' hhead, ← hsame, dropWhile_separator hsep harg.head]
    refine ⟨?_, ?_⟩
    · rw [hdrop]
      simpa using hquote
    · rw [hseen]
      exact leftover_of_argument harg
  · rintro ⟨hfirst, hleft⟩
    cases hdrop : text.dropWhile (· ∉ delimiters) with
    | nil =>
      have hnone : (keyWord text).rest = none := by
        rw [keyWord, nextWord, htrim]
        simp only [firstWord, hdrop]
      exact absurd hnone hrest
    | cons c u =>
      rw [hdrop] at hfirst
      have hquote : c ≠ 34 := by simpa using hfirst
      obtain ⟨sep, hsplit, hsep⟩ := argText_split htrim hdrop hquote
      obtain ⟨key, htoken, hname⟩ := haccepted.names h0
      have hkey : text.takeWhile (· ∉ delimiters) = key := by
        rw [keyWord, nextWord, htrim] at htoken
        simp only [firstWord, hdrop, hquote, if_false] at htoken
        exact Option.some.inj htoken
      rw [hkey] at hsplit
      obtain ⟨d, l, hd, hspace, -⟩ := hhead
      have hbare : ∀ c ∈ (argText text).head?, ¬ isspace c := by
        rw [hd]
        simpa using hspace
      exact ⟨key, sep, argText text, t, textTarget text, hsplit, hname, hsep,
        argument_of_leftover hbare hword hvalid.1 hleft, hvalid⟩

end

section
variable {o : Options} {active : Int} {text : List Byte} {result : Checked (Int × Options)}

theorem LineRun.zero_iff (h : LineRun o active text result) :
    (∃ o', result = .ok (0, o')) ↔ text = [] ∨ Accepted text ∧ Ended text := by
  cases h with
  | blank hnil => exact iff_of_true ⟨o, rfl⟩ (Or.inl hnil)
  | noKeyword hne hkey =>
    apply iff_of_false
    · simp
    · rintro (hnil | ⟨haccepted, -⟩)
      · exact hne hnil
      · exact haccepted.key hkey
  | noArgument hne hkey hnull =>
    apply iff_of_false
    · simp
    · rintro (hnil | ⟨haccepted, -⟩)
      · exact hne hnil
      · exact haccepted.not_duplicatesNull hnull
  | rejected status o' hne hkey hnull hnot hstatus =>
    apply iff_of_false
    · rintro ⟨o'', hzero⟩
      simp only [Except.ok.injEq, Prod.mk.injEq] at hzero
      omega
    · rintro (hnil | ⟨haccepted, -⟩)
      · exact hne hnil
      · exact hnot haccepted
  | accepted o' hne haccepted hended => exact iff_of_true ⟨o', rfl⟩ (Or.inr ⟨haccepted, hended⟩)
  | garbage hne haccepted hnot =>
    apply iff_of_false
    · simp
    · rintro (hnil | ⟨-, hended⟩)
      · exact hne hnil
      · exact hnot hended

theorem LineRun.nonzero_iff (h : LineRun o active text result) (hne : text ≠ []) :
    (∃ status o', result = .ok (status, o') ∧ status ≠ 0) ↔
      (keyWord text).token ≠ none ∧ ¬ DuplicatesNull o active text ∧ ¬ Accepted text := by
  cases h with
  | blank hnil => exact absurd hnil hne
  | noKeyword hne hkey =>
    apply iff_of_false
    · simp
    · exact fun h => h.1 hkey
  | noArgument hne hkey hnull =>
    apply iff_of_false
    · simp
    · exact fun h => h.2.1 hnull
  | rejected status o' hne hkey hnull hnot hstatus =>
    apply iff_of_true
    · exact ⟨status, o', rfl, by omega⟩
    · exact ⟨hkey, hnull, hnot⟩
  | accepted o' hne haccepted hended =>
    apply iff_of_false
    · rintro ⟨status, o'', hsame, hnonzero⟩
      simp only [Except.ok.injEq, Prod.mk.injEq] at hsame
      exact hnonzero hsame.1.symm
    · exact fun h => h.2.2 haccepted
  | garbage hne haccepted hnot =>
    apply iff_of_false
    · simp
    · exact fun h => h.2.2 haccepted

theorem Accepted.ne_nil (h : Accepted text) : text ≠ [] := by
  rintro rfl
  obtain ⟨t, ht, -⟩ := h
  have hnone : (argWord []).token = none := by decide
  simp [hnone] at ht

theorem FurtherText.ne_nil (h : FurtherText text) : text ≠ [] := by
  obtain ⟨front, more, rfl, -, ⟨c, hc, -⟩, -⟩ := h
  exact List.append_ne_nil_of_right_ne_nil _ (List.ne_nil_of_mem hc)

end

/-- The parser accepts no line outside the grammar and refuses further text on a line, exactly if
nothing is left over on a line it accepts, and if with further text the keyword is there, no NULL
is duplicated and the argument is refused. -/
theorem processConfigLine_grammar_iff (o : Options) (active : Int) (line : List Byte) :
    ((∀ o', processConfigLine o (line ++ [0]) (some active) = .ok (0, o') → InGrammar (lineText line)) ∧
      (FurtherText (lineText line) → ∃ status o',
        processConfigLine o (line ++ [0]) (some active) = .ok (status, o') ∧ status ≠ 0)) ↔
    (Accepted (lineText line) → Ended (lineText line) → Exhausted (lineText line)) ∧
      (FurtherText (lineText line) → (keyWord (lineText line)).token ≠ none ∧
        ¬ DuplicatesNull o active (lineText line) ∧ ¬ Accepted (lineText line)) := by
  have h0 := zero_not_mem_lineText line
  have htrim : trimmed (lineText line) = lineText line := trimmed_trimmed _
  have hrun := processText_run o active h0
  rw [processConfigLine_eq]
  generalize processText o (lineText line) (some active) = result at hrun
  generalize lineText line = text at h0 htrim hrun
  apply and_congr
  · constructor
    · intro hgrammar haccepted hended
      obtain ⟨o', hzero⟩ := hrun.zero_iff.mpr (Or.inr ⟨haccepted, hended⟩)
      have hassigns := (hgrammar o' hzero).resolve_left haccepted.ne_nil
      exact (assigns_iff_exhausted h0 htrim haccepted).mp hassigns
    · intro hexhausted o' hzero
      rcases hrun.zero_iff.mp ⟨o', hzero⟩ with hnil | ⟨haccepted, hended⟩
      · exact Or.inl hnil
      · exact Or.inr ((assigns_iff_exhausted h0 htrim haccepted).mpr (hexhausted haccepted hended))
  · apply imp_congr_right
    intro hfurther
    exact hrun.nonzero_iff hfurther.ne_nil

-- both lines are accepted, one with text behind a pair of quotes, one with its keyword in quotes
example : ¬ Exhausted (bytes "debug yes \"\" foo") := by decide
example : ¬ Exhausted (bytes "\"debug\" yes") := by decide

/-- A quote behind the argument is not seen. -/
theorem processConfigLine_leftover :
    ¬ ∀ (o : Options) (active : Int) (line : List Byte),
      (∀ o', processConfigLine o (line ++ [0]) (some active) = .ok (0, o') → InGrammar (lineText line)) ∧
        (FurtherText (lineText line) → ∃ status o',
          processConfigLine o (line ++ [0]) (some active) = .ok (status, o') ∧ status ≠ 0) := by
  intro h
  have hargument : Argument (bytes "yes") (bytes "yes") := by
    apply Argument.bare
    · decide
    · decide
    · intro c hc
      cases hc
      decide
  have hassigns : Assigns (bytes "debug yes") :=
    ⟨bytes "debug", bytes " ", bytes "yes", bytes "yes", .flag .debug, by decide,
      ⟨("debug", .oDebug), by decide, by decide, rfl⟩, ⟨by decide, by decide, by decide⟩,
      hargument, by decide⟩
  have hfurther : FurtherText (lineText (bytes "debug yes \"\n")) := by
    refine ⟨bytes "debug yes", bytes " \"", by decide, hassigns, ⟨34, by decide, by decide⟩, Or.inr ?_⟩
    intro c hc
    cases hc
    decide
  obtain ⟨status, o', hrun, hne⟩ := (h initializeOptions 1 (bytes "debug yes \"\n")).2 hfurther
  have hzero : processText initializeOptions (lineText (bytes "debug yes \"\n")) (some 1) =
      .ok (0, { initializeOptions with debug := 1 }) := by decide +kernel
  rw [processConfigLine_eq, hzero] at hrun
  simp only [Except.ok.injEq, Prod.mk.injEq] at hrun
  exact hne hrun.1.symm

end Stonesh
