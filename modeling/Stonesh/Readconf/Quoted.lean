import Stonesh.Readconf.ConfigLine

/-!
# Quoted arguments

A line `keyword "value"` hands the value on as it stands, blanks included, as long as no `#` is in
it. The comment is cut off before quotes are looked at, so a `#` between the quotes takes the
closing one away, and then there is no argument.
-/

namespace Stonesh

open CLib

def IsSeparator (sep : List Byte) : Prop :=
  ∃ a b, (∀ c ∈ a, c ∈ bytes " \t") ∧ (∀ c ∈ b, c ∈ bytes " \t") ∧
    (sep = a ∧ a ≠ [] ∨ sep = a ++ 61 :: b)

theorem separator_byte {sep : List Byte} (h : IsSeparator sep) {c : Byte} (hc : c ∈ sep) :
    c ≠ 0 ∧ c ≠ 10 ∧ c ≠ 34 ∧ c ≠ 35 := by
  have hblank : ∀ d ∈ bytes " \t", d ≠ 0 ∧ d ≠ 10 ∧ d ≠ 34 ∧ d ≠ 35 := by decide
  obtain ⟨a, b, ha, hb, ⟨rfl, -⟩ | rfl⟩ := h
  · exact hblank c (ha c hc)
  · rcases List.mem_append.mp hc with hc | hc
    · exact hblank c (ha c hc)
    · rcases List.mem_cons.mp hc with rfl | hc
      · decide
      · exact hblank c (hb c hc)

private theorem skipBlanks_append {a l : List Byte} (ha : ∀ c ∈ a, c ∈ bytes " \t") :
    skipBlanks (a ++ l) = skipBlanks l := by
  have hblank : ∀ c ∈ bytes " \t", decide (c ∈ whitespace) := by decide
  exact List.dropWhile_append_of_pos fun c hc => hblank c (ha c hc)

private theorem skipBlanks_quote (l : List Byte) : skipBlanks (34 :: l) = 34 :: l :=
  List.dropWhile_cons_of_neg (by decide)

private theorem separator_skip {sep : List Byte} (h : IsSeparator sep) (x : List Byte) :
    ∃ c u, sep ++ 34 :: x = c :: u ∧ c ∈ delimiters ∧ c ≠ 34 ∧ afterDelimiter c u = 34 :: x := by
  have hblank : ∀ d ∈ bytes " \t", d ∈ delimiters ∧ d ≠ 34 ∧ d ≠ 61 := by decide
  obtain ⟨a, b, ha, hb, ⟨rfl, hne⟩ | rfl⟩ := h
  · obtain ⟨c, a', rfl⟩ := List.exists_cons_of_ne_nil hne
    have hc := hblank c (ha c (by simp))
    refine ⟨c, a' ++ 34 :: x, rfl, hc.1, hc.2.1, ?_⟩
    rw [afterDelimiter, skipBlanks_append fun d hd => ha d (List.mem_cons_of_mem _ hd),
      skipBlanks_quote]
    rfl
  · cases a with
    | nil =>
      refine ⟨61, b ++ 34 :: x, rfl, by decide, by decide, ?_⟩
      rw [afterDelimiter, skipBlanks_append hb, skipBlanks_quote]
      rfl
    | cons c a' =>
      have hc := hblank c (ha c (by simp))
      refine ⟨c, a' ++ 61 :: (b ++ 34 :: x), by simp, hc.1, hc.2.1, ?_⟩
      have hskip : skipBlanks (a' ++ 61 :: (b ++ 34 :: x)) = 61 :: (b ++ 34 :: x) := by
        rw [skipBlanks_append fun d hd => ha d (List.mem_cons_of_mem _ hd)]
        exact List.dropWhile_cons_of_neg (by decide)
      simp only [afterDelimiter, hskip, hc.2.2, if_false]
      rw [skipBlanks_append hb, skipBlanks_quote]

section
variable {k sep x v : List Byte} {entry : String × OpCode}

theorem keyword_ne_nil (hentry : entry ∈ keywords) (hk : k.map tolower = bytes entry.1) : k ≠ [] := by
  have hne : ∀ e ∈ keywords, bytes e.1 ≠ [] := by decide
  rintro rfl
  exact hne entry hentry hk.symm

theorem trimmed_keyword_quote (hentry : entry ∈ keywords) (hk : k.map tolower = bytes entry.1)
    (hsep : IsSeparator sep) (hx : 35 ∉ x) (hlast : ∀ c ∈ (34 :: x).getLast?, ¬ isspace c) :
    trimmed (k ++ (sep ++ 34 :: x)) = k ++ (sep ++ 34 :: x) := by
  apply trimmed_of_ends
  · intro hm
    rcases List.mem_append.mp hm with hm | hm
    · exact (keyword_plain hentry hk hm).2.1 rfl
    · rcases List.mem_append.mp hm with hm | hm
      · exact (separator_byte hsep hm).2.2.2 rfl
      · exact hx (by simpa using hm)
  · intro c hc
    obtain ⟨d, k', rfl⟩ := List.exists_cons_of_ne_nil (keyword_ne_nil hentry hk)
    obtain rfl : d = c := by simpa using hc
    exact (keyword_plain hentry hk (by simp)).2.2.2.2
  · intro c hc
    rw [← List.append_assoc, List.getLast?_append_of_ne_nil _ (by simp)] at hc
    exact hlast c hc

theorem nextWord_keyword_quote (hentry : entry ∈ keywords) (hk : k.map tolower = bytes entry.1)
    (hsep : IsSeparator sep) (hx : 35 ∉ x) (hlast : ∀ c ∈ (34 :: x).getLast?, ¬ isspace c) :
    nextWord (some (k ++ (sep ++ 34 :: x))) = ⟨some k, some (34 :: x)⟩ := by
  have htrim := trimmed_keyword_quote hentry hk hsep hx hlast
  have hkey : ∀ c ∈ k, decide (c ∉ delimiters) := by
    intro c hc
    simpa using (keyword_plain hentry hk hc).1
  obtain ⟨c, u, hcu, hc, hquote, hafter⟩ := separator_skip hsep x
  rw [hcu] at htrim ⊢
  have hdrop : (k ++ c :: u).dropWhile (· ∉ delimiters) = c :: u :=
    Text.dropWhile_stop hkey (by simpa using hc)
  have htake : (k ++ c :: u).takeWhile (· ∉ delimiters) = k :=
    Text.takeWhile_stop hkey (by simpa using hc)
  simp only [nextWord, htrim, firstWord, hdrop, htake, hquote, if_false, hafter]

theorem closed_quote (v : List Byte) : ∀ c ∈ (34 :: (v ++ [34])).getLast?, ¬ isspace c := by
  intro c hc
  rw [← List.cons_append, List.getLast?_concat, Option.mem_some_iff] at hc
  rw [← hc]
  decide

private theorem trimmed_quote (hx : 35 ∉ x) (hlast : ∀ c ∈ (34 :: x).getLast?, ¬ isspace c) :
    trimmed (34 :: x) = 34 :: x := by
  apply trimmed_of_ends
  · simpa using hx
  · intro c hc
    obtain rfl : 34 = c := by simpa using hc
    decide
  · exact hlast

private theorem split_quote (x : List Byte) :
    (34 :: x).dropWhile (· ∉ delimiters) = 34 :: x ∧ (34 :: x).takeWhile (· ∉ delimiters) = [] :=
  ⟨List.dropWhile_cons_of_neg (by decide), List.takeWhile_cons_of_neg (by decide)⟩

private theorem not_mem_quote {c : Byte} (hc : c ∈ v) (h34 : 34 ∉ v) : decide (c ∉ quote) := by
  have hne : c ≠ 34 := fun he => h34 (he ▸ hc)
  simpa [quote, bytes] using hne

theorem nextWord_quoted (h34 : 34 ∉ v) (h35 : 35 ∉ v) :
    nextWord (some (34 :: (v ++ [34]))) = ⟨some v, some []⟩ := by
  have hplain : ∀ c ∈ v, decide (c ∉ quote) := fun c hc => not_mem_quote hc h34
  have hclose : (v ++ [34]).dropWhile (· ∉ quote) = [34] := Text.dropWhile_stop hplain (by decide)
  have hinside : (v ++ [34]).takeWhile (· ∉ quote) = v := Text.takeWhile_stop hplain (by decide)
  have htrim := trimmed_quote (x := v ++ [34]) (by simpa using h35) (closed_quote v)
  simp only [nextWord, htrim, firstWord, split_quote, hclose, hinside, if_true, List.nil_append]
  rfl

theorem nextWord_unclosed (h34 : 34 ∉ x) (h35 : 35 ∉ x)
    (hlast : ∀ c ∈ (34 :: x).getLast?, ¬ isspace c) : nextWord (some (34 :: x)) = ⟨none, none⟩ := by
  have hopen : x.dropWhile (· ∉ quote) = [] :=
    List.dropWhile_eq_nil_iff.mpr fun c hc => not_mem_quote hc h34
  simp only [nextWord, trimmed_quote h35 hlast, firstWord, split_quote, hopen, if_true]

theorem nextWord_end : nextWord (some []) = ⟨some [], none⟩ := rfl

private theorem keyword_target (hentry : entry ∈ keywords) :
    entry.2.target ≠ .bad ∧ entry.2.target ≠ .unimplemented := by
  have hknown : ∀ e ∈ keywords, e.2.target ≠ .bad ∧ e.2.target ≠ .unimplemented := by decide
  exact hknown entry hentry

private theorem ended_run (run : Checked (Int × Options)) :
    (run >>= fun r =>
      if r.1 = 0 then do
        let status ← endOfLine (some (.ofList []))
        pure (status, r.2)
      else pure (r.1, r.2)) = run := by
  cases run with
  | error e => rfl
  | ok r =>
    obtain ⟨status, options⟩ := r
    rw [except_ok_bind]
    by_cases hzero : status = 0
    · rw [if_pos hzero, hzero]
      rfl
    · rw [if_neg hzero]
      rfl

theorem line_ne_nil (hentry : entry ∈ keywords) (hk : k.map tolower = bytes entry.1) (l : List Byte) :
    k ++ l ≠ [] := by
  intro he
  exact keyword_ne_nil hentry hk (List.append_eq_nil_iff.mp he).1

theorem processText_quoted (hentry : entry ∈ keywords) (hk : k.map tolower = bytes entry.1)
    (hsep : IsSeparator sep) (h34 : 34 ∉ v) (h35 : 35 ∉ v) (o : Options) (activep : Option Int) :
    processText o (k ++ (sep ++ 34 :: (v ++ [34]))) activep =
      entry.2.target.assign o activep (some (.ofList v)) := by
  obtain ⟨hbad, hun⟩ := keyword_target hentry
  have hkey := nextWord_keyword_quote hentry hk hsep (x := v ++ [34]) (by simpa using h35)
    (closed_quote v)
  rw [processText, if_neg (line_ne_nil hentry hk _)]
  simp only [hkey, nextWord_quoted h34 h35, nextWord_end, Word.text, Option.map_some, strdup,
    except_pure, except_ok_bind, parseToken_eq hentry hk]
  cases htarget : entry.2.target with
  | bad => exact absurd htarget hbad
  | unimplemented => exact absurd htarget hun
  | flag f => exact ended_run _
  | string f => exact ended_run _
  | timeout => exact ended_run _

theorem processText_unclosed (hentry : entry ∈ keywords) (hk : k.map tolower = bytes entry.1)
    (hsep : IsSeparator sep) (h34 : 34 ∉ x) (h35 : 35 ∉ x)
    (hlast : ∀ c ∈ (34 :: x).getLast?, ¬ isspace c) {f : StrField} (hf : entry.2.target = .string f)
    {o : Options} (hunset : o.str f = none) {active : Int} (hactive : active ≠ 0) :
    processText o (k ++ (sep ++ 34 :: x)) (some active) = .error .nullArgument := by
  have hkey := nextWord_keyword_quote hentry hk hsep h35 hlast
  rw [processText, if_neg (line_ne_nil hentry hk _)]
  simp only [hkey, nextWord_unclosed h34 h35 hlast, Word.text, Option.map_some, Option.map_none, strdup,
    except_pure, except_ok_bind, parseToken_eq hentry hk, hf]
  rw [Target.assign, parseString, storeArgument_none, if_pos ⟨hactive, hunset⟩]
  rfl

def quotedLine (keyword sep value : List Byte) : List Byte := keyword ++ (sep ++ 34 :: (value ++ [34]))

private theorem quotedLine_noNul (hentry : entry ∈ keywords) (hk : k.map tolower = bytes entry.1)
    (hsep : IsSeparator sep) (h0 : 0 ∉ v) : 0 ∉ quotedLine k sep v := by
  intro hm
  simp only [quotedLine, List.mem_append, List.mem_cons, List.not_mem_nil, or_false] at hm
  rcases hm with hm | hm | hm | hm | hm
  · exact (keyword_plain hentry hk hm).2.2.1 rfl
  · exact (separator_byte hsep hm).1 rfl
  · exact absurd hm (by decide)
  · exact h0 hm
  · exact absurd hm (by decide)

theorem processConfigLine_quoted (hentry : entry ∈ keywords) (hk : k.map tolower = bytes entry.1)
    (hsep : IsSeparator sep) (h0 : 0 ∉ v) (h34 : 34 ∉ v) (h35 : 35 ∉ v) (o : Options)
    (activep : Option Int) :
    processConfigLine o (quotedLine k sep v ++ [0]) activep =
      entry.2.target.assign o activep (some (.ofList v)) := by
  rw [processConfigLine_eq, lineText,
    takeWhile_ne_of_not_mem (quotedLine_noNul hentry hk hsep h0), quotedLine,
    trimmed_keyword_quote hentry hk hsep (by simpa using h35) (closed_quote v)]
  exact processText_quoted hentry hk hsep h34 h35 o activep

private theorem lineText_hash (hentry : entry ∈ keywords) (hk : k.map tolower = bytes entry.1)
    (hsep : IsSeparator sep) (h0 : 0 ∉ v) (h34 : 34 ∉ v) (h35 : 35 ∈ v) :
    ∃ x, lineText (quotedLine k sep v) = k ++ (sep ++ 34 :: x) ∧ 34 ∉ x ∧ 35 ∉ x ∧
      ∀ c ∈ (34 :: x).getLast?, ¬ isspace c := by
  obtain ⟨u, r, rfl, hu⟩ := List.eq_append_cons_of_mem h35
  obtain ⟨x, hx⟩ : ∃ x, x = u.rdropWhile isspace := ⟨_, rfl⟩
  have hux : u = x ++ u.rtakeWhile isspace := by rw [hx, List.rdropWhile_append_rtakeWhile]
  have hxu : ∀ c ∈ x, c ∈ u := fun c hc => by
    rw [hux]
    exact List.mem_append_left _ hc
  have hx35 : 35 ∉ x := fun hm => hu (hxu 35 hm)
  have hlast : ∀ c ∈ (34 :: x).getLast?, ¬ isspace c := by
    intro c hc
    cases hnil : x.getLast? with
    | none =>
      obtain rfl : 34 = c := by simpa [List.getLast?_cons, hnil] using hc
      decide
    | some d =>
      obtain rfl : d = c := by simpa [List.getLast?_cons, hnil] using hc
      have hne : x ≠ [] := by
        rintro rfl
        simp at hnil
      rw [List.getLast?_eq_some_getLast hne, Option.some_inj] at hnil
      subst hx
      rw [← hnil]
      exact List.rdropWhile_last_not isspace u hne
  have htext := trimmed_keyword_quote hentry hk hsep hx35 hlast
  have hfront : 35 ∉ k ++ (sep ++ 34 :: u) := by
    intro hm
    rcases List.mem_append.mp hm with hm | hm
    · exact (keyword_plain hentry hk hm).2.1 rfl
    · rcases List.mem_append.mp hm with hm | hm
      · exact (separator_byte hsep hm).2.2.2 rfl
      · exact hu (by simpa using hm)
  have hsplit : quotedLine k sep (u ++ 35 :: r) = (k ++ (sep ++ 34 :: u)) ++ 35 :: (r ++ [34]) := by
    simp [quotedLine]
  have hblank : ∀ c ∈ u.rtakeWhile isspace, isspace c := fun c hc => List.mem_rtakeWhile_imp hc
  refine ⟨x, ?_, fun hm => h34 (by simp [hxu 34 hm]), hx35, hlast⟩
  calc lineText (quotedLine k sep (u ++ 35 :: r))
      = Text.strip isspace (k ++ (sep ++ 34 :: u)) := by
        rw [lineText, takeWhile_ne_of_not_mem (quotedLine_noNul hentry hk hsep h0), hsplit, trimmed,
          uncomment_hash _ hfront]
    _ = Text.strip isspace ((k ++ (sep ++ 34 :: x)) ++ u.rtakeWhile isspace) := by
        conv_lhs => rw [hux]
        simp
    _ = Text.strip isspace (k ++ (sep ++ 34 :: x)) := Text.strip_append_right hblank
    _ = k ++ (sep ++ 34 :: x) := by
        have hfront' : 35 ∉ k ++ (sep ++ 34 :: x) := by
          rw [← htext]
          exact hash_not_mem_trimmed _
        rwa [trimmed, uncomment_eq_self hfront'] at htext

theorem isSeparator_blank {c : Byte} (hc : c ∈ bytes " \t") : IsSeparator [c] :=
  ⟨[c], [], by simpa using hc, by simp, Or.inl ⟨rfl, by simp⟩⟩

/-- A quoted value is stored as it stands unless there is a `#` in it. With one the line has lost
the closing quote, and NULL is handed to `strdup`. -/
theorem processConfigLine_quoted_iff (hentry : entry ∈ keywords)
    {f : StrField} (hf : entry.2.target = .string f) (hk : k.map tolower = bytes entry.1) {c : Byte}
    (hc : c ∈ bytes " \t") (hne : v ≠ []) (hv : ∀ d ∈ v, d ∉ [(0 : Byte), 10, 34]) {o : Options}
    (hunset : o.str f = none) {active : Int} (hactive : active ≠ 0) :
    processConfigLine o (quotedLine k [c] v ++ [0]) (some active) =
        .ok (0, o.setStr f (some (.ofList v))) ↔ 35 ∉ v := by
  have hsep := isSeparator_blank hc
  have h0 : 0 ∉ v := fun hm => absurd (hv 0 hm) (by decide)
  have h34 : 34 ∉ v := fun hm => absurd (hv 34 hm) (by decide)
  constructor
  · intro hrun h35
    obtain ⟨x, hline, hx34, hx35, hlast⟩ := lineText_hash hentry hk hsep h0 h34 h35
    rw [processConfigLine_eq, hline,
      processText_unclosed hentry hk hsep hx34 hx35 hlast hf hunset hactive] at hrun
    simp at hrun
  · intro h35
    have hmissing : missing (some (CString.ofList v)) = false := by
      simpa [missing, CString.ofList_bytes h0] using hne
    rw [processConfigLine_quoted hentry hk hsep h0 h34 h35, hf, Target.assign, parseString,
      storeArgument_some, if_pos ⟨hactive, hunset⟩, hmissing]
    rfl

end

theorem processConfigLine_quoted_iff_hostsFile :
    processConfigLine initializeOptions (quotedLine (bytes "hostsFile") [32] (bytes "my hosts") ++ [0])
        (some 1) = .ok (0, initializeOptions.setStr .hostsFile (some (.ofList (bytes "my hosts")))) ↔
      35 ∉ bytes "my hosts" :=
  processConfigLine_quoted_iff (by decide : ("hostsfile", OpCode.oHostsFile) ∈ keywords) rfl
    (by decide) (by decide) (by decide) (by decide) rfl (by decide)

/-- `hostsFile "/etc/hosts#1"` is read as `hostsFile "/etc/hosts`. -/
theorem processConfigLine_quoted_hash :
    ¬ ∀ (entry : String × OpCode) (f : StrField) (k v : List Byte) (o : Options), entry ∈ keywords →
      entry.2.target = .string f → k.map tolower = bytes entry.1 → v ≠ [] →
      (∀ d ∈ v, d ∉ [(0 : Byte), 10, 34]) → o.str f = none →
      processConfigLine o (quotedLine k [32] v ++ [0]) (some 1) =
        .ok (0, o.setStr f (some (.ofList v))) := by
  intro h
  have hrun := h ("hostsfile", .oHostsFile) .hostsFile (bytes "hostsFile") (bytes "/etc/hosts#1")
    initializeOptions (by decide) rfl (by decide) (by decide) (by decide) rfl
  have hfault : processText initializeOptions
      (lineText (quotedLine (bytes "hostsFile") [32] (bytes "/etc/hosts#1"))) (some 1) =
      .error .nullArgument := by decide +kernel
  rw [processConfigLine_eq, hfault] at hrun
  simp at hrun

end Stonesh
