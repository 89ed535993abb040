import Stonesh.Framework.Frame
import Stonesh.Readconf.ConfigLine

/-!
# Repeated calls of the tokenizer

A line is taken apart by calls of `strdelim` on one cursor. Each call works on the string at the
cursor alone: the run on that string and its terminator, put back into the line, is the run on the
line. So a call cannot reach a token that an earlier one has returned, and the string at the
cursor becomes shorter until the cursor is NULL.
-/

namespace Stonesh

open CLib

/-- The run of `strdelim` on a string alone, wherever the string lies. -/
theorem strdelim_frame {s : List Byte} (hs : 0 ∉ s) {cut : Cut (Option Nat)}
    (h : strdelim (s ++ [0]) (some 0) = .ok cut) :
    cut.block.length = s.length + 1 ∧ ∀ pre post,
      strdelim (pre ++ (s ++ 0 :: post)) (some pre.length) = .ok (cut.placed pre post) := by
  have halone := trim_eq [] s [] (p := 0) rfl hs
  have hlen : (trimmed s ++ 0 :: trimRest s).length = s.length + 1 := by
    have hrest := trimRest_length s
    rw [List.length_append, List.length_cons]
    omega
  have hframe (pre post : List Byte) : trim (pre ++ (s ++ 0 :: post)) (some pre.length) =
      .ok (pre ++ ((trimmed s ++ 0 :: trimRest s) ++ post)) := by
    rw [trim_eq pre s post rfl hs, List.append_assoc, List.cons_append]
  simp only [List.nil_append, List.append_nil] at halone
  simp only [strdelim, halone, hframe, except_ok_bind] at h ⊢
  rw [← hlen]
  generalize trimmed s ++ 0 :: trimRest s = b at h
  obtain ⟨q, hq, h⟩ := except_bind_eq_ok.mp h
  have hq' (pre post : List Byte) := strpbrk_frame pre post hq
  simp only [Nat.add_zero] at hq'
  simp only [hq', except_ok_bind]
  cases q with
  | none =>
    obtain rfl := Except.ok.inj h
    exact ⟨rfl, fun pre post => rfl⟩
  | some d =>
    simp only [Option.map_some] at h ⊢
    obtain ⟨c, hc, h⟩ := except_bind_eq_ok.mp h
    have hc' (pre post : List Byte) := load_frame pre post hc
    simp only [hc', except_ok_bind]
    split at h
    · next hquote =>
      -- the line shifts left over the quote, up to its own terminator
      obtain ⟨n, hn, h⟩ := except_bind_eq_ok.mp h
      obtain ⟨b', hmove, h⟩ := except_bind_eq_ok.mp h
      obtain ⟨q, hq, h⟩ := except_bind_eq_ok.mp h
      have hn' (pre post : List Byte) := strlen_frame pre post hn
      have hmove' (pre post : List Byte) := memmove_frame pre post hmove
      have hq' (pre post : List Byte) := strpbrk_frame pre post hq
      simp only [← Nat.add_assoc] at hmove'
      simp only [hquote, if_true, hn', hmove', hq', except_ok_bind]
      rw [← memmove_length hmove]
      cases q with
      | none =>
        obtain rfl := Except.ok.inj h
        exact ⟨rfl, fun pre post => rfl⟩
      | some e =>
        obtain ⟨b'', hstore, h⟩ := except_bind_eq_ok.mp h
        obtain ⟨m, hm, h⟩ := except_bind_eq_ok.mp h
        have hstore' (pre post : List Byte) := store_frame pre post hstore
        have hm' (pre post : List Byte) := strspn_frame pre post hm
        simp only [← Nat.add_assoc] at hm'
        simp only [Option.map_some, hstore', hm', except_ok_bind]
        obtain rfl := Except.ok.inj h
        refine ⟨store_length hstore, fun pre post => ?_⟩
        simp only [Cut.placed, Option.map_some, except_pure, Nat.add_zero, Nat.add_assoc]
    · next hquote =>
      obtain ⟨b', hstore, h⟩ := except_bind_eq_ok.mp h
      obtain ⟨n, hn, h⟩ := except_bind_eq_ok.mp h
      obtain ⟨e, he, h⟩ := except_bind_eq_ok.mp h
      have hstore' (pre post : List Byte) := store_frame pre post hstore
      have hn' (pre post : List Byte) := strspn_frame pre post hn
      have he' (pre post : List Byte) := load_frame pre post he
      simp only [← Nat.add_assoc] at hn' he'
      simp only [hquote, if_false, hstore', hn', except_ok_bind, ← Nat.add_assoc, he']
      rw [← store_length hstore]
      split at h
      · next hskip =>
        obtain ⟨m, hm, h⟩ := except_bind_eq_ok.mp h
        have hm' (pre post : List Byte) := strspn_frame pre post hm
        simp only [← Nat.add_assoc] at hm'
        simp only [if_pos hskip, hm', except_ok_bind]
        obtain rfl := Except.ok.inj h
        refine ⟨rfl, fun pre post => ?_⟩
        simp only [Cut.placed, Option.map_some, except_pure, Nat.add_zero, Nat.add_assoc]
      · next hskip =>
        simp only [if_neg hskip]
        obtain rfl := Except.ok.inj h
        refine ⟨rfl, fun pre post => ?_⟩
        simp only [Cut.placed, Option.map_some, except_pure, Nat.add_zero, Nat.add_assoc]

/-- What a token without a quote is cut from: the text up to the first blank or `=`. -/
def sourceWord (s : List Byte) : List Byte := (trimmed s).takeWhile (· ∉ bytes " \t\r\n=")

theorem nextWord_bare {s : List Byte} (hquote : 34 ∉ sourceWord s) :
    (nextWord (some s)).token = some (sourceWord s) := by
  rw [nextWord, sourceWord] at *
  generalize trimmed s = w at hquote
  obtain ⟨t, ht⟩ : ∃ t, t = w.takeWhile (· ∉ bytes " \t\r\n=") := ⟨_, rfl⟩
  rw [← ht] at hquote ⊢
  have hmem (d : Byte) : d ∈ delimiters ↔ d ∈ bytes " \t\r\n=" ∨ d = 34 := by
    show d ∈ [32, 9, 13, 10, 34, 61] ↔ d ∈ [32, 9, 13, 10, 61] ∨ d = 34
    simp only [List.mem_cons, List.not_mem_nil, or_false]
    tauto
  have htd : ∀ d ∈ t, d ∉ delimiters := by
    intro d hd hdelim
    rcases (hmem d).mp hdelim with h | rfl
    · rw [ht] at hd
      exact absurd h (by simpa using List.mem_takeWhile_imp hd)
    · exact hquote hd
  have hsplit : w = t ++ w.dropWhile (· ∉ bytes " \t\r\n=") := by
    rw [ht, List.takeWhile_append_dropWhile]
  cases hdrop : w.dropWhile (· ∉ bytes " \t\r\n=") with
  | nil =>
    rw [hdrop, List.append_nil] at hsplit
    have hnone : w.dropWhile (· ∉ delimiters) = [] := by
      apply List.dropWhile_eq_nil_iff.mpr
      intro d hd
      simpa using htd d (hsplit ▸ hd)
    simp only [firstWord, hnone]
    rw [hsplit]
  | cons c u =>
    have hc : c ∈ bytes " \t\r\n=" := by simpa using Text.dropWhile_head hdrop
    have hc34 : c ≠ 34 := by
      rintro rfl
      exact absurd hc (by decide)
    have hstop : ¬ decide (c ∉ delimiters) := by simpa using (hmem c).mpr (Or.inl hc)
    rw [hdrop] at hsplit
    have hdelims : ∀ d ∈ t, decide (d ∉ delimiters) = true := by simpa using htd
    have hfirst : w.dropWhile (· ∉ delimiters) = c :: u := by
      rw [hsplit]
      exact Text.dropWhile_stop hdelims hstop
    have hword : w.takeWhile (· ∉ delimiters) = t := by
      rw [hsplit]
      exact Text.takeWhile_stop hdelims hstop
    simp only [firstWord, hfirst, hc34, if_false, hword]

structure DelimState where
  block : Block
  cursor : Option Nat
  tokens : List Nat

def DelimState.step (st : DelimState) : Checked DelimState := do
  let cut ← strdelim st.block st.cursor
  pure ⟨cut.block, cut.cursor, st.tokens ++ cut.token.toList⟩

def delimCalls : Nat → DelimState → Checked DelimState
  | 0, st => pure st
  | n + 1, st => do delimCalls n (← st.step)

/-- The cursor at the beginning of a string that lies between other bytes. -/
def delimStart (pre : List Byte) (s : CString) (post : List Byte) : DelimState :=
  ⟨pre ++ (s.block ++ post), some pre.length, []⟩

/-- What one call does in a buffer whose terminator was at `stop` in the beginning. -/
structure DelimCall (stop : Nat) (st next : DelimState) : Prop where
  /-- The call is the call on the bytes from the cursor to the terminator, put back. -/
  confined : ∀ c ∈ st.cursor, c ≤ stop ∧
    ∃ cut, strdelim ((st.block.drop c).take (stop + 1 - c)) (some 0) = .ok cut ∧
      cut.block.length = stop + 1 - c ∧
      strdelim st.block (some c) = .ok (cut.placed (st.block.take c) (st.block.drop (stop + 1)))
  idle : st.cursor = none → next = st
  shorter : ∀ c ∈ st.cursor, ∀ c' ∈ next.cursor, ∃ s s', str st.block c = .ok s ∧
    str next.block c' = .ok s' ∧ s'.bytes.length < s.bytes.length
  kept : ∀ a ∈ st.tokens, ∃ t, str st.block a = .ok t ∧ str next.block a = .ok t
  bare : ∀ c ∈ st.cursor, ∀ s, str st.block c = .ok s → 34 ∉ sourceWord s.bytes →
    next.tokens = st.tokens ++ [c] ∧ ∃ t, str next.block c = .ok t ∧
      t.bytes = sourceWord s.bytes ∧ ∀ d ∈ t.bytes, d ∉ bytes " \t\r\n="

/-- After `n` calls: every token ends in front of the cursor, and each call has made the string at
the cursor shorter. -/
inductive Delimited (start len : Nat) (post : List Byte) (n : Nat) (st : DelimState) : Prop
  | scanning (before text gap : List Byte)
      (hblock : st.block = before ++ (text ++ 0 :: (gap ++ post)))
      (hcursor : st.cursor = some before.length) (htext : 0 ∉ text)
      (hstop : before.length + text.length + gap.length = start + len)
      (hleft : text.length + n ≤ len) (htokens : ∀ a ∈ st.tokens, 0 ∈ before.drop a)
  | finished (hcursor : st.cursor = none) (htokens : ∀ a ∈ st.tokens, 0 ∈ st.block.drop a)

section
variable {start len n : Nat} {post : List Byte} {st : DelimState}

private theorem mem_drop_append {l m : List Byte} {a : Nat} (h : 0 ∈ l.drop a) :
    0 ∈ (l ++ m).drop a := by
  rw [List.drop_append]
  exact List.mem_append_left _ h

private theorem strdelim_run {s : List Byte} (hs : 0 ∉ s) :
    ∃ cut, cut.block.length = s.length + 1 ∧ (nextWord (some s)).ShownBy [] cut ∧ ∀ pre post,
      strdelim (pre ++ (s ++ 0 :: post)) (some pre.length) = .ok (cut.placed pre post) := by
  obtain ⟨cut, hrun, hshown⟩ := strdelim_spec [] [] hs
  obtain ⟨hlen, hframe⟩ := strdelim_frame hs hrun
  exact ⟨cut, hlen, hshown, hframe⟩

private theorem shown_token {w : Word} {cut : Cut (Option Nat)} (h : w.ShownBy [] cut)
    {t : List Byte} (ht : w.token = some t) : cut.token = some 0 ∧ ∃ y, cut.block = t ++ 0 :: y := by
  rw [Word.ShownBy, ht] at h
  cases hr : w.rest with
  | none =>
    rw [hr] at h
    obtain ⟨htoken, -, y, hblock⟩ := h
    exact ⟨htoken, y, hblock⟩
  | some r =>
    rw [hr] at h
    obtain ⟨htoken, gap, y, -, hblock⟩ := h
    exact ⟨htoken, gap ++ (r ++ 0 :: y), hblock⟩

private theorem shown_cases {w : Word} {cut : Cut (Option Nat)} (h : w.ShownBy [] cut) :
    (w.token = none ∧ cut.token = none ∧ cut.cursor = none) ∨
    (∃ t, w.token = some t ∧ cut.cursor = none) ∨
    ∃ t r gap y, w.token = some t ∧ w.rest = some r ∧
      cut.cursor = some (t ++ 0 :: gap).length ∧ cut.block = t ++ 0 :: (gap ++ (r ++ 0 :: y)) := by
  rw [Word.ShownBy] at h
  cases ht : w.token with
  | none =>
    cases hr : w.rest with
    | none =>
      rw [ht, hr] at h
      exact Or.inl ⟨rfl, h⟩
    | some r =>
      rw [ht, hr] at h
      exact h.elim
  | some t =>
    cases hr : w.rest with
    | none =>
      rw [ht, hr] at h
      exact Or.inr (Or.inl ⟨t, rfl, h.2.1⟩)
    | some r =>
      rw [ht, hr] at h
      obtain ⟨-, gap, y, hcursor, hblock⟩ := h
      exact Or.inr (Or.inr ⟨t, r, gap, y, rfl, rfl, hcursor, hblock⟩)

private theorem call_confined {block before text gap : List Byte} {cut : Cut (Option Nat)} {stop : Nat}
    (hblock : block = before ++ (text ++ 0 :: (gap ++ post)))
    (hstop : before.length + text.length + gap.length = stop)
    (hlen : cut.block.length = text.length + 1)
    (hframe : ∀ pre post,
      strdelim (pre ++ (text ++ 0 :: post)) (some pre.length) = .ok (cut.placed pre post)) :
    ∃ part, strdelim ((block.drop before.length).take (stop + 1 - before.length)) (some 0) = .ok part ∧
      part.block.length = stop + 1 - before.length ∧
      strdelim block (some before.length) =
        .ok (part.placed (block.take before.length) (block.drop (stop + 1))) := by
  have hassoc : text ++ 0 :: (gap ++ post) = (text ++ 0 :: gap) ++ post := by
    rw [List.append_assoc, List.cons_append]
  have hpart : (text ++ 0 :: gap).length = stop + 1 - before.length := by
    rw [List.length_append, List.length_cons]
    omega
  have hfront : block.take before.length = before := by rw [hblock, List.take_left]
  have hmiddle : (block.drop before.length).take (stop + 1 - before.length) = text ++ 0 :: gap := by
    rw [hblock, List.drop_left, hassoc, ← hpart, List.take_left]
  have hbehind : block.drop (stop + 1) = post := by
    have hle : stop + 1 = before.length + (text ++ 0 :: gap).length := by omega
    rw [hblock, hle, List.drop_length_add_append, hassoc, List.drop_left]
  refine ⟨cut.placed [] gap, ?_, ?_, ?_⟩
  · rw [hmiddle]
    exact hframe [] gap
  · show ([] ++ (cut.block ++ gap)).length = _
    rw [List.nil_append, List.length_append, hlen, ← hpart, List.length_append, List.length_cons]
    omega
  · rw [Cut.placed_placed, List.append_nil, hfront, hbehind, hblock]
    exact hframe before (gap ++ post)

/-- One call keeps the invariant and does what is said of a call. -/
theorem Delimited.step (h : Delimited start len post n st) :
    ∃ next, st.step = .ok next ∧ Delimited start len post (n + 1) next ∧
      DelimCall (start + len) st next := by
  cases h with
  | finished hcursor htokens =>
    have hsame : st.step = .ok st := by
      rw [DelimState.step, hcursor]
      show Except.ok _ = Except.ok st
      rw [Option.toList_none, List.append_nil, ← hcursor]
    refine ⟨st, hsame, .finished hcursor htokens, ?_⟩
    have hnone (c : Nat) (hc : c ∈ st.cursor) : False := by simp [hcursor] at hc
    apply DelimCall.mk
    · exact fun c hc => (hnone c hc).elim
    · exact fun _ => rfl
    · exact fun c hc => (hnone c hc).elim
    · intro a ha
      have hstr : str st.block a = .ok _ := str_eq_ok.mpr ⟨htokens a ha, rfl⟩
      exact ⟨_, hstr, hstr⟩
    · exact fun c hc => (hnone c hc).elim
  | scanning before text gap hblock hcursor htext hstop hleft htokens =>
    obtain ⟨cut, hlen, hshown, hframe⟩ := strdelim_run htext
    obtain ⟨next, hnext⟩ : ∃ next : DelimState, next = ⟨before ++ (cut.block ++ (gap ++ post)),
        cut.cursor.map (before.length + ·), st.tokens ++ (cut.token.map (before.length + ·)).toList⟩ :=
      ⟨_, rfl⟩
    have hrun : st.step = .ok next := by
      rw [DelimState.step, hcursor, hblock, hframe before (gap ++ post), hnext]
      rfl
    have hold (a : Nat) (ha : a ∈ st.tokens) : str st.block a = .ok (.ofList (before.drop a)) := by
      rw [hblock]
      exact str_front _ (htokens a ha)
    have hkept (a : Nat) (ha : a ∈ st.tokens) : str next.block a = .ok (.ofList (before.drop a)) := by
      rw [hnext]
      exact str_front _ (htokens a ha)
    have hcalled : DelimCall (start + len) st next := by
      apply DelimCall.mk
      · intro c hc
        obtain rfl : before.length = c := by simpa [hcursor] using hc
        exact ⟨by omega, call_confined hblock hstop hlen hframe⟩
      · intro hnone
        simp [hcursor] at hnone
      · intro c hc c' hc'
        obtain rfl : before.length = c := by simpa [hcursor] using hc
        rcases shown_cases hshown with ⟨-, -, hend⟩ | ⟨t, -, hend⟩ | ⟨t, r, x, y, -, hr, hrest, hcut⟩
        · simp [hnext, hend] at hc'
        · simp [hnext, hend] at hc'
        · obtain rfl : before.length + (t ++ 0 :: x).length = c' := by simpa [hnext, hrest] using hc'
          have hr0 : 0 ∉ r := (nextWord_noNul (s := some text) (by simpa using htext)).2 r hr
          have hblock' : next.block =
              (before ++ (t ++ 0 :: x)) ++ (r ++ 0 :: (y ++ (gap ++ post))) := by
            rw [hnext, hcut]
            simp
          refine ⟨.ofList text, .ofList r, ?_, ?_, ?_⟩
          · rw [hblock]
            exact str_at rfl htext
          · rw [hblock']
            exact str_at List.length_append.symm hr0
          · rw [CString.ofList_bytes htext, CString.ofList_bytes hr0]
            rw [hcut] at hlen
            simp only [List.length_append, List.length_cons] at hlen
            omega
      · exact fun a ha => ⟨_, hold a ha, hkept a ha⟩
      · intro c hc s hs hquote
        obtain rfl : before.length = c := by simpa [hcursor] using hc
        have htextual : s.bytes = text := by
          rw [hblock, str_at rfl htext] at hs
          rw [← Except.ok.inj hs, CString.ofList_bytes htext]
        rw [htextual] at hquote ⊢
        have hword := nextWord_bare hquote
        obtain ⟨htoken, y, hcut⟩ := shown_token hshown hword
        have hw0 : 0 ∉ sourceWord text := fun hm =>
          zero_not_mem_trimmed htext (List.takeWhile_subset _ hm)
        refine ⟨?_, .ofList (sourceWord text), ?_, CString.ofList_bytes hw0, ?_⟩
        · rw [hnext, htoken]
          rfl
        · rw [hnext, hcut, List.append_assoc, List.cons_append]
          exact str_at rfl hw0
        · intro d hd
          rw [CString.ofList_bytes hw0] at hd
          simpa using List.mem_takeWhile_imp hd
    refine ⟨next, hrun, ?_, hcalled⟩
    rcases shown_cases hshown with ⟨-, htoken, hend⟩ | ⟨t, ht, hend⟩ | ⟨t, r, x, y, ht, hr, hrest, hcut⟩
    · apply Delimited.finished
      · rw [hnext, hend]
        rfl
      · intro a ha
        rw [hnext, htoken, Option.map_none, Option.toList_none, List.append_nil] at ha
        rw [hnext]
        exact mem_drop_append (htokens a ha)
    · obtain ⟨htoken, y, hcut⟩ := shown_token hshown ht
      apply Delimited.finished
      · rw [hnext, hend]
        rfl
      · intro a ha
        rw [hnext, htoken] at ha
        rw [hnext]
        rcases List.mem_append.mp ha with ha | ha
        · exact mem_drop_append (htokens a ha)
        · obtain rfl : a = before.length := by simpa using ha
          simp [hcut]
    · obtain ⟨htoken, -⟩ := shown_token hshown ht
      have hr0 : 0 ∉ r := (nextWord_noNul (s := some text) (by simpa using htext)).2 r hr
      have hsum : t.length + x.length + r.length + y.length + 1 = text.length := by
        rw [hcut] at hlen
        simp only [List.length_append, List.length_cons] at hlen
        omega
      apply Delimited.scanning (before ++ (t ++ 0 :: x)) r (y ++ gap)
      · rw [hnext, hcut]
        simp
      · rw [hnext, hrest]
        exact congrArg some List.length_append.symm
      · exact hr0
      · simp only [List.length_append, List.length_cons]
        omega
      · omega
      · intro a ha
        rw [hnext, htoken] at ha
        rcases List.mem_append.mp ha with ha | ha
        · exact mem_drop_append (htokens a ha)
        · obtain rfl : a = before.length := by simpa using ha
          simp

theorem DelimState.step_tokens {next : DelimState} (h : st.step = .ok next) {a : Nat}
    (ha : a ∈ st.tokens) : a ∈ next.tokens := by
  obtain ⟨cut, -, hnext⟩ := except_bind_eq_ok.mp h
  obtain rfl := Except.ok.inj hnext
  exact List.mem_append_left _ ha

private theorem Delimited.tokens (h : Delimited start len post n st) {a : Nat} (ha : a ∈ st.tokens) :
    ∃ t, str st.block a = .ok t := by
  obtain ⟨next, -, -, hcall⟩ := h.step
  obtain ⟨t, ht, -⟩ := hcall.kept a ha
  exact ⟨t, ht⟩

/-- Any number of calls keep the invariant, and with it the tokens that are there. -/
theorem Delimited.calls (h : Delimited start len post n st) (m : Nat) :
    ∃ st', delimCalls m st = .ok st' ∧ Delimited start len post (n + m) st' ∧
      ∀ a ∈ st.tokens, ∃ t, str st.block a = .ok t ∧ str st'.block a = .ok t := by
  induction m generalizing n st with
  | zero =>
    refine ⟨st, rfl, h, fun a ha => ?_⟩
    obtain ⟨t, ht⟩ := h.tokens ha
    exact ⟨t, ht, ht⟩
  | succ m ih =>
    obtain ⟨next, hrun, hinv, hcall⟩ := h.step
    obtain ⟨st', hruns, hinv', hkept⟩ := ih hinv
    refine ⟨st', ?_, ?_, ?_⟩
    · rw [delimCalls, hrun]
      exact hruns
    · rwa [Nat.add_assoc, Nat.add_comm 1 m] at hinv'
    · intro a ha
      obtain ⟨t, ht, hnext⟩ := hcall.kept a ha
      obtain ⟨t', ht', hlast⟩ := hkept a (DelimState.step_tokens hrun ha)
      rw [hnext] at ht'
      obtain rfl := Except.ok.inj ht'
      exact ⟨t, ht, hlast⟩

end

/-- The calls of `strdelim` on one cursor, from the beginning of a string, however many there are:
each stays between the cursor and the terminator of the string and makes the string at the cursor
shorter, so that the cursor is NULL after one call more than the string has bytes; the tokens stay
as they were returned, and one that is cut from text without a quote has no delimiter in it. -/
theorem strdelim_calls (pre post : List Byte) (s : CString) :
    (∀ n, ∃ st next, delimCalls n (delimStart pre s post) = .ok st ∧ st.step = .ok next ∧
      DelimCall (pre.length + s.bytes.length) st next) ∧
    (∀ n m, ∃ st st', delimCalls n (delimStart pre s post) = .ok st ∧ delimCalls m st = .ok st' ∧
      ∀ a ∈ st.tokens, ∃ t, str st.block a = .ok t ∧ str st'.block a = .ok t) ∧
    ∃ st, delimCalls (s.bytes.length + 1) (delimStart pre s post) = .ok st ∧ st.cursor = none := by
  have hstart : Delimited pre.length s.bytes.length post 0 (delimStart pre s post) := by
    apply Delimited.scanning pre s.bytes []
    · simp [delimStart, CString.block]
    · rfl
    · exact s.noNul
    · simp
    · omega
    · intro a ha
      simp [delimStart] at ha
  refine ⟨?_, ?_, ?_⟩
  · intro n
    obtain ⟨st, hrun, hinv, -⟩ := hstart.calls n
    obtain ⟨next, hstep, -, hcall⟩ := hinv.step
    exact ⟨st, next, hrun, hstep, hcall⟩
  · intro n m
    obtain ⟨st, hrun, hinv, -⟩ := hstart.calls n
    obtain ⟨st', hrun', -, hkept⟩ := hinv.calls m
    exact ⟨st, st', hrun, hrun', hkept⟩
  · obtain ⟨st, hrun, hinv, -⟩ := hstart.calls (s.bytes.length + 1)
    refine ⟨st, hrun, ?_⟩
    cases hinv with
    | finished hcursor htokens => exact hcursor
    | scanning before text gap hblock hcursor htext hstop hleft htokens => omega

end Stonesh
