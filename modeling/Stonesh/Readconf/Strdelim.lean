import Stonesh.Util

/-!
# The tokenizer of configuration lines

`strdelim` trims at its cursor, shifts the line over an opening quote, stores a NUL behind the
token and jumps over blanks and one `=`. Seen from the text of the line, it cuts off one word;
`nextWord` is that reading, and `strdelim_spec` relates the two.
-/

namespace Stonesh

open CLib

def whitespace : List Byte := bytes " \t\r\n"
def quote : List Byte := bytes "\""
def delimiters : List Byte := whitespace ++ (quote ++ bytes "=")

/-- The token, the new value of the cursor and the line as it is left. -/
def strdelim (b : Block) (s : Option Nat) : Checked (Cut (Option Nat)) :=
  match s with
  | none => pure ⟨none, none, b⟩
  | some old => do
    let b ← trim b (some old)
    match ← strpbrk b old delimiters with
    | none => pure ⟨some old, none, b⟩
    | some s =>
      let c ← load b s
      if c = 34 then
        let b ← memmove b s (s + 1) (← strlen b s)
        match ← strpbrk b s quote with
        | none => pure ⟨none, none, b⟩
        | some s =>
          let b ← store b s 0
          pure ⟨some old, some (s + ((← strspn b (s + 1) whitespace) + 1)), b⟩
      else
        let b ← store b s 0
        let s := s + ((← strspn b (s + 1) whitespace) + 1)
        -- only one '=' is skipped: the delimiter itself or one behind blanks
        if (← load b s) = 61 ∧ c ≠ 61 then
          pure ⟨some old, some (s + ((← strspn b (s + 1) whitespace) + 1)), b⟩
        else pure ⟨some old, some s, b⟩

def skipBlanks (l : List Byte) : List Byte := l.dropWhile (· ∈ whitespace)

/-- What follows the delimiter `c`: blanks are skipped, and with them one `=` unless `c` is one. -/
def afterDelimiter (c : Byte) (u : List Byte) : List Byte :=
  match skipBlanks u with
  | 61 :: v => if c = 61 then 61 :: v else skipBlanks v
  | v => v

/-- The word a trimmed text begins with. A quote may open anywhere in it, and without a closing
one there is no word. -/
def firstWord (w : List Byte) : Word :=
  match w.dropWhile (· ∉ delimiters) with
  | [] => ⟨some w, none⟩
  | c :: u =>
    let t := w.takeWhile (· ∉ delimiters)
    if c = 34 then
      match u.dropWhile (· ∉ quote) with
      | [] => ⟨none, none⟩
      | _ :: v => ⟨some (t ++ u.takeWhile (· ∉ quote)), some (skipBlanks v)⟩
    else ⟨some t, some (afterDelimiter c u)⟩

def nextWord (s : Option (List Byte)) : Word :=
  match s with
  | none => ⟨none, none⟩
  | some s => firstWord (trimmed s)

section
variable {pre s t u post : List Byte} {c : Byte} {p : Nat}

private theorem skip_split (u : List Byte) :
    u = u.takeWhile (· ∈ whitespace) ++ skipBlanks u := List.takeWhile_append_dropWhile.symm

private theorem strspn_behind (pre t post : List Byte) (c : Byte) (h : p = pre.length) (hu : 0 ∉ u) :
    strspn (pre ++ (t ++ c :: (u ++ 0 :: post))) (p + t.length + 1) whitespace =
      .ok (u.takeWhile (· ∈ whitespace)).length := by
  have hb : pre ++ (t ++ c :: (u ++ 0 :: post)) = (pre ++ (t ++ [c])) ++ (u ++ 0 :: post) := by
    simp
  rw [hb]
  exact strspn_at (by simp [h]; omega) hu

private theorem strdelim_quoted (hw : 0 ∉ t ++ 34 :: u) (ht : ∀ d ∈ t, d ∉ delimiters) :
    ∃ cut, (do
        let b ← memmove (pre ++ (t ++ 34 :: (u ++ 0 :: post))) (pre.length + t.length)
          (pre.length + t.length + 1)
          (← strlen (pre ++ (t ++ 34 :: (u ++ 0 :: post))) (pre.length + t.length))
        match ← strpbrk b (pre.length + t.length) quote with
        | none => pure ⟨none, none, b⟩
        | some s =>
          let b ← store b s 0
          pure ⟨some pre.length, some (s + ((← strspn b (s + 1) whitespace) + 1)), b⟩ :
            Checked (Cut (Option Nat))) = .ok cut ∧
      (firstWord (t ++ 34 :: u)).ShownBy pre cut := by
  have hu0 : 0 ∉ u := fun hm => hw (by simp [hm])
  have hq0 : 0 ∉ 34 :: u := fun hm => hw (List.mem_append_right _ hm)
  have htake : (t ++ 34 :: u).takeWhile (· ∉ delimiters) = t :=
    Text.takeWhile_stop (by simpa using ht) (by decide)
  have hdrop : (t ++ 34 :: u).dropWhile (· ∉ delimiters) = 34 :: u :=
    Text.dropWhile_stop (by simpa using ht) (by decide)
  have hword : firstWord (t ++ 34 :: u) = match u.dropWhile (· ∉ quote) with
      | [] => ⟨none, none⟩
      | _ :: v => ⟨some (t ++ u.takeWhile (· ∉ quote)), some (skipBlanks v)⟩ := by
    simp only [firstWord, hdrop, htake, if_true]
  have hlen : strlen (pre ++ (t ++ 34 :: (u ++ 0 :: post))) (pre.length + t.length) =
      .ok (34 :: u).length := by
    have hb : pre ++ (t ++ 34 :: (u ++ 0 :: post)) = (pre ++ t) ++ ((34 :: u) ++ 0 :: post) := by simp
    rw [hb]
    exact strlen_at (by simp) hq0
  obtain ⟨last, hmove⟩ : ∃ last, memmove (pre ++ (t ++ 34 :: (u ++ 0 :: post)))
      (pre.length + t.length) (pre.length + t.length + 1) (34 :: u).length =
        .ok ((pre ++ t) ++ (u ++ 0 :: last)) := by
    have hdown := memmove_down (pre ++ t) (u ++ [0]) post [34] (p := pre.length + t.length)
      (n := pre.length + t.length + 1) (by simp) (by simp) (k := (34 :: u).length) (by simp)
    refine ⟨([34] ++ ((u ++ [0]) ++ post)).drop (u ++ [0]).length, ?_⟩
    simpa using hdown
  rw [hlen, hword]
  simp only [except_ok_bind, hmove]
  cases hclose : u.dropWhile (· ∉ quote) with
  | nil =>
    have hnone : ∀ d ∈ u, d ∉ quote := by simpa using List.dropWhile_eq_nil_iff.mp hclose
    have hbrk := strpbrk_none last (show pre.length + t.length = (pre ++ t).length by simp)
      hu0 hnone
    rw [hbrk]
    exact ⟨_, rfl, rfl, rfl⟩
  | cons d v =>
    have hd : d ∈ quote := by simpa using Text.dropWhile_head hclose
    obtain ⟨x, hx⟩ : ∃ x, x = u.takeWhile (· ∉ quote) := ⟨_, rfl⟩
    have hux : u = x ++ d :: v := hx ▸ Text.split_of_dropWhile hclose
    have hxq : ∀ e ∈ x, e ∉ quote := by
      intro e he
      rw [hx] at he
      simpa only [decide_eq_true_eq] using List.mem_takeWhile_imp he
    have hv0 : 0 ∉ v := fun hm => hu0 (by simp [hux, hm])
    rw [← hx]
    subst hux
    have hassoc : (pre ++ t) ++ ((x ++ d :: v) ++ 0 :: last) =
        pre ++ ((t ++ x) ++ d :: (v ++ 0 :: last)) := by simp
    have hbrk := strpbrk_some last (show pre.length + t.length = (pre ++ t).length by simp)
      hu0 hxq hd
    have hplace : pre.length + t.length + x.length = pre.length + (t ++ x).length := by simp; omega
    have hstore : store (pre ++ ((t ++ x) ++ d :: (v ++ 0 :: last))) (pre.length + (t ++ x).length) 0 =
        .ok (pre ++ ((t ++ x) ++ 0 :: (v ++ 0 :: last))) := store_after rfl
    have hspan := strspn_behind pre (t ++ x) last 0 rfl hv0
    rw [List.append_assoc x, List.cons_append] at hassoc
    rw [List.append_assoc x, List.cons_append, hbrk]
    simp only [except_ok_bind, hassoc, hplace, hstore, hspan, except_pure]
    refine ⟨_, rfl, rfl, v.takeWhile (· ∈ whitespace), last, ?_, ?_⟩
    · simp only [List.length_append, List.length_cons]
      congr 1
      omega
    · rw [← List.append_assoc (v.takeWhile _), ← skip_split v]

private theorem strdelim_bare (hw : 0 ∉ t ++ c :: u) (ht : ∀ d ∈ t, d ∉ delimiters)
    (hc : c ∈ delimiters) (hquote : c ≠ 34) :
    ∃ cut, (do
        let b ← store (pre ++ (t ++ c :: (u ++ 0 :: post))) (pre.length + t.length) 0
        let s := pre.length + t.length +
          ((← strspn b (pre.length + t.length + 1) whitespace) + 1)
        if (← load b s) = 61 ∧ c ≠ 61 then
          pure ⟨some pre.length, some (s + ((← strspn b (s + 1) whitespace) + 1)), b⟩
        else pure ⟨some pre.length, some s, b⟩ : Checked (Cut (Option Nat))) = .ok cut ∧
      (firstWord (t ++ c :: u)).ShownBy pre cut := by
  have hu0 : 0 ∉ u := fun hm => hw (by simp [hm])
  have htake : (t ++ c :: u).takeWhile (· ∉ delimiters) = t :=
    Text.takeWhile_stop (by simpa using ht) (by simpa using hc)
  have hdrop : (t ++ c :: u).dropWhile (· ∉ delimiters) = c :: u :=
    Text.dropWhile_stop (by simpa using ht) (by simpa using hc)
  have hword : firstWord (t ++ c :: u) = ⟨some t, some (afterDelimiter c u)⟩ := by
    simp only [firstWord, hdrop, htake, hquote, if_false]
  have hstore : store (pre ++ (t ++ c :: (u ++ 0 :: post))) (pre.length + t.length) 0 =
      .ok (pre ++ (t ++ 0 :: (u ++ 0 :: post))) := store_after rfl
  have hspan := strspn_behind pre t post 0 rfl hu0
  obtain ⟨ws, hws⟩ : ∃ ws, ws = u.takeWhile (· ∈ whitespace) := ⟨_, rfl⟩
  have hsplit := skip_split u
  rw [← hws] at hspan hsplit
  have hb : pre ++ (t ++ 0 :: (u ++ 0 :: post)) =
      (pre ++ (t ++ 0 :: ws)) ++ (skipBlanks u ++ 0 :: post) := by
    conv_lhs => rw [hsplit]
    simp
  have hplace : pre.length + t.length + (ws.length + 1) = (pre ++ (t ++ 0 :: ws)).length := by
    simp only [List.length_append, List.length_cons]
    omega
  rw [hb] at hspan hstore
  rw [hstore, hword]
  simp only [except_ok_bind, hspan, hplace]
  unfold afterDelimiter
  cases hr : skipBlanks u with
  | nil =>
    simp only [List.nil_append, load_at, except_ok_bind]
    rw [if_neg (by simp)]
    exact ⟨_, rfl, rfl, ws, post, rfl, by simp⟩
  | cons d v =>
    simp only [List.cons_append, load_at, except_ok_bind]
    by_cases hd : d = 61
    · subst hd
      by_cases hc61 : c = 61
      · rw [if_neg (fun h => h.2 hc61)]
        refine ⟨_, rfl, rfl, ws, post, rfl, ?_⟩
        simp [hc61]
      · have hv0 : 0 ∉ v := by
          intro hm
          rw [hsplit, hr] at hu0
          exact hu0 (by simp [hm])
        have hb' : (pre ++ (t ++ 0 :: ws)) ++ 61 :: (v ++ 0 :: post) =
            pre ++ ((t ++ 0 :: ws) ++ 61 :: (v ++ 0 :: post)) := by simp
        have hspan' := strspn_behind pre (t ++ 0 :: ws) post 61 rfl hv0
        rw [← List.length_append] at hspan'
        rw [if_pos ⟨rfl, hc61⟩, hb', hspan']
        simp only [except_ok_bind, except_pure, hc61, if_false]
        refine ⟨_, rfl, rfl, ws ++ 61 :: v.takeWhile (· ∈ whitespace), post, ?_, ?_⟩
        · simp only [List.length_append, List.length_cons]
          congr 1
          omega
        · conv_lhs => rw [skip_split v]
          simp
    · rw [if_neg (fun h => hd h.1)]
      refine ⟨_, rfl, rfl, ws, post, rfl, ?_⟩
      simp [hd]

/-- `strdelim` cuts off the next word of the text at its cursor. -/
theorem strdelim_spec (pre post : List Byte) (hs : 0 ∉ s) :
    ∃ cut, strdelim (pre ++ (s ++ 0 :: post)) (some pre.length) = .ok cut ∧
      (nextWord (some s)).ShownBy pre cut := by
  obtain ⟨mid, htrim, -, -⟩ := trim_spec pre s post rfl hs
  have hw0 := zero_not_mem_trimmed hs
  rw [nextWord]
  simp only [strdelim, htrim, except_ok_bind]
  generalize trimmed s = w at hw0
  generalize mid ++ post = post
  cases hdrop : w.dropWhile (· ∉ delimiters) with
  | nil =>
    have hnone : ∀ d ∈ w, d ∉ delimiters := by simpa using List.dropWhile_eq_nil_iff.mp hdrop
    have hword : firstWord w = ⟨some w, none⟩ := by simp only [firstWord, hdrop]
    rw [strpbrk_none _ rfl hw0 hnone, hword]
    exact ⟨_, rfl, rfl, rfl, post, rfl⟩
  | cons c u =>
    have hc : c ∈ delimiters := by simpa using Text.dropWhile_head hdrop
    obtain ⟨t, ht⟩ : ∃ t, t = w.takeWhile (· ∉ delimiters) := ⟨_, rfl⟩
    have hwt : w = t ++ c :: u := ht ▸ Text.split_of_dropWhile hdrop
    have htd : ∀ d ∈ t, d ∉ delimiters := by
      intro d hd
      rw [ht] at hd
      simpa only [decide_eq_true_eq] using List.mem_takeWhile_imp hd
    clear hdrop ht
    subst hwt
    have hload : load (pre ++ (t ++ c :: (u ++ 0 :: post))) (pre.length + t.length) = .ok c :=
      load_after rfl
    rw [List.append_assoc t, List.cons_append, strpbrk_some _ rfl hw0 htd hc]
    simp only [except_ok_bind, hload]
    by_cases hquote : c = 34
    · subst hquote
      rw [if_pos rfl]
      exact strdelim_quoted hw0 htd
    · rw [if_neg hquote]
      exact strdelim_bare hw0 htd hc hquote

end

end Stonesh
