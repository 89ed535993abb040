import Stonesh.Framework.StringH

/-!
# The string utilities

`trim` cuts a string at its first `#`, removes the blanks around what is left and works in place.
Its three loops are followed here byte by byte. All the parsers of the program rest on the
result: the trimmed string stands where the string stood and nothing outside it has changed.
-/

namespace Stonesh

open CLib

/-- First loop: from the first `#` on, the bytes up to the old end become NUL. -/
def trimComment (p : Nat) : Nat → Nat → Bool → Block → Checked Block
  | 0, _, _, b => pure b
  | n + 1, i, comment, b => do
    let comment := comment || (← load b (p + i)) == 35
    let b ← if comment then store b (p + i) 0 else pure b
    trimComment p n (i + 1) comment b

/-- Second loop: `while( l > 0 && isspace(p[l - 1])) { p[--l] = '\0'; }`. -/
def trimTrailing (p : Nat) : Nat → Block → Checked (Nat × Block)
  | 0, b => pure (0, b)
  | l + 1, b => do
    if isspace (← load b (p + l)) then trimTrailing p l (← store b (p + l) 0) else pure (l + 1, b)

/-- Third loop: the start moves over leading blanks. The block's size bounds the rounds, since
each of them reads one byte further on. -/
def trimLeading (b : Block) : Nat → Nat → Nat → Checked (Nat × Nat)
  | 0, _, _ => throw .outOfBounds
  | fuel + 1, p, l => do
    let c ← load b p
    if c ≠ 0 ∧ (isspace c ∨ c = 35) then trimLeading b fuel (p + 1) (l - 1) else pure (p, l)

def trim (b : Block) (s : Option Nat) : Checked Block :=
  match s with
  | none => pure b
  | some s => do
    let l ← strlen b s
    if l = 0 then pure b
    else
      let b ← trimComment s l 0 false b
      let l ← strlen b s
      let (l, b) ← trimTrailing s l b
      let (p, l) ← trimLeading b b.size s l
      if p ≠ s then store (← memmove b s p l) (s + l) 0 else pure b

def trimString (s : CString) : Checked CString := do str (← trim s.block (some 0)) 0

/-- `*cp = f(*cp)` for every byte up to the terminator. -/
def convertCase (f : Byte → Byte) : Nat → Block → Nat → Checked Block
  | 0, _, _ => throw .outOfBounds
  | fuel + 1, b, cp => do
    let c ← load b cp
    if c ≠ 0 then convertCase f fuel (← store b cp (f c)) (cp + 1) else pure b

def strtoupper (b : Block) (string : Nat) : Checked Block := convertCase toupper b.size b string
def strtolower (b : Block) (string : Nat) : Checked Block := convertCase tolower b.size b string

theorem convertCase_spec (f : Byte → Byte) (pre s post : List Byte) {fuel p : Nat} (h : p = pre.length)
    (hs : 0 ∉ s) (hf : s.length < fuel) :
    convertCase f fuel (pre ++ (s ++ 0 :: post)) p = .ok (pre ++ (s.map f ++ 0 :: post)) := by
  induction s generalizing pre p fuel with
  | nil =>
    obtain ⟨fuel, rfl⟩ : ∃ n, fuel = n + 1 := ⟨fuel - 1, by simp at hf; omega⟩
    simp [convertCase, load_at' h]
  | cons c s ih =>
    obtain ⟨fuel, rfl⟩ : ∃ n, fuel = n + 1 := ⟨fuel - 1, by simp at hf; omega⟩
    have hc : c ≠ 0 := fun he => hs (by simp [he])
    have hstep := ih (pre ++ [f c]) (p := p + 1) (by simp [h])
      (fun hm => hs (by simp [hm])) (by simp at hf; omega)
    simp only [List.append_assoc, List.singleton_append] at hstep
    simp [convertCase, load_at' h, store_at' h, hc, hstep]

def uncomment (s : List Byte) : List Byte := s.takeWhile (· ≠ 35)

/-- The string `trim` leaves: cut at the first `#`, without the blanks around the rest. -/
def trimmed (s : List Byte) : List Byte := Text.strip isspace (uncomment s)

/-- What lies between the terminator `trim` writes and the old one. -/
def trimRest (s : List Byte) : List Byte :=
  let v := (uncomment s).rdropWhile isspace
  (v ++ 0 :: List.replicate (s.length - v.length) 0).drop ((trimmed s).length + 1)

theorem mem_uncomment {s : List Byte} {c : Byte} (h : c ∈ uncomment s) : c ∈ s ∧ c ≠ 35 :=
  ⟨List.takeWhile_subset _ h, by simpa using List.mem_takeWhile_imp h⟩

theorem mem_trimmed {s : List Byte} {c : Byte} (h : c ∈ trimmed s) : c ∈ s ∧ c ≠ 35 :=
  mem_uncomment (Text.mem_of_mem_strip h)

theorem zero_not_mem_trimmed {s : List Byte} (h : 0 ∉ s) : 0 ∉ trimmed s :=
  fun hm => h (mem_trimmed hm).1

theorem uncomment_eq_self {s : List Byte} (h : 35 ∉ s) : uncomment s = s := by
  apply List.takeWhile_eq_self_iff.mpr
  intro c hc
  have hne : c ≠ 35 := fun he => h (he ▸ hc)
  simpa using hne

theorem uncomment_hash {s : List Byte} (r : List Byte) (h : 35 ∉ s) : uncomment (s ++ 35 :: r) = s :=
  Text.takeWhile_ne_stop h

theorem hash_not_mem_trimmed (s : List Byte) : 35 ∉ trimmed s := fun hm => (mem_trimmed hm).2 rfl

@[simp] theorem trimmed_nil : trimmed [] = [] := rfl

theorem trimmed_of_ends {s : List Byte} (hhash : 35 ∉ s) (hhead : ∀ c ∈ s.head?, ¬ isspace c)
    (hlast : ∀ c ∈ s.getLast?, ¬ isspace c) : trimmed s = s := by
  rw [trimmed, uncomment_eq_self hhash, Text.strip_eq_self hhead hlast]

theorem trimmed_eq_self {s : List Byte} (hblank : ∀ c ∈ s, ¬ isspace c) (hhash : 35 ∉ s) :
    trimmed s = s := by
  apply trimmed_of_ends hhash
  · intro c hc
    exact hblank c (List.mem_of_mem_head? hc)
  · intro c hc
    exact hblank c (List.mem_of_mem_getLast? hc)

theorem trimmed_eq_dropWhile {s : List Byte} (hlast : ∀ c ∈ s.getLast?, ¬ isspace c) (hhash : 35 ∉ s) :
    trimmed s = s.dropWhile isspace := by
  have hright : s.rdropWhile isspace = s := by
    rw [List.rdropWhile_eq_self_iff]
    intro hne
    exact hlast _ (List.getLast?_eq_some_getLast hne)
  rw [trimmed, uncomment_eq_self hhash, Text.strip, hright]

theorem trimmed_length_le (s : List Byte) :
    (trimmed s).length ≤ ((uncomment s).rdropWhile isspace).length :=
  (List.dropWhile_suffix isspace).length_le

theorem rdropWhile_uncomment_length_le (s : List Byte) :
    ((uncomment s).rdropWhile isspace).length ≤ s.length :=
  ((List.rdropWhile_prefix isspace (uncomment s)).trans (List.takeWhile_prefix _)).length_le

theorem trimRest_length (s : List Byte) : (trimmed s).length + (trimRest s).length = s.length := by
  have hle := trimmed_length_le s
  have hle' := rdropWhile_uncomment_length_le s
  simp only [trimRest, List.length_drop, List.length_append, List.length_cons,
    List.length_replicate]
  omega

theorem trimRest_getLast? (s : List Byte) : (0 :: trimRest s).getLast? = some 0 := by
  have hle := trimmed_length_le s
  rw [List.getLast?_cons, trimRest, List.getLast?_drop]
  split
  · rfl
  · rw [← List.replicate_succ, List.getLast?_append, List.getLast?_replicate]
    simp

@[simp] theorem trimmed_trimmed (s : List Byte) : trimmed (trimmed s) = trimmed s := by
  conv_lhs => rw [trimmed, uncomment_eq_self (hash_not_mem_trimmed s)]
  exact Text.strip_strip

section Loops
variable (pre s post : List Byte) {p : Nat}

private theorem replicate_cons_comm (k : Nat) (l : List Byte) :
    List.replicate k 0 ++ 0 :: l = 0 :: (List.replicate k 0 ++ l) := by
  induction k with
  | zero => rfl
  | succ k ih => simp only [List.replicate_succ, List.cons_append, ih]

private theorem trimComment_true {i : Nat} (h : p + i = pre.length) :
    trimComment p s.length i true (pre ++ (s ++ post)) =
      .ok (pre ++ (List.replicate s.length 0 ++ post)) := by
  induction s generalizing pre i with
  | nil => rfl
  | cons c s ih =>
    have hstep := ih (pre ++ [0]) (i := i + 1) (by simp; omega)
    simp only [List.append_assoc, List.singleton_append] at hstep
    simp [trimComment, load_at' h, store_at' h, hstep, List.replicate_succ]

private theorem trimComment_false {i : Nat} (h : p + i = pre.length) :
    trimComment p s.length i false (pre ++ (s ++ post)) =
      .ok (pre ++ (uncomment s ++ (List.replicate (s.length - (uncomment s).length) 0 ++ post))) := by
  induction s generalizing pre i with
  | nil => rfl
  | cons c s ih =>
    by_cases hc : c = 35
    · subst hc
      have hrest := trimComment_true (pre ++ [0]) s post (p := p) (i := i + 1)
        (by simp; omega)
      simp only [List.append_assoc, List.singleton_append] at hrest
      simp [trimComment, load_at' h, store_at' h, hrest, uncomment, List.replicate_succ]
    · have hstep := ih (pre ++ [c]) (i := i + 1) (by simp; omega)
      simp only [List.append_assoc, List.singleton_append] at hstep
      have hu : uncomment (c :: s) = c :: uncomment s := by simp [uncomment, hc]
      have hb : (c == 35) = false := by simpa using hc
      simp [trimComment, load_at' h, hb, hc, hstep, hu]

private theorem trimTrailing_spec (h : p = pre.length) :
    trimTrailing p s.length (pre ++ (s ++ 0 :: post)) =
      .ok ((s.rdropWhile isspace).length, pre ++ (s.rdropWhile isspace ++
        0 :: (List.replicate (s.length - (s.rdropWhile isspace).length) 0 ++ post))) := by
  induction s using List.reverseRecOn generalizing post with
  | nil => simp [trimTrailing]
  | append_singleton s c ih =>
    have hload : load (pre ++ (s ++ c :: 0 :: post)) (p + s.length) = .ok c := load_after h
    have hstore : store (pre ++ (s ++ c :: 0 :: post)) (p + s.length) 0 =
        .ok (pre ++ (s ++ 0 :: 0 :: post)) := store_after h
    have hlen : (s.rdropWhile isspace).length ≤ s.length :=
      (List.rdropWhile_prefix isspace s).length_le
    by_cases hc : isspace c
    · have hsub : s.length + 1 - (s.rdropWhile isspace).length =
          (s.length - (s.rdropWhile isspace).length) + 1 := by omega
      simp [trimTrailing, hload, hstore, hc, ih, List.rdropWhile_concat_pos, hsub,
        List.replicate_succ, replicate_cons_comm]
    · simp [trimTrailing, hload, hc, List.rdropWhile_concat_neg]

private theorem trimLeading_spec (fuel : Nat) (h : p = pre.length) (hs : 0 ∉ s) (hh : 35 ∉ s)
    (hf : s.length < fuel) :
    trimLeading (pre ++ (s ++ 0 :: post)) fuel p s.length =
      .ok (p + (s.takeWhile isspace).length, (s.dropWhile isspace).length) := by
  induction s generalizing pre p fuel with
  | nil =>
    obtain ⟨fuel, rfl⟩ : ∃ n, fuel = n + 1 := ⟨fuel - 1, by simp at hf; omega⟩
    simp [trimLeading, load_at' h]
  | cons c s ih =>
    obtain ⟨fuel, rfl⟩ : ∃ n, fuel = n + 1 := ⟨fuel - 1, by simp at hf; omega⟩
    have hc : c ≠ 0 := fun he => hs (by simp [he])
    have hc' : c ≠ 35 := fun he => hh (by simp [he])
    by_cases hsp : isspace c
    · have hstep := ih (pre ++ [c]) fuel (p := p + 1) (by simp [h])
        (fun hm => hs (by simp [hm])) (fun hm => hh (by simp [hm])) (by simp at hf; omega)
      simp only [List.append_assoc, List.singleton_append] at hstep
      simp [trimLeading, load_at' h, hc, hsp, hstep]
      omega
    · simp [trimLeading, load_at' h, hc', hsp]

private theorem trimMove_spec (blanks w zeros : List Byte) (h : p = pre.length) :
    (if p + blanks.length ≠ p then
        (do store (← memmove (pre ++ (blanks ++ (w ++ 0 :: (zeros ++ post)))) p
          (p + blanks.length) w.length) (p + w.length) 0)
      else pure (pre ++ (blanks ++ (w ++ 0 :: (zeros ++ post)))) : Checked Block) =
      .ok (pre ++ (w ++ 0 :: ((blanks ++ (w ++ 0 :: zeros)).drop (w.length + 1) ++ post))) := by
  cases blanks with
  | nil =>
    have hdrop : (w ++ 0 :: zeros).drop (w.length + 1) = zeros := by
      rw [← List.drop_drop, List.drop_left, List.drop_succ_cons, List.drop_zero]
    simp [hdrop]
  | cons c blanks =>
    have hmove := memmove_down pre w (0 :: (zeros ++ post)) (c :: blanks) h rfl rfl
    let moved := (c :: blanks) ++ (w ++ 0 :: zeros)
    have hlt : w.length < moved.length := by
      simp only [moved, List.length_append, List.length_cons]
      omega
    have hassoc : (c :: blanks) ++ (w ++ 0 :: (zeros ++ post)) = moved ++ post := by simp [moved]
    rw [hassoc] at hmove
    rw [hassoc, if_pos (by simp), hmove, List.drop_append_of_le_length (Nat.le_of_lt hlt),
      List.drop_eq_getElem_cons hlt]
    exact store_after h

/-- `trim` leaves the trimmed string in place. What it does to the bytes up to the old terminator
depends on the string alone, and no other byte changes. -/
theorem trim_eq (h : p = pre.length) (hs : 0 ∉ s) :
    trim (pre ++ (s ++ 0 :: post)) (some p) =
      .ok (pre ++ (trimmed s ++ 0 :: (trimRest s ++ post))) := by
  by_cases hnil : s = []
  · subst hnil
    have hlen : strlen (pre ++ 0 :: post) p = .ok 0 := strlen_at (s := List.nil) h (by simp)
    simp [trim, hlen, trimRest, uncomment]
  have hcomment := trimComment_false pre s (0 :: post) (p := p) (i := 0) (by simpa using h)
  have hu : (uncomment s).length ≤ s.length := (List.takeWhile_prefix _).length_le
  have hu0 : 0 ∉ uncomment s := fun hm => hs (mem_uncomment hm).1
  have huh : 35 ∉ uncomment s := fun hm => (mem_uncomment hm).2 rfl
  simp only [trimRest, trimmed, Text.strip]
  generalize uncomment s = u at *
  obtain ⟨v, hv⟩ : ∃ v, v = u.rdropWhile isspace := ⟨_, rfl⟩
  have hvu : v <+: u := hv ▸ List.rdropWhile_prefix isspace u
  have hle := hvu.length_le
  have hv0 : 0 ∉ v := fun hm => hu0 (hvu.subset hm)
  have hvh : 35 ∉ v := fun hm => huh (hvu.subset hm)
  rw [replicate_cons_comm] at hcomment
  have hlen0 : strlen (pre ++ (s ++ 0 :: post)) p = .ok s.length := strlen_at h hs
  have hlen1 : strlen (pre ++ (u ++ 0 :: (List.replicate (s.length - u.length) 0 ++ post))) p =
      .ok u.length := strlen_at h hu0
  have htrail := trimTrailing_spec pre u (List.replicate (s.length - u.length) 0 ++ post) h
  rw [← hv, ← List.append_assoc (List.replicate _ 0), ← List.replicate_add,
    show u.length - v.length + (s.length - u.length) = s.length - v.length by omega] at htrail
  rw [← hv]
  generalize List.replicate (s.length - v.length) (0 : Byte) = zeros at *
  have hlead := trimLeading_spec pre v (zeros ++ post)
    (pre ++ (v ++ 0 :: (zeros ++ post))).length h hv0 hvh
    (by simp only [List.length_append, List.length_cons]; omega)
  have hmove := trimMove_spec pre post (v.takeWhile isspace) (v.dropWhile isspace) zeros h
  have hbw : v.takeWhile isspace ++ v.dropWhile isspace = v := List.takeWhile_append_dropWhile
  simp only [← List.append_assoc (v.takeWhile isspace), hbw] at hmove
  have hne : s.length ≠ 0 := by simpa using hnil
  simp only [trim, hlen0, except_ok_bind, hne, if_false, hcomment, hlen1, htrail, hlead]
  exact hmove

/-- `trim` leaves the trimmed string in place; the bytes in front of the string and behind its
old terminator are untouched, and the old terminator is still one. -/
theorem trim_spec (h : p = pre.length) (hs : 0 ∉ s) :
    ∃ mid, trim (pre ++ (s ++ 0 :: post)) (some p) =
        .ok (pre ++ (trimmed s ++ 0 :: (mid ++ post))) ∧
      (trimmed s).length + mid.length = s.length ∧ (0 :: mid).getLast? = some 0 :=
  ⟨trimRest s, trim_eq pre s post h hs, trimRest_length s, trimRest_getLast? s⟩

theorem trim_token (pre t gap r post : List Byte) (ht : 0 ∉ t) (hgap : gap = [0] ∨ gap = [] ∧ r = []) :
    ∃ z y, trim (pre ++ (t ++ (gap ++ (r ++ 0 :: post)))) (some pre.length) =
        .ok (pre ++ (trimmed t ++ (z ++ (r ++ 0 :: post)))) ∧
      z ++ (r ++ 0 :: post) = 0 :: y ∧ (trimmed t).length + z.length = t.length + gap.length ∧
      (r = [] ∨ z.getLast? = some 0) := by
  rcases hgap with rfl | ⟨rfl, rfl⟩
  · obtain ⟨mid, htrim, hlen, hlast⟩ := trim_spec pre t (r ++ 0 :: post) rfl ht
    refine ⟨0 :: mid, mid ++ (r ++ 0 :: post), htrim, rfl, ?_, Or.inr hlast⟩
    simp only [List.length_cons, List.length_nil]
    omega
  · obtain ⟨mid, htrim, hlen, hlast⟩ := trim_spec pre t post rfl ht
    have hmid : (0 :: mid).dropLast ++ [0] = 0 :: mid := by
      rw [List.getLast?_eq_some_getLast (by simp)] at hlast
      have hget : (0 :: mid).getLast (by simp) = 0 := by simpa using hlast
      conv_rhs => rw [← List.dropLast_concat_getLast (l := 0 :: mid) (by simp), hget]
    refine ⟨(0 :: mid).dropLast, mid ++ post, ?_, ?_, ?_, Or.inl rfl⟩
    · simp only [List.nil_append]
      rw [htrim]
      congr 3
      calc 0 :: (mid ++ post) = (0 :: mid) ++ post := rfl
        _ = (0 :: mid).dropLast ++ 0 :: post := by
          conv_lhs => rw [← hmid, List.append_assoc]
          rfl
    · calc (0 :: mid).dropLast ++ ([] ++ 0 :: post) = ((0 :: mid).dropLast ++ [0]) ++ post := by simp
        _ = 0 :: (mid ++ post) := by rw [hmid]; rfl
    · simp only [List.length_dropLast, List.length_cons, List.length_nil]
      omega

end Loops

/-- The string `trim` leaves of a string. -/
def trimmedString (s : CString) : CString := .ofList (trimmed s.bytes)

@[simp] theorem trimmedString_bytes (s : CString) : (trimmedString s).bytes = trimmed s.bytes :=
  CString.ofList_bytes (zero_not_mem_trimmed s.noNul)

theorem trimString_eq (s : CString) : trimString s = .ok (trimmedString s) := by
  obtain ⟨mid, htrim, -, -⟩ := trim_spec [] s.bytes [] (p := 0) rfl s.noNul
  have hname : str (trimmed s.bytes ++ 0 :: (mid ++ [])) 0 = .ok (.ofList (trimmed s.bytes)) :=
    str_start _ (zero_not_mem_trimmed s.noNul)
  simp only [List.nil_append] at htrim
  rw [trimString, CString.block, htrim, except_ok_bind, hname]
  rfl

/-- Wherever a string lies, `trim` leaves the text in front of the first `#` without the blanks
around it. The call succeeds also when nothing but the string and its terminator may be touched,
what surrounds them has no influence and stays, and a second call changes nothing. -/
theorem trim_correct (s : CString) :
    ∃ rest, (trimmed s.bytes).length + rest.length = s.bytes.length ∧
      trim s.block (some 0) = .ok (trimmed s.bytes ++ 0 :: rest) ∧
      (∀ pre post, trim (pre ++ (s.block ++ post)) (some pre.length) =
        .ok (pre ++ (trimmed s.bytes ++ 0 :: (rest ++ post)))) ∧
      (∀ pre post, trim (pre ++ (trimmed s.bytes ++ 0 :: (rest ++ post))) (some pre.length) =
        .ok (pre ++ (trimmed s.bytes ++ 0 :: (rest ++ post)))) ∧
      (∃ a b, s.bytes.takeWhile (· ≠ 35) = a ++ (trimmed s.bytes ++ b) ∧
        (∀ c ∈ a, isspace c) ∧ ∀ c ∈ b, isspace c) ∧
      35 ∉ trimmed s.bytes ∧ (∀ c ∈ (trimmed s.bytes).head?, ¬ isspace c) ∧
      ∀ c ∈ (trimmed s.bytes).getLast?, ¬ isspace c := by
  have hfirst (pre post : List Byte) := trim_eq pre s.bytes post (p := pre.length) rfl s.noNul
  have hsecond (pre post : List Byte) := trim_eq pre (trimmed s.bytes) post (p := pre.length) rfl
    (zero_not_mem_trimmed s.noNul)
  have hdone : trimRest (trimmed s.bytes) = [] := by
    have hlen := trimRest_length (trimmed s.bytes)
    rw [trimmed_trimmed] at hlen
    exact List.length_eq_zero_iff.mp (Nat.add_eq_left.mp hlen)
  refine ⟨trimRest s.bytes, trimRest_length s.bytes, ?_, ?_, ?_, Text.strip_split isspace _,
    hash_not_mem_trimmed s.bytes, fun _ => Text.strip_head, fun _ => Text.strip_getLast⟩
  · simpa [CString.block] using hfirst [] []
  · intro pre post
    simpa [CString.block] using hfirst pre post
  · intro pre post
    have htwice := hsecond pre (trimRest s.bytes ++ post)
    rwa [trimmed_trimmed, hdone, List.nil_append] at htwice

end Stonesh
