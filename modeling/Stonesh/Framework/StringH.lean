import Stonesh.Framework.Block
import Stonesh.Framework.Text

/-!
# The C string library

The functions of `ctype.h`, `string.h` and `stdlib.h` in the C locale, as their documentation
has them. A comparison reads two strings; a tokenizer walks one block, cuts it in place by
storing a NUL over the delimiter, and hands back a cursor for the next call.
-/

namespace CLib

def isspace (c : Byte) : Bool := c == 32 || (9 ≤ c && c ≤ 13)
def isdigit (c : Byte) : Bool := 48 ≤ c && c ≤ 57
def tolower (c : Byte) : Byte := if 65 ≤ c && c ≤ 90 then c + 32 else c
def toupper (c : Byte) : Byte := if 97 ≤ c && c ≤ 122 then c - 32 else c

theorem tolower_eq_zero_iff {c : Byte} : tolower c = 0 ↔ c = 0 := by
  constructor
  · intro h
    unfold tolower at h
    split at h
    · next hr => grind
    · exact h
  · rintro rfl
    rfl

theorem toupper_eq_zero_iff {c : Byte} : toupper c = 0 ↔ c = 0 := by
  constructor
  · intro h
    unfold toupper at h
    split at h
    · next hr => grind
    · exact h
  · rintro rfl
    rfl

/-- The difference of the first folded bytes that differ among the first `n`; a string that has
ended compares as NUL. -/
def compareFolded (fold : Byte → Byte) : Nat → List Byte → List Byte → Int
  | 0, _, _ => 0
  | _ + 1, [], [] => 0
  | _ + 1, [], d :: _ => -((fold d).toNat : Int)
  | _ + 1, c :: _, [] => (fold c).toNat
  | n + 1, c :: s, d :: t =>
    if fold c = fold d then compareFolded fold n s t else (fold c).toNat - (fold d).toNat

def strncmp (s t : CString) (n : Nat) : Int := compareFolded id n s.bytes t.bytes
def strcmp (s t : CString) : Int := compareFolded id (s.bytes.length + t.bytes.length) s.bytes t.bytes
def strncasecmp (s t : CString) (n : Nat) : Int := compareFolded tolower n s.bytes t.bytes
def strcasecmp (s t : CString) : Int :=
  compareFolded tolower (s.bytes.length + t.bytes.length) s.bytes t.bytes

private theorem id_eq_zero (c : Byte) (h : id c = 0) : c = 0 := h

private theorem toNat_ne_zero {fold : Byte → Byte} (hf : ∀ c, fold c = 0 → c = 0) {c : Byte}
    (hc : c ≠ 0) : (fold c).toNat ≠ 0 := by
  intro h
  exact hc (hf c (UInt8.toNat_inj.mp h))

theorem compareFolded_eq_zero_iff {fold : Byte → Byte} (hf : ∀ c, fold c = 0 → c = 0) (n : Nat)
    {s t : List Byte} (hs : 0 ∉ s) (ht : 0 ∉ t) :
    compareFolded fold n s t = 0 ↔ (s.take n).map fold = (t.take n).map fold := by
  induction n generalizing s t with
  | zero => simp [compareFolded]
  | succ n ih =>
    cases s with
    | nil =>
      cases t with
      | nil => simp [compareFolded]
      | cons d t =>
        have hd := toNat_ne_zero hf (c := d) fun h => ht (by simp [h])
        simp only [compareFolded, List.take_nil, List.map_nil, List.take_succ_cons, List.map_cons,
          List.nil_eq, reduceCtorEq, iff_false]
        omega
    | cons c s =>
      have hc := toNat_ne_zero hf (c := c) fun h => hs (by simp [h])
      cases t with
      | nil => simp [compareFolded, hc]
      | cons d t =>
        have hs' : 0 ∉ s := fun h => hs (List.mem_cons_of_mem _ h)
        have ht' : 0 ∉ t := fun h => ht (List.mem_cons_of_mem _ h)
        simp only [compareFolded, List.take_succ_cons, List.map_cons, List.cons.injEq]
        by_cases hcd : fold c = fold d
        · simp [hcd, ih hs' ht']
        · have hne : (fold c).toNat ≠ (fold d).toNat := fun h => hcd (UInt8.toNat_inj.mp h)
          simp only [hcd, if_false, false_and, iff_false]
          omega

private theorem take_map_full {fold : Byte → Byte} {s t : List Byte} {n : Nat}
    (hn : s.length + t.length ≤ n) :
    (s.take n).map fold = (t.take n).map fold ↔ s.map fold = t.map fold := by
  rw [List.take_of_length_le (by omega), List.take_of_length_le (by omega)]

theorem strcasecmp_eq_zero_iff {s t : CString} :
    strcasecmp s t = 0 ↔ s.bytes.map tolower = t.bytes.map tolower := by
  rw [strcasecmp, compareFolded_eq_zero_iff (fun _ => tolower_eq_zero_iff.mp) _ s.noNul t.noNul,
    take_map_full (Nat.le_refl _)]

theorem strcmp_eq_zero_iff {s t : CString} : strcmp s t = 0 ↔ s = t := by
  rw [strcmp, compareFolded_eq_zero_iff id_eq_zero _ s.noNul t.noNul, take_map_full (Nat.le_refl _),
    List.map_id, List.map_id, CString.ext_iff]

private theorem take_map_prefix {fold : Byte → Byte} {s t : List Byte} :
    (s.take s.length).map fold = (t.take s.length).map fold ↔ s.map fold <+: t.map fold := by
  rw [List.take_length, List.prefix_iff_eq_take, List.length_map, List.map_take]

theorem strncasecmp_length_eq_zero_iff {s t : CString} :
    strncasecmp s t s.bytes.length = 0 ↔ s.bytes.map tolower <+: t.bytes.map tolower := by
  rw [strncasecmp, compareFolded_eq_zero_iff (fun _ => tolower_eq_zero_iff.mp) _ s.noNul t.noNul,
    take_map_prefix]

theorem strncmp_length_eq_zero_iff {s t : CString} :
    strncmp s t s.bytes.length = 0 ↔ s.bytes <+: t.bytes := by
  rw [strncmp, compareFolded_eq_zero_iff id_eq_zero _ s.noNul t.noNul, take_map_prefix,
    List.map_id, List.map_id]

theorem strncmp_eq_zero_iff_of_length_eq {s t : CString} (h : s.bytes.length = t.bytes.length) :
    strncmp s t t.bytes.length = 0 ↔ s = t := by
  rw [← h, strncmp_length_eq_zero_iff]
  constructor
  · intro hp
    exact CString.ext (hp.eq_of_length h)
  · rintro rfl
    exact List.prefix_refl _

theorem length_strncmp_iff {s t : CString} :
    (s.bytes.length = t.bytes.length ∧ strncmp s t t.bytes.length = 0) ↔ s = t := by
  constructor
  · rintro ⟨hlen, hcmp⟩
    exact (strncmp_eq_zero_iff_of_length_eq hlen).mp hcmp
  · rintro rfl
    exact ⟨rfl, (strncmp_eq_zero_iff_of_length_eq rfl).mpr rfl⟩

def decimalValue (l : List Byte) : Nat := l.foldl (fun n c => n * 10 + (c.toNat - 48)) 0

def intMax : Nat := 2147483647

def longMax : Int := 9223372036854775807

/-- The decimal numeral a string begins with, clamped to the range of `long`. -/
def strtol (s : CString) : Int :=
  let l := s.bytes.dropWhile isspace
  let negative := l.head? = some 45
  let l := if l.head? = some 45 ∨ l.head? = some 43 then l.tail else l
  let v : Int := decimalValue (l.takeWhile isdigit)
  let v := if negative then -v else v
  max (-longMax - 1) (min v longMax)

def atoi (s : CString) : Int := (strtol s).bmod (2 * intMax + 2)

private theorem not_isspace_of_isdigit {c : Byte} (h : isdigit c) : ¬ isspace c ∧ c ≠ 45 ∧ c ≠ 43 ∧ c ≠ 0 := by
  simp only [isdigit, Bool.and_eq_true, decide_eq_true_eq] at h
  have hne (d : Byte) (hd : d < 48) : c ≠ d := fun he => absurd h.1 (UInt8.not_le.mpr (he ▸ hd))
  refine ⟨?_, hne 45 (by decide), hne 43 (by decide), hne 0 (by decide)⟩
  simp only [isspace, Bool.or_eq_true, beq_iff_eq, Bool.and_eq_true, decide_eq_true_eq, not_or,
    not_and, UInt8.not_le]
  exact ⟨hne 32 (by decide), fun _ => UInt8.lt_of_lt_of_le (by decide) h.1⟩

theorem atoi_digits {v : List Byte} (hdigit : ∀ c ∈ v, isdigit c) (hle : decimalValue v ≤ intMax) :
    atoi (.ofList v) = decimalValue v := by
  have h0 : 0 ∉ v := fun hm => (not_isspace_of_isdigit (hdigit 0 hm)).2.2.2 rfl
  have hdrop : v.dropWhile isspace = v := by
    cases v with
    | nil => rfl
    | cons c v => exact List.dropWhile_cons_of_neg (not_isspace_of_isdigit (hdigit c (by simp))).1
  have hsign : v.head? ≠ some 45 ∧ v.head? ≠ some 43 := by
    cases v with
    | nil => simp
    | cons c v =>
      have hc := not_isspace_of_isdigit (hdigit c (by simp))
      exact ⟨by simpa using hc.2.1, by simpa using hc.2.2.1⟩
  have htake : v.takeWhile isdigit = v := List.takeWhile_eq_self_iff.mpr hdigit
  have hlong : strtol (.ofList v) = decimalValue v := by
    rw [intMax] at hle
    simp only [strtol, CString.ofList_bytes h0, hdrop, hsign.1, hsign.2, or_self, if_false, htake,
      longMax]
    omega
  rw [atoi, hlong, Int.bmod_def]
  rw [intMax] at hle ⊢
  omega

theorem atoi_blank {b v : List Byte} (hb : ∀ c ∈ b, isspace c) (h0 : 0 ∉ b ++ v) :
    atoi (.ofList (b ++ v)) = atoi (.ofList v) := by
  have hv0 : 0 ∉ v := fun hm => h0 (List.mem_append_right _ hm)
  simp only [atoi, strtol, CString.ofList_bytes h0, CString.ofList_bytes hv0,
    List.dropWhile_append_of_pos hb]

def strspn (b : Block) (p : Nat) (accept : List Byte) : Checked Nat := do
  let s ← str b p
  pure (s.bytes.takeWhile (· ∈ accept)).length

def strcspn (b : Block) (p : Nat) (reject : List Byte) : Checked Nat := do
  let s ← str b p
  pure (s.bytes.takeWhile (· ∉ reject)).length

def strpbrk (b : Block) (p : Nat) (accept : List Byte) : Checked (Option Nat) := do
  let n ← strcspn b p accept
  let c ← load b (p + n)
  pure (if c = 0 then none else some (p + n))

/-- What a tokenizer call leaves: the token, the cursor for the next call and the block. -/
structure Cut (γ : Type) where
  token : Option Nat
  cursor : γ
  block : Block
  deriving DecidableEq

def strsep (b : Block) (stringp : Option Nat) (delim : List Byte) : Checked (Cut (Option Nat)) :=
  match stringp with
  | none => pure ⟨none, none, b⟩
  | some s => do
    let stop := s + (← strcspn b s delim)
    if (← load b stop) = 0 then pure ⟨some s, none, b⟩
    else pure ⟨some s, some (stop + 1), ← store b stop 0⟩

/-- `strtok` with its hidden cursor made explicit: the first call starts at the string, each
later one at the cursor the call before it left. -/
def strtok (b : Block) (s : Nat) (delim : List Byte) : Checked (Cut Nat) := do
  let s := s + (← strspn b s delim)
  if (← load b s) = 0 then pure ⟨none, s, b⟩
  else
    let stop := s + (← strcspn b s delim)
    if (← load b stop) = 0 then pure ⟨some s, stop, b⟩
    else pure ⟨some s, stop + 1, ← store b stop 0⟩

/-- `strncpy` between two offsets of one block, byte by byte from the front. -/
def strncpy (b : Block) (dst src n : Nat) : Checked Block := do
  let s ← str b src
  let copied := s.bytes.take n
  if dst + n ≤ b.length then
    pure (b.take dst ++ (copied ++ (List.replicate (n - copied.length) 0 ++ b.drop (dst + n))))
  else throw .outOfBounds

section
variable {pre s t post delim : List Byte} {d : Byte} {p : Nat}

theorem strspn_at (h : p = pre.length) (hs : 0 ∉ s) :
    strspn (pre ++ (s ++ 0 :: post)) p delim = .ok (s.takeWhile (· ∈ delim)).length := by
  simp [strspn, str_at h hs, CString.ofList_bytes hs]

theorem strcspn_at (h : p = pre.length) (hs : 0 ∉ s) :
    strcspn (pre ++ (s ++ 0 :: post)) p delim = .ok (s.takeWhile (· ∉ delim)).length := by
  simp [strcspn, str_at h hs, CString.ofList_bytes hs]

theorem strcspn_stop {u : List Byte} (h : p = pre.length) (hs : 0 ∉ t ++ d :: u)
    (ht : ∀ c ∈ t, c ∉ delim) (hd : d ∈ delim) :
    strcspn (pre ++ (t ++ d :: (u ++ 0 :: post))) p delim = .ok t.length := by
  have hb : t ++ d :: (u ++ 0 :: post) = (t ++ d :: u) ++ 0 :: post := by simp
  rw [hb, strcspn_at h hs, Text.takeWhile_stop (by simpa using ht) (by simpa using hd)]

theorem strcspn_none (h : p = pre.length) (hs : 0 ∉ t) (ht : ∀ c ∈ t, c ∉ delim) :
    strcspn (pre ++ (t ++ 0 :: post)) p delim = .ok t.length := by
  rw [strcspn_at h hs, List.takeWhile_eq_self_iff.mpr (by simpa using ht)]

theorem load_after (h : p = pre.length) : load (pre ++ (t ++ d :: post)) (p + t.length) = .ok d := by
  rw [← List.append_assoc]
  exact load_at' (by simp [h])

theorem store_after {c : Byte} (h : p = pre.length) :
    store (pre ++ (t ++ d :: post)) (p + t.length) c = .ok (pre ++ (t ++ c :: post)) := by
  rw [← List.append_assoc, store_at' (by simp [h]), List.append_assoc]

theorem strpbrk_some (post : List Byte) {u : List Byte} (h : p = pre.length) (hs : 0 ∉ t ++ d :: u)
    (ht : ∀ c ∈ t, c ∉ delim) (hd : d ∈ delim) :
    strpbrk (pre ++ (t ++ d :: (u ++ 0 :: post))) p delim = .ok (some (p + t.length)) := by
  have hne : d ≠ 0 := fun he => hs (by simp [he])
  simp [strpbrk, strcspn_stop h hs ht hd, load_after h, hne]

theorem strpbrk_none (post : List Byte) (h : p = pre.length) (hs : 0 ∉ t) (ht : ∀ c ∈ t, c ∉ delim) :
    strpbrk (pre ++ (t ++ 0 :: post)) p delim = .ok none := by
  simp [strpbrk, strcspn_none h hs ht, load_after h]

theorem strsep_field (pre post delim : List Byte) {u : List Byte} (h : p = pre.length) (hs : 0 ∉ t ++ d :: u)
    (ht : ∀ c ∈ t, c ∉ delim) (hd : d ∈ delim) :
    strsep (pre ++ (t ++ d :: (u ++ 0 :: post))) (some p) delim =
      .ok ⟨some p, some (p + t.length + 1), pre ++ (t ++ 0 :: (u ++ 0 :: post))⟩ := by
  have hne : d ≠ 0 := fun he => hs (by simp [he])
  simp [strsep, strcspn_stop h hs ht hd, load_after h, store_after h, hne]

theorem strsep_last (pre post delim : List Byte) (h : p = pre.length) (hs : 0 ∉ t) (ht : ∀ c ∈ t, c ∉ delim) :
    strsep (pre ++ (t ++ 0 :: post)) (some p) delim =
      .ok ⟨some p, none, pre ++ (t ++ 0 :: post)⟩ := by
  simp [strsep, strcspn_none h hs ht, load_after h]

theorem strtok_none (pre post : List Byte) (h : p = pre.length) (hs : 0 ∉ s)
    (hall : ∀ c ∈ s, c ∈ delim) :
    strtok (pre ++ (s ++ 0 :: post)) p delim =
      .ok ⟨none, p + s.length, pre ++ (s ++ 0 :: post)⟩ := by
  have hspan : strspn (pre ++ (s ++ 0 :: post)) p delim = .ok s.length := by
    rw [strspn_at h hs, List.takeWhile_eq_self_iff.mpr (by simpa using hall)]
  simp [strtok, hspan, load_after h]

private theorem strtok_skip (post : List Byte) {sep u : List Byte} (h : p = pre.length) (hs : 0 ∉ sep ++ u)
    (hsep : ∀ c ∈ sep, c ∈ delim) (hu : ∃ a v, u = a :: v ∧ a ∉ delim) :
    strspn (pre ++ ((sep ++ u) ++ 0 :: post)) p delim = .ok sep.length ∧
      ∃ a, a ≠ 0 ∧ load (pre ++ ((sep ++ u) ++ 0 :: post)) (p + sep.length) = .ok a := by
  obtain ⟨a, v, rfl, ha⟩ := hu
  have ha0 : a ≠ 0 := fun he => hs (by simp [he])
  refine ⟨?_, a, ha0, ?_⟩
  · rw [strspn_at h hs, Text.takeWhile_stop (by simpa using hsep) (by simpa using ha)]
  · rw [List.append_assoc]
    exact load_after h

theorem strtok_field (pre post : List Byte) {sep r : List Byte} (h : p = pre.length)
    (hs : 0 ∉ sep ++ (t ++ d :: r)) (hsep : ∀ c ∈ sep, c ∈ delim) (hne : t ≠ [])
    (ht : ∀ c ∈ t, c ∉ delim) (hd : d ∈ delim) :
    strtok (pre ++ ((sep ++ (t ++ d :: r)) ++ 0 :: post)) p delim =
      .ok ⟨some (pre ++ sep).length, (pre ++ (sep ++ (t ++ [0]))).length,
        pre ++ (sep ++ (t ++ 0 :: (r ++ 0 :: post)))⟩ := by
  obtain ⟨a, t', rfl⟩ := List.exists_cons_of_ne_nil hne
  obtain ⟨hspan, b, hb0, hload⟩ := strtok_skip post h hs hsep
    ⟨a, t' ++ d :: r, rfl, ht a (by simp)⟩
  have hd0 : d ≠ 0 := fun he => hs (by simp [he])
  have hb : pre ++ ((sep ++ ((a :: t') ++ d :: r)) ++ 0 :: post) =
      (pre ++ sep) ++ ((a :: t') ++ d :: (r ++ 0 :: post)) := by simp
  have hlen : p + sep.length = (pre ++ sep).length := by simp [h]
  have hs' : 0 ∉ (a :: t') ++ d :: r := fun hm => hs (List.mem_append_right _ hm)
  rw [hb] at hspan
  rw [hb, hlen] at hload
  simp only [strtok, hb, hspan, except_ok_bind, hload, hb0, if_false, hlen,
    strcspn_stop rfl hs' ht hd, load_after rfl, hd0, store_after rfl, except_pure]
  simp [Nat.add_assoc]

theorem strtok_last (pre post : List Byte) {sep : List Byte} (h : p = pre.length)
    (hs : 0 ∉ sep ++ t) (hsep : ∀ c ∈ sep, c ∈ delim) (hne : t ≠ []) (ht : ∀ c ∈ t, c ∉ delim) :
    strtok (pre ++ ((sep ++ t) ++ 0 :: post)) p delim =
      .ok ⟨some (pre ++ sep).length, (pre ++ (sep ++ t)).length, pre ++ ((sep ++ t) ++ 0 :: post)⟩ := by
  obtain ⟨a, t', rfl⟩ := List.exists_cons_of_ne_nil hne
  obtain ⟨hspan, b, hb0, hload⟩ := strtok_skip post h hs hsep ⟨a, t', rfl, ht a (by simp)⟩
  have hb : pre ++ ((sep ++ (a :: t')) ++ 0 :: post) = (pre ++ sep) ++ ((a :: t') ++ 0 :: post) := by
    simp
  have hlen : p + sep.length = (pre ++ sep).length := by simp [h]
  have hs' : 0 ∉ a :: t' := fun hm => hs (List.mem_append_right _ hm)
  rw [hb] at hspan
  rw [hb, hlen] at hload
  simp only [strtok, hb, hspan, except_ok_bind, hload, hb0, if_false, hlen,
    strcspn_none rfl hs' ht, load_after rfl, if_true, except_pure]
  simp [Nat.add_assoc]

theorem gap_terminates {gap r : List Byte} (h : gap = [0] ∨ gap = [] ∧ r = []) (post : List Byte) :
    ∃ v, gap ++ (r ++ 0 :: post) = 0 :: v := by
  rcases h with rfl | ⟨rfl, rfl⟩
  · exact ⟨r ++ 0 :: post, rfl⟩
  · exact ⟨post, rfl⟩

/-- One call of `strtok`: it finds no token, or it cuts off the first one and leaves the cursor
on the string behind it. The cut `gap` is the NUL over the delimiter, or nothing when the string
ended with the token. -/
theorem strtok_cases (pre post delim : List Byte) (h : p = pre.length) (hs : 0 ∉ s) :
    (Text.tokens (· ∈ delim) s = [] ∧ ∃ cursor, strtok (pre ++ (s ++ 0 :: post)) p delim =
        .ok ⟨none, cursor, pre ++ (s ++ 0 :: post)⟩) ∨
      ∃ sep t gap r, (∀ c ∈ sep, c ∈ delim) ∧ t ≠ [] ∧ (∀ c ∈ t, c ∈ s) ∧ (∀ c ∈ r, c ∈ s) ∧
        Text.tokens (· ∈ delim) s = t :: Text.tokens (· ∈ delim) r ∧
        (gap = [0] ∨ gap = [] ∧ r = []) ∧ r.length < s.length ∧
        strtok (pre ++ (s ++ 0 :: post)) p delim =
          .ok ⟨some (pre ++ sep).length, (pre ++ (sep ++ (t ++ gap))).length,
            pre ++ (sep ++ (t ++ (gap ++ (r ++ 0 :: post))))⟩ := by
  rcases Text.tokens_cases (fun c => decide (c ∈ delim)) s with
    ⟨hall, htok⟩ | ⟨sep, t, hsep, ht, hne, ⟨rfl, htok⟩ | ⟨d, r, hd, rfl, htok⟩⟩
  · exact Or.inl ⟨htok, _, strtok_none pre post h hs (by simpa using hall)⟩
  · have hcut := strtok_last pre post h hs (by simpa using hsep) hne (by simpa using ht)
    have hpos := List.length_pos_iff.mpr hne
    refine Or.inr ⟨sep, t, [], [], by simpa using hsep, hne, ?_, by simp, htok, Or.inr ⟨rfl, rfl⟩, ?_, ?_⟩
    · exact fun c hc => List.mem_append_right _ hc
    · rw [List.length_append, List.length_nil]
      omega
    · simpa using hcut
  · have hcut := strtok_field pre post h hs (by simpa using hsep) hne (by simpa using ht)
      (by simpa using hd)
    refine Or.inr ⟨sep, t, [0], r, by simpa using hsep, hne, ?_, ?_, htok, Or.inl rfl, ?_, ?_⟩
    · exact fun c hc => List.mem_append_right _ (List.mem_append_left _ hc)
    · exact fun c hc => List.mem_append_right _ (List.mem_append_right _ (List.mem_cons_of_mem _ hc))
    · simp only [List.length_append, List.length_cons]
      omega
    · simpa using hcut

theorem strncpy_start {front : List Byte} (post : List Byte) (hs : 0 ∉ s) :
    strncpy (front ++ (s ++ 0 :: post)) 0 front.length s.length =
      .ok ((s ++ (front ++ s).drop s.length) ++ 0 :: post) := by
  have hfit : 0 + s.length ≤ (front ++ (s ++ 0 :: post)).length := by
    simp only [List.length_append, List.length_cons]
    omega
  have hdrop : (front ++ (s ++ 0 :: post)).drop (0 + s.length) =
      (front ++ s).drop s.length ++ 0 :: post := by
    rw [Nat.zero_add, ← List.append_assoc, List.drop_append_of_le_length]
    rw [List.length_append]
    omega
  rw [strncpy, str_at rfl hs, except_ok_bind, if_pos hfit, CString.ofList_bytes hs, List.take_length,
    hdrop]
  simp

/-- One call of `strtok` with one delimiter, in terms of the string it walks: what it skips, the
token, and what follows. -/
theorem strtok_word (pre post : List Byte) (d : Byte) (h : p = pre.length) (hs : 0 ∉ s)
    {sep t u : List Byte} (hsep : sep = s.takeWhile (· = d))
    (ht : t = (s.dropWhile (· = d)).takeWhile (· ≠ d))
    (hu : u = (s.dropWhile (· = d)).dropWhile (· ≠ d)) :
    (t = [] ∧ strtok (pre ++ (s ++ 0 :: post)) p [d] =
        .ok ⟨none, p + s.length, pre ++ (s ++ 0 :: post)⟩) ∨
      t ≠ [] ∧ ∃ gap, (gap = [0] ∨ gap = [] ∧ u.tail = []) ∧
        strtok (pre ++ (s ++ 0 :: post)) p [d] =
          .ok ⟨some (pre ++ sep).length, (pre ++ (sep ++ (t ++ gap))).length,
            pre ++ (sep ++ (t ++ (gap ++ (u.tail ++ 0 :: post))))⟩ := by
  have hsplit : s = sep ++ (t ++ u) := by
    rw [hsep, ht, hu, List.takeWhile_append_dropWhile, List.takeWhile_append_dropWhile]
  have hsep' : ∀ c ∈ sep, c ∈ [d] := by
    intro c hc
    rw [hsep] at hc
    simpa using List.mem_takeWhile_imp hc
  have ht' : ∀ c ∈ t, c ∉ [d] := by
    intro c hc
    rw [ht] at hc
    simpa using List.mem_takeWhile_imp hc
  by_cases hne : t = []
  · left
    have hnil : s.dropWhile (· = d) = [] := by
      cases hdrop : s.dropWhile (· = d) with
      | nil => rfl
      | cons c v =>
        have hc := Text.dropWhile_head hdrop
        rw [ht, hdrop, List.takeWhile_cons_of_pos (by simpa using hc)] at hne
        exact absurd hne (by simp)
    have hall : ∀ c ∈ s, c ∈ [d] := by
      intro c hc
      have hd := List.dropWhile_eq_nil_iff.mp hnil c hc
      simpa using hd
    exact ⟨hne, strtok_none pre post h hs hall⟩
  · right
    refine ⟨hne, ?_⟩
    cases u with
    | nil =>
      rw [hsplit, List.append_nil] at hs ⊢
      have hcut := strtok_last pre post h hs hsep' hne ht'
      exact ⟨[], Or.inr ⟨rfl, rfl⟩, by simpa using hcut⟩
    | cons c r =>
      have hc := Text.dropWhile_head hu.symm
      have hcd : c ∈ [d] := by simpa using hc
      rw [hsplit] at hs ⊢
      have hcut := strtok_field pre post h hs hsep' hne ht' hcd
      exact ⟨[0], Or.inl rfl, by simpa using hcut⟩

end

/-- A token and the text behind it; `none` stands for NULL. -/
structure Word where
  token : Option (List Byte)
  rest : Option (List Byte)
  deriving DecidableEq, Repr

def Word.text (w : Word) : Option CString := w.token.map .ofList

/-- What a call leaves shows a word: the token stands at the old cursor, terminated, and the rest
of the text stands at the new one. -/
def Word.ShownBy (w : Word) (pre : List Byte) (cut : Cut (Option Nat)) : Prop :=
  match w.token, w.rest with
  | none, none => cut.token = none ∧ cut.cursor = none
  | none, some _ => False
  | some t, none => cut.token = some pre.length ∧ cut.cursor = none ∧
      ∃ post, cut.block = pre ++ (t ++ 0 :: post)
  | some t, some r => cut.token = some pre.length ∧ ∃ gap post,
      cut.cursor = some (pre ++ (t ++ 0 :: gap)).length ∧
      cut.block = pre ++ (t ++ 0 :: (gap ++ (r ++ 0 :: post)))

/-- `strdup`, which must not be handed NULL. -/
def strdup (s : Option CString) : Checked CString :=
  match s with
  | none => throw .nullArgument
  | some s => pure s

def tokenText {γ : Type} (cut : Cut γ) : Checked (Option CString) :=
  match cut.token with
  | none => pure none
  | some p => some <$> str cut.block p

@[simp] theorem tokenText_none {γ : Type} (cursor : γ) (b : Block) :
    tokenText ⟨none, cursor, b⟩ = .ok none := rfl

theorem tokenText_at {γ : Type} {cursor : γ} {pre t post : List Byte} {p : Nat}
    (h : p = pre.length) (ht : 0 ∉ t) :
    tokenText ⟨some p, cursor, pre ++ (t ++ 0 :: post)⟩ = .ok (some (.ofList t)) := by
  simp only [tokenText, str_at h ht, except_ok_map]

/-- The field in front of the first `d`, and the text behind that. -/
def Word.field (d : Byte) (s : Option (List Byte)) : Word :=
  match s with
  | none => ⟨none, none⟩
  | some s => ⟨some (s.takeWhile (· ≠ d)),
      match s.dropWhile (· ≠ d) with
      | [] => none
      | _ :: r => some r⟩

def Word.NoNul (w : Word) : Prop := (∀ t ∈ w.token, 0 ∉ t) ∧ ∀ r ∈ w.rest, 0 ∉ r

section
variable {pre s : List Byte} {cut : Cut (Option Nat)} {w : Word} {d : Byte}

theorem Word.ShownBy.tokenText (h : w.ShownBy pre cut) (hw : w.NoNul) :
    tokenText cut = .ok w.text := by
  obtain ⟨token, rest⟩ := w
  cases token with
  | none =>
    cases rest with
    | none => simp [CLib.tokenText, h.1, Word.text]
    | some r => exact h.elim
  | some t =>
    have ht : 0 ∉ t := hw.1 t rfl
    cases rest with
    | none =>
      obtain ⟨htoken, -, post, hblock⟩ := h
      simp [CLib.tokenText, htoken, hblock, str_at rfl ht, Word.text]
    | some r =>
      obtain ⟨htoken, gap, post, -, hblock⟩ := h
      simp [CLib.tokenText, htoken, hblock, str_at rfl ht, Word.text]

theorem Word.ShownBy.cursor (h : w.ShownBy pre cut) :
    w.rest = none ∧ cut.cursor = none ∨
      ∃ r pre' post, w.rest = some r ∧ cut.cursor = some pre'.length ∧
        cut.block = pre' ++ (r ++ 0 :: post) := by
  obtain ⟨token, rest⟩ := w
  cases rest with
  | none =>
    cases token with
    | none => exact Or.inl ⟨rfl, h.2⟩
    | some t => exact Or.inl ⟨rfl, h.2.1⟩
  | some r =>
    cases token with
    | none => exact h.elim
    | some t =>
      obtain ⟨-, gap, post, hcursor, hblock⟩ := h
      exact Or.inr ⟨r, pre ++ (t ++ 0 :: gap), post, rfl, hcursor, by simp [hblock]⟩

theorem Word.field_noNul {s : Option (List Byte)} (hs : ∀ u ∈ s, 0 ∉ u) : (Word.field d s).NoNul := by
  cases s with
  | none => simp [Word.field, Word.NoNul]
  | some u =>
    have hu : 0 ∉ u := hs u rfl
    refine ⟨?_, ?_⟩
    · intro t ht
      rw [← Option.mem_some_iff.mp ht]
      exact fun hm => hu (List.takeWhile_subset _ hm)
    · intro r hr
      simp only [Word.field, Option.mem_def] at hr
      cases hdrop : u.dropWhile (· ≠ d) with
      | nil =>
        rw [hdrop] at hr
        simp at hr
      | cons c v =>
        rw [hdrop] at hr
        have hrv : v = r := Option.some_inj.mp hr
        have hsub := (List.dropWhile_sublist (fun c => decide (c ≠ d)) (l := u)).subset
        rw [hdrop, hrv] at hsub
        exact fun hm => hu (hsub (List.mem_cons_of_mem _ hm))

theorem Word.splitOn_eq (d : Byte) (s : List Byte) :
    s.splitOn d = s.takeWhile (· ≠ d) ::
      ((Word.field d (some s)).rest.map (·.splitOn d)).getD [] := by
  by_cases hd : d ∈ s
  · obtain ⟨t, u, rfl, ht⟩ := List.eq_append_cons_of_mem hd
    have hne := forall_ne_of_not_mem ht
    have hdrop : (t ++ d :: u).dropWhile (· ≠ d) = d :: u :=
      Text.dropWhile_stop (by simpa using hne) (by simp)
    rw [Text.splitOn_field ht, Text.takeWhile_ne_stop ht]
    simp only [Word.field, hdrop, Option.map_some, Option.getD_some]
  · have hne := forall_ne_of_not_mem hd
    have hdrop : s.dropWhile (· ≠ d) = [] := List.dropWhile_eq_nil_iff.mpr (by simpa using hne)
    rw [Text.splitOn_single hd, takeWhile_ne_of_not_mem hd]
    simp only [Word.field, hdrop, Option.map_none, Option.getD_none]

theorem Word.splitOn_next (d : Byte) (s : Option (List Byte)) :
    ((s.map (·.splitOn d)).getD [])[0]? = (Word.field d s).token ∧
      ((s.map (·.splitOn d)).getD [])[1]? = (Word.field d (Word.field d s).rest).token := by
  cases s with
  | none => exact ⟨rfl, rfl⟩
  | some s =>
    rw [Option.map_some, Option.getD_some, Word.splitOn_eq]
    refine ⟨rfl, ?_⟩
    rw [List.getElem?_cons_succ]
    cases hrest : (Word.field d (some s)).rest with
    | none => rfl
    | some r =>
      rw [Option.map_some, Option.getD_some, Word.splitOn_eq]
      rfl

theorem strsep_shown (pre post : List Byte) (hs : 0 ∉ s) :
    ∃ cut, strsep (pre ++ (s ++ 0 :: post)) (some pre.length) [d] = .ok cut ∧
      (Word.field d (some s)).ShownBy pre cut := by
  by_cases hd : d ∈ s
  · obtain ⟨t, u, rfl, ht⟩ := List.eq_append_cons_of_mem hd
    have hne := forall_ne_of_not_mem ht
    have hword : Word.field d (some (t ++ d :: u)) = ⟨some t, some u⟩ := by
      have htake : (t ++ d :: u).takeWhile (· ≠ d) = t := Text.takeWhile_ne_stop ht
      have hdrop : (t ++ d :: u).dropWhile (· ≠ d) = d :: u :=
        Text.dropWhile_stop (by simpa using hne) (by simp)
      simp only [Word.field, htake, hdrop]
    have hsep := strsep_field pre post [d] rfl hs (by simpa using hne) (by simp)
    have hb : pre ++ ((t ++ d :: u) ++ 0 :: post) = pre ++ (t ++ d :: (u ++ 0 :: post)) := by simp
    rw [hword, hb]
    refine ⟨_, hsep, rfl, [], post, ?_, rfl⟩
    simp only [List.length_append, List.length_cons, List.length_nil]
    congr 1
  · have hne := forall_ne_of_not_mem hd
    have hdrop : s.dropWhile (· ≠ d) = [] := List.dropWhile_eq_nil_iff.mpr (by simpa using hne)
    have hword : Word.field d (some s) = ⟨some s, none⟩ := by
      simp only [Word.field, takeWhile_ne_of_not_mem hd, hdrop]
    rw [hword]
    exact ⟨_, strsep_last pre post [d] rfl hs (by simpa using hne), rfl, rfl, post, rfl⟩

theorem strsep_token (pre post : List Byte) (d : Byte) (hs : 0 ∉ s) :
    ∃ cursor post', strsep (pre ++ (s ++ 0 :: post)) (some pre.length) [d] =
      .ok ⟨some pre.length, cursor, pre ++ (s.takeWhile (· ≠ d) ++ 0 :: post')⟩ := by
  obtain ⟨⟨token, cursor, block⟩, hrun, hshown⟩ := strsep_shown (d := d) pre post hs
  rw [hrun]
  cases hdrop : s.dropWhile (· ≠ d) with
  | nil =>
    simp only [Word.field, hdrop] at hshown
    obtain ⟨rfl, rfl, post', rfl⟩ := hshown
    exact ⟨none, post', rfl⟩
  | cons c r =>
    simp only [Word.field, hdrop] at hshown
    obtain ⟨rfl, gap, post', rfl, rfl⟩ := hshown
    exact ⟨_, gap ++ (r ++ 0 :: post'), rfl⟩

theorem Word.ShownBy.strsep (h : w.ShownBy pre cut) (hw : w.NoNul) (d : Byte) :
    ∃ pre' cut', strsep cut.block cut.cursor [d] = .ok cut' ∧
      (Word.field d w.rest).ShownBy pre' cut' := by
  rcases h.cursor with ⟨hrest, hcursor⟩ | ⟨r, pre', post, hrest, hcursor, hblock⟩
  · rw [hrest, hcursor]
    exact ⟨[], _, rfl, rfl, rfl⟩
  · obtain ⟨cut', hrun, hshown⟩ := strsep_shown (d := d) pre' post (hw.2 r hrest)
    exact ⟨pre', cut', by rw [hblock, hcursor, hrun], hrest ▸ hshown⟩

end

end CLib
