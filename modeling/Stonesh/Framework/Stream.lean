import Stonesh.Framework.Block

/-!
# Reading a stream with `fgets`

One call takes the bytes up to and including the next newline, but never more than the buffer
holds beside its terminator; it returns NULL only when nothing is left. A reader that calls it
until then sees the stream as a list of chunks, and a line longer than the buffer is several of
them.
-/

namespace CLib

/-- At most `n` bytes, ending with the first newline, and the stream behind them. -/
def takeLine : Nat → List Byte → List Byte × List Byte
  | 0, s => ([], s)
  | _ + 1, [] => ([], [])
  | n + 1, c :: s =>
    if c = 10 then ([c], s)
    else
      let r := takeLine n s
      (c :: r.1, r.2)

def fgets (size : Nat) (stream : List Byte) : Option (List Byte × List Byte) :=
  if stream = [] then none else some (takeLine (size - 1) stream)

/-- What the calls of a `while( fgets(..) )` loop return, one after the other. -/
def chunksFrom (size : Nat) : Nat → List Byte → List (List Byte)
  | 0, _ => []
  | fuel + 1, s =>
    match fgets size s with
    | none => []
    | some (c, rest) => c :: chunksFrom size fuel rest

def chunks (size : Nat) (s : List Byte) : List (List Byte) := chunksFrom size s.length s

/-- The lines that end with a newline, and the bytes behind the last newline. -/
def splitLines : List Byte → List (List Byte) × List Byte
  | [] => ([], [])
  | c :: s =>
    let r := splitLines s
    if c = 10 then ([] :: r.1, r.2)
    else
      match r.1 with
      | [] => ([], c :: r.2)
      | l :: ls => ((c :: l) :: ls, r.2)

def joinLines (ls : List (List Byte)) (last : List Byte) : List Byte :=
  (ls.map (· ++ [10])).flatten ++ last

section
variable {size n : Nat} {l s : List Byte}

theorem takeLine_append (n : Nat) (s : List Byte) : (takeLine n s).1 ++ (takeLine n s).2 = s := by
  induction n generalizing s with
  | zero => rfl
  | succ n ih =>
    cases s with
    | nil => rfl
    | cons c s =>
      by_cases hc : c = 10
      · simp [takeLine, hc]
      · simp [takeLine, hc, ih]

theorem takeLine_ne_nil (hn : 0 < n) (hs : s ≠ []) : (takeLine n s).1 ≠ [] := by
  obtain ⟨m, rfl⟩ : ∃ m, n = m + 1 := ⟨n - 1, by omega⟩
  cases s with
  | nil => exact absurd rfl hs
  | cons c s =>
    by_cases hc : c = 10
    · simp [takeLine, hc]
    · simp [takeLine, hc]

theorem takeLine_newline (hl : 10 ∉ l) (hn : l.length < n) :
    takeLine n (l ++ 10 :: s) = (l ++ [10], s) := by
  induction l generalizing n with
  | nil =>
    obtain ⟨m, rfl⟩ : ∃ m, n = m + 1 := ⟨n - 1, by simp at hn; omega⟩
    simp [takeLine]
  | cons c l ih =>
    obtain ⟨m, rfl⟩ : ∃ m, n = m + 1 := ⟨n - 1, by simp at hn; omega⟩
    have hc : c ≠ 10 := fun he => hl (by simp [he])
    have hrest := ih (n := m) (fun hm => hl (List.mem_cons_of_mem _ hm)) (by simp at hn; omega)
    simp [takeLine, hc, hrest]

theorem takeLine_full (hl : 10 ∉ l) (hn : n ≤ l.length) :
    takeLine n (l ++ s) = (l.take n, l.drop n ++ s) := by
  induction l generalizing n with
  | nil =>
    have h0 : n = 0 := by simpa using hn
    subst h0
    simp [takeLine]
  | cons c l ih =>
    cases n with
    | zero => simp [takeLine]
    | succ m =>
      have hc : c ≠ 10 := fun he => hl (by simp [he])
      have hrest := ih (n := m) (fun hm => hl (List.mem_cons_of_mem _ hm)) (by simp at hn; omega)
      simp [takeLine, hc, hrest]

theorem takeLine_last (hl : 10 ∉ l) (hn : l.length ≤ n) : takeLine n l = (l, []) := by
  induction l generalizing n with
  | nil => cases n <;> rfl
  | cons c l ih =>
    obtain ⟨m, rfl⟩ : ∃ m, n = m + 1 := ⟨n - 1, by simp at hn; omega⟩
    have hc : c ≠ 10 := fun he => hl (by simp [he])
    have hrest := ih (n := m) (fun hm => hl (List.mem_cons_of_mem _ hm)) (by simp at hn; omega)
    simp [takeLine, hc, hrest]

private theorem chunksFrom_fuel (hsize : 2 ≤ size) (f g : Nat) (s : List Byte) (hf : s.length ≤ f)
    (hg : s.length ≤ g) : chunksFrom size f s = chunksFrom size g s := by
  induction f generalizing g s with
  | zero =>
    have hs : s = [] := by simpa using hf
    subst hs
    cases g <;> rfl
  | succ f ih =>
    by_cases hs : s = []
    · subst hs
      cases g <;> rfl
    · obtain ⟨g, rfl⟩ : ∃ m, g = m + 1 := by
        refine ⟨g - 1, ?_⟩
        have hpos := List.length_pos_iff.mpr hs
        omega
      have happ := congrArg List.length (takeLine_append (size - 1) s)
      have hne := List.length_pos_iff.mpr (takeLine_ne_nil (n := size - 1) (by omega) hs)
      rw [List.length_append] at happ
      simp only [chunksFrom, fgets, hs, if_false]
      rw [ih g _ (by omega) (by omega)]

@[simp] theorem chunks_nil : chunks size [] = [] := rfl

theorem chunks_of_ne_nil (hsize : 2 ≤ size) (hs : s ≠ []) :
    chunks size s = (takeLine (size - 1) s).1 :: chunks size (takeLine (size - 1) s).2 := by
  have hpos := List.length_pos_iff.mpr hs
  have happ := congrArg List.length (takeLine_append (size - 1) s)
  have hne := List.length_pos_iff.mpr (takeLine_ne_nil (n := size - 1) (by omega) hs)
  rw [List.length_append] at happ
  rw [chunks, chunksFrom_fuel hsize s.length ((s.length - 1) + 1) s (Nat.le_refl _) (by omega)]
  simp only [chunksFrom, fgets, hs, if_false]
  rw [chunksFrom_fuel hsize _ (takeLine (size - 1) s).2.length _ (by omega) (Nat.le_refl _)]
  rfl

theorem chunks_newline (hsize : 2 ≤ size) (hl : 10 ∉ l) :
    chunks size (l ++ 10 :: s) = chunks size (l ++ [10]) ++ chunks size s := by
  induction hlen : l.length using Nat.strong_induction_on generalizing l with
  | _ k ih =>
    rw [chunks_of_ne_nil hsize (by simp), chunks_of_ne_nil hsize (s := l ++ [10]) (by simp)]
    by_cases hfit : l.length < size - 1
    · rw [takeLine_newline hl hfit, takeLine_newline hl hfit]
      rfl
    · rw [takeLine_full hl (by omega), takeLine_full hl (by omega), List.cons_append]
      congr 1
      exact ih (l.drop (size - 1)).length (by rw [List.length_drop]; omega)
        (fun hm => hl (List.mem_of_mem_drop hm)) rfl

theorem chunks_line (hl : 10 ∉ l) (hfit : l.length < size - 1) :
    chunks size (l ++ 10 :: s) = (l ++ [10]) :: chunks size s := by
  rw [chunks_of_ne_nil (by omega) (by simp), takeLine_newline hl hfit]

theorem chunks_last (hl : 10 ∉ l) (hne : l ≠ []) (hfit : l.length ≤ size - 1) :
    chunks size l = [l] := by
  have hpos := List.length_pos_iff.mpr hne
  rw [chunks_of_ne_nil (by omega) hne, takeLine_last hl hfit]
  rfl

theorem chunks_full (hsize : 2 ≤ size) (hl : 10 ∉ l) (hfull : size - 1 ≤ l.length) :
    chunks size (l ++ s) = l.take (size - 1) :: chunks size (l.drop (size - 1) ++ s) := by
  have hne : l ++ s ≠ [] := by
    intro he
    have hlen := congrArg List.length he
    simp only [List.length_append, List.length_nil] at hlen
    omega
  rw [chunks_of_ne_nil hsize hne, takeLine_full hl hfull]

theorem joinLines_splitLines (s : List Byte) : joinLines (splitLines s).1 (splitLines s).2 = s := by
  induction s with
  | nil => rfl
  | cons c s ih =>
    by_cases hc : c = 10
    · simp only [splitLines, hc, if_true]
      simpa [joinLines] using ih
    · simp only [splitLines, hc, if_false]
      cases hls : (splitLines s).1 with
      | nil =>
        rw [hls] at ih
        simpa [joinLines] using ih
      | cons l ls =>
        rw [hls] at ih
        simpa [joinLines] using ih

theorem splitLines_joinLines {ls : List (List Byte)} {last : List Byte} (hls : ∀ l ∈ ls, 10 ∉ l)
    (hlast : 10 ∉ last) : splitLines (joinLines ls last) = (ls, last) := by
  induction ls with
  | nil =>
    induction last with
    | nil => rfl
    | cons c last ih =>
      have hc : c ≠ 10 := fun he => hlast (by simp [he])
      have hrest : splitLines last = ([], last) := ih fun hm => hlast (List.mem_cons_of_mem _ hm)
      change splitLines (c :: last) = _
      simp [splitLines, hc, hrest]
  | cons l ls ih =>
    have htail := ih fun l' hl' => hls l' (List.mem_cons_of_mem _ hl')
    have hl : 10 ∉ l := hls l (by simp)
    clear ih hls
    induction l with
    | nil =>
      change splitLines (10 :: joinLines ls last) = _
      simp [splitLines, htail]
    | cons c l ih =>
      have hc : c ≠ 10 := fun he => hl (by simp [he])
      have hrest := ih fun hm => hl (List.mem_cons_of_mem _ hm)
      change splitLines (c :: joinLines (l :: ls) last) = _
      simp [splitLines, hc, hrest]

theorem newline_not_mem_splitLines (s : List Byte) :
    (∀ l ∈ (splitLines s).1, 10 ∉ l) ∧ 10 ∉ (splitLines s).2 := by
  induction s with
  | nil => simp [splitLines]
  | cons c s ih =>
    by_cases hc : c = 10
    · simp only [splitLines, hc, if_true, List.forall_mem_cons]
      exact ⟨⟨List.not_mem_nil, ih.1⟩, ih.2⟩
    · have hne : (10 : Byte) ≠ c := fun he => hc he.symm
      simp only [splitLines, hc, if_false]
      cases hls : (splitLines s).1 with
      | nil => exact ⟨by simp, by simp [hne, ih.2]⟩
      | cons l ls =>
        rw [hls, List.forall_mem_cons] at ih
        refine ⟨?_, ih.2⟩
        rw [List.forall_mem_cons]
        exact ⟨by simp [hne, ih.1.1], ih.1.2⟩

/-- The chunks of a stream are the chunks of its lines. -/
theorem chunks_joinLines (hsize : 2 ≤ size) {ls : List (List Byte)} (last : List Byte)
    (hls : ∀ l ∈ ls, 10 ∉ l) :
    chunks size (joinLines ls last) =
      (ls.flatMap fun l => chunks size (l ++ [10])) ++ chunks size last := by
  induction ls with
  | nil => rfl
  | cons l ls ih =>
    have hjoin : joinLines (l :: ls) last = l ++ 10 :: joinLines ls last := by simp [joinLines]
    rw [hjoin, chunks_newline hsize (hls l (by simp)),
      ih fun l' hl' => hls l' (List.mem_cons_of_mem _ hl'), List.flatMap_cons, List.append_assoc]

end

end CLib
