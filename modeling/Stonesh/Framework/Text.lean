import Mathlib.Data.List.DropRight

/-!
# Stripping and splitting lists

What line-oriented formats say about a line, over any alphabet: the part in front of a comment
mark, the text without the blanks around it, its fields and its tokens. A field ends at every
separator and may be empty; a token is a maximal run between separators and is never empty.
-/

namespace Text

variable {α : Type}

/-- A list without the leading and trailing elements that satisfy `p`. -/
def strip (p : α → Bool) (l : List α) : List α := (l.rdropWhile p).dropWhile p

/-- The maximal runs of elements that do not satisfy `p`. -/
def tokens (p : α → Bool) (l : List α) : List (List α) := (l.splitOnP p).filter (· ≠ [])

def upTo (p : α → Bool) : List α → List α
  | [] => []
  | a :: l => if p a then [a] else a :: upTo p l

section Split
variable {p : α → Bool} {l a b : List α} {c : α}

theorem takeWhile_stop (ha : ∀ d ∈ a, p d) (hc : ¬ p c) : (a ++ c :: b).takeWhile p = a := by
  rw [List.takeWhile_append_of_pos ha, List.takeWhile_cons_of_neg hc, List.append_nil]

theorem dropWhile_stop (ha : ∀ d ∈ a, p d) (hc : ¬ p c) : (a ++ c :: b).dropWhile p = c :: b := by
  rw [List.dropWhile_append_of_pos ha, List.dropWhile_cons_of_neg hc]

theorem takeWhile_ne_stop [DecidableEq α] (ha : c ∉ a) : (a ++ c :: b).takeWhile (· ≠ c) = a := by
  apply takeWhile_stop
  · intro d hd
    simpa using ne_of_mem_of_not_mem hd ha
  · simp

theorem dropWhile_head (h : l.dropWhile p = c :: b) : p c = false := by
  have hhead := List.head?_dropWhile_not p l
  rw [h] at hhead
  simpa using hhead

theorem split_of_dropWhile (h : l.dropWhile p = c :: b) : l = l.takeWhile p ++ c :: b := by
  rw [← h, List.takeWhile_append_dropWhile]

theorem mem_firstToken [DecidableEq α] {d : α} (h : d ∈ (l.dropWhile (· = c)).takeWhile (· ≠ c)) :
    d ∈ l ∧ d ≠ c :=
  ⟨(List.dropWhile_sublist _).subset (List.takeWhile_subset _ h), by simpa using List.mem_takeWhile_imp h⟩

theorem firstToken_ne_nil_iff [DecidableEq α] :
    (l.dropWhile (· = c)).takeWhile (· ≠ c) ≠ [] ↔ ∃ d ∈ l, d ≠ c := by
  constructor
  · intro h
    obtain ⟨d, hd⟩ := List.exists_mem_of_ne_nil _ h
    exact ⟨d, mem_firstToken hd⟩
  · rintro ⟨d, hd, hne⟩
    cases hdrop : l.dropWhile (· = c) with
    | nil =>
      have hsep := List.dropWhile_eq_nil_iff.mp hdrop d hd
      exact absurd (by simpa using hsep) hne
    | cons e r =>
      have he := dropWhile_head hdrop
      rw [List.takeWhile_cons_of_pos (by simpa using he)]
      exact List.cons_ne_nil _ _

theorem mem_upTo_cons {d : α} : d ∈ upTo p (c :: l) ↔ d = c ∨ p c = false ∧ d ∈ upTo p l := by
  by_cases hc : p c
  · simp [upTo, hc]
  · simp [upTo, hc]

theorem splitOn_single [DecidableEq α] (ha : c ∉ a) : a.splitOn c = [a] := by
  apply List.splitOnP_eq_singleton
  intro d hd
  simpa using ne_of_mem_of_not_mem hd ha

theorem splitOn_field [DecidableEq α] (ha : c ∉ a) :
    (a ++ c :: b).splitOn c = a :: b.splitOn c := by
  apply List.splitOnP_append_cons_of_forall_mem
  · intro d hd
    simpa using ne_of_mem_of_not_mem hd ha
  · simp

end Split

section Strip
variable {p : α → Bool} {l a b : List α} {c : α}

theorem rdropWhile_append_of_pos (hb : ∀ c ∈ b, p c) : (l ++ b).rdropWhile p = l.rdropWhile p := by
  induction b using List.reverseRecOn with
  | nil => simp
  | append_singleton b c ih =>
    have hc : p c := hb c (by simp)
    rw [← List.append_assoc, List.rdropWhile_concat_pos _ _ _ hc]
    exact ih fun x hx => hb x (by simp [hx])

theorem strip_append_right (hb : ∀ c ∈ b, p c) : strip p (l ++ b) = strip p l := by
  simp [strip, rdropWhile_append_of_pos hb]

theorem strip_eq_nil_iff : strip p l = [] ↔ ∀ c ∈ l, p c := by
  constructor
  · intro h
    have hall := List.dropWhile_eq_nil_iff.mp h
    by_contra hne
    simp only [not_forall] at hne
    obtain ⟨c, hc, hpc⟩ := hne
    have hrd : l.rdropWhile p ≠ [] := by
      intro he
      exact hpc (List.rdropWhile_eq_nil_iff.mp he c hc)
    exact List.rdropWhile_last_not p l hrd (hall _ (List.getLast_mem hrd))
  · intro h
    rw [strip, List.rdropWhile_eq_nil_iff.mpr h]
    rfl

theorem strip_eq_self (hh : ∀ c ∈ l.head?, ¬ p c) (ht : ∀ c ∈ l.getLast?, ¬ p c) :
    strip p l = l := by
  have hr : l.rdropWhile p = l := by
    rw [List.rdropWhile_eq_self_iff]
    intro hne
    exact ht _ (List.getLast?_eq_some_getLast hne)
  rw [strip, hr]
  cases l with
  | nil => rfl
  | cons c l => exact List.dropWhile_cons_of_neg (hh c rfl)

theorem strip_infix : strip p l <:+: l :=
  (List.dropWhile_suffix p).isInfix.trans (List.rdropWhile_prefix p l).isInfix

theorem strip_split (p : α → Bool) (l : List α) :
    ∃ a b, l = a ++ (strip p l ++ b) ∧ (∀ c ∈ a, p c) ∧ ∀ c ∈ b, p c := by
  refine ⟨(l.rdropWhile p).takeWhile p, l.rtakeWhile p, ?_, ?_, ?_⟩
  · calc l = l.rdropWhile p ++ l.rtakeWhile p := List.rdropWhile_append_rtakeWhile.symm
      _ = (l.rdropWhile p).takeWhile p ++ strip p l ++ l.rtakeWhile p := by
        rw [strip, List.takeWhile_append_dropWhile]
      _ = (l.rdropWhile p).takeWhile p ++ (strip p l ++ l.rtakeWhile p) := List.append_assoc _ _ _
  · exact fun c hc => List.mem_takeWhile_imp hc
  · exact fun c hc => List.mem_rtakeWhile_imp hc

theorem mem_of_mem_strip (h : c ∈ strip p l) : c ∈ l := strip_infix.subset h

theorem strip_head (h : c ∈ (strip p l).head?) : ¬ p c := by
  have hnot := List.head?_dropWhile_not p (l.rdropWhile p)
  change (match (strip p l).head? with | some x => p x = false | none => True) at hnot
  rw [Option.mem_def.mp h] at hnot
  simpa using hnot

theorem strip_getLast (h : c ∈ (strip p l).getLast?) : ¬ p c := by
  have hne : strip p l ≠ [] := by
    intro he
    simp [he] at h
  have hrd : l.rdropWhile p ≠ [] := by
    intro he
    exact hne (by rw [strip, he]; rfl)
  have hlast : (strip p l).getLast hne = (l.rdropWhile p).getLast hrd :=
    (List.dropWhile_suffix p).getLast hne
  rw [List.getLast?_eq_some_getLast hne, Option.mem_some_iff] at h
  rw [← h, hlast]
  exact List.rdropWhile_last_not p l hrd

@[simp] theorem strip_strip : strip p (strip p l) = strip p l :=
  strip_eq_self (fun _ => strip_head) (fun _ => strip_getLast)

end Strip

section Tokens
variable {p : α → Bool} {l t : List α} {d : α}

@[simp] theorem tokens_nil : tokens p [] = [] := rfl

theorem tokens_cons_sep (hd : p d) : tokens p (d :: l) = tokens p l := by
  simp [tokens, List.splitOnP_cons_eq_if_modifyHead, hd]

theorem tokens_single (ht : ∀ c ∈ t, p c = false) (hne : t ≠ []) : tokens p t = [t] := by
  simp [tokens, List.splitOnP_eq_singleton ht, hne]

theorem tokens_append_sep (ht : ∀ c ∈ t, p c = false) (hne : t ≠ []) (hd : p d) :
    tokens p (t ++ d :: l) = t :: tokens p l := by
  simp [tokens, List.splitOnP_append_cons_of_forall_mem ht d hd, hne]

theorem tokens_append_left {sep : List α} (hs : ∀ c ∈ sep, p c) :
    tokens p (sep ++ l) = tokens p l := by
  induction sep with
  | nil => rfl
  | cons d sep ih =>
    rw [List.cons_append, tokens_cons_sep (hs d (by simp))]
    exact ih fun c hc => hs c (List.mem_cons_of_mem _ hc)

theorem tokens_cases (p : α → Bool) (l : List α) :
    ((∀ c ∈ l, p c) ∧ tokens p l = []) ∨
      ∃ sep t, (∀ c ∈ sep, p c) ∧ (∀ c ∈ t, p c = false) ∧ t ≠ [] ∧
        ((l = sep ++ t ∧ tokens p l = [t]) ∨
          ∃ d r, p d ∧ l = sep ++ (t ++ d :: r) ∧ tokens p l = t :: tokens p r) := by
  obtain ⟨sep, hsep⟩ : ∃ s, s = l.takeWhile p := ⟨_, rfl⟩
  obtain ⟨t, ht⟩ : ∃ t, t = (l.dropWhile p).takeWhile (fun c => !p c) := ⟨_, rfl⟩
  have hall : ∀ c ∈ sep, p c := fun c hc => List.mem_takeWhile_imp (hsep ▸ hc)
  have hnone : ∀ c ∈ t, p c = false := by
    intro c hc
    have hnot := List.mem_takeWhile_imp (ht ▸ hc)
    simpa using hnot
  have hl : l = sep ++ l.dropWhile p := by rw [hsep, List.takeWhile_append_dropWhile]
  have hr : l.dropWhile p = t ++ (l.dropWhile p).dropWhile (fun c => !p c) := by
    rw [ht, List.takeWhile_append_dropWhile]
  cases hd : l.dropWhile p with
  | nil =>
    left
    have hp : ∀ c ∈ l, p c := List.dropWhile_eq_nil_iff.mp hd
    refine ⟨hp, ?_⟩
    have happ := tokens_append_left (l := List.nil) hp
    rwa [List.append_nil] at happ
  | cons a rest =>
    right
    have ha : p a = false := dropWhile_head hd
    have hne : t ≠ [] := by simp [ht, hd, ha]
    refine ⟨sep, t, hall, hnone, hne, ?_⟩
    cases hu : (l.dropWhile p).dropWhile (fun c => !p c) with
    | nil =>
      left
      rw [hu, List.append_nil] at hr
      rw [hr] at hl
      exact ⟨hl, by rw [hl, tokens_append_left hall, tokens_single hnone hne]⟩
    | cons d r =>
      right
      have hpd : p d := by
        have hhead := List.head?_dropWhile_not (fun c => !p c) (l.dropWhile p)
        rw [hu] at hhead
        simpa using hhead
      rw [hu] at hr
      rw [hr] at hl
      exact ⟨d, r, hpd, hl, by rw [hl, tokens_append_left hall, tokens_append_sep hnone hne hpd]⟩

theorem mem_intercalate {ls : List (List α)} {c : α} (h : c ∈ [d].intercalate ls) :
    c = d ∨ ∃ l ∈ ls, c ∈ l := by
  induction ls with
  | nil => simp [List.intercalate] at h
  | cons l ls ih =>
    cases ls with
    | nil =>
      rw [List.intercalate_singleton] at h
      exact Or.inr ⟨l, by simp, h⟩
    | cons l' ls =>
      rw [List.intercalate_cons_cons] at h
      simp only [List.mem_append, List.mem_singleton] at h
      rcases h with (h | h) | h
      · exact Or.inr ⟨l, by simp, h⟩
      · exact Or.inl h
      · rcases ih h with h | ⟨t, ht, hc⟩
        · exact Or.inl h
        · exact Or.inr ⟨t, List.mem_cons_of_mem _ ht, hc⟩

theorem tokens_intercalate {ls : List (List α)} (hd : p d)
    (hls : ∀ t ∈ ls, t ≠ [] ∧ ∀ c ∈ t, p c = false) : tokens p ([d].intercalate ls) = ls := by
  induction ls with
  | nil => rfl
  | cons t ls ih =>
    obtain ⟨hne, ht⟩ := hls t (by simp)
    have hrest := ih fun l hl => hls l (List.mem_cons_of_mem _ hl)
    cases ls with
    | nil => rw [List.intercalate_singleton, tokens_single ht hne]
    | cons t' ls =>
      rw [List.intercalate_cons_cons, List.append_assoc, List.singleton_append,
        tokens_append_sep ht hne hd, hrest]

end Tokens

end Text
