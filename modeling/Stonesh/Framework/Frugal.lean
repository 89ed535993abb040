import Mathlib.Data.Set.Insert
import Stonesh.Framework.Ownership
import Stonesh.Framework.Trace

/-!
# Runs that lose nothing

An object is lost when it is not released and no variable holds it any more. A run loses an object
exactly where it stores something in a variable whose object is not released, which depends on the
objects only through the status of the variables. That a run loses nothing is shown along its binds
with pre- and postconditions that say which variables may hold a live object.
-/

namespace Ownership

variable {P : Type}

def Step.effect [DecidableEq P] (S : P → Status) : Step P → P → Status
  | .store p v => Function.update S p v.status
  | .look _ => S
  | .free p => Function.update S p (S p).freed
  | .drop p => Function.update S p .null

def Step.Keeps (S : P → Status) : Step P → Prop
  | .store p _ => S p ≠ .live
  | _ => True

section
variable [DecidableEq P]

def effects (S : P → Status) (steps : List (Step P)) : P → Status :=
  steps.foldl (fun S s => s.effect S) S

def Frugal : (P → Status) → List (Step P) → Prop
  | _, [] => True
  | S, s :: steps => s.Keeps S ∧ Frugal (s.effect S) steps

theorem effects_append {S : P → Status} {steps steps' : List (Step P)} :
    effects S (steps ++ steps') = effects (effects S steps) steps' := List.foldl_append

theorem frugal_append {S : P → Status} {steps steps' : List (Step P)} :
    Frugal S (steps ++ steps') ↔ Frugal S steps ∧ Frugal (effects S steps) steps' := by
  induction steps generalizing S with
  | nil => exact (and_iff_right trivial).symm
  | cons s steps ih =>
    rw [List.cons_append, Frugal, ih, Frugal, and_assoc]
    rfl

end

namespace Ledger

/-- An object nobody can release any more. -/
structure Lost (l : Ledger P) (id : Nat) : Prop where
  handed : id < l.next
  kept : id ∉ l.released
  unheld : ∀ p, l.content p ≠ .object id

section
variable [DecidableEq P] {l : Ledger P} {s : Step P} {id : Nat}

theorem status_eq_effect (s : Step P) : (l.after s).status = s.effect l.status := by
  funext q
  cases s with
  | store p v => rw [status_store, Step.effect, Function.update_apply]
  | look p => rfl
  | free p => rw [status_free, Step.effect, Function.update_apply]
  | drop p => rw [status_drop, Step.effect, Function.update_apply]

theorem status_eq_effects (steps : List (Step P)) : (l.run steps).status = effects l.status steps := by
  induction steps generalizing l with
  | nil => rfl
  | cons s steps ih =>
    rw [run_cons, ih, status_eq_effect]
    rfl

omit [DecidableEq P] in
theorem status_eq_live {p : P} :
    l.status p = .live ↔ ∃ id, l.content p = .object id ∧ id ∉ l.released := by
  unfold status
  cases l.content p with
  | unassigned => simp [Content.status]
  | null => simp [Content.status]
  | object id =>
    simp only [Content.status, Content.object.injEq, exists_eq_left']
    split
    · simp [*]
    · simp [*]

omit [DecidableEq P] in
private theorem lost_release {p : P} : (l.release p).Lost id ↔ l.Lost id := by
  constructor
  · intro h
    exact ⟨h.handed, fun hm => h.kept (List.mem_append_right _ hm), h.unheld⟩
  · intro h
    refine ⟨h.handed, ?_, h.unheld⟩
    intro hm
    rcases List.mem_append.mp hm with hm | hm
    · exact h.unheld p (Content.mem_ids.mp hm)
    · exact h.kept hm

private theorem lost_clear {p : P} {c : Content} (hc : c.ids = []) :
    (l.clear p c hc).Lost id ↔ l.Lost id ∨ l.content p = .object id ∧ id ∉ l.released := by
  have hcontent (q : P) : (l.clear p c hc).content q = if q = p then c else l.content q :=
    Function.update_apply _ _ _ _
  constructor
  · intro h
    by_cases hp : l.content p = .object id
    · exact Or.inr ⟨hp, h.kept⟩
    · refine Or.inl ⟨h.handed, h.kept, fun q => ?_⟩
      by_cases hq : q = p
      · rwa [hq]
      · have hunheld := h.unheld q
        rwa [hcontent, if_neg hq] at hunheld
  · intro h
    have hset : c ≠ .object id := fun he => absurd (Content.mem_ids.mpr he) (by simp [hc])
    rcases h with h | ⟨hp, hkept⟩
    · refine ⟨h.handed, h.kept, fun q => ?_⟩
      rw [hcontent]
      split
      · exact hset
      · exact h.unheld q
    · refine ⟨l.held p id hp, hkept, fun q => ?_⟩
      rw [hcontent]
      split
      · exact hset
      · next hq => exact fun he => hq (l.own q p id he hp)

private theorem lost_hand {p : P} :
    (l.hand p).Lost id ↔ l.Lost id ∨ l.content p = .object id ∧ id ∉ l.released := by
  have hcontent (q : P) : (l.hand p).content q = if q = p then .object l.next else l.content q :=
    Function.update_apply _ _ _ _
  have hnext : (l.hand p).next = l.next + 1 := rfl
  constructor
  · intro h
    have hne : id ≠ l.next := by
      rintro rfl
      exact h.unheld p (by rw [hcontent, if_pos rfl])
    have hhanded := h.handed
    rw [hnext] at hhanded
    by_cases hp : l.content p = .object id
    · exact Or.inr ⟨hp, h.kept⟩
    · refine Or.inl ⟨by omega, h.kept, fun q => ?_⟩
      by_cases hq : q = p
      · rwa [hq]
      · have hunheld := h.unheld q
        rwa [hcontent, if_neg hq] at hunheld
  · intro h
    have hless : id < l.next := by
      rcases h with h | ⟨hp, -⟩
      · exact h.handed
      · exact l.held p id hp
    have hset : Content.object l.next ≠ .object id := by
      intro he
      have hid := Content.object.inj he
      omega
    rcases h with h | ⟨hp, hkept⟩
    · refine ⟨by rw [hnext]; omega, h.kept, fun q => ?_⟩
      rw [hcontent]
      split
      · exact hset
      · exact h.unheld q
    · refine ⟨by rw [hnext]; omega, hkept, fun q => ?_⟩
      rw [hcontent]
      split
      · exact hset
      · next hq => exact fun he => hq (l.own q p id he hp)

theorem lost_store {p : P} (v : Stored) :
    (l.after (.store p v)).Lost id ↔ l.Lost id ∨ l.content p = .object id ∧ id ∉ l.released := by
  cases v with
  | null => exact lost_clear rfl
  | undefined => exact lost_clear rfl
  | fresh => exact lost_hand
  | released => exact lost_release.trans lost_hand

theorem lost_free {p : P} : (l.after (.free p)).Lost id ↔ l.Lost id := lost_release

theorem lost_drop {p : P} : (l.after (.drop p)).Lost id ↔ l.Lost id := by
  have hclear : (l.after (.drop p)).Lost id ↔ (l.release p).Lost id ∨
      (l.release p).content p = .object id ∧ id ∉ (l.release p).released := lost_clear rfl
  rw [hclear, lost_release]
  refine or_iff_left ?_
  rintro ⟨hp, hkept⟩
  exact hkept (List.mem_append_left _ (Content.mem_ids.mpr hp))

theorem Lost.after (h : l.Lost id) (s : Step P) : (l.after s).Lost id := by
  cases s with
  | store p v => exact (lost_store v).mpr (Or.inl h)
  | look p => exact h
  | free p => exact lost_free.mpr h
  | drop p => exact lost_drop.mpr h

theorem Lost.run (h : l.Lost id) (steps : List (Step P)) : (l.run steps).Lost id := by
  induction steps generalizing l with
  | nil => exact h
  | cons s steps ih => exact ih (h.after s)

theorem keeps_iff (hnone : ∀ id, ¬ l.Lost id) : s.Keeps l.status ↔ ∀ id, ¬ (l.after s).Lost id := by
  cases s with
  | store p v =>
    change l.status p ≠ .live ↔ _
    rw [ne_eq, status_eq_live]
    simp [lost_store, hnone]
  | look p => exact iff_of_true trivial hnone
  | free p => exact iff_of_true trivial fun id => fun h => hnone id (lost_free.mp h)
  | drop p => exact iff_of_true trivial fun id => fun h => hnone id (lost_drop.mp h)

/-- A run loses nothing exactly if no step overwrites a live object. -/
theorem frugal_iff {steps : List (Step P)} (hnone : ∀ id, ¬ l.Lost id) :
    Frugal l.status steps ↔ ∀ id, ¬ (l.run steps).Lost id := by
  induction steps generalizing l with
  | nil => exact iff_of_true trivial hnone
  | cons s steps ih =>
    rw [Frugal, run_cons, keeps_iff hnone, ← status_eq_effect]
    constructor
    · rintro ⟨hs, hsteps⟩
      exact (ih hs).mp hsteps
    · intro h
      have hs : ∀ id, ¬ (l.after s).Lost id := fun id hlost => h id (hlost.run steps)
      exact ⟨hs, (ih hs).mpr h⟩

omit [DecidableEq P] in
/-- If nothing is lost, an object is released or live in some variable. -/
theorem released_or_live (hnone : ∀ id, ¬ l.Lost id) (hid : id < l.next) :
    id ∈ l.released ∨ ∃ p, l.status p = .live ∧ l.content p = .object id := by
  by_cases hreleased : id ∈ l.released
  · exact Or.inl hreleased
  · have hheld : ∃ p, l.content p = .object id := by
      by_contra h
      exact hnone id ⟨hid, hreleased, not_exists.mp h⟩
    obtain ⟨p, hp⟩ := hheld
    exact Or.inr ⟨p, status_eq_live.mpr ⟨id, hp, hreleased⟩, hp⟩

end

end Ledger

def Within (A : Set P) (S : P → Status) : Prop := ∀ p, S p = .live → p ∈ A

theorem Within.mono {A B : Set P} {S : P → Status} (h : Within A S) (hAB : A ⊆ B) : Within B S :=
  fun p hp => hAB (h p hp)

/-- From `A` on the run loses nothing; it returns a value with no more than `Q` of it live, and
stops for a reason with no more than `R` of that. -/
def Saves [DecidableEq P] {σ α : Type} (A : Set P) (x : Traced (Step P) σ α) (Q : α → Set P)
    (R : σ → Set P) : Prop :=
  ∀ S, Within A S → Frugal S x.trace ∧ (∀ a, x.result = .ok a → Within (Q a) (effects S x.trace)) ∧
    ∀ s, x.result = .error s → Within (R s) (effects S x.trace)

section
variable [DecidableEq P] {σ φ α β : Type} {A B : Set P} {x : Traced (Step P) σ α}
  {f : α → Traced (Step P) σ β} {Q : α → Set P} {Q' : β → Set P} {R : σ → Set P} {p : P}

/-- The rule of sequence. -/
theorem Saves.bind (hx : Saves A x Q R) (hf : ∀ a, x.result = .ok a → Saves (Q a) (f a) Q' R) :
    Saves A (x >>= f) Q' R := by
  intro S hS
  obtain ⟨hfrugal, hvalue, hstop⟩ := hx S hS
  cases hresult : x.result with
  | error s =>
    rw [Traced.bind_of_error hresult]
    refine ⟨hfrugal, by simp, ?_⟩
    rintro t ⟨⟩
    exact hstop s hresult
  | ok a =>
    obtain ⟨hfrugal', hvalue', hstop'⟩ := hf a hresult _ (hvalue a hresult)
    rw [Traced.bind_of_ok hresult]
    refine ⟨frugal_append.mpr ⟨hfrugal, hfrugal'⟩, ?_, ?_⟩
    · rw [effects_append]
      exact hvalue'
    · rw [effects_append]
      exact hstop'

theorem frugal_of_bind {S : P → Status} (h : Frugal S (x >>= f).trace) : Frugal S x.trace := by
  cases hresult : x.result with
  | ok a =>
    rw [Traced.bind_of_ok hresult] at h
    exact (frugal_append.mp h).1
  | error s => rwa [Traced.bind_of_error hresult] at h

theorem Saves.weaken {Q₁ : α → Set P} (hx : Saves B x Q R) (hAB : A ⊆ B) (hQ : ∀ a, Q a ⊆ Q₁ a) :
    Saves A x Q₁ R := by
  intro S hS
  obtain ⟨hfrugal, hvalue, hstop⟩ := hx S (hS.mono hAB)
  exact ⟨hfrugal, fun a ha => (hvalue a ha).mono (hQ a), hstop⟩

theorem saves_pure (a : α) (h : A ⊆ Q a) : Saves A (pure a) Q R := by
  intro S hS
  refine ⟨trivial, ?_, by simp⟩
  rintro b ⟨⟩
  exact hS.mono h

theorem saves_stop {s : σ} (h : A ⊆ R s) : Saves A (Traced.stop s : Traced (Step P) σ α) Q R := by
  intro S hS
  refine ⟨trivial, by simp, ?_⟩
  rintro t ⟨⟩
  exact hS.mono h

theorem saves_lift {g : φ → σ} {y : Except φ α} (hok : ∀ a, y = .ok a → A ⊆ Q a)
    (herror : ∀ e, y = .error e → A ⊆ R (g e)) : Saves A (Traced.lift g y) Q R := by
  intro S hS
  refine ⟨trivial, ?_, ?_⟩
  · intro a ha
    exact hS.mono (hok a (Traced.lift_result_eq_ok.mp ha))
  · intro s hs
    obtain ⟨e, he, rfl⟩ := Traced.lift_result_eq_error.mp hs
    exact hS.mono (herror e he)

theorem saves_embed {g : φ → σ} {x : Traced (Step P) φ α} {R' : φ → Set P} (hx : Saves A x Q R')
    (h : ∀ e, R' e ⊆ R (g e)) : Saves A (Traced.embed id g x) Q R := by
  intro S hS
  obtain ⟨hfrugal, hvalue, hstop⟩ := hx S hS
  rw [Traced.embed_trace, List.map_id]
  refine ⟨hfrugal, ?_, ?_⟩
  · intro a ha
    exact hvalue a (Traced.embed_result_eq_ok.mp ha)
  · intro s hs
    obtain ⟨e, he, rfl⟩ := Traced.embed_result_eq_error.mp hs
    exact (hstop e he).mono (h e)

theorem saves_emits {steps : List (Step P)} {Q : Unit → Set P}
    (h : ∀ S, Within A S → Frugal S steps ∧ Within (Q ()) (effects S steps)) :
    Saves A (Traced.emits steps : Traced (Step P) σ Unit) Q R := by
  intro S hS
  obtain ⟨hfrugal, hvalue⟩ := h S hS
  exact ⟨hfrugal, fun _ _ => hvalue, by simp⟩

theorem saves_store {present : Bool} (hp : p ∉ A) :
    Saves A (Traced.emit (.store p (.ofBool present)) : Traced (Step P) σ Unit)
      (fun _ => if present then insert p A else A) R := by
  intro S hS
  have hlive (q : P) (hq : effects S [.store p (.ofBool present)] q = .live) :
      q ∈ if present then insert p A else A := by
    change Function.update S p _ q = _ at hq
    rw [Function.update_apply] at hq
    cases present with
    | true =>
      split at hq
      · exact Or.inl ‹_›
      · exact Or.inr (hS q hq)
    | false =>
      split at hq
      · simp [Stored.ofBool, Stored.status] at hq
      · exact hS q hq
  exact ⟨⟨fun h => hp (hS p h), trivial⟩, fun _ _ => hlive, by simp⟩

theorem saves_drop : Saves A (Traced.emit (.drop p) : Traced (Step P) σ Unit) (fun _ => A \ {p}) R := by
  intro S hS
  refine ⟨⟨trivial, trivial⟩, ?_, by simp⟩
  intro _ _ q hq
  change Function.update S p _ q = _ at hq
  rw [Function.update_apply] at hq
  split at hq
  · simp at hq
  · next hne => exact ⟨hS q hq, hne⟩

end

section
variable [DecidableEq P] {A : Set P} {S : P → Status}

theorem frugal_stores {ps : List P} {v : Stored} (hS : Within A S) (hps : ps.Nodup) (hA : ∀ p ∈ ps, p ∉ A) :
    Frugal S (ps.map (.store · v)) ∧
      Within (A ∪ {p | p ∈ ps ∧ v = .fresh}) (effects S (ps.map (.store · v))) := by
  induction ps generalizing A S with
  | nil => exact ⟨trivial, hS.mono Set.subset_union_left⟩
  | cons p ps ih =>
    obtain ⟨hp, hps⟩ := List.nodup_cons.mp hps
    have hnext : Within (A ∪ {q | q = p ∧ v = .fresh}) (Step.effect S (.store p v)) := by
      intro q hq
      change Function.update S p _ q = _ at hq
      rw [Function.update_apply] at hq
      split at hq
      · next he =>
        refine Or.inr ⟨he, ?_⟩
        cases v with
        | fresh => rfl
        | _ => simp [Stored.status] at hq
      · exact Or.inl (hS q hq)
    obtain ⟨hfrugal, hwithin⟩ := ih hnext hps (by
      intro q hq hm
      rcases hm with hm | ⟨rfl, -⟩
      · exact hA q (List.mem_cons_of_mem _ hq) hm
      · exact hp hq)
    refine ⟨⟨fun h => hA p (by simp) (hS p h), hfrugal⟩, ?_⟩
    refine hwithin.mono ?_
    rintro q ((hq | ⟨rfl, hv⟩) | ⟨hq, hv⟩)
    · exact Or.inl hq
    · exact Or.inr ⟨by simp, hv⟩
    · exact Or.inr ⟨List.mem_cons_of_mem _ hq, hv⟩

theorem frugal_drops {ps : List P} (hS : Within A S) :
    Frugal S (ps.map .drop) ∧ Within (A \ {p | p ∈ ps}) (effects S (ps.map .drop)) := by
  induction ps generalizing A S with
  | nil =>
    refine ⟨trivial, hS.mono fun q hq => ⟨hq, ?_⟩⟩
    simp
  | cons p ps ih =>
    have hnext : Within (A \ {p}) (Step.effect S (.drop p)) := by
      intro q hq
      change Function.update S p _ q = _ at hq
      rw [Function.update_apply] at hq
      split at hq
      · simp at hq
      · next hne => exact ⟨hS q hq, hne⟩
    obtain ⟨hfrugal, hwithin⟩ := ih hnext
    refine ⟨⟨trivial, hfrugal⟩, hwithin.mono ?_⟩
    rintro q ⟨⟨hq, hne⟩, hps⟩
    refine ⟨hq, ?_⟩
    intro hm
    rcases List.mem_cons.mp hm with rfl | hm
    · exact hne rfl
    · exact hps hm

end

end Ownership
