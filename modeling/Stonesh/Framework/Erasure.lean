import Stonesh.Framework.Trace

/-!
# Runs without some of their events

A computation may record more than another one and otherwise do the same. It erases to the other
one if dropping events from its trace and part of its result leaves the trace and the result of the
other one. Erasure is shown along the binds, and a part that records nothing else than what is
dropped is passed over.
-/

namespace Traced

variable {ε δ σ φ : Type} {α β α' β' : Type}

structure Erases (g : ε → Option δ) (f : α → β) (x : Traced ε σ α) (y : Traced δ σ β) : Prop where
  result : x.result.map f = y.result
  trace : x.trace.filterMap g = y.trace

structure Silent (g : ε → Option δ) (x : Traced ε σ Unit) : Prop where
  result : x.result = .ok ()
  trace : x.trace.filterMap g = []

section
variable {g : ε → Option δ} {f : α → β} {f' : α' → β'} {x : Traced ε σ α} {y : Traced δ σ β}
  {k : α → Traced ε σ α'} {l : β → Traced δ σ β'}

theorem erases_pure (a : α) : (pure a : Traced ε σ α).Erases g f (pure (f a)) := ⟨rfl, rfl⟩

theorem erases_stop (s : σ) : (stop s : Traced ε σ α).Erases g f (stop s) := ⟨rfl, rfl⟩

theorem erases_lift (h : φ → σ) (z : Except φ α) : (lift h z : Traced ε σ α).Erases g id (lift h z) := by
  refine ⟨?_, rfl⟩
  cases z with
  | error e => rfl
  | ok a => rfl

theorem lift_bind (z : Except σ α) (k : α → Except σ β) :
    (lift id (z >>= k) : Traced ε σ β) = lift id z >>= fun a => lift id (k a) := by
  cases z with
  | error e => rfl
  | ok a => rfl

theorem erases_emit {e : ε} {d : δ} (he : g e = some d) :
    (emit e : Traced ε σ Unit).Erases g id (emit d) := by
  refine ⟨rfl, ?_⟩
  rw [emit_trace, List.filterMap_cons_some he]
  rfl

/-- The rule of sequence. -/
theorem Erases.bind (hx : x.Erases g f y) (hk : ∀ a, x.result = .ok a → (k a).Erases g f' (l (f a))) :
    (x >>= k).Erases g f' (y >>= l) := by
  cases ha : x.result with
  | error s =>
    have hy : y.result = .error s := by rw [← hx.result, ha]; rfl
    rw [bind_of_error ha, bind_of_error hy]
    exact ⟨rfl, hx.trace⟩
  | ok a =>
    have hy : y.result = .ok (f a) := by rw [← hx.result, ha]; rfl
    rw [bind_of_ok ha, bind_of_ok hy]
    refine ⟨(hk a ha).result, ?_⟩
    simp only [List.filterMap_append, hx.trace, (hk a ha).trace]

theorem Silent.bind {x : Traced ε σ Unit} {k : Unit → Traced ε σ α} (hx : x.Silent g)
    (hk : (k ()).Erases g f y) : (x >>= k).Erases g f y := by
  rw [bind_of_ok hx.result]
  refine ⟨hk.result, ?_⟩
  simp only [List.filterMap_append, hx.trace, hk.trace, List.nil_append]

theorem silent_pure : (pure () : Traced ε σ Unit).Silent g := ⟨rfl, rfl⟩

theorem Silent.seq {x y : Traced ε σ Unit} (hx : x.Silent g) (hy : y.Silent g) :
    (x >>= fun _ => y).Silent g := by
  rw [bind_of_ok hx.result]
  refine ⟨hy.result, ?_⟩
  simp only [List.filterMap_append, hx.trace, hy.trace, List.append_nil]

end

theorem erases_embed {ι : Type} {g : ε → Option δ} {i : ι → ε} {j : ι → δ} (h : φ → σ) (x : Traced ι φ α)
    (hkeep : ∀ e, g (i e) = some (j e)) : (embed i h x).Erases g id (embed j h x) := by
  constructor
  · rw [embed_result, embed_result]
    cases x.result with
    | error e => rfl
    | ok a => rfl
  · simp only [embed_trace, List.filterMap_map, Function.comp_def, hkeep]
    exact congrFun List.filterMap_eq_map' _

/-- The run has recorded one of these events if and only if it stops for one of these reasons. -/
def Signals (g : ε → Option δ) (Q : σ → Prop) (x : Traced ε σ α) : Prop :=
  x.trace.filterMap g ≠ [] ↔ ∃ s, x.result = .error s ∧ Q s

/-- The run has recorded one of these events, and it stops for one of these reasons. -/
structure Alarms (g : ε → Option δ) (Q : σ → Prop) (x : Traced ε σ α) : Prop where
  trace : x.trace.filterMap g ≠ []
  result : ∃ s, x.result = .error s ∧ Q s

section
variable {g : ε → Option δ} {Q : σ → Prop} {x : Traced ε σ α} {k : α → Traced ε σ β} {a : α} {s : σ}

theorem Alarms.signals (h : x.Alarms g Q) : x.Signals g Q := iff_of_true h.trace h.result

theorem Silent.signals {x : Traced ε σ Unit} (h : x.Silent g) : x.Signals g Q := by
  refine iff_of_false (not_not.mpr h.trace) ?_
  rintro ⟨s, hs, -⟩
  rw [h.result] at hs
  exact absurd hs (by simp)

theorem signals_pure (a : α) : (pure a : Traced ε σ α).Signals g Q :=
  iff_of_false (not_not.mpr rfl) (by simp)

theorem signals_stop (h : ¬ Q s) : (stop s : Traced ε σ α).Signals g Q := by
  refine iff_of_false (not_not.mpr rfl) ?_
  rintro ⟨t, ⟨⟩, ht⟩
  exact h ht

theorem signals_lift {f : φ → σ} {z : Except φ α} (h : ∀ e, z = .error e → ¬ Q (f e)) :
    (lift f z : Traced ε σ α).Signals g Q := by
  refine iff_of_false (not_not.mpr rfl) ?_
  rintro ⟨s, hs, hq⟩
  obtain ⟨e, he, rfl⟩ := lift_result_eq_error.mp hs
  exact h e he hq

theorem signals_embed {ι : Type} {i : ι → ε} {f : φ → σ} (x : Traced ι φ α) (hdrop : ∀ e, g (i e) = none)
    (h : ∀ e, ¬ Q (f e)) : (embed i f x).Signals g Q := by
  refine iff_of_false (not_not.mpr ?_) ?_
  · rw [embed_trace, List.filterMap_eq_nil_iff]
    intro d hd
    obtain ⟨e, -, rfl⟩ := List.mem_map.mp hd
    exact hdrop e
  · rintro ⟨s, hs, hq⟩
    obtain ⟨e, -, rfl⟩ := embed_result_eq_error.mp hs
    exact h e hq

theorem Signals.bind (hx : x.Signals g Q) (hk : ∀ a, x.result = .ok a → (k a).Signals g Q) :
    (x >>= k).Signals g Q := by
  cases ha : x.result with
  | error s =>
    rw [bind_of_error ha]
    refine hx.trans ?_
    simp [ha]
  | ok a =>
    have hnone : x.trace.filterMap g = [] := by
      by_contra hne
      obtain ⟨s, hs, -⟩ := hx.mp hne
      rw [ha] at hs
      exact absurd hs (by simp)
    rw [bind_of_ok ha, Signals, List.filterMap_append, hnone, List.nil_append]
    exact hk a ha

theorem Alarms.after (hk : (k a).Alarms g Q) (hx : x.result = .ok a) : (x >>= k).Alarms g Q := by
  rw [bind_of_ok hx]
  refine ⟨?_, hk.result⟩
  rw [List.filterMap_append]
  exact fun h => hk.trace (List.append_eq_nil_iff.mp h).2

end

end Traced
