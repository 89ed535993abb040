import Mathlib.Data.List.Basic

/-!
# Runs with a trace

A computation that records events and may stop early. What a later part of a run does depends on
the earlier part only through the value that part returned, so a statement about an event of a run
is taken apart along the binds.
-/

/-- The events of a run, and the value it returns or the reason it stopped. -/
structure Traced (ε σ : Type) (α : Type) where
  trace : List ε
  result : Except σ α

namespace Traced

variable {ε σ δ φ : Type} {α β : Type}

instance : Monad (Traced ε σ) where
  pure a := ⟨[], .ok a⟩
  bind x f :=
    match x.result with
    | .ok a => ⟨x.trace ++ (f a).trace, (f a).result⟩
    | .error s => ⟨x.trace, .error s⟩

def emit (e : ε) : Traced ε σ Unit := ⟨[e], .ok ()⟩

def emits (es : List ε) : Traced ε σ Unit := ⟨es, .ok ()⟩

def stop (s : σ) : Traced ε σ α := ⟨[], .error s⟩

def lift (f : φ → σ) (x : Except φ α) : Traced ε σ α := ⟨[], x.mapError f⟩

def embed (g : δ → ε) (f : φ → σ) (x : Traced δ φ α) : Traced ε σ α :=
  ⟨x.trace.map g, x.result.mapError f⟩

section
variable {x : Traced ε σ α} {f : α → Traced ε σ β} {e : ε} {a : α} {b : β} {s : σ}

@[simp] theorem pure_trace : (pure a : Traced ε σ α).trace = [] := rfl
@[simp] theorem pure_result : (pure a : Traced ε σ α).result = .ok a := rfl
@[simp] theorem emit_trace : (emit e : Traced ε σ Unit).trace = [e] := rfl
@[simp] theorem emit_result : (emit e : Traced ε σ Unit).result = .ok () := rfl
@[simp] theorem emits_trace {es : List ε} : (emits es : Traced ε σ Unit).trace = es := rfl
@[simp] theorem emits_result {es : List ε} : (emits es : Traced ε σ Unit).result = .ok () := rfl
@[simp] theorem stop_trace : (stop s : Traced ε σ α).trace = [] := rfl
@[simp] theorem stop_result : (stop s : Traced ε σ α).result = .error s := rfl

theorem bind_of_ok (h : x.result = .ok a) : x >>= f = ⟨x.trace ++ (f a).trace, (f a).result⟩ := by
  change (match x.result with
    | .ok a => (⟨x.trace ++ (f a).trace, (f a).result⟩ : Traced ε σ β)
    | .error s => ⟨x.trace, .error s⟩) = _
  rw [h]

theorem bind_of_error (h : x.result = .error s) : x >>= f = ⟨x.trace, .error s⟩ := by
  change (match x.result with
    | .ok a => (⟨x.trace ++ (f a).trace, (f a).result⟩ : Traced ε σ β)
    | .error s => ⟨x.trace, .error s⟩) = _
  rw [h]

theorem mem_trace_bind :
    e ∈ (x >>= f).trace ↔ e ∈ x.trace ∨ ∃ a, x.result = .ok a ∧ e ∈ (f a).trace := by
  cases h : x.result with
  | ok a => simp [bind_of_ok h]
  | error s => simp [bind_of_error h]

theorem mem_trace_emit_bind {d : ε} {f : Unit → Traced ε σ β} :
    e ∈ (emit d >>= f).trace ↔ e = d ∨ e ∈ (f ()).trace := by
  change e ∈ [d] ++ (f ()).trace ↔ _
  rw [List.mem_append, List.mem_singleton]

theorem result_bind_eq_ok :
    (x >>= f).result = .ok b ↔ ∃ a, x.result = .ok a ∧ (f a).result = .ok b := by
  cases h : x.result with
  | ok a => simp [bind_of_ok h]
  | error s => simp [bind_of_error h]

theorem result_bind_eq_error :
    (x >>= f).result = .error s ↔
      x.result = .error s ∨ ∃ a, x.result = .ok a ∧ (f a).result = .error s := by
  cases h : x.result with
  | ok a => simp [bind_of_ok h]
  | error t => simp [bind_of_error h]

theorem bind_result : (x >>= f).result = x.result >>= fun a => (f a).result := by
  cases h : x.result with
  | ok a => rw [bind_of_ok h]; rfl
  | error s => rw [bind_of_error h]; rfl

@[simp] theorem pure_bind_eq : ((pure a : Traced ε σ α) >>= f) = f a := rfl

@[simp] theorem emit_bind (f : Unit → Traced ε σ β) :
    (emit e >>= f) = ⟨e :: (f ()).trace, (f ()).result⟩ := rfl

end

section
variable {y : Except φ α} {f : φ → σ} {g : δ → ε} {x : Traced δ φ α} {a : α}

@[simp] theorem lift_result : (lift f y : Traced ε σ α).result = y.mapError f := rfl

@[simp] theorem lift_id_result : (lift id y : Traced ε φ α).result = y := by cases y <;> rfl

@[simp] theorem embed_result : (embed g f x).result = x.result.mapError f := rfl

@[simp] theorem lift_trace : (lift f y : Traced ε σ α).trace = [] := rfl

theorem lift_result_eq_ok : (lift f y : Traced ε σ α).result = .ok a ↔ y = .ok a := by
  cases y <;> simp [lift, Except.mapError]

@[simp] theorem embed_trace : (embed g f x).trace = x.trace.map g := rfl

theorem embed_result_eq_ok : (embed g f x).result = .ok a ↔ x.result = .ok a := by
  cases h : x.result <;> simp [embed, Except.mapError, h]

theorem lift_result_eq_error {s : σ} :
    (lift f y : Traced ε σ α).result = .error s ↔ ∃ q, y = .error q ∧ f q = s := by
  cases y <;> simp [lift, Except.mapError]

theorem embed_result_eq_error {s : σ} :
    (embed g f x).result = .error s ↔ ∃ q, x.result = .error q ∧ f q = s := by
  cases h : x.result <;> simp [embed, Except.mapError, h]

end

/-- All events of the run satisfy `P`, and what it returns satisfies `Q`. -/
structure Run (P : ε → Prop) (Q : α → Prop) (x : Traced ε σ α) : Prop where
  events : ∀ e ∈ x.trace, P e
  value : ∀ a, x.result = .ok a → Q a

section
variable {P : ε → Prop} {Q : α → Prop} {R : β → Prop} {x : Traced ε σ α} {f : α → Traced ε σ β}

theorem run_pure {a : α} (h : Q a) : (pure a : Traced ε σ α).Run P Q where
  events := by simp
  value := by
    rintro b ⟨⟩
    exact h

theorem run_stop {s : σ} : (stop s : Traced ε σ α).Run P Q where
  events := by simp
  value := by simp

theorem run_emit {e : ε} {Q : Unit → Prop} (he : P e) (h : Q ()) :
    (emit e : Traced ε σ Unit).Run P Q where
  events := by simpa using he
  value := fun _ _ => h

theorem run_emits {es : List ε} {Q : Unit → Prop} (hes : ∀ e ∈ es, P e) (h : Q ()) :
    (emits es : Traced ε σ Unit).Run P Q where
  events := hes
  value := fun _ _ => h

theorem run_lift {y : Except φ α} {g : φ → σ} (h : ∀ a, y = .ok a → Q a) :
    (lift g y : Traced ε σ α).Run P Q where
  events := by simp
  value := fun a ha => h a (lift_result_eq_ok.mp ha)

/-- The rule of sequence. -/
theorem Run.bind (hx : x.Run P Q) (hf : ∀ a, Q a → (f a).Run P R) : (x >>= f).Run P R where
  events := by
    intro e he
    rcases mem_trace_bind.mp he with he | ⟨a, ha, he⟩
    · exact hx.events e he
    · exact (hf a (hx.value a ha)).events e he
  value := by
    intro b hb
    obtain ⟨a, ha, hb⟩ := result_bind_eq_ok.mp hb
    exact (hf a (hx.value a ha)).value b hb

theorem run_emit_bind {e : ε} {f : Unit → Traced ε σ β} (he : P e) (hf : (f ()).Run P R) :
    (emit e >>= f).Run P R :=
  (run_emit (Q := fun _ => True) he trivial).bind fun _ _ => hf

theorem run_emits_bind {es : List ε} {f : Unit → Traced ε σ β} (hes : ∀ e ∈ es, P e)
    (hf : (f ()).Run P R) : (emits es >>= f).Run P R :=
  (run_emits (Q := fun _ => True) hes trivial).bind fun _ _ => hf

end

end Traced
