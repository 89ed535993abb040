import Mathlib.Data.List.Sigma

/-!
# Slots that are written once

A state has a slot for each key, and a write fills the slot of its key if that is empty. A list of
writes leaves every slot with what it held, or else with the first value the list has for it.
-/

/-- A state whose slots are read with `get`, and a write that fills no more than one of them. -/
structure WriteOnce (σ : Type) {κ : Type} [DecidableEq κ] (β : κ → Type) where
  get : σ → (k : κ) → Option (β k)
  put : σ → Sigma β → σ
  get_put : ∀ s w k, get (put s w) k = (get s k).or (List.dlookup k [w])

namespace WriteOnce

variable {σ κ : Type} [DecidableEq κ] {β : κ → Type} (W : WriteOnce σ β)

def writes (s : σ) (ws : List (Sigma β)) : σ := ws.foldl W.put s

/-- What is in a slot stays, and the first write to an empty slot fills it. -/
theorem get_writes (s : σ) (ws : List (Sigma β)) (k : κ) :
    W.get (W.writes s ws) k = (W.get s k).or (ws.dlookup k) := by
  induction ws generalizing s with
  | nil => exact Option.or_none.symm
  | cons w ws ih =>
    have hcons : (w :: ws).dlookup k = (List.dlookup k [w]).or (ws.dlookup k) :=
      List.dlookup_append [w] ws k
    change W.get (W.writes (W.put s w) ws) k = _
    rw [ih, W.get_put, hcons, Option.or_assoc]

end WriteOnce
