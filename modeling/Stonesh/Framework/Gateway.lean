import Mathlib.Order.Monotone.Basic

/-!
# Gateways

A gateway stands in front of a set of hosts. It knows what it offers at a host, whom it grants what,
and from where an offer may be taken; from this it decides each request by itself. A gateway is below
another one if that one offers, grants and welcomes whatever it does, and then it permits no more.
-/

structure Gateway (User Host Mode Service Origin : Type) where
  service : Host → Option Service
  grants : User → Host → Mode → Prop
  welcomes : Service → Origin → Prop

namespace Gateway

structure Request (User Host Mode Origin : Type) where
  user : User
  host : Host
  mode : Mode
  origin : Origin

/-- There is nothing at the host, or it is not for this user in this mode from this origin, or the
request is permitted. -/
inductive Decision (Service : Type)
  | unlisted
  | refused
  | permitted (s : Service)
  deriving DecidableEq

variable {User Host Mode Service Origin : Type}

def Permits (g : Gateway User Host Mode Service Origin) (r : Request User Host Mode Origin)
    (s : Service) : Prop :=
  g.service r.host = some s ∧ g.grants r.user r.host r.mode ∧ g.welcomes s r.origin

open Classical in
noncomputable def decide (g : Gateway User Host Mode Service Origin)
    (r : Request User Host Mode Origin) : Decision Service :=
  match g.service r.host with
  | none => .unlisted
  | some s => if g.grants r.user r.host r.mode ∧ g.welcomes s r.origin then .permitted s else .refused

section
variable {g g' : Gateway User Host Mode Service Origin} {r : Request User Host Mode Origin} {s : Service}

theorem decide_unlisted (h : g.service r.host = none) : g.decide r = .unlisted := by
  rw [decide, h]

theorem decide_permitted (h : g.Permits r s) : g.decide r = .permitted s := by
  obtain ⟨hservice, hgranted⟩ := h
  rw [decide, hservice]
  exact if_pos hgranted

theorem decide_refused (hservice : g.service r.host = some s) (hnot : ¬ g.Permits r s) :
    g.decide r = .refused := by
  rw [decide, hservice]
  exact if_neg fun hgranted => hnot ⟨hservice, hgranted⟩

end

/-- The order of what gateways let through. -/
instance : Preorder (Gateway User Host Mode Service Origin) where
  le g g' := (∀ h s, g.service h = some s → g'.service h = some s) ∧
    (∀ u h m, g.grants u h m → g'.grants u h m) ∧ ∀ s o, g.welcomes s o → g'.welcomes s o
  le_refl g := ⟨fun _ _ h => h, fun _ _ _ h => h, fun _ _ h => h⟩
  le_trans g g' g'' h h' :=
    ⟨fun x s hs => h'.1 x s (h.1 x s hs), fun u x m hg => h'.2.1 u x m (h.2.1 u x m hg),
      fun s o hw => h'.2.2 s o (h.2.2 s o hw)⟩

section
variable {g g' : Gateway User Host Mode Service Origin} {r : Request User Host Mode Origin} {s : Service}

theorem Permits.mono (hle : g ≤ g') (h : g.Permits r s) : g'.Permits r s :=
  ⟨hle.1 _ _ h.1, hle.2.1 _ _ _ h.2.1, hle.2.2 _ _ h.2.2⟩

theorem decide_eq_of_le (hle : g ≤ g') (hge : g' ≤ g) (r : Request User Host Mode Origin) :
    g.decide r = g'.decide r := by
  cases hservice : g.service r.host with
  | none =>
    have hnone : g'.service r.host = none := by
      by_contra hne
      obtain ⟨s, hs⟩ := Option.ne_none_iff_exists'.mp hne
      simp [hge.1 _ _ hs] at hservice
    rw [decide_unlisted hservice, decide_unlisted hnone]
  | some s =>
    by_cases hpermits : g.Permits r s
    · rw [decide_permitted hpermits, decide_permitted (hpermits.mono hle)]
    · rw [decide_refused hservice hpermits,
        decide_refused (hle.1 _ _ hservice) fun h => hpermits (h.mono hge)]

end

end Gateway
