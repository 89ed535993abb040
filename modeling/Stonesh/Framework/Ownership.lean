import Mathlib.Logic.Function.Basic

/-!
# Ownership of objects

Pointer variables in which calls store objects, and the code that releases them. The ledger of a
run says what each variable holds and which objects have been released. A run is tidy if it looks
at no variable that was not assigned and releases no object twice. Whether it is depends on the
objects only through the status of each variable, which every step changes for one variable.
-/

namespace Ownership

/-- What a variable holds: whatever was there before it was assigned, NULL or an object. -/
inductive Content
  | unassigned
  | null
  | object (id : Nat)
  deriving DecidableEq, Repr

def Content.ids : Content → List Nat
  | .object id => [id]
  | _ => []

theorem Content.mem_ids {c : Content} {id : Nat} : id ∈ c.ids ↔ c = .object id := by
  cases c with
  | object id' => simp [Content.ids, eq_comm]
  | unassigned => simp [Content.ids]
  | null => simp [Content.ids]

/-- What a call stores in a variable: NULL, an object of its own, a pointer to an object that is
released already, or an undefined value. -/
inductive Stored
  | null
  | fresh
  | released
  | undefined
  deriving DecidableEq, Repr

/-- What a call that returns NULL in want of something stores. -/
def Stored.ofBool (present : Bool) : Stored := if present then .fresh else .null

theorem Stored.ofBool_cases (present : Bool) : ofBool present = .null ∨ ofBool present = .fresh := by
  cases present
  · exact Or.inl rfl
  · exact Or.inr rfl

/-- An assignment; a look at the variable; the release of what it points to, if it is not NULL; and
the release by a macro that sets the variable to NULL. -/
inductive Step (P : Type)
  | store (p : P) (v : Stored)
  | look (p : P)
  | free (p : P)
  | drop (p : P)
  deriving DecidableEq, Repr

/-- An object is held by one variable at most; what is held or released was handed out before. -/
structure Ledger (P : Type) where
  content : P → Content
  next : Nat
  released : List Nat
  own : ∀ p q id, content p = .object id → content q = .object id → p = q
  held : ∀ p id, content p = .object id → id < next
  gone : ∀ id ∈ released, id < next

variable {P : Type}

namespace Ledger

/-- Where the variables declared with a value are NULL. -/
def start (assigned : P → Bool) : Ledger P where
  content p := if assigned p then .null else .unassigned
  next := 0
  released := []
  own p q id h := by split at h <;> simp at h
  held p id h := by split at h <;> simp at h
  gone := by simp

variable [DecidableEq P]

def clear (l : Ledger P) (p : P) (c : Content) (hc : c.ids = []) : Ledger P where
  content := Function.update l.content p c
  next := l.next
  released := l.released
  own q r id hq hr := by
    rw [Function.update_apply] at hq hr
    split at hq
    · exact absurd (Content.mem_ids.mpr hq) (by simp [hc])
    · split at hr
      · exact absurd (Content.mem_ids.mpr hr) (by simp [hc])
      · exact l.own q r id hq hr
  held q id hq := by
    rw [Function.update_apply] at hq
    split at hq
    · exact absurd (Content.mem_ids.mpr hq) (by simp [hc])
    · exact l.held q id hq
  gone := l.gone

def hand (l : Ledger P) (p : P) : Ledger P where
  content := Function.update l.content p (.object l.next)
  next := l.next + 1
  released := l.released
  own q r id hq hr := by
    rw [Function.update_apply] at hq hr
    split at hq
    · next hqp =>
      split at hr
      · next hrp => rw [hqp, hrp]
      · have hlt := l.held r id hr
        have hid := Content.object.inj hq
        omega
    · split at hr
      · have hlt := l.held q id hq
        have hid := Content.object.inj hr
        omega
      · exact l.own q r id hq hr
  held q id hq := by
    rw [Function.update_apply] at hq
    split at hq
    · have hid := Content.object.inj hq
      omega
    · have hlt := l.held q id hq
      omega
  gone id hid := by
    have hlt := l.gone id hid
    omega

def release (l : Ledger P) (p : P) : Ledger P where
  content := l.content
  next := l.next
  released := (l.content p).ids ++ l.released
  own := l.own
  held := l.held
  gone id hid := by
    rcases List.mem_append.mp hid with hid | hid
    · exact l.held p id (Content.mem_ids.mp hid)
    · exact l.gone id hid

def after (l : Ledger P) : Step P → Ledger P
  | .store p .null => l.clear p .null rfl
  | .store p .undefined => l.clear p .unassigned rfl
  | .store p .fresh => l.hand p
  | .store p .released => (l.hand p).release p
  | .look _ => l
  | .free p => l.release p
  | .drop p => (l.release p).clear p .null rfl

def run (l : Ledger P) (steps : List (Step P)) : Ledger P := steps.foldl after l

/-- The variable holds no object that is released, and it was assigned. -/
def Ready (l : Ledger P) (p : P) : Prop :=
  l.content p ≠ .unassigned ∧ ∀ id ∈ l.released, l.content p ≠ .object id

/-- The step looks at no unassigned variable and releases no released object. -/
def Allows (l : Ledger P) : Step P → Prop
  | .store _ _ => True
  | .look p => l.content p ≠ .unassigned
  | .free p => l.Ready p
  | .drop p => l.Ready p

/-- All steps of the run are allowed where they are taken. -/
def Tidy : Ledger P → List (Step P) → Prop
  | _, [] => True
  | l, s :: steps => l.Allows s ∧ (l.after s).Tidy steps

end Ledger

inductive Status
  | unassigned
  | null
  | live
  | dangling
  deriving DecidableEq, Repr

def Status.freed : Status → Status
  | .live => .dangling
  | s => s

def Stored.status : Stored → Status
  | .null => .null
  | .fresh => .live
  | .released => .dangling
  | .undefined => .unassigned

def Content.status (released : List Nat) : Content → Status
  | .unassigned => .unassigned
  | .null => .null
  | .object id => if id ∈ released then .dangling else .live

namespace Ledger

def status (l : Ledger P) (p : P) : Status := (l.content p).status l.released

@[simp] theorem status_start (assigned : P → Bool) (p : P) :
    (start assigned).status p = if assigned p then .null else .unassigned := by
  change (if assigned p then Content.null else .unassigned).status [] = _
  split <;> rfl

variable {l : Ledger P} {p q : P}

theorem ready_iff : l.Ready p ↔ l.status p = .null ∨ l.status p = .live := by
  unfold Ready status
  cases l.content p with
  | unassigned => simp [Content.status]
  | null => simp [Content.status]
  | object id =>
    have hiff : (∀ id' ∈ l.released, id ≠ id') ↔ id ∉ l.released := by
      constructor
      · intro h hm
        exact h id hm rfl
      · rintro h id' hm rfl
        exact h hm
    by_cases hid : id ∈ l.released
    · simp [Content.status, hiff, hid]
    · simp [Content.status, hiff, hid]

@[simp] theorem allows_store (v : Stored) : l.Allows (.store p v) := trivial

@[simp] theorem allows_look : l.Allows (.look p) ↔ l.status p ≠ .unassigned := by
  change l.content p ≠ .unassigned ↔ _
  unfold status
  cases l.content p with
  | unassigned => simp [Content.status]
  | null => simp [Content.status]
  | object id =>
    simp only [Content.status]
    split <;> simp

@[simp] theorem allows_free : l.Allows (.free p) ↔ l.status p = .null ∨ l.status p = .live := ready_iff

@[simp] theorem allows_drop : l.Allows (.drop p) ↔ l.status p = .null ∨ l.status p = .live := ready_iff

variable [DecidableEq P]

private theorem status_clear {c : Content} (hc : c.ids = []) :
    (l.clear p c hc).status q = if q = p then c.status l.released else l.status q := by
  unfold status clear
  simp only [Function.update_apply]
  split <;> rfl

private theorem status_hand : (l.hand p).status q = if q = p then .live else l.status q := by
  unfold status hand
  simp only [Function.update_apply]
  split
  · have hnew : l.next ∉ l.released := fun hm => absurd (l.gone _ hm) (Nat.lt_irrefl _)
    simp [Content.status, hnew]
  · rfl

private theorem status_release :
    (l.release p).status q = if q = p then (l.status p).freed else l.status q := by
  have hstatus : (l.release p).status q = (l.content q).status ((l.content p).ids ++ l.released) := rfl
  rw [hstatus]
  unfold status
  split
  · next hqp =>
    rw [hqp]
    cases l.content p with
    | unassigned => rfl
    | null => rfl
    | object id =>
      simp only [Content.status, Content.ids, List.cons_append, List.mem_cons, true_or, if_true]
      split <;> rfl
  · next hqp =>
    cases hq : l.content q with
    | unassigned => rfl
    | null => rfl
    | object id =>
      have hother : id ∉ (l.content p).ids := by
        intro hm
        exact hqp (l.own q p id hq (Content.mem_ids.mp hm))
      simp [Content.status, hother]

@[simp] theorem status_store (v : Stored) :
    (l.after (.store p v)).status q = if q = p then v.status else l.status q := by
  cases v with
  | null => exact status_clear rfl
  | undefined => exact status_clear rfl
  | fresh => exact status_hand
  | released =>
    change ((l.hand p).release p).status q = _
    rw [status_release, status_hand, status_hand, if_pos rfl]
    split <;> rfl

@[simp] theorem status_look : (l.after (.look p)).status q = l.status q := rfl

@[simp] theorem status_free :
    (l.after (.free p)).status q = if q = p then (l.status p).freed else l.status q := status_release

@[simp] theorem status_drop :
    (l.after (.drop p)).status q = if q = p then .null else l.status q := by
  have hclear : (l.after (.drop p)).status q = if q = p then .null else (l.release p).status q :=
    status_clear rfl
  rw [hclear, status_release]
  split <;> rfl

@[simp] theorem tidy_nil : l.Tidy [] := trivial

@[simp] theorem tidy_cons {s : Step P} {steps : List (Step P)} :
    l.Tidy (s :: steps) ↔ l.Allows s ∧ (l.after s).Tidy steps := Iff.rfl

@[simp] theorem run_nil : l.run [] = l := rfl

@[simp] theorem run_cons {s : Step P} {steps : List (Step P)} :
    l.run (s :: steps) = (l.after s).run steps := rfl

theorem tidy_append {steps steps' : List (Step P)} :
    l.Tidy (steps ++ steps') ↔ l.Tidy steps ∧ (l.run steps).Tidy steps' := by
  induction steps generalizing l with
  | nil => simp
  | cons s steps ih => rw [List.cons_append, tidy_cons, ih, tidy_cons, run_cons, and_assoc]

theorem run_append {steps steps' : List (Step P)} :
    l.run (steps ++ steps') = (l.run steps).run steps' := List.foldl_append

/-- A step on the variables of `S` that stores NULL or an object of its own, and releases by the
macro alone. -/
def Careful (S : P → Prop) : Step P → Prop
  | .store p v => S p ∧ (v = .null ∨ v = .fresh)
  | .look p => S p
  | .free _ => False
  | .drop p => S p

section
variable {S : P → Prop} {s : Step P} {steps : List (Step P)}

omit [DecidableEq P] in
theorem careful_drops {ps : List P} (h : ∀ p ∈ ps, S p) : ∀ s ∈ ps.map .drop, Careful S s := by
  intro s hs
  obtain ⟨p, hp, rfl⟩ := List.mem_map.mp hs
  exact h p hp

omit [DecidableEq P] in
theorem careful_stores {ps : List P} {v : Stored} (h : ∀ p ∈ ps, S p) (hv : v = .null ∨ v = .fresh) :
    ∀ s ∈ ps.map (.store · v), Careful S s := by
  intro s hs
  obtain ⟨p, hp, rfl⟩ := List.mem_map.mp hs
  exact ⟨h p hp, hv⟩

private theorem ready_after (h : Careful S s) (hready : ∀ p, S p → l.Ready p) :
    l.Allows s ∧ ∀ p, S p → (l.after s).Ready p := by
  cases s with
  | store p v =>
    refine ⟨trivial, ?_⟩
    intro q hq
    rw [ready_iff, status_store]
    split
    · rcases h.2 with rfl | rfl
      · exact Or.inl rfl
      · exact Or.inr rfl
    · exact ready_iff.mp (hready q hq)
  | look p => exact ⟨(hready p h).1, hready⟩
  | free p => exact absurd h id
  | drop p =>
    refine ⟨hready p h, ?_⟩
    intro q hq
    rw [ready_iff, status_drop]
    split
    · exact Or.inl rfl
    · exact ready_iff.mp (hready q hq)

/-- Careful steps are tidy, and the variables stay ready. -/
theorem tidy_of_careful (h : ∀ s ∈ steps, Careful S s) (hready : ∀ p, S p → l.Ready p) :
    l.Tidy steps ∧ ∀ p, S p → (l.run steps).Ready p := by
  induction steps generalizing l with
  | nil => exact ⟨trivial, hready⟩
  | cons s steps ih =>
    obtain ⟨hallows, hafter⟩ := ready_after (h s (by simp)) hready
    obtain ⟨htidy, hrun⟩ := ih (fun s hs => h s (List.mem_cons_of_mem _ hs)) hafter
    exact ⟨⟨hallows, htidy⟩, hrun⟩

private theorem status_after (h : Careful S s) (hq : ¬ S q) : (l.after s).status q = l.status q := by
  have hne {p : P} (hp : S p) : q ≠ p := by
    rintro rfl
    exact hq hp
  cases s with
  | store p v => rw [status_store, if_neg (hne h.1)]
  | look p => rfl
  | free p => exact absurd h id
  | drop p => rw [status_drop, if_neg (hne h)]

/-- The frame rule: the other variables keep their status. -/
theorem status_run (h : ∀ s ∈ steps, Careful S s) (hq : ¬ S q) : (l.run steps).status q = l.status q := by
  induction steps generalizing l with
  | nil => rfl
  | cons s steps ih =>
    rw [run_cons, ih fun s hs => h s (List.mem_cons_of_mem _ hs), status_after (h s (by simp)) hq]

end

end Ledger

end Ownership
