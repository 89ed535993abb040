import Stonesh.AuthLdap.Cleanup

/-!
# Directory requests that break

`get_auth_ldap` gives no answer where it unbinds or releases a local that was never assigned, or
counts or releases a message that no call has delivered. Both are told by the outcomes of the calls
and by what the two locals happen to hold.
-/

namespace Stonesh

open CLib Ownership

/-- A message that may be counted and released. -/
def MessagePtr.Valid (m : MessagePtr) : Prop := m = .null ∨ ∃ n, m = .live n

/-- The request gets an answer: LDAP is not in use; or the strings and the filter are there, and the
library acquires what is released; or they are not, and the locals that were not assigned hold
NULL. -/
def LdapLib.Answers (lib : LdapLib) (options : Options) (user host tag : Option CString) : Prop :=
  options.useLdap = 0 ∨
    (∃ uri base filter, Exchange lib options user host tag uri base filter ∧
      lib.Acquires lib.ldNull uri base filter) ∨
    (∀ uri base filter, ¬ Exchange lib options user host tag uri base filter) ∧ lib.ldNull = true ∧
      (lib.filterNull = true ∨ getLdapUri lib options ≠ none ∧ getLdapBase lib options ≠ none)

section
variable {lib : LdapLib} {options : Options} {user host tag : Option CString}
  {uri base filter : CString}

private def Returns {α : Type} (x : Traced LdapEvent Fault α) : Prop := ∃ a, x.result = .ok a

private theorem returns_bind {α β : Type} {x : Traced LdapEvent Fault α}
    {f : α → Traced LdapEvent Fault β} : Returns (x >>= f) ↔ ∃ a, x.result = .ok a ∧ Returns (f a) := by
  constructor
  · rintro ⟨b, h⟩
    obtain ⟨a, ha, hb⟩ := Traced.result_bind_eq_ok.mp h
    exact ⟨a, ha, b, hb⟩
  · rintro ⟨a, ha, b, hb⟩
    exact ⟨b, Traced.result_bind_eq_ok.mpr ⟨a, ha, hb⟩⟩

private theorem returns_emit_bind {β : Type} {e : LdapEvent} {f : Unit → Traced LdapEvent Fault β} :
    Returns (Traced.emit e >>= f) ↔ Returns (f ()) := Iff.rfl

private theorem returns_msgfree {m : MessagePtr} : Returns (msgfree m) ↔ m.Valid := by
  cases m with
  | null => exact iff_of_true ⟨_, rfl⟩ (Or.inl rfl)
  | live n => exact iff_of_true ⟨_, rfl⟩ (Or.inr ⟨n, rfl⟩)
  | released => simp [Returns, msgfree, MessagePtr.Valid]
  | undefined => simp [Returns, msgfree, MessagePtr.Valid]

private theorem returns_countEntries {m : MessagePtr} : Returns (countEntries m) ↔ m.Valid := by
  cases m with
  | null => exact iff_of_true ⟨_, rfl⟩ (Or.inl rfl)
  | live n => exact iff_of_true ⟨_, rfl⟩ (Or.inr ⟨n, rfl⟩)
  | released => simp [Returns, countEntries, MessagePtr.Valid]
  | undefined => simp [Returns, countEntries, MessagePtr.Valid]

private theorem returns_cleanReturn {ld : Option Unit} {filter : Option (Option CString)} {auth : Int} :
    Returns (cleanReturn lib ld filter auth) ↔
      (ld.isSome ∨ lib.ldNull = true) ∧ (filter.isSome ∨ lib.filterNull = true) := by
  have hld : Returns (unbindLd lib ld) ↔ ld.isSome ∨ lib.ldNull = true := by
    cases ld with
    | some u => exact iff_of_true ⟨(), rfl⟩ (Or.inl rfl)
    | none => cases hnull : lib.ldNull <;> simp [Returns, unbindLd, hnull]
  have hfilter : Returns (freeFilter lib filter) ↔ filter.isSome ∨ lib.filterNull = true := by
    cases filter with
    | some f => exact iff_of_true ⟨(), rfl⟩ (Or.inl rfl)
    | none => cases hnull : lib.filterNull <;> simp [Returns, freeFilter, hnull]
  rw [← hld, ← hfilter, cleanReturn, returns_bind]
  constructor
  · rintro ⟨⟨⟩, hunbind, hfree⟩
    obtain ⟨⟨⟩, hfree, -⟩ := returns_bind.mp hfree
    exact ⟨⟨(), hunbind⟩, (), hfree⟩
  · rintro ⟨⟨⟨⟩, hunbind⟩, ⟨⟩, hfree⟩
    exact ⟨(), hunbind, returns_bind.mpr ⟨(), hfree, auth, rfl⟩⟩

private theorem valid_deliver_iff {r : LdapReply} {old : MessagePtr} :
    (r.deliver old).Valid ↔ 0 < r.rc ∨ r.leaves = some .null ∨ (∃ n, r.leaves = some (.live n)) ∨
      r.leaves = none ∧ old.Valid := by
  unfold LdapReply.deliver
  by_cases hrc : 0 < r.rc
  · simp [hrc, MessagePtr.Valid]
  · cases hleaves : r.leaves with
    | none => simp [hrc]
    | some m => cases m <;> simp [hrc, MessagePtr.Valid]

private theorem returns_searchLdap (hinit : lib.ldapInitialize uri = true) :
    Returns (searchLdap lib uri base filter) ↔ lib.Acquires lib.ldNull uri base filter := by
  have hclean (auth : Int) : Returns (cleanReturn lib (some ()) (some (some filter)) auth) :=
    returns_cleanReturn.mpr ⟨Or.inl rfl, Or.inl rfl⟩
  unfold LdapLib.Acquires searchLdap
  rw [if_pos hinit]
  rw [returns_emit_bind]
  by_cases hbind : 0 < (lib.bindReply uri).rc
  · have hdelivered : (lib.bindReply uri).deliver .null = .live (lib.bindReply uri).entries := by
      rw [LdapReply.deliver, if_pos hbind]
    have hfreed : (msgfree (.live (lib.bindReply uri).entries)).result = .ok .released := rfl
    rw [if_pos hbind, if_pos hbind, hdelivered, returns_bind]
    simp only [hfreed, Except.ok.injEq, exists_eq_left', returns_emit_bind]
    rw [returns_bind]
    have hvalid : ((lib.searchReply base filter).deliver .released).Valid ↔
        0 < (lib.searchReply base filter).rc ∨ (lib.searchReply base filter).leaves = some .null ∨
          ∃ n, (lib.searchReply base filter).leaves = some (.live n) := by
      rw [valid_deliver_iff]
      simp [MessagePtr.Valid]
    rw [← hvalid]
    constructor
    · rintro ⟨n, hcount, -⟩
      exact returns_countEntries.mp ⟨n, hcount⟩
    · intro h
      obtain ⟨n, hcount⟩ := returns_countEntries.mpr h
      obtain ⟨m, hfree⟩ := returns_msgfree.mpr h
      exact ⟨n, hcount, returns_bind.mpr ⟨m, hfree, hclean _⟩⟩
  · have hvalid : ((lib.bindReply uri).deliver .null).Valid ↔
        (lib.bindReply uri).leaves ≠ some .released ∧ (lib.bindReply uri).leaves ≠ some .undefined := by
      rw [valid_deliver_iff]
      cases (lib.bindReply uri).leaves with
      | none => simp [MessagePtr.Valid]
      | some m => cases m <;> simp [hbind]
    rw [if_neg hbind, if_neg hbind, ← hvalid, returns_bind]
    constructor
    · rintro ⟨m, hfree, -⟩
      exact returns_msgfree.mp ⟨m, hfree⟩
    · intro h
      obtain ⟨m, hfree⟩ := returns_msgfree.mpr h
      exact ⟨m, hfree, hclean _⟩

theorem getAuthLdap_answers_iff :
    (∃ auth, (getAuthLdap lib options user host tag).result = .ok auth) ↔
      lib.Answers options user host tag := by
  change Returns _ ↔ _
  have hrequest : (if tag = none then getHostFilter lib host user
      else getServiceFilter lib host user tag) = requestFilter lib user host tag := rfl
  unfold LdapLib.Answers
  by_cases hldap : options.useLdap = 0
  · rw [getAuthLdap, if_pos hldap]
    exact iff_of_true ⟨_, rfl⟩ (Or.inl hldap)
  · rw [getAuthLdap, if_neg hldap, hrequest]
    by_cases hex : ∃ uri base filter, Exchange lib options user host tag uri base filter
    · obtain ⟨uri, base, filter, hex⟩ := hex
      have hnot : ¬ ∀ uri base filter, ¬ Exchange lib options user host tag uri base filter :=
        fun h => h uri base filter hex
      rw [hex.exists_iff (p := fun uri base filter => lib.Acquires lib.ldNull uri base filter)]
      simp only [hldap, hnot, false_and, or_false, false_or, hex.uri_eq, hex.base_eq, hex.filter_eq]
      by_cases hinit : lib.ldapInitialize uri = true
      · rw [← returns_searchLdap hinit, returns_emit_bind, if_pos hinit]
      · rw [returns_bind, if_neg hinit, LdapLib.Acquires, if_neg hinit, returns_cleanReturn]
        simp
    · have hnone : ∀ uri base filter, ¬ Exchange lib options user host tag uri base filter :=
        fun uri base filter h => hex ⟨uri, base, filter, h⟩
      simp only [hldap, hnone, false_and, exists_false, false_or, not_false_iff, implies_true, true_and]
      cases huri : getLdapUri lib options with
      | none => simp [returns_cleanReturn]
      | some uri =>
        cases hbase : getLdapBase lib options with
        | none => simp [returns_cleanReturn]
        | some base =>
          cases hfilter : requestFilter lib user host tag with
          | none => simp [returns_cleanReturn]
          | some filter => exact absurd ⟨huri, hbase, hfilter⟩ (hnone uri base filter)

end

end Stonesh
