import Stonesh.AuthLdap

/-!
# When LDAP authorization fails closed

`get_auth_ldap` awaits two replies in one variable and looks at the return code of the first only.
A run fails closed if it answers, grants on a complete exchange alone and counts no message that a
failed call has left behind. The outcomes of the library calls for which it does are exactly those
collected in `LdapLib.FailsClosed`.
-/

namespace Stonesh

open CLib

def requestFilter (lib : LdapLib) (user host tag : Option CString) : Option CString :=
  if tag = none then getHostFilter lib host user else getServiceFilter lib host user tag

/-- What the calls of a request are made with. -/
structure Exchange (lib : LdapLib) (options : Options) (user host tag : Option CString)
    (uri base filter : CString) : Prop where
  uri_eq : getLdapUri lib options = some uri
  base_eq : getLdapBase lib options = some base
  filter_eq : requestFilter lib user host tag = some filter

/-- The connection, the bind reply, the search and its reply have all succeeded, and the reply
holds an entry. -/
structure Exchange.Complete (lib : LdapLib) (uri base filter : CString) : Prop where
  initialized : lib.ldapInitialize uri = true
  bound : 0 < (lib.bindReply uri).rc
  sent : lib.searchRc = 0
  replied : 0 < (lib.searchReply base filter).rc
  entry : 1 ≤ (lib.searchReply base filter).entries

/-- The message that a successful call has delivered; NULL is none. -/
def Delivered (lib : LdapLib) (base filter : CString) (result : MessagePtr) : Prop :=
  result = .null ∨
    0 < (lib.searchReply base filter).rc ∧ result = .live (lib.searchReply base filter).entries

/-- The run answers; it grants only if `granted`, and every message it counts is `delivered`. -/
structure Closed (granted : Prop) (delivered : MessagePtr → Prop) (run : Traced LdapEvent Fault Int) :
    Prop where
  answers : run.result = .ok ldapAuthSuccess ∨ run.result = .ok ldapAuthFailure
  grants : run.result = .ok ldapAuthSuccess → granted
  counts : ∀ m, .count m ∈ run.trace → delivered m

/-- Authorization fails closed: success needs a complete exchange, a message of a failed call is
never counted, and in all other cases the answer is failure. -/
def LdapFailsClosed (lib : LdapLib) (options : Options) (user host tag : Option CString) : Prop :=
  Closed (∃ uri base filter, Exchange lib options user host tag uri base filter ∧
      Exchange.Complete lib uri base filter)
    (fun m => ∃ uri base filter, Exchange lib options user host tag uri base filter ∧
      Delivered lib base filter m)
    (getAuthLdap lib options user host tag)

/-- What the code relies on. Where it gives up before the connection, the locals it cleans up
unassigned must happen to be NULL; a failed bind must not leave an undefined message to release;
and a search reply must arrive, for a search that was sent if it holds one entry, or else the call
that fails must have stored NULL over the released bind reply. -/
def LdapLib.FailsClosed (lib : LdapLib) (options : Options) (user host tag : Option CString) : Prop :=
  match getLdapUri lib options, getLdapBase lib options, requestFilter lib user host tag with
  | some uri, some base, some filter =>
    if lib.ldapInitialize uri then
      if 0 < (lib.bindReply uri).rc then
        if 0 < (lib.searchReply base filter).rc then
          (lib.searchReply base filter).entries = 1 → lib.searchRc = 0
        else (lib.searchReply base filter).leaves = some .null
      else (lib.bindReply uri).leaves ≠ some .undefined ∧ (lib.bindReply uri).leaves ≠ some .released
    else lib.ldNull = true
  | some _, some _, none => lib.ldNull = true
  | _, _, _ => lib.ldNull = true ∧ lib.filterNull = true

theorem Exchange.exists_iff {lib : LdapLib} {options : Options} {user host tag : Option CString}
    {uri base filter : CString} (h : Exchange lib options user host tag uri base filter)
    {p : CString → CString → CString → Prop} :
    (∃ uri base filter, Exchange lib options user host tag uri base filter ∧ p uri base filter) ↔
      p uri base filter := by
  constructor
  · rintro ⟨uri', base', filter', h', hp⟩
    have huri : uri' = uri := Option.some.inj (h'.uri_eq.symm.trans h.uri_eq)
    have hbase : base' = base := Option.some.inj (h'.base_eq.symm.trans h.base_eq)
    have hfilter : filter' = filter := Option.some.inj (h'.filter_eq.symm.trans h.filter_eq)
    exact huri ▸ hbase ▸ hfilter ▸ hp
  · intro hp
    exact ⟨uri, base, filter, h, hp⟩

section
variable {lib : LdapLib} {granted : Prop} {delivered : MessagePtr → Prop}

private theorem closed_cleanReturn {ld : Option Unit} {filter : Option (Option CString)} :
    Closed granted delivered (cleanReturn lib ld filter ldapAuthFailure) ↔
      (ld.isSome ∨ lib.ldNull) ∧ (filter.isSome ∨ lib.filterNull) := by
  have hrun : (cleanReturn lib ld filter ldapAuthFailure).result =
        (if (ld.isSome ∨ lib.ldNull) ∧ (filter.isSome ∨ lib.filterNull) then .ok ldapAuthFailure
          else .error .indeterminate) ∧
      ∀ m, .count m ∉ (cleanReturn lib ld filter ldapAuthFailure).trace := by
    cases ld <;> cases filter <;> cases hld : lib.ldNull <;> cases hfilter : lib.filterNull <;>
      constructor <;>
      simp [cleanReturn, unbindLd, freeFilter, hld, hfilter, Traced.bind_of_ok, Traced.bind_of_error]
  obtain ⟨hresult, hcount⟩ := hrun
  constructor
  · intro h
    by_contra hundefined
    rw [if_neg hundefined] at hresult
    rcases h.answers with he | he
    · simp [hresult] at he
    · simp [hresult] at he
  · intro hdefined
    rw [if_pos hdefined] at hresult
    exact {
      answers := Or.inr hresult
      grants := by
        intro he
        rw [hresult] at he
        exact absurd he (by simp [ldapAuthFailure, ldapAuthSuccess])
      counts := fun m hm => absurd hm (hcount m) }

private theorem closed_emit_bind {e : LdapEvent} (he : ∀ m, e = .count m → delivered m)
    (f : Unit → Traced LdapEvent Fault Int) :
    Closed granted delivered (Traced.emit e >>= f) ↔ Closed granted delivered (f ()) := by
  rw [Traced.emit_bind]
  constructor
  · intro h
    exact ⟨h.answers, h.grants, fun m hm => h.counts m (List.mem_cons_of_mem _ hm)⟩
  · intro h
    refine ⟨h.answers, h.grants, ?_⟩
    intro m hm
    rcases List.mem_cons.mp hm with hm | hm
    · exact he m hm.symm
    · exact h.counts m hm

private theorem not_closed_stop {run : Traced LdapEvent Fault Int} {f : Fault} (h : run.result = .error f) :
    ¬ Closed granted delivered run := by
  intro hclosed
  rcases hclosed.answers with he | he
  · simp [h] at he
  · simp [h] at he

private theorem not_closed_count {run : Traced LdapEvent Fault Int} {m : MessagePtr}
    (hm : .count m ∈ run.trace) (h : ¬ delivered m) : ¬ Closed granted delivered run :=
  fun hclosed => h (hclosed.counts m hm)

private theorem closed_unbound {uri base filter : CString} (hbind : ¬ 0 < (lib.bindReply uri).rc) :
    Closed granted delivered (searchLdap lib uri base filter) ↔
      (lib.bindReply uri).leaves ≠ some .undefined ∧ (lib.bindReply uri).leaves ≠ some .released := by
  simp only [searchLdap, LdapReply.deliver, hbind, if_false]
  rw [closed_emit_bind (by simp)]
  have hclean : Closed granted delivered
      (cleanReturn lib (some ()) (some (some filter)) ldapAuthFailure) :=
    closed_cleanReturn.mpr ⟨Or.inl rfl, Or.inl rfl⟩
  cases hleaves : (lib.bindReply uri).leaves with
  | none => simpa [msgfree] using hclean
  | some m =>
    cases m with
    | null => simpa [msgfree] using hclean
    | live n =>
      simp only [Option.getD_some, msgfree]
      simp only [ne_eq, Option.some.injEq, reduceCtorEq, not_false_eq_true, and_self, iff_true]
      show Closed granted delivered (Traced.emit (.msgfree (.live n)) >>= fun _ =>
        cleanReturn lib (some ()) (some (some filter)) ldapAuthFailure)
      exact (closed_emit_bind (by simp) _).mpr hclean
    | released => simpa using not_closed_stop (f := .invalidFree) rfl
    | undefined => simpa using not_closed_stop (f := .indeterminate) rfl

private theorem closed_replied {uri base filter : CString} (hbind : 0 < (lib.bindReply uri).rc)
    (hreply : 0 < (lib.searchReply base filter).rc)
    (hcount : delivered (.live (lib.searchReply base filter).entries)) :
    Closed granted delivered (searchLdap lib uri base filter) ↔
      ((lib.searchReply base filter).entries = 1 → granted) := by
  obtain ⟨n, hn⟩ : ∃ n, n = (lib.searchReply base filter).entries := ⟨_, rfl⟩
  rw [← hn] at hcount ⊢
  have hrun : searchLdap lib uri base filter =
      ⟨[.bound (lib.bindReply uri).rc, .msgfree (.live (lib.bindReply uri).entries),
          .searched lib.searchRc (lib.searchReply base filter).rc, .count (.live n), .msgfree (.live n),
          .cleanup .ld true, .unbind, .cleanup .filter true],
        .ok (if n = 1 then ldapAuthSuccess else ldapAuthFailure)⟩ := by
    simp only [searchLdap, LdapReply.deliver, hbind, hreply, if_true, ← hn]
    rfl
  rw [hrun]
  constructor
  · intro h hone
    exact h.grants (by rw [if_pos hone])
  · intro hgranted
    refine ⟨?_, ?_, ?_⟩
    · by_cases hone : n = 1
      · exact Or.inl (by rw [if_pos hone])
      · exact Or.inr (by rw [if_neg hone])
    · intro he
      apply hgranted
      by_contra hone
      rw [if_neg hone] at he
      exact absurd he (by simp [ldapAuthFailure, ldapAuthSuccess])
    · intro m hm
      have hsame : m = .live n := by simpa using hm
      exact hsame ▸ hcount

private theorem closed_unreplied {uri base filter : CString} (hbind : 0 < (lib.bindReply uri).rc)
    (hreply : ¬ 0 < (lib.searchReply base filter).rc) (hnull : delivered .null)
    (hlive : ∀ n, ¬ delivered (.live n)) :
    Closed granted delivered (searchLdap lib uri base filter) ↔
      (lib.searchReply base filter).leaves = some .null := by
  have hrun : searchLdap lib uri base filter =
      (Traced.emit (.bound (lib.bindReply uri).rc) >>= fun _ =>
        Traced.emit (.msgfree (.live (lib.bindReply uri).entries)) >>= fun _ =>
        Traced.emit (.searched lib.searchRc (lib.searchReply base filter).rc) >>= fun _ =>
        countEntries ((lib.searchReply base filter).leaves.getD .released) >>= fun n =>
        msgfree ((lib.searchReply base filter).leaves.getD .released) >>= fun _ =>
        cleanReturn lib (some ()) (some (some filter))
          (if n = 1 then ldapAuthSuccess else ldapAuthFailure)) := by
    simp only [searchLdap, LdapReply.deliver, hbind, hreply, if_true, if_false]
    rfl
  rw [hrun, closed_emit_bind (by simp), closed_emit_bind (by simp), closed_emit_bind (by simp)]
  cases hleaves : (lib.searchReply base filter).leaves with
  | none => simpa using not_closed_stop (f := .useAfterFree) rfl
  | some m =>
    cases m with
    | null =>
      have hclean : Closed granted delivered
          (cleanReturn lib (some ()) (some (some filter)) ldapAuthFailure) :=
        closed_cleanReturn.mpr ⟨Or.inl rfl, Or.inl rfl⟩
      simp only [iff_true]
      show Closed granted delivered (Traced.emit (.count .null) >>= fun _ =>
        cleanReturn lib (some ()) (some (some filter)) ldapAuthFailure)
      apply (closed_emit_bind ?_ _).mpr hclean
      rintro m ⟨⟩
      exact hnull
    | live n =>
      have hcounted : .count (.live n) ∈ (countEntries (.live n) >>= fun n' =>
          msgfree (.live n) >>= fun _ => cleanReturn lib (some ()) (some (some filter))
            (if n' = 1 then ldapAuthSuccess else ldapAuthFailure)).trace :=
        Traced.mem_trace_bind.mpr (Or.inl (by simp [countEntries]))
      simpa using not_closed_count hcounted (hlive n)
    | released => simpa using not_closed_stop (f := .useAfterFree) rfl
    | undefined => simpa using not_closed_stop (f := .indeterminate) rfl

end

/-- For every user, host, tag and every combination of outcomes of the library calls,
authorization fails closed exactly when `LdapLib.FailsClosed` holds of the outcomes. -/
theorem getAuthLdap_failsClosed_iff (lib : LdapLib) {options : Options} (h : options.useLdap ≠ 0)
    (user host tag : Option CString) :
    LdapFailsClosed lib options user host tag ↔ lib.FailsClosed options user host tag := by
  have hfilter : (if tag = none then getHostFilter lib host user
      else getServiceFilter lib host user tag) = requestFilter lib user host tag := rfl
  unfold LdapFailsClosed LdapLib.FailsClosed
  rw [getAuthLdap, if_neg h, hfilter]
  cases huri : getLdapUri lib options with
  | none => simp [closed_cleanReturn]
  | some uri =>
    cases hbase : getLdapBase lib options with
    | none => simp [closed_cleanReturn]
    | some base =>
      cases hf : requestFilter lib user host tag with
      | none => simp [closed_cleanReturn]
      | some filter =>
        have hex : Exchange lib options user host tag uri base filter := ⟨huri, hbase, hf⟩
        have hgranted : (∃ uri base filter, Exchange lib options user host tag uri base filter ∧
            Exchange.Complete lib uri base filter) ↔ Exchange.Complete lib uri base filter :=
          hex.exists_iff
        have hdelivered (m : MessagePtr) : (∃ uri base filter,
            Exchange lib options user host tag uri base filter ∧ Delivered lib base filter m) ↔
              Delivered lib base filter m :=
          hex.exists_iff (p := fun _ base filter => Delivered lib base filter m)
        simp only [hgranted, hdelivered]
        rw [closed_emit_bind (by simp)]
        by_cases hinit : lib.ldapInitialize uri = true
        · rw [if_pos hinit, if_pos hinit]
          by_cases hbind : 0 < (lib.bindReply uri).rc
          · rw [if_pos hbind]
            by_cases hreply : 0 < (lib.searchReply base filter).rc
            · rw [if_pos hreply, closed_replied hbind hreply (Or.inr ⟨hreply, rfl⟩)]
              constructor
              · intro hgrants hone
                exact (hgrants hone).sent
              · intro hsent hone
                exact ⟨hinit, hbind, hsent hone, hreply, by omega⟩
            · rw [if_neg hreply]
              apply closed_unreplied hbind hreply (Or.inl rfl)
              rintro n (hnull | ⟨hpos, -⟩)
              · exact absurd hnull (by simp)
              · exact hreply hpos
          · rw [if_neg hbind]
            exact closed_unbound hbind
        · rw [if_neg hinit, if_neg hinit, closed_cleanReturn]
          simp

/-- A library that connects, binds and sends, with this reply to the search. -/
def ldapReplying (reply : LdapReply) : LdapLib where
  optionUri := some (some (.lit "ldap://localhost"))
  optionDefbase := some (some (.lit "dc=example"))
  strdup _ := true
  malloc := true
  ldapInitialize _ := true
  bindReply _ := ⟨97, 0, none⟩
  searchRc := 0
  searchReply _ _ := reply
  ldNull := false
  filterNull := false

/-- A search that is answered with one entry. -/
theorem getAuthLdap_failsClosed_entry :
    LdapFailsClosed (ldapReplying ⟨100, 1, none⟩) { initializeOptions with useLdap := 1 }
      (some (.lit "bob")) (some (.lit "web")) none := by
  apply (getAuthLdap_failsClosed_iff _ (by decide) _ _ _).mpr
  intro _
  rfl

/-- When the connection is lost behind the search, the released bind reply is counted. -/
theorem getAuthLdap_counts_released :
    ¬ LdapFailsClosed (ldapReplying ⟨-1, 0, none⟩) { initializeOptions with useLdap := 1 }
        (some (.lit "bob")) (some (.lit "web")) none := by
  intro h
  have hcount : LdapEvent.count .released ∈
      (getAuthLdap (ldapReplying ⟨-1, 0, none⟩) { initializeOptions with useLdap := 1 }
        (some (.lit "bob")) (some (.lit "web")) none).trace := by decide
  obtain ⟨uri, base, filter, -, hnull | ⟨-, hlive⟩⟩ := h.counts _ hcount
  · exact absurd hnull (by decide)
  · exact absurd hlive (by simp)

end Stonesh
