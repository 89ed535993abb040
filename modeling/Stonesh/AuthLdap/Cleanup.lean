import Stonesh.AuthLdap.Closed
import Stonesh.Framework.Ownership

/-!
# The clean-up behind a directory request

Every failure in `get_auth_ldap` leads to one block that unbinds `ld` and releases the strings. Two
of the locals have no value before they are assigned, and the message of the bind stays in
`result` after it was released. The steps on the pointers are those of the path through the source;
it does not end where the model of the calls reports a fault.
-/

namespace Stonesh

open CLib Ownership

inductive LdapPtr
  | filter
  | uri
  | base
  | ld
  | result
  | passwd
  deriving DecidableEq, Repr

def LdapPtr.initialized : LdapPtr → Bool
  | .filter => false
  | .ld => false
  | _ => true

def MessagePtr.stored : MessagePtr → Stored
  | .null => .null
  | .live _ => .fresh
  | .released => .released
  | .undefined => .undefined

/-- `rc = ldap_result( ld, msgid, 0, NULL, &result )` -/
def LdapReply.steps (r : LdapReply) : List (Step LdapPtr) :=
  if 0 < r.rc then [.store .result .fresh]
  else (r.leaves.map fun m => .store .result m.stored).toList

def LdapReply.delivers (r : LdapReply) (old : Status) : Status :=
  if 0 < r.rc then .live else (r.leaves.map fun m => m.stored.status).getD old

def cleanReturnSteps : List (Step LdapPtr) :=
  [.free .ld, .drop .uri, .drop .base, .drop .filter, .drop .passwd]

def searchSteps (lib : LdapLib) (uri base filter : CString) : List (Step LdapPtr) :=
  let reply := lib.bindReply uri
  .look .ld :: reply.steps ++ .drop .passwd ::
    if 0 < reply.rc then
      [.free .result, .look .ld, .look .base, .look .filter] ++ (lib.searchReply base filter).steps ++
        [.look .ld, .look .result, .free .result]
    else [.free .result]

/-- The path through `get_auth_ldap`. A call of `ldap_initialize` that fails either leaves `ld`
alone or `nulls` it. -/
def ldapSteps (nulls : Bool) (lib : LdapLib) (options : Options) (user host tag : Option CString) :
    List (Step LdapPtr) :=
  if options.useLdap = 0 then [.drop .passwd]
  else
    .store .uri (.ofBool (getLdapUri lib options).isSome) :: .look .uri ::
    match getLdapUri lib options with
    | none => cleanReturnSteps
    | some uri =>
      .store .base (.ofBool (getLdapBase lib options).isSome) :: .look .base ::
      match getLdapBase lib options with
      | none => cleanReturnSteps
      | some base =>
        .store .filter (.ofBool (requestFilter lib user host tag).isSome) :: .look .filter ::
        match requestFilter lib user host tag with
        | none => cleanReturnSteps
        | some filter =>
          (if lib.ldapInitialize uri then .store .ld .fresh :: searchSteps lib uri base filter
            else if nulls then [.store .ld .null] else []) ++ cleanReturnSteps

/-- The clean-up touches only what was acquired, and nothing is released twice. -/
def LdapTidy (nulls : Bool) (lib : LdapLib) (options : Options) (user host tag : Option CString) : Prop :=
  (Ledger.start LdapPtr.initialized).Tidy (ldapSteps nulls lib options user host tag)

/-- The connection is there or its variable is NULL; a failed bind leaves nothing behind that is not
to be released; and a search reply arrives, or the call that fails stores something over the
released bind reply that may be released. -/
def LdapLib.Acquires (lib : LdapLib) (nulls : Bool) (uri base filter : CString) : Prop :=
  if lib.ldapInitialize uri then
    if 0 < (lib.bindReply uri).rc then
      0 < (lib.searchReply base filter).rc ∨ (lib.searchReply base filter).leaves = some .null ∨
        ∃ n, (lib.searchReply base filter).leaves = some (.live n)
    else (lib.bindReply uri).leaves ≠ some .released ∧ (lib.bindReply uri).leaves ≠ some .undefined
  else nulls = true

section
variable {nulls : Bool} {lib : LdapLib} {options : Options} {user host tag : Option CString}
  {uri base filter : CString} {l : Ledger LdapPtr}

private theorem tidy_reply (r : LdapReply) : l.Tidy r.steps := by
  unfold LdapReply.steps
  split
  · simp
  · cases r.leaves <;> simp

private theorem status_reply (r : LdapReply) (p : LdapPtr) :
    (l.run r.steps).status p = if p = .result then r.delivers (l.status .result) else l.status p := by
  unfold LdapReply.steps LdapReply.delivers
  split
  · simp [Stored.status]
  · cases r.leaves with
    | none => simp +contextual
    | some m => simp

private theorem delivers_ready_iff (r : LdapReply) (old : Status) :
    (r.delivers old = .null ∨ r.delivers old = .live) ↔
      0 < r.rc ∨ r.leaves = some .null ∨ (∃ n, r.leaves = some (.live n)) ∨
        r.leaves = none ∧ (old = .null ∨ old = .live) := by
  unfold LdapReply.delivers
  by_cases hrc : 0 < r.rc
  · simp [hrc]
  · cases r.leaves with
    | none => simp [hrc]
    | some m => cases m <;> simp [hrc, MessagePtr.stored, Stored.status]

private theorem tidy_cleanReturn_iff :
    l.Tidy cleanReturnSteps ↔
      l.Ready .ld ∧ l.Ready .uri ∧ l.Ready .base ∧ l.Ready .filter ∧ l.Ready .passwd := by
  simp [cleanReturnSteps, Ledger.ready_iff]

private theorem tidy_search_iff (hld : l.status .ld = .live) (huri : l.status .uri = .live)
    (hbase : l.status .base = .live) (hfilter : l.status .filter = .live)
    (hresult : l.status .result = .null) (hpasswd : l.status .passwd = .null) :
    l.Tidy (searchSteps lib uri base filter ++ cleanReturnSteps) ↔
      if 0 < (lib.bindReply uri).rc then
        (lib.searchReply base filter).delivers .dangling = .null ∨
          (lib.searchReply base filter).delivers .dangling = .live
      else (lib.bindReply uri).delivers .null = .null ∨ (lib.bindReply uri).delivers .null = .live := by
  by_cases hbind : 0 < (lib.bindReply uri).rc
  · have hmessage : (lib.bindReply uri).delivers .null = .live := by rw [LdapReply.delivers, if_pos hbind]
    have hassigned {s : Status} : s = .null ∨ s = .live → s ≠ .unassigned := by
      rintro (rfl | rfl) <;> simp
    rw [if_pos hbind]
    simp only [searchSteps, hbind, if_true]
    simpa [Ledger.tidy_append, tidy_reply, status_reply, tidy_cleanReturn_iff, Ledger.ready_iff, hld,
      huri, hbase, hfilter, hresult, hpasswd, hmessage, Status.freed] using hassigned
  · rw [if_neg hbind]
    simp only [searchSteps, hbind, if_false]
    simp [Ledger.tidy_append, tidy_reply, status_reply, tidy_cleanReturn_iff, Ledger.ready_iff, hld,
      huri, hbase, hfilter, hresult, hpasswd]

private theorem acquires_iff (hinit : lib.ldapInitialize uri = true) :
    lib.Acquires nulls uri base filter ↔
      if 0 < (lib.bindReply uri).rc then
        (lib.searchReply base filter).delivers .dangling = .null ∨
          (lib.searchReply base filter).delivers .dangling = .live
      else (lib.bindReply uri).delivers .null = .null ∨ (lib.bindReply uri).delivers .null = .live := by
  unfold LdapLib.Acquires
  rw [if_pos hinit]
  by_cases hbind : 0 < (lib.bindReply uri).rc
  · rw [if_pos hbind, if_pos hbind, delivers_ready_iff]
    simp
  · rw [if_neg hbind, if_neg hbind, delivers_ready_iff]
    cases (lib.bindReply uri).leaves with
    | none => simp
    | some m => cases m <;> simp [hbind]

private theorem ldapSteps_of_not_exchange (nulls : Bool) (hldap : options.useLdap ≠ 0)
    (h : ∀ uri base filter, ¬ Exchange lib options user host tag uri base filter) :
    ∃ steps, ldapSteps nulls lib options user host tag = steps ++ cleanReturnSteps ∧
      ∀ s ∈ steps, Ledger.Careful (· ≠ .ld) s := by
  unfold ldapSteps
  rw [if_neg hldap]
  cases huri : getLdapUri lib options with
  | none => exact ⟨[.store .uri .null, .look .uri], rfl, by simp [Ledger.Careful]⟩
  | some uri =>
    cases hbase : getLdapBase lib options with
    | none =>
      exact ⟨[.store .uri .fresh, .look .uri, .store .base .null, .look .base], rfl,
        by simp [Ledger.Careful]⟩
    | some base =>
      cases hfilter : requestFilter lib user host tag with
      | none =>
        exact ⟨[.store .uri .fresh, .look .uri, .store .base .fresh, .look .base, .store .filter .null,
          .look .filter], rfl, by simp [Ledger.Careful]⟩
      | some filter => exact absurd ⟨huri, hbase, hfilter⟩ (h uri base filter)

theorem ldapTidy_iff (nulls : Bool) (lib : LdapLib) (options : Options) (user host tag : Option CString) :
    LdapTidy nulls lib options user host tag ↔
      options.useLdap = 0 ∨ ∃ uri base filter, Exchange lib options user host tag uri base filter ∧
        lib.Acquires nulls uri base filter := by
  unfold LdapTidy
  by_cases hldap : options.useLdap = 0
  · simp [ldapSteps, hldap, LdapPtr.initialized]
  · by_cases hex : ∃ uri base filter, Exchange lib options user host tag uri base filter
    · obtain ⟨uri, base, filter, hex⟩ := hex
      rw [hex.exists_iff (p := fun uri base filter => lib.Acquires nulls uri base filter)]
      simp only [ldapSteps, hldap, if_false, false_or, hex.uri_eq, hex.base_eq, hex.filter_eq,
        Option.isSome_some, Stored.ofBool, if_true]
      by_cases hinit : lib.ldapInitialize uri = true
      · rw [acquires_iff hinit, if_pos hinit]
        simp only [List.cons_append, Ledger.tidy_cons]
        rw [tidy_search_iff]
        · simp [Stored.status]
        all_goals simp [Stored.status, LdapPtr.initialized]
      · cases nulls with
        | false =>
          simp [hinit, LdapLib.Acquires, tidy_cleanReturn_iff, Ledger.ready_iff, LdapPtr.initialized]
        | true =>
          simp [hinit, LdapLib.Acquires, tidy_cleanReturn_iff, Ledger.ready_iff, LdapPtr.initialized,
            Stored.status]
    · have hnone (uri base filter : CString) : ¬ Exchange lib options user host tag uri base filter :=
        fun h => hex ⟨uri, base, filter, h⟩
      obtain ⟨steps, hpath, hcareful⟩ := ldapSteps_of_not_exchange nulls hldap hnone
      simp only [hldap, hnone, false_and, exists_false, or_false, iff_false]
      rw [hpath, Ledger.tidy_append, tidy_cleanReturn_iff, Ledger.ready_iff,
        Ledger.status_run hcareful (by simp)]
      simp [LdapPtr.initialized]

end

end Stonesh
