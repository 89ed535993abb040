import Stonesh.AuthLocal.Scan

/-!
# What the users file promises and what the scan answers

The format description grants a host to the user whose name is in the record. The scan compares
only as many bytes as the name asked for has, and it lets the first element decide that begins
with the host. Both differences are measured here against the lines of the file.
-/

namespace Stonesh

open CLib

/-- Some line of the users file grants the host to the user. -/
def FileGrants (content user host : List Byte) (proxy : Int) : Prop :=
  ∃ line ∈ lineRecords content, (UserRecord.parse line).Grants user host proxy

instance (content user host : List Byte) (proxy : Int) :
    Decidable (FileGrants content user host proxy) :=
  inferInstanceAs (Decidable (∃ line ∈ lineRecords content, _))

/-- What the scan reads admits the user, but under a longer user name, for a longer host name or
from a piece of a line that is no line of the file. -/
def Misread (content line user host : List Byte) (proxy : Int) : Prop :=
  (UserRecord.parse line).Admits user host proxy ∧
    ¬ (line ∈ lineRecords content ∧ SameName user (UserRecord.parse line).user ∧
      ∃ e ∈ (UserRecord.parse line).firstMatch host, SameName host e.name)

/-- The host list has an element with the proxy mark for the host and no element in front of it
that begins with the host. -/
def UserRecord.Unshadowed (r : UserRecord) (host : List Byte) : Prop :=
  ∃ before e after, r.hosts = before ++ e :: after ∧ Extends host e.name ∧ e.plus = true ∧
    ∀ a ∈ before, ¬ Extends host a.name

section
variable {r : UserRecord} {user host : List Byte}

theorem UserRecord.unshadowed_iff :
    r.Unshadowed host ↔ ∃ e ∈ r.firstMatch host, e.plus = true := by
  constructor
  · rintro ⟨before, e, after, hhosts, hext, hplus, hbefore⟩
    have hnone : before.find? (fun a => decide (Extends host a.name)) = none := by
      rw [List.find?_eq_none]
      intro a ha
      simpa using hbefore a ha
    refine ⟨e, ?_, hplus⟩
    rw [firstMatch, hhosts, List.find?_append, hnone]
    simp [hext]
  · rintro ⟨e, he, hplus⟩
    obtain ⟨hext, before, after, hhosts, hbefore⟩ := List.find?_eq_some_iff_append.mp he
    refine ⟨before, e, after, hhosts, by simpa using hext, hplus, ?_⟩
    intro a ha
    simpa using hbefore a ha

theorem UserRecord.admits_proxy_iff :
    r.Admits user host 1 ↔ Extends user r.user ∧ r.Unshadowed host := by
  rw [unshadowed_iff]
  simp [Admits]

theorem UserRecord.Admits.grants {proxy : Int} (h : r.Admits user host proxy)
    (huser : SameName user r.user) (hhost : ∃ e ∈ r.firstMatch host, SameName host e.name) :
    r.Grants user host proxy := by
  obtain ⟨_, e, he, hplus⟩ := h
  obtain ⟨e', he', hname⟩ := hhost
  have hsame : e' = e := Option.mem_unique he' he
  subst hsame
  exact ⟨huser, e', List.mem_of_find?_eq_some he', hname, hplus⟩

end

section
variable (files : CString → Option (List Byte)) (user host file : CString) (proxy : Int)

theorem getAuthFile_auth :
    ∃ result, getAuthFile files (some user) (some host) (some file) proxy = .ok result ∧
      result.auth = if FileAdmits (contentOf files file) (trimmed user.bytes) (trimmed host.bytes) proxy
        then authLocalSuccess else authLocalFailure := by
  cases hfile : files file with
  | none =>
    refine ⟨_, getAuthFile_unreadable hfile user host proxy, ?_⟩
    simp [contentOf, hfile, FileAdmits, records]
  | some content =>
    refine ⟨_, getAuthFile_eq hfile user host proxy, ?_⟩
    simp [contentOf, hfile]

/-- The scan is sound for a request exactly when each record it misreads in favour of the request
is made good by a line that grants it. -/
theorem getAuthFile_sound_iff :
    ∃ result, getAuthFile files (some user) (some host) (some file) proxy = .ok result ∧
      ((result.auth = authLocalSuccess →
          FileGrants (contentOf files file) (trimmed user.bytes) (trimmed host.bytes) proxy) ↔
        ∀ line ∈ records (contentOf files file),
          Misread (contentOf files file) line (trimmed user.bytes) (trimmed host.bytes) proxy →
          FileGrants (contentOf files file) (trimmed user.bytes) (trimmed host.bytes) proxy) := by
  obtain ⟨result, hrun, hauth⟩ := getAuthFile_auth files user host file proxy
  refine ⟨result, hrun, ?_⟩
  generalize contentOf files file = content at hauth
  rw [hauth]
  constructor
  · intro hsound line hline hmisread
    have hadmits : FileAdmits content (trimmed user.bytes) (trimmed host.bytes) proxy :=
      ⟨line, hline, hmisread.1⟩
    exact hsound (if_pos hadmits)
  · intro hmade hsuccess
    have hadmits : FileAdmits content (trimmed user.bytes) (trimmed host.bytes) proxy := by
      by_contra hnot
      rw [if_neg hnot] at hsuccess
      simp [authLocalSuccess, authLocalFailure] at hsuccess
    obtain ⟨line, hline, hrecord⟩ := hadmits
    by_cases hmisread : Misread content line (trimmed user.bytes) (trimmed host.bytes) proxy
    · exact hmade line hline hmisread
    · have hexact := not_and_not_right.mp hmisread hrecord
      obtain ⟨hmem, huser, hhost⟩ := hexact
      exact ⟨line, hmem, hrecord.grants huser hhost⟩

/-- A user is let in under the record of another whose name only begins the same way. -/
theorem getAuthFile_unsound :
    ¬ ∀ (files : CString → Option (List Byte)) (user host file : CString) (proxy : Int) result,
      (proxy = 0 ∨ proxy = 1) →
      getAuthFile files (some user) (some host) (some file) proxy = .ok result →
      result.auth = authLocalSuccess →
      FileGrants (contentOf files file) (trimmed user.bytes) (trimmed host.bytes) proxy := by
  intro h
  have hgrants := h (fun _ => some (bytes "bobby:web\n")) (.lit "bob") (.lit "web") (.lit "users.lst") 0
    _ (Or.inl rfl) (getAuthFile_eq rfl _ _ _)
  revert hgrants
  decide +kernel

end

section
variable (files : CString → Option (List Byte)) (user host file : CString)

/-- On lines that fit the buffer the scan is complete for bastion access. For proxy access it is
complete exactly when, if a line lists the marked host for the user, some line whose user field
begins with the user has the host's mark unshadowed. -/
theorem getAuthFile_complete_iff (hfit : LinesFit (contentOf files file))
    (huser : (∀ c ∈ user.bytes, ¬ isspace c) ∧ 35 ∉ user.bytes)
    (hhost : (∀ c ∈ host.bytes, ¬ isspace c) ∧ 35 ∉ host.bytes) :
    ∃ bastion proxy, getAuthFile files (some user) (some host) (some file) 0 = .ok bastion ∧
      getAuthFile files (some user) (some host) (some file) 1 = .ok proxy ∧
      (((FileGrants (contentOf files file) user.bytes host.bytes 0 → bastion.auth = authLocalSuccess) ∧
          (FileGrants (contentOf files file) user.bytes host.bytes 1 → proxy.auth = authLocalSuccess)) ↔
        (FileGrants (contentOf files file) user.bytes host.bytes 1 →
          ∃ line ∈ lineRecords (contentOf files file),
            Extends user.bytes (UserRecord.parse line).user ∧
            (UserRecord.parse line).Unshadowed host.bytes)) := by
  obtain ⟨bastion, hrun, hauth⟩ := getAuthFile_auth files user host file 0
  obtain ⟨proxy, hrun', hauth'⟩ := getAuthFile_auth files user host file 1
  refine ⟨bastion, proxy, hrun, hrun', ?_⟩
  rw [trimmed_eq_self huser.1 huser.2, trimmed_eq_self hhost.1 hhost.2] at hauth hauth'
  have hadmits : FileAdmits (contentOf files file) user.bytes host.bytes 1 ↔
      ∃ line ∈ lineRecords (contentOf files file), Extends user.bytes (UserRecord.parse line).user ∧
        (UserRecord.parse line).Unshadowed host.bytes := by
    unfold FileAdmits
    simp only [records_eq_lineRecords hfit, UserRecord.admits_proxy_iff]
  have hbastion (h : FileGrants (contentOf files file) user.bytes host.bytes 0) :
      bastion.auth = authLocalSuccess := by
    obtain ⟨line, hline, hgrants⟩ := h
    rw [hauth]
    exact if_pos ⟨line, records_eq_lineRecords hfit ▸ hline, hgrants.admits⟩
  have hproxy : proxy.auth = authLocalSuccess ↔
      FileAdmits (contentOf files file) user.bytes host.bytes 1 := by
    rw [hauth']
    split
    · next h => exact iff_of_true rfl h
    · next h => exact iff_of_false (by decide) h
  rw [← hadmits, ← hproxy]
  exact and_iff_right hbastion

/-- The mark of web is neither in the first record for bob nor in the first element of its own. -/
def markedUsers : List Byte := bytes "# users\nalice:web+\n\nbob: mail, db+\n bob : db , web+, web1\nbob:web\n"

theorem getAuthFile_complete_example :
    ∃ bastion proxy,
      getAuthFile (fun _ => some markedUsers) (some (.lit "bob")) (some (.lit "web"))
        (some (.lit "users.lst")) 0 = .ok bastion ∧
      getAuthFile (fun _ => some markedUsers) (some (.lit "bob")) (some (.lit "web"))
        (some (.lit "users.lst")) 1 = .ok proxy ∧
      (FileGrants markedUsers (bytes "bob") (bytes "web") 0 → bastion.auth = authLocalSuccess) ∧
      (FileGrants markedUsers (bytes "bob") (bytes "web") 1 → proxy.auth = authLocalSuccess) := by
  obtain ⟨bastion, proxy, hbastion, hproxy, hiff⟩ :=
    getAuthFile_complete_iff (fun _ => some markedUsers) (.lit "bob") (.lit "web") (.lit "users.lst")
      (by unfold LinesFit; decide +kernel) (by decide) (by decide)
  refine ⟨bastion, proxy, hbastion, hproxy, hiff.mpr ?_⟩
  intro _
  exact ⟨bytes "bob : db , web+, web1", by decide +kernel, by decide +kernel,
    UserRecord.unshadowed_iff.mpr (by decide +kernel)⟩

/-- An unmarked element that begins the same way in front of the marked host hides the mark. -/
theorem getAuthFile_incomplete :
    ¬ ∀ (files : CString → Option (List Byte)) (user host file : CString),
      LinesFit (contentOf files file) →
      user.bytes ≠ [] → (∀ c ∈ user.bytes, ¬ isspace c ∧ c ∉ bytes ",:+#") →
      host.bytes ≠ [] → (∀ c ∈ host.bytes, ¬ isspace c ∧ c ∉ bytes ",:+#") →
      (FileGrants (contentOf files file) user.bytes host.bytes 0 → ∀ result,
        getAuthFile files (some user) (some host) (some file) 0 = .ok result →
        result.auth = authLocalSuccess) ∧
      (FileGrants (contentOf files file) user.bytes host.bytes 1 → ∀ result,
        getAuthFile files (some user) (some host) (some file) 1 = .ok result →
        result.auth = authLocalSuccess) := by
  intro h
  have hproxy := (h (fun _ => some (bytes "bob:web1,web+\n")) (.lit "bob") (.lit "web")
    (.lit "users.lst") (by unfold LinesFit; decide) (by decide) (by decide) (by decide) (by decide)).2
    (by decide +kernel) _ (getAuthFile_eq rfl _ _ _)
  revert hproxy
  decide +kernel

end

end Stonesh
