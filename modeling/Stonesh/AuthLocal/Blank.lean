import Stonesh.AuthLocal.Grants

/-!
# Blank elements of a host list

The loop over a host list looks at the last byte of each element it comes to. An element of blanks
has none after trimming, and then the byte in front of it is looked at. `strictIndex` is the index
that faults there: the scan that uses it gets through exactly if no such element is met.
-/

namespace Stonesh

open CLib

section
variable {user host : List Byte} {proxy : Int} {texts : List (List Byte)}

theorem noBlankVisited_filter : NoBlankVisited user host proxy (texts.filter (· ≠ [])) ↔
    NoBlankVisited user host proxy texts := by
  induction texts with
  | nil => exact Iff.rfl
  | cons text texts ih =>
    rw [noBlankVisited_cons]
    by_cases hnil : text = []
    · subst hnil
      rw [List.filter_cons_of_neg (by simp), ih]
      have hvisited : (UserRecord.parse []).visited user host = [] := by
        rw [UserRecord.visited]
        exact ite_self _
      rw [hvisited]
      simp
    · rw [List.filter_cons_of_pos (by simpa using hnil), noBlankVisited_cons, ih]

theorem blank_not_mem_visited {r : UserRecord} : HostElement.blank ∉ r.visited user host ↔
    (Extends user r.user → ∀ e ∈ Text.upTo (fun e => Extends host e.name) r.hosts, e ≠ ⟨[], false⟩) := by
  rw [UserRecord.visited, visited]
  by_cases hext : Extends user r.user
  · rw [if_pos hext]
    constructor
    · rintro hno - e he rfl
      exact hno he
    · exact fun h hmem => h hext _ hmem rfl
  · simp [hext]

private theorem noBlankVisited_records (content : List Byte) :
    (∀ line ∈ Text.upTo (fun line => (UserRecord.parse line).Admits user host proxy) (records content),
      Extends user (UserRecord.parse line).user →
        ∀ e ∈ Text.upTo (fun e => Extends host e.name) (UserRecord.parse line).hosts, e ≠ ⟨[], false⟩) ↔
      NoBlankVisited user host proxy ((chunks maxLineLen content).map lineText) := by
  rw [← noBlankVisited_filter]
  simp only [← blank_not_mem_visited]
  rfl

end

variable (files : CString → Option (List Byte)) (user host file : CString) (proxy : Int)

theorem getAuthFileWith_strict :
    getAuthFileWith strictIndex files (some user) (some host) (some file) proxy =
      if NoBlankVisited (trimmed user.bytes) (trimmed host.bytes) proxy
          ((chunks maxLineLen (contentOf files file)).map lineText) then
        getAuthFile files (some user) (some host) (some file) proxy
      else .error .outOfBounds := by
  cases hfile : files file with
  | none =>
    have hempty : NoBlankVisited (trimmed user.bytes) (trimmed host.bytes) proxy
        ((chunks maxLineLen (contentOf files file)).map lineText) := by
      rw [contentOf, hfile]
      exact fun _ h => absurd h List.not_mem_nil
    rw [if_pos hempty]
    simp only [getAuthFile, getAuthFileWith, hfile]
  | some content =>
    have hcontent : contentOf files file = content := by
      rw [contentOf, hfile]
      rfl
    simp only [getAuthFile, getAuthFileWith, hfile, trimString_eq, except_ok_bind, scanFile_strict,
      trimmedString_bytes, hcontent]
    split
    · rfl
    · rfl

/-- Every token whose last byte `get_auth_file` looks at has one exactly if, up to the record that
admits the user, no host list of a record for the user has an element of blanks up to the first
element that begins with the host. Then the scan is that of `get_auth_file`. -/
theorem getAuthFile_index_iff :
    ((∃ result, getAuthFileWith strictIndex files (some user) (some host) (some file) proxy =
        .ok result) ↔
      ∀ line ∈ Text.upTo (fun line =>
          (UserRecord.parse line).Admits (trimmed user.bytes) (trimmed host.bytes) proxy)
          (records (contentOf files file)),
        Extends (trimmed user.bytes) (UserRecord.parse line).user →
          ∀ e ∈ Text.upTo (fun e => Extends (trimmed host.bytes) e.name) (UserRecord.parse line).hosts,
            e ≠ ⟨[], false⟩) ∧
    ∀ result, getAuthFileWith strictIndex files (some user) (some host) (some file) proxy = .ok result →
      getAuthFile files (some user) (some host) (some file) proxy = .ok result := by
  obtain ⟨result, hrun, -⟩ := getAuthFile_auth files user host file proxy
  rw [noBlankVisited_records, getAuthFileWith_strict, hrun]
  by_cases hno : NoBlankVisited (trimmed user.bytes) (trimmed host.bytes) proxy
      ((chunks maxLineLen (contentOf files file)).map lineText)
  · rw [if_pos hno]
    exact ⟨iff_of_true ⟨result, rfl⟩ hno, fun _ h => h⟩
  · rw [if_neg hno]
    apply And.intro
    · apply iff_of_false _ hno
      rintro ⟨result', h⟩
      simp at h
    · intro result' h
      simp at h

/-- `bob:a, ,web`: the second element is a blank, and no host before it begins with `web`. -/
theorem getAuthFile_blank :
    ¬ ∀ (files : CString → Option (List Byte)) (user host file : CString) (proxy : Int),
      ∃ result, getAuthFileWith strictIndex files (some user) (some host) (some file) proxy =
        .ok result := by
  intro h
  obtain ⟨result, hrun⟩ := h (fun _ => some (bytes "bob:a, ,web\n")) (.lit "bob") (.lit "web")
    (.lit "users.lst") 0
  rw [getAuthFileWith_strict, if_neg (by decide +kernel)] at hrun
  simp at hrun

end Stonesh
