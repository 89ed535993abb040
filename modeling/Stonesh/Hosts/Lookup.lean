import Mathlib.Data.List.Find
import Stonesh.Hosts

/-!
# The documented look-up

The format description has one line for a host, `hostname[:port][:countries]`, with the port 22
unless another is given; blanks around a field are not part of it. `gethostentry` compares the
host field before it trims it, and gives the port its default before it trims it. The two agree
exactly where neither order matters to the line that decides.
-/

namespace Stonesh

open CLib

def hostFields (text : List Byte) : List (List Byte) := (text.splitOn 58).map trimmed

/-- The port a line gives, and the default where it gives none. -/
def documentedPort (text : List Byte) : CString :=
  match (hostFields text)[1]? with
  | none => .lit "22"
  | some port => if port = [] then .lit "22" else .ofList port

def documentedEntry (hostname : CString) (text : List Byte) : HostEntry where
  host := some hostname
  countries := some (.ofList ((hostFields text)[2]?.getD []))
  port := some (documentedPort text)

/-- The first line whose first field is the host. -/
def listedLine (content : List Byte) (hostname : CString) : Option (List Byte) :=
  ((fileLines content).map lineText).find? fun text => (hostFields text)[0]? = some hostname.bytes

def documentedLookup (content : List Byte) (hostname : CString) : HostLookup :=
  match listedLine content hostname with
  | none => ⟨false, .free⟩
  | some text => ⟨true, documentedEntry hostname text⟩

/-- The first line that has nothing but the host in front of its first colon. -/
def exactLine (content : List Byte) (hostname : CString) : Option (List Byte) :=
  ((fileLines content).map lineText).find? fun text => text.takeWhile (· ≠ 58) = hostname.bytes

/-- The line has a port field, with nothing but blanks in it. -/
def BlankPort (text : List Byte) : Prop :=
  ∃ port ∈ (text.splitOn 58)[1]?, port ≠ [] ∧ trimmed port = []

instance (text : List Byte) : Decidable (BlankPort text) :=
  inferInstanceAs (Decidable (∃ port ∈ (text.splitOn 58)[1]?, _))

section
variable {text other : List Byte} {hostname : CString}

private theorem splitOn_tokens (text : List Byte) :
    (text.splitOn 58)[1]? = (Word.field 58 (Word.field 58 (some text)).rest).token ∧
      (text.splitOn 58)[2]? =
        (Word.field 58 (Word.field 58 (Word.field 58 (some text)).rest).rest).token := by
  obtain ⟨hport, hcountries⟩ := Word.splitOn_next 58 (Word.field 58 (some text)).rest
  rw [Word.splitOn_eq]
  exact ⟨hport, hcountries⟩

private theorem field_noNul (h0 : 0 ∉ text) {i : Nat} {field : List Byte}
    (hfield : (text.splitOn 58)[i + 1]? = some field) (hi : i < 2) : 0 ∉ field := by
  obtain ⟨hport, hcountries⟩ := splitOn_tokens text
  have hhost : (Word.field 58 (some text)).NoNul := Word.field_noNul (by simpa using h0)
  have hrest := Word.field_noNul (d := 58) hhost.2
  match i, hi with
  | 0, _ => exact hrest.1 field (hport ▸ hfield)
  | 1, _ => exact (Word.field_noNul (d := 58) hrest.2).1 field (hcountries ▸ hfield)

theorem documentedPort_bytes_ne_nil (h0 : 0 ∉ text) : (documentedPort text).bytes ≠ [] := by
  unfold documentedPort hostFields
  rw [List.getElem?_map]
  cases hport : (text.splitOn 58)[1]? with
  | none => decide
  | some port =>
    have hzero : 0 ∉ trimmed port := zero_not_mem_trimmed (field_noNul h0 hport (by decide))
    by_cases hnil : trimmed port = []
    · simp only [Option.map_some, hnil, if_true]
      decide
    · simp only [Option.map_some, hnil, if_false, CString.ofList_bytes hzero]
      exact hnil

private theorem fieldOrDefault_some {field : List Byte} (h0 : 0 ∉ field) (default : String) :
    fieldOrDefault (some (.ofList field)) default =
      if field = [] then trimmedString (.lit default) else .ofList (trimmed field) := by
  simp only [fieldOrDefault, CString.ofList_bytes h0]
  split
  · rfl
  · rw [trimmedString, CString.ofList_bytes h0]

theorem HostEntry.parse_port (h0 : 0 ∉ text) :
    (parse text).port = some (if BlankPort text then .ofList [] else documentedPort text) := by
  obtain ⟨hport, -⟩ := splitOn_tokens text
  have hdefault : trimmedString (.lit "22") = .lit "22" := by decide
  simp only [parse, Word.text, ← hport, documentedPort, hostFields, List.getElem?_map, BlankPort]
  cases hfield : (text.splitOn 58)[1]? with
  | none => simp [fieldOrDefault, hdefault]
  | some port =>
    have hread := fieldOrDefault_some (field_noNul h0 hfield (by decide)) "22"
    simp only [Option.map_some, hread, hdefault]
    by_cases hne : port = []
    · simp [hne]
    · by_cases hnil : trimmed port = []
      · simp [hne, hnil]
      · simp [hne, hnil]

theorem HostEntry.parse_countries (h0 : 0 ∉ text) :
    (parse text).countries = some (.ofList ((hostFields text)[2]?.getD [])) := by
  obtain ⟨-, hcountries⟩ := splitOn_tokens text
  have hdefault : trimmedString (.lit "") = .ofList [] := by decide
  simp only [parse, Word.text, ← hcountries, hostFields, List.getElem?_map]
  cases hfield : (text.splitOn 58)[2]? with
  | none => simp [fieldOrDefault, hdefault]
  | some countries =>
    have hread := fieldOrDefault_some (field_noNul h0 hfield (by decide)) ""
    simp only [Option.map_some, hread, hdefault]
    by_cases hne : countries = []
    · simp [hne]
    · simp [hne]

theorem HostEntry.parse_host (hexact : text.takeWhile (· ≠ 58) = hostname.bytes) :
    (parse text).host = some hostname := by
  change some (CString.ofList (text.takeWhile (· ≠ 58))) = some hostname
  rw [hexact]
  exact congrArg some (CString.ext (CString.ofList_bytes hostname.noNul))

/-- The entry read off one line is the one another stands for when the port is not blank and the
two lines stand for the same. -/
theorem HostEntry.parse_eq_documentedEntry_iff (h0 : 0 ∉ text) (hother : 0 ∉ other)
    (hexact : text.takeWhile (· ≠ 58) = hostname.bytes) :
    parse text = documentedEntry hostname other ↔
      ¬ BlankPort text ∧ documentedEntry hostname other = documentedEntry hostname text := by
  have hread : parse text = ⟨some hostname, some (.ofList ((hostFields text)[2]?.getD [])),
      some (if BlankPort text then .ofList [] else documentedPort text)⟩ := by
    rw [← parse_host hexact, ← parse_countries h0, ← parse_port h0]
  rw [hread]
  by_cases hblank : BlankPort text
  · have hport := documentedPort_bytes_ne_nil hother
    rw [if_pos hblank]
    constructor
    · intro h
      simp only [documentedEntry, HostEntry.mk.injEq, Option.some.injEq] at h
      exact absurd (by rw [← h.2.2]; rfl) hport
    · rintro ⟨hnot, -⟩
      exact absurd hblank hnot
  · rw [if_neg hblank]
    constructor
    · intro h
      exact ⟨hblank, h.symm⟩
    · rintro ⟨-, h⟩
      exact h.symm

end

section
variable {content : List Byte} {hostname : CString}

theorem lookupHost_eq_exactLine (hfit : LinesFit content) (hname : hostname.bytes ≠ []) :
    lookupHost content hostname = (exactLine content hostname).map HostEntry.parse := by
  rw [lookupHost, records_eq_lineRecords hfit, lineRecords, exactLine, List.find?_filter]
  congr 1
  apply List.find?_congr
  intro text htext
  obtain ⟨l, -, rfl⟩ := List.mem_map.mp htext
  have h0 : 0 ∉ (lineText l).takeWhile (· ≠ 58) :=
    fun hm => zero_not_mem_lineText l (List.takeWhile_subset _ hm)
  have hsame : (Word.field 58 (some (lineText l))).text = some hostname ↔
      (lineText l).takeWhile (· ≠ 58) = hostname.bytes := by
    change some (CString.ofList _) = some hostname ↔ _
    rw [Option.some.injEq, CString.ext_iff, CString.ofList_bytes h0]
  have hne : (lineText l).takeWhile (· ≠ 58) = hostname.bytes → lineText l ≠ [] := by
    intro h hnil
    rw [hnil] at h
    exact hname h.symm
  rw [Bool.eq_iff_iff]
  simp only [decide_eq_true_eq, hsame]
  exact and_iff_right_of_imp hne

theorem exactLine_listed (hblank : ∀ c ∈ hostname.bytes, ¬ isspace c) (hhash : 35 ∉ hostname.bytes)
    {text : List Byte} (h : text ∈ exactLine content hostname) :
    ∃ first, listedLine content hostname = some first := by
  have hmem := List.mem_of_find?_eq_some h
  have hexact : text.takeWhile (· ≠ 58) = hostname.bytes := by
    simpa using List.find?_some h
  have hfield : (hostFields text)[0]? = some hostname.bytes := by
    rw [hostFields, Word.splitOn_eq, hexact, List.map_cons, trimmed_eq_self hblank hhash]
    rfl
  have hsome : (listedLine content hostname).isSome := by
    rw [listedLine, List.find?_isSome]
    exact ⟨text, hmem, by simpa using hfield⟩
  exact Option.isSome_iff_exists.mp hsome

private theorem zero_not_mem_found {p : List Byte → Bool} {text : List Byte}
    (h : ((fileLines content).map lineText).find? p = some text) : 0 ∉ text := by
  obtain ⟨l, -, rfl⟩ := List.mem_map.mp (List.mem_of_find?_eq_some h)
  exact zero_not_mem_lineText l

/-- The look-up is the documented one exactly when the line that lists the host first, if there is
one, stands for the same entry as the first line the comparison accepts, and that one's port
field is not blank. -/
theorem gethostentry_documented_iff (files : CString → Option (List Byte)) (he : HostEntry)
    (hostname hostsFile : CString) (hfit : LinesFit (contentOf files hostsFile))
    (hne : hostname.bytes ≠ []) (hhash : 35 ∉ hostname.bytes)
    (hblank : ∀ c ∈ hostname.bytes, ¬ isspace c) :
    gethostentry files he (some hostname) (some hostsFile) =
        .ok (documentedLookup (contentOf files hostsFile) hostname) ↔
      ∀ first ∈ listedLine (contentOf files hostsFile) hostname,
        ∃ text ∈ exactLine (contentOf files hostsFile) hostname, ¬ BlankPort text ∧
          documentedEntry hostname first = documentedEntry hostname text := by
  rw [gethostentry_eq, lookupHost_eq_exactLine hfit hne, Except.ok.injEq]
  generalize contentOf files hostsFile = content
  cases htext : exactLine content hostname with
  | none =>
    rw [documentedLookup]
    cases listedLine content hostname with
    | none => simp
    | some first => simp
  | some text =>
    obtain ⟨first, hfirst⟩ := exactLine_listed hblank hhash htext
    have hexact : text.takeWhile (· ≠ 58) = hostname.bytes := by
      simpa using List.find?_some htext
    have hentry := HostEntry.parse_eq_documentedEntry_iff (zero_not_mem_found htext)
      (zero_not_mem_found hfirst) hexact
    simpa [documentedLookup, hfirst] using hentry

/-- Blanks around the port and the countries, and another line for the host. -/
def spacedHosts : List Byte := bytes "# hosts\n\ndb : 2022\n  web: 2222 : US, CA # main\nmail:\nweb:23\n"

theorem gethostentry_documented_spaced :
    gethostentry (fun _ => some spacedHosts) .free (some (.lit "web")) (some (.lit "hosts.lst")) =
      .ok (documentedLookup spacedHosts (.lit "web")) :=
  (gethostentry_documented_iff (fun _ => some spacedHosts) .free (.lit "web")
    (.lit "hosts.lst") (by unfold LinesFit; decide +kernel) (by decide) (by decide) (by decide)).mpr
    (by decide +kernel)

/-- A blank in front of the colon hides the entry. -/
theorem gethostentry_undocumented :
    ¬ ∀ (files : CString → Option (List Byte)) (he : HostEntry) (hostname hostsFile : CString),
      LinesFit (contentOf files hostsFile) → hostname.bytes ≠ [] → 58 ∉ hostname.bytes →
      35 ∉ hostname.bytes → (∀ c ∈ hostname.bytes, ¬ isspace c) →
      gethostentry files he (some hostname) (some hostsFile) =
        .ok (documentedLookup (contentOf files hostsFile) hostname) := by
  intro h
  have hlook := h (fun _ => some (bytes "web :22\n")) .free (.lit "web") (.lit "hosts.lst")
    (by unfold LinesFit; decide) (by decide) (by decide) (by decide) (by decide)
  rw [gethostentry_eq] at hlook
  revert hlook
  decide +kernel

end

end Stonesh
