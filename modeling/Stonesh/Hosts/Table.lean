import Stonesh.Hosts
import Stonesh.Tables

/-!
# A hosts table

What an administrator puts into hosts.lst: for each host its name, its port unless that is the
usual one, and the countries it may be reached from. The entry of a row is what `gethostentry` is
to return for it, and a file that holds the rows is looked up like the rows themselves.
-/

namespace Stonesh

open CLib

def countriesField (countries : List TableName) : List Byte :=
  [44].intercalate (countries.map TableName.bytes)

/-- The fields behind the name; those at the end that have nothing to say are left out. -/
def hostSuffix : Option TableName → List TableName → List Byte
  | none, [] => []
  | some port, [] => 58 :: port.bytes
  | port, countries => 58 :: (port.elim [] TableName.bytes ++ 58 :: countriesField countries)

structure HostRow where
  name : TableName
  port : Option TableName
  countries : List TableName
  fits : (name.bytes ++ hostSuffix port countries).length ≤ 1022

namespace HostRow

def line (r : HostRow) : List Byte := r.name.bytes ++ hostSuffix r.port r.countries

def entry (r : HostRow) : HostEntry where
  host := some r.name.string
  countries := some (.ofList (countriesField r.countries))
  port := some (r.port.elim (.lit "22") TableName.string)

section
variable (r : HostRow) {c : Byte}

/-- A byte of a field is none that the reader looks for. -/
def PlainField (field : List Byte) : Prop := ∀ c ∈ field, ¬ isspace c ∧ c ∉ [(0 : Byte), 35, 58]

theorem plainField_name (n : TableName) : PlainField n.bytes := by
  intro c hc
  refine ⟨n.not_blank hc, fun hm => (n.plain c hc).2 ?_⟩
  simp only [List.mem_cons, List.not_mem_nil, or_false] at hm ⊢
  tauto

theorem plainField_port (port : Option TableName) : PlainField (port.elim [] TableName.bytes) := by
  cases port with
  | none => simp [PlainField]
  | some n => exact plainField_name n

theorem plainField_countries (countries : List TableName) : PlainField (countriesField countries) := by
  intro c hc
  rcases Text.mem_intercalate hc with rfl | ⟨l, hl, hc⟩
  · decide
  · obtain ⟨n, -, rfl⟩ := List.mem_map.mp hl
    exact plainField_name n c hc

private theorem line_byte (h : c ∈ r.line) : ¬ isspace c ∧ c ≠ 0 ∧ c ≠ 35 := by
  have hfield {field : List Byte} (hplain : PlainField field) (hc : c ∈ field) :
      ¬ isspace c ∧ c ≠ 0 ∧ c ≠ 35 := by
    obtain ⟨hblank, hne⟩ := hplain c hc
    simp only [List.mem_cons, List.not_mem_nil, or_false, not_or] at hne
    exact ⟨hblank, hne.1, hne.2.1⟩
  have hcolon : c = 58 → ¬ isspace c ∧ c ≠ 0 ∧ c ≠ 35 := by
    rintro rfl
    decide
  rcases List.mem_append.mp h with h | h
  · exact hfield (plainField_name r.name) h
  · unfold hostSuffix at h
    split at h
    · simp at h
    · rcases List.mem_cons.mp h with h | h
      · exact hcolon h
      · exact hfield (plainField_name _) h
    · simp only [List.mem_cons, List.mem_append] at h
      rcases h with h | h | h | h
      · exact hcolon h
      · exact hfield (plainField_port r.port) h
      · exact hcolon h
      · exact hfield (plainField_countries r.countries) h

end

end HostRow

/-- The lines of hosts.lst. -/
def hostFormat : RowFormat HostRow where
  line := HostRow.line
  text r := by
    refine ⟨fun h => r.name.ne_nil (List.append_eq_nil_iff.mp h).1, ?_⟩
    exact trimmed_eq_self (fun _ hc => (r.line_byte hc).1) fun hc => (r.line_byte hc).2.2 rfl
  single r := ⟨fun hc => (r.line_byte hc).2.1 rfl, fun hc => (r.line_byte hc).1 (by decide)⟩
  fits r := r.fits

section
variable (r : HostRow) {content : List Byte} {rows : List HostRow}

private theorem field_ended {a b : List Byte} (ha : 58 ∉ a) :
    Word.field 58 (some (a ++ 58 :: b)) = ⟨some a, some b⟩ := by
  have htake : (a ++ 58 :: b).takeWhile (· ≠ 58) = a := Text.takeWhile_ne_stop ha
  have hdrop : (a ++ 58 :: b).dropWhile (· ≠ 58) = 58 :: b :=
    Text.dropWhile_stop (by simpa using forall_ne_of_not_mem ha) (by simp)
  simp only [Word.field, htake, hdrop]

private theorem field_last {a : List Byte} (ha : 58 ∉ a) : Word.field 58 (some a) = ⟨some a, none⟩ := by
  have htake : a.takeWhile (· ≠ 58) = a := takeWhile_ne_of_not_mem ha
  have hdrop : a.dropWhile (· ≠ 58) = [] :=
    List.dropWhile_eq_nil_iff.mpr (by simpa using forall_ne_of_not_mem ha)
  simp only [Word.field, htake, hdrop]

private theorem fieldOrDefault_plain {field : List Byte} (default : String)
    (hplain : HostRow.PlainField field) :
    fieldOrDefault (some (.ofList field)) default =
      if field = [] then trimmedString (.lit default) else .ofList field := by
  have h0 : 0 ∉ field := fun hc => (hplain 0 hc).2 (by decide)
  have htrimmed : trimmed field = field :=
    trimmed_eq_self (fun c hc => (hplain c hc).1) fun hc => (hplain 35 hc).2 (by decide)
  rw [fieldOrDefault, CString.ofList_bytes h0]
  split
  · rfl
  · rw [trimmedString, CString.ofList_bytes h0, htrimmed]

private theorem portText (port : Option TableName) :
    fieldOrDefault (some (.ofList (port.elim [] TableName.bytes))) "22" =
      port.elim (.lit "22") TableName.string := by
  have hdefault : trimmedString (.lit "22") = .lit "22" := by decide
  rw [fieldOrDefault_plain "22" (HostRow.plainField_port port), hdefault]
  cases port with
  | none => rfl
  | some n => exact if_neg n.ne_nil

private theorem countriesText (countries : List TableName) :
    fieldOrDefault (some (.ofList (countriesField countries))) "" =
      .ofList (countriesField countries) := by
  have hnone : trimmedString (.lit "") = .ofList [] := by decide
  rw [fieldOrDefault_plain "" (HostRow.plainField_countries countries), hnone]
  split
  · next h => rw [h]
  · rfl

private theorem colon_not_mem {field : List Byte} (h : HostRow.PlainField field) : 58 ∉ field :=
  fun hc => (h 58 hc).2 (by decide)

theorem HostEntry.parse_row : HostEntry.parse r.line = r.entry := by
  obtain ⟨name, port, countries, fits⟩ := r
  have hname : 58 ∉ name.bytes := name.not_mem (by decide)
  have hnull : Word.field 58 none = ⟨none, none⟩ := rfl
  have habsent : fieldOrDefault none "22" = .lit "22" ∧ fieldOrDefault none "" = .ofList [] := by decide
  have hfull (port : Option TableName) (countries : List TableName) :
      HostEntry.parse (name.bytes ++
          58 :: (port.elim [] TableName.bytes ++ 58 :: countriesField countries)) =
        ⟨some name.string, some (.ofList (countriesField countries)),
          some (port.elim (.lit "22") TableName.string)⟩ := by
    simp only [HostEntry.parse, field_ended hname,
      field_ended (colon_not_mem (HostRow.plainField_port port)),
      field_last (colon_not_mem (HostRow.plainField_countries countries)), Word.text,
      Option.map_some, portText, countriesText]
    rfl
  unfold HostRow.line HostRow.entry hostSuffix
  cases countries with
  | nil =>
    cases port with
    | none =>
      simp only [HostEntry.parse, List.append_nil, field_last hname, hnull, Word.text,
        Option.map_none, Option.map_some, habsent]
      rfl
    | some port =>
      have hport := portText (some port)
      simp only [Option.elim_some] at hport
      simp only [HostEntry.parse, field_ended hname,
        field_last (colon_not_mem (HostRow.plainField_name port)), hnull, Word.text,
        Option.map_none, Option.map_some, habsent, hport]
      rfl
  | cons country countries =>
    cases port with
    | none => exact hfull none (country :: countries)
    | some port => exact hfull (some port) (country :: countries)

theorem lookupHost_rows (h : HoldsRows hostFormat content rows) (hostname : CString) :
    lookupHost content hostname =
      (rows.find? fun r => r.name.bytes = hostname.bytes).map HostRow.entry := by
  have hname (r : HostRow) :
      (Word.field 58 (some r.line)).text = some hostname ↔ r.name.bytes = hostname.bytes := by
    change (HostEntry.parse r.line).host = some hostname ↔ _
    rw [HostEntry.parse_row, HostRow.entry, Option.some.injEq, CString.ext_iff]
    exact Eq.congr_left r.name.string_bytes
  have hline : hostFormat.line = HostRow.line := rfl
  rw [lookupHost, h.records, hline, List.find?_map, Option.map_map]
  simp only [Function.comp_def, hname, HostEntry.parse_row]

/-- `gethostentry` on a file that holds the rows of a table: it finds the first row for the host
and returns that row's host, port and countries, and it finds nothing where there is no row. -/
theorem gethostentry_rows {files : CString → Option (List Byte)} {hostsFile : CString}
    (hfile : files hostsFile = some content) (h : HoldsRows hostFormat content rows) (he : HostEntry)
    (hostname : CString) :
    gethostentry files he (some hostname) (some hostsFile) =
      .ok (match rows.find? fun r => r.name.bytes = hostname.bytes with
        | none => ⟨false, .free⟩
        | some row => ⟨true, row.entry⟩) := by
  rw [gethostentry_eq, contentOf, hfile, Option.getD_some, lookupHost_rows h]
  cases rows.find? fun r => r.name.bytes = hostname.bytes with
  | none => rfl
  | some row => rfl

end

def webRow : HostRow where
  name := webName
  port := some ⟨bytes "2222", by decide, by decide⟩
  countries := []
  fits := by decide

def dbRow : HostRow where
  name := dbName
  port := none
  countries := [⟨bytes "US", by decide, by decide⟩, ⟨bytes "CA", by decide, by decide⟩]
  fits := by decide

/-- A hosts file with comments and blank lines. -/
def hostsExample : List Byte := bytes "# hosts\nweb:2222\n\n  db::US,CA # spare\n"

theorem hostsExample_rows : HoldsRows hostFormat hostsExample [webRow, dbRow] where
  fits := by
    unfold LinesFit
    decide
  rows := by decide

theorem gethostentry_rows_db :
    gethostentry (fun _ => some hostsExample) .free (some (.lit "db")) (some (.lit "hosts.lst")) =
      .ok (match [webRow, dbRow].find? fun r => r.name.bytes = (CString.lit "db").bytes with
        | none => ⟨false, .free⟩
        | some row => ⟨true, row.entry⟩) :=
  gethostentry_rows rfl hostsExample_rows .free (.lit "db")

end Stonesh
