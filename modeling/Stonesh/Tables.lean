import Stonesh.Records

/-!
# Tables

The two lists the program looks things up in are tables with one row to a line. Here a table is a
list of rows, a format says how a row is written, and a file holds a table if its lines with text
are the rows in this order; blank lines, comments and blanks around a row make no difference.
-/

namespace Stonesh

open CLib

/-- A name in a table: none of its bytes separates, ends or marks anything. -/
structure TableName where
  bytes : List Byte
  ne_nil : bytes ≠ []
  plain : ∀ c ∈ bytes, ¬ isspace c ∧ c ∉ [(0 : Byte), 35, 43, 44, 58]
  deriving DecidableEq

namespace TableName

def string (n : TableName) : CString := .ofList n.bytes

section
variable (n : TableName) {c : Byte}

theorem not_mem (h : c ∈ [(0 : Byte), 35, 43, 44, 58]) : c ∉ n.bytes := fun hc => (n.plain c hc).2 h

theorem not_blank (hc : c ∈ n.bytes) : ¬ isspace c := (n.plain c hc).1

@[simp] theorem string_bytes : n.string.bytes = n.bytes :=
  CString.ofList_bytes (n.not_mem (by decide))

theorem string_inj {m n : TableName} : m.string = n.string ↔ m.bytes = n.bytes := by
  rw [CString.ext_iff, string_bytes, string_bytes]

@[simp] theorem trimmed_bytes : trimmed n.bytes = n.bytes :=
  trimmed_eq_self (fun _ hc => n.not_blank hc) (n.not_mem (by decide))

end

end TableName

/-- How the rows of a table are written. -/
structure RowFormat (α : Type) where
  line : α → List Byte
  text : ∀ a, line a ≠ [] ∧ trimmed (line a) = line a
  single : ∀ a, 0 ∉ line a ∧ 10 ∉ line a
  fits : ∀ a, (line a).length ≤ 1022

/-- The lines of the file that have text are the rows. -/
structure HoldsRows {α : Type} (format : RowFormat α) (content : List Byte) (rows : List α) : Prop where
  fits : LinesFit content
  rows : lineRecords content = rows.map format.line

section
variable {α : Type} {format : RowFormat α} {content : List Byte} {rows : List α}

theorem HoldsRows.records (h : HoldsRows format content rows) :
    records content = rows.map format.line := by
  rw [records_eq_lineRecords h.fits, h.rows]

theorem RowFormat.lineText_line (a : α) : lineText (format.line a) = format.line a := by
  rw [lineText, takeWhile_ne_of_not_mem (format.single a).1, (format.text a).2]

theorem holdsRows_joinLines (h : content = joinLines (rows.map format.line) []) :
    HoldsRows format content rows := by
  have hlines : ∀ l ∈ rows.map format.line, 10 ∉ l := by
    intro l hl
    obtain ⟨a, -, rfl⟩ := List.mem_map.mp hl
    exact (format.single a).2
  have hfile : fileLines content = rows.map format.line ++ [[]] := by
    rw [h, fileLines, splitLines_joinLines hlines (by simp)]
  constructor
  · intro l hl
    rw [hfile] at hl
    rcases List.mem_append.mp hl with hl | hl
    · obtain ⟨a, -, rfl⟩ := List.mem_map.mp hl
      exact format.fits a
    · simp [List.mem_singleton.mp hl]
  · have hrows : (rows.map format.line).map lineText = rows.map format.line := by
      simp only [List.map_map, Function.comp_def, RowFormat.lineText_line]
    have hlast : ([[]].map lineText).filter (· ≠ []) = [] := rfl
    rw [lineRecords, hfile, List.map_append, List.filter_append, hrows, hlast, List.append_nil,
      List.filter_eq_self]
    intro l hl
    obtain ⟨a, -, rfl⟩ := List.mem_map.mp hl
    simpa using (format.text a).1

end

def webName : TableName := ⟨bytes "web", by decide, by decide⟩

def dbName : TableName := ⟨bytes "db", by decide, by decide⟩

end Stonesh
