import Stonesh.Framework.Stream
import Stonesh.Util

/-!
# Lines and records of the configuration files

The three files of the program are read in chunks of `fgets`, and every reader begins by trimming
the chunk. A record is what trimming leaves of a chunk, if it leaves anything. Where the lines of
a file fit the buffer, its records are the texts of its lines.
-/

namespace Stonesh

open CLib

/-- `MAXLINELEN`, also the size of the line buffer in `readconf.c`. -/
def maxLineLen : Nat := 1024

def contentOf (files : CString → Option (List Byte)) (file : CString) : List Byte :=
  (files file).getD []

/-- The text of a line: the C string it begins with, trimmed. -/
def lineText (l : List Byte) : List Byte := trimmed (l.takeWhile (· ≠ 0))

/-- What the readers see of a file. -/
def records (content : List Byte) : List (List Byte) :=
  ((chunks maxLineLen content).map lineText).filter (· ≠ [])

def fileLines (content : List Byte) : List (List Byte) :=
  (splitLines content).1 ++ [(splitLines content).2]

/-- What the format descriptions say a file consists of: one record for each line with text. -/
def lineRecords (content : List Byte) : List (List Byte) :=
  ((fileLines content).map lineText).filter (· ≠ [])

/-- Every line is short enough to be read with its newline by one `fgets`. -/
def LinesFit (content : List Byte) : Prop := ∀ l ∈ fileLines content, l.length ≤ 1022

section
variable {l content : List Byte}

theorem zero_not_mem_lineText (l : List Byte) : 0 ∉ lineText l :=
  zero_not_mem_trimmed (not_mem_takeWhile_ne_zero l)

theorem hash_not_mem_lineText (l : List Byte) : 35 ∉ lineText l := hash_not_mem_trimmed _

private theorem takeWhile_snoc (p : Byte → Bool) (l : List Byte) (c : Byte) :
    (l ++ [c]).takeWhile p = l.takeWhile p ∨ (l ++ [c]).takeWhile p = l.takeWhile p ++ [c] := by
  induction l with
  | nil => by_cases hc : p c <;> simp [hc]
  | cons d l ih => by_cases hd : p d <;> simp [hd, ih]

theorem lineText_newline (l : List Byte) : lineText (l ++ [10]) = lineText l := by
  have hblank : ∀ c ∈ [(10 : Byte)], isspace c := by decide
  unfold lineText trimmed uncomment
  rcases takeWhile_snoc (fun c => decide (c ≠ 0)) l 10 with h | h
  · rw [h]
  · rw [h]
    rcases takeWhile_snoc (fun c => decide (c ≠ 35)) (l.takeWhile fun c => decide (c ≠ 0)) 10 with h' | h'
    · rw [h']
    · rw [h', Text.strip_append_right hblank]

theorem lineText_uncomment (l : List Byte) : lineText (uncomment l) = lineText l := by
  unfold lineText trimmed uncomment
  congr 1
  simp only [List.takeWhile_takeWhile]
  congr 1
  funext c
  by_cases h0 : c = 0 <;> by_cases h35 : c = 35 <;> simp [h0, h35]

theorem records_joinLines {ls : List (List Byte)} (last : List Byte) (hls : ∀ l ∈ ls, 10 ∉ l) :
    records (joinLines ls last) = (ls.flatMap fun l => records (l ++ [10])) ++ records last := by
  simp only [records, chunks_joinLines (by decide : 2 ≤ maxLineLen) last hls, List.map_append,
    List.filter_append, List.map_flatMap, List.filter_flatMap]

theorem records_line (hl : 10 ∉ l) (hfit : l.length ≤ 1022) :
    records (l ++ [10]) = [lineText l].filter (· ≠ []) := by
  have hchunk := chunks_line (s := List.nil) hl (by rw [maxLineLen]; omega : l.length < maxLineLen - 1)
  rw [records, hchunk]
  simp [lineText_newline]

theorem records_last (hl : 10 ∉ l) (hfit : l.length ≤ 1022) :
    records l = [lineText l].filter (· ≠ []) := by
  by_cases hne : l = []
  · subst hne
    rfl
  · rw [records, chunks_last hl hne (by rw [maxLineLen]; omega)]
    rfl

theorem records_lines {ls : List (List Byte)} (last : List Byte) (hls : ∀ l ∈ ls, 10 ∉ l)
    (hfit : ∀ l ∈ ls, l.length ≤ 1022) :
    records (joinLines ls last) = (ls.map lineText).filter (· ≠ []) ++ records last := by
  rw [records_joinLines last hls, List.append_cancel_right_eq]
  induction ls with
  | nil => rfl
  | cons l ls ih =>
    have hrest := ih (fun l' hl' => hls l' (List.mem_cons_of_mem _ hl'))
      (fun l' hl' => hfit l' (List.mem_cons_of_mem _ hl'))
    rw [List.flatMap_cons, records_line (hls l (by simp)) (hfit l (by simp)), hrest,
      ← List.filter_append]
    rfl

/-- Where every line fits the buffer, the readers see the file line by line. -/
theorem records_eq_lineRecords (hfit : LinesFit content) : records content = lineRecords content := by
  obtain ⟨hls, hlast⟩ := newline_not_mem_splitLines content
  have hshort : ∀ l ∈ (splitLines content).1, l.length ≤ 1022 :=
    fun l hl => hfit l (List.mem_append_left _ hl)
  have hend : (splitLines content).2.length ≤ 1022 := hfit _ (by simp [fileLines])
  conv_lhs => rw [← joinLines_splitLines content]
  rw [records_lines _ hls hshort, lineRecords, fileLines, List.map_append, List.filter_append,
    records_last hlast hend]
  rfl

end

end Stonesh
