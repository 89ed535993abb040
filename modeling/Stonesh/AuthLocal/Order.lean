import Stonesh.AuthLocal.Scan

/-!
# The lines of the users file

The flag `can_proxy` lives outside the loop over the file, and the element that ends a line early
skips its reset. It is clear all the same whenever a line is begun, so each line decides by itself
and the answer is the disjunction of these decisions.
-/

namespace Stonesh

open CLib

/-- The state of the loop when it is about to read on: the chunks that are left, and the flag. A
chunk that does not permit the user leads to the next state. -/
inductive ScanState (user host : CString) (proxy : Int) (lines : List (List Byte)) :
    List (List Byte) → Int → Prop
  | start : ScanState user host proxy lines lines 0
  | next {line : List Byte} {rest : List (List Byte)} {canProxy canProxy' : Int}
      (before : ScanState user host proxy lines (line :: rest) canProxy)
      (round : scanLine lastIndex user host proxy (line ++ [0]) canProxy =
        .ok (authLocalFailure, canProxy')) :
      ScanState user host proxy lines rest canProxy'

/-- What a round of the loop decides on a line, begun with the flag clear. -/
def LineDecides (user host : CString) (proxy : Int) (line : List Byte) : Prop :=
  ∃ flag, scanLine lastIndex (trimmedString user) (trimmedString host) proxy
    ((line ++ [10]) ++ [0]) 0 = .ok (authLocalSuccess, flag)

/-- The file consists of these lines, each of them ended and short enough for the buffer. -/
structure HoldsLines (files : CString → Option (List Byte)) (file : CString)
    (lines : List (List Byte)) : Prop where
  content : files file = some (joinLines lines [])
  ended : ∀ l ∈ lines, 10 ∉ l
  fits : ∀ l ∈ lines, l.length ≤ 1022

section
variable {user host : CString} {proxy : Int} {lines rest : List (List Byte)} {canProxy : Int}

theorem ScanState.flag_clear (h : ScanState user host proxy lines rest canProxy) : canProxy = 0 := by
  induction h with
  | start => rfl
  | @next line rest canProxy canProxy' before round ih =>
    subst ih
    obtain ⟨flag, hround, hclear⟩ := scanLine_spec user host proxy line
    have hsame := hround.symm.trans round
    simp only [Except.ok.injEq, Prod.mk.injEq] at hsame
    rw [← hsame.2]
    exact hclear hsame.1

theorem ScanState.scanFile_eq (h : ScanState user host proxy lines rest canProxy) :
    scanFile lastIndex user host proxy lines 0 = scanFile lastIndex user host proxy rest canProxy := by
  induction h with
  | start => rfl
  | next before round ih =>
    rw [ih, scanFile, round]
    rfl

theorem lineDecides_iff {line : List Byte} :
    LineDecides user host proxy line ↔
      (UserRecord.parse (lineText line)).Admits (trimmed user.bytes) (trimmed host.bytes) proxy := by
  obtain ⟨flag, hround, -⟩ := scanLine_spec (trimmedString user) (trimmedString host) proxy (line ++ [10])
  rw [lineText_newline, trimmedString_bytes, trimmedString_bytes] at hround
  unfold LineDecides
  rw [hround]
  constructor
  · rintro ⟨flag', hflag⟩
    simp only [Except.ok.injEq, Prod.mk.injEq] at hflag
    by_contra hrefused
    have hverdict := hflag.1
    rw [UserRecord.verdict, if_neg hrefused] at hverdict
    exact absurd hverdict (by decide)
  · intro hadmits
    exact ⟨flag, by rw [UserRecord.verdict, if_pos hadmits]⟩

theorem fileAdmits_joinLines {lines : List (List Byte)} (hended : ∀ l ∈ lines, 10 ∉ l)
    (hfits : ∀ l ∈ lines, l.length ≤ 1022) :
    FileAdmits (joinLines lines []) (trimmed user.bytes) (trimmed host.bytes) proxy ↔
      ∃ l ∈ lines, LineDecides user host proxy l := by
  unfold FileAdmits
  rw [records_lines [] hended hfits]
  change (∃ text ∈ (lines.map lineText).filter (· ≠ []) ++ [], _) ↔ _
  rw [List.append_nil]
  constructor
  · rintro ⟨text, htext, hadmits⟩
    obtain ⟨l, hl, rfl⟩ := List.mem_map.mp (List.mem_filter.mp htext).1
    exact ⟨l, hl, lineDecides_iff.mpr hadmits⟩
  · rintro ⟨l, hl, hdecides⟩
    have hadmits := lineDecides_iff.mp hdecides
    have hne : lineText l ≠ [] := by
      intro he
      rw [he] at hadmits
      exact UserRecord.not_admits_nil proxy hadmits
    exact ⟨lineText l, List.mem_filter.mpr ⟨List.mem_map_of_mem hl, by simpa using hne⟩, hadmits⟩

end

/-- The answer for a file of lines: it is the disjunction of what the lines decide, so neither
their order nor a further line can take a permission away, and no line sees a flag that another
has left. -/
theorem getAuthFile_lines {files : CString → Option (List Byte)} {file : CString}
    {lines : List (List Byte)} (h : HoldsLines files file lines) (user host : CString) (proxy : Int) :
    (∃ r, getAuthFile files (some user) (some host) (some file) proxy = .ok r ∧
      (r.auth = authLocalSuccess ↔ ∃ l ∈ lines, LineDecides user host proxy l) ∧
      (r.auth = authLocalFailure ↔ ¬ ∃ l ∈ lines, LineDecides user host proxy l)) ∧
    (∀ files' file' lines', HoldsLines files' file' lines' → lines.Perm lines' →
      getAuthFile files' (some user) (some host) (some file') proxy =
        getAuthFile files (some user) (some host) (some file) proxy) ∧
    (∀ files' file' lines' r r', HoldsLines files' file' lines' → lines.Sublist lines' →
      getAuthFile files (some user) (some host) (some file) proxy = .ok r →
      getAuthFile files' (some user) (some host) (some file') proxy = .ok r' →
      r.auth = authLocalSuccess → r'.auth = authLocalSuccess) ∧
    ∀ rest canProxy, ScanState (trimmedString user) (trimmedString host) proxy
      (chunks maxLineLen (joinLines lines [])) rest canProxy →
      canProxy = 0 ∧
        scanFile lastIndex (trimmedString user) (trimmedString host) proxy
          (chunks maxLineLen (joinLines lines [])) 0 =
        scanFile lastIndex (trimmedString user) (trimmedString host) proxy rest 0 := by
  have hrun := getAuthFile_eq h.content user host proxy
  have hadmits : FileAdmits (joinLines lines []) (trimmed user.bytes) (trimmed host.bytes) proxy ↔
      ∃ l ∈ lines, LineDecides user host proxy l := fileAdmits_joinLines h.ended h.fits
  refine ⟨⟨_, hrun, ?_, ?_⟩, ?_, ?_, ?_⟩
  · rw [← hadmits]
    split <;> simp_all [authLocalSuccess, authLocalFailure]
  · rw [← hadmits]
    split <;> simp_all [authLocalSuccess, authLocalFailure]
  · intro files' file' lines' h' hperm
    have hsame : FileAdmits (joinLines lines' []) (trimmed user.bytes) (trimmed host.bytes) proxy ↔
        FileAdmits (joinLines lines []) (trimmed user.bytes) (trimmed host.bytes) proxy := by
      rw [hadmits, fileAdmits_joinLines h'.ended h'.fits]
      simp only [hperm.mem_iff]
    rw [hrun, getAuthFile_eq h'.content]
    simp only [hsame]
  · intro files' file' lines' r r' h' hsub hr hr' hsuccess
    rw [hrun, Except.ok.injEq] at hr
    rw [getAuthFile_eq h'.content, Except.ok.injEq] at hr'
    have hfirst : FileAdmits (joinLines lines []) (trimmed user.bytes) (trimmed host.bytes) proxy := by
      by_contra hrefused
      rw [← hr, if_neg hrefused] at hsuccess
      exact absurd hsuccess (by simp [authLocalFailure, authLocalSuccess])
    obtain ⟨l, hl, hdecides⟩ := hadmits.mp hfirst
    have hsecond := (fileAdmits_joinLines h'.ended h'.fits).mpr ⟨l, hsub.subset hl, hdecides⟩
    rw [← hr', if_pos hsecond]
  · intro rest canProxy hstate
    have hclear := hstate.flag_clear
    exact ⟨hclear, hclear ▸ hstate.scanFile_eq⟩

private theorem holdsLines_two (first second : String)
    (h : ∀ s ∈ [first, second], 10 ∉ bytes s ∧ (bytes s).length ≤ 1022) :
    HoldsLines (fun _ => some (joinLines [bytes first, bytes second] [])) (.lit "users.lst")
      [bytes first, bytes second] where
  content := rfl
  ended := by simpa using And.intro (h first (by simp)).1 (h second (by simp)).1
  fits := by simpa using And.intro (h first (by simp)).2 (h second (by simp)).2

/-- Two lines, in either order. -/
theorem getAuthFile_lines_swap :
    getAuthFile (fun _ => some (joinLines [bytes "bob:web+", bytes "alice:db"] [])) (some (.lit "bob"))
        (some (.lit "web")) (some (.lit "users.lst")) 1 =
      getAuthFile (fun _ => some (joinLines [bytes "alice:db", bytes "bob:web+"] []))
        (some (.lit "bob")) (some (.lit "web")) (some (.lit "users.lst")) 1 :=
  (getAuthFile_lines (holdsLines_two "alice:db" "bob:web+" (by decide)) (.lit "bob") (.lit "web")
    1).2.1 _ _ _ (holdsLines_two "bob:web+" "alice:db" (by decide)) (List.Perm.swap _ _ _)

end Stonesh
