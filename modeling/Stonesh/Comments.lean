import Stonesh.AuthLocal.Grants
import Stonesh.Hosts
import Stonesh.Readconf.ConfigFile

/-!
# Comments in long lines

A reader trims each chunk by itself, so it forgets a comment at the end of the chunk in which the
comment began. What the chunks behind that one leave of the line is read as records. A file whose
comments leave nothing is read by all three readers as if the comments were not there.
-/

namespace Stonesh

open CLib

/-- The file with every comment of a terminated line deleted. -/
def dropComments (content : List Byte) : List Byte :=
  joinLines ((splitLines content).1.map uncomment) (splitLines content).2

/-- What is left of a line behind the chunk in which its comment begins. -/
def commentTail (l : List Byte) : List Byte :=
  (l ++ [10]).drop (((uncomment l).length / 1023 + 1) * 1023)

/-- No comment of a terminated line leaves a record behind. -/
def CommentsFit (content : List Byte) : Prop :=
  ∀ l ∈ (splitLines content).1, records (commentTail l) = []

section
variable {l s c : List Byte}

private theorem records_chunk (h : chunks maxLineLen l = c :: chunks maxLineLen s) :
    records l = [lineText c].filter (· ≠ []) ++ records s := by
  rw [records, h, List.map_cons, ← List.singleton_append, List.filter_append]
  rfl

private theorem uncomment_comment {u v : List Byte} (hu : 35 ∉ u) : uncomment (u ++ 35 :: v) = u :=
  Text.takeWhile_ne_stop hu

private theorem lineText_comment {u v : List Byte} (hu : 35 ∉ u) :
    lineText (u ++ 35 :: v) = lineText u := by
  rw [← lineText_uncomment, uncomment_comment hu]

private theorem records_comment_first {u v : List Byte} (hl : 10 ∉ u ++ 35 :: v) (hu : 35 ∉ u)
    (hfirst : u.length < 1023) :
    records ((u ++ 35 :: v) ++ [10]) =
      [lineText u].filter (· ≠ []) ++ records (((u ++ 35 :: v) ++ [10]).drop 1023) := by
  by_cases hfit : (u ++ 35 :: v).length < 1023
  · have hchunk := chunks_line (s := List.nil) hl (by rw [maxLineLen]; omega :
      (u ++ 35 :: v).length < maxLineLen - 1)
    have hend : ((u ++ 35 :: v) ++ [10]).drop 1023 = [] := by
      apply List.drop_eq_nil_of_le
      simp only [List.length_append, List.length_cons, List.length_nil] at hfit ⊢
      omega
    rw [hend, ← lineText_comment (v := v) hu, ← lineText_newline]
    exact records_chunk hchunk
  · have hchunk := chunks_full (s := [10]) (by decide) hl (by rw [maxLineLen]; omega :
      maxLineLen - 1 ≤ (u ++ 35 :: v).length)
    obtain ⟨k, hk⟩ : ∃ k, 1023 - u.length = k + 1 := ⟨1022 - u.length, by omega⟩
    have htake : (u ++ 35 :: v).take 1023 = u ++ 35 :: v.take k := by
      rw [List.take_append, List.take_of_length_le (by omega), hk, List.take_succ_cons]
    have hdrop : ((u ++ 35 :: v) ++ [10]).drop 1023 = (u ++ 35 :: v).drop 1023 ++ [10] :=
      List.drop_append_of_le_length (by omega)
    rw [hdrop, ← lineText_comment (v := v.take k) hu, ← htake]
    exact records_chunk hchunk

private theorem records_comment_line (n : Nat) :
    ∀ u v : List Byte, u.length = n → 10 ∉ u ++ 35 :: v → 35 ∉ u →
      records ((u ++ 35 :: v) ++ [10]) =
        records (u ++ [10]) ++ records (((u ++ 35 :: v) ++ [10]).drop ((u.length / 1023 + 1) * 1023)) := by
  induction n using Nat.strong_induction_on with
  | _ n ih =>
    intro u v hn hl hu
    have hu10 : 10 ∉ u := fun hm => hl (by simp [hm])
    by_cases hfirst : u.length < 1023
    · have hindex : (u.length / 1023 + 1) * 1023 = 1023 := by omega
      have hshort : records (u ++ [10]) = [lineText u].filter (· ≠ []) := records_line hu10 (by omega)
      rw [hindex, hshort]
      exact records_comment_first hl hu hfirst
    · have hfull : 1023 ≤ u.length := by omega
      have hlen : (u.drop 1023).length = u.length - 1023 := List.length_drop
      have htake : (u ++ 35 :: v).take 1023 = u.take 1023 := List.take_append_of_le_length hfull
      have hdrop : (u ++ 35 :: v).drop 1023 = u.drop 1023 ++ 35 :: v :=
        List.drop_append_of_le_length hfull
      have hchunk := chunks_full (s := [10]) (by decide) hl (by
        rw [maxLineLen, List.length_append]
        omega : maxLineLen - 1 ≤ (u ++ 35 :: v).length)
      have hchunk' := chunks_full (s := [10]) (by decide) hu10 (by
        rw [maxLineLen]
        omega : maxLineLen - 1 ≤ u.length)
      have hrest := ih (u.drop 1023).length (by omega) (u.drop 1023) v rfl
        (fun hm => hl ((hdrop ▸ List.drop_subset _ _) hm)) (fun hm => hu (List.mem_of_mem_drop hm))
      have hindex : (u.length / 1023 + 1) * 1023 = 1023 + ((u.drop 1023).length / 1023 + 1) * 1023 := by
        omega
      have htail : ((u ++ 35 :: v) ++ [10]).drop ((u.length / 1023 + 1) * 1023) =
          ((u.drop 1023 ++ 35 :: v) ++ [10]).drop (((u.drop 1023).length / 1023 + 1) * 1023) := by
        rw [hindex, ← List.drop_drop, List.drop_append_of_le_length (by
          rw [List.length_append]
          omega), hdrop]
      have hline := records_chunk hchunk
      have hline' := records_chunk hchunk'
      rw [show maxLineLen - 1 = 1023 from rfl] at hline hline'
      rw [htail, hline, hline', htake, hdrop, hrest]
      exact (List.append_assoc _ _ _).symm

theorem records_comment (hl : 10 ∉ l) :
    records (l ++ [10]) = records (uncomment l ++ [10]) ++ records (commentTail l) := by
  by_cases hhash : 35 ∈ l
  · obtain ⟨u, v, rfl, hu⟩ := List.eq_append_cons_of_mem hhash
    rw [commentTail, uncomment_comment hu]
    exact records_comment_line u.length u v rfl hl hu
  · have hend : commentTail l = [] := by
      rw [commentTail, uncomment_eq_self hhash]
      apply List.drop_eq_nil_of_le
      simp only [List.length_append, List.length_cons, List.length_nil]
      omega
    rw [uncomment_eq_self hhash, hend]
    exact (List.append_nil _).symm

end

private theorem flatMap_records_iff (ls : List (List Byte)) (hls : ∀ l ∈ ls, 10 ∉ l) :
    ((ls.map uncomment).flatMap fun l => records (l ++ [10])) = (ls.flatMap fun l => records (l ++ [10])) ↔
      ∀ l ∈ ls, records (commentTail l) = [] := by
  have hlen (ks : List (List Byte)) (hks : ∀ l ∈ ks, 10 ∉ l) :
      ((ks.map uncomment).flatMap fun l => records (l ++ [10])).length ≤
        (ks.flatMap fun l => records (l ++ [10])).length := by
    induction ks with
    | nil => exact Nat.le_refl _
    | cons l ks ih =>
      have hrest := ih fun l' hl' => hks l' (List.mem_cons_of_mem _ hl')
      simp only [List.map_cons, List.flatMap_cons, records_comment (hks l (by simp)),
        List.length_append]
      omega
  constructor
  · intro heq
    induction ls with
    | nil => simp
    | cons l ls ih =>
      have hl := hls l (by simp)
      have hls' : ∀ l' ∈ ls, 10 ∉ l' := fun l' hl' => hls l' (List.mem_cons_of_mem _ hl')
      have hcount := congrArg List.length heq
      simp only [List.map_cons, List.flatMap_cons, records_comment hl, List.length_append] at hcount
      have hrest := hlen ls hls'
      have hnil : records (commentTail l) = [] := List.length_eq_zero_iff.mp (by omega)
      simp only [List.map_cons, List.flatMap_cons, records_comment hl, hnil, List.append_nil,
        List.append_cancel_left_eq] at heq
      intro l' hl'
      rcases List.mem_cons.mp hl' with rfl | hmem
      · exact hnil
      · exact ih hls' heq l' hmem
  · intro hfit
    induction ls with
    | nil => rfl
    | cons l ls ih =>
      have hrest := ih (fun l' hl' => hls l' (List.mem_cons_of_mem _ hl'))
        fun l' hl' => hfit l' (List.mem_cons_of_mem _ hl')
      simp only [List.map_cons, List.flatMap_cons, records_comment (hls l (by simp)),
        hfit l (by simp), List.append_nil, hrest]

/-- The readers see the file without its comments exactly when no comment leaves a record. -/
theorem records_dropComments_iff (content : List Byte) :
    records (dropComments content) = records content ↔ CommentsFit content := by
  obtain ⟨hls, -⟩ := newline_not_mem_splitLines content
  have hcut : ∀ l ∈ (splitLines content).1.map uncomment, 10 ∉ l := by
    intro l hl
    obtain ⟨l', hl', rfl⟩ := List.mem_map.mp hl
    exact fun hm => hls l' hl' (mem_uncomment hm).1
  conv_lhs =>
    rhs
    rw [← joinLines_splitLines content]
  rw [dropComments, records_joinLines _ hcut, records_joinLines _ hls, List.append_cancel_right_eq]
  exact flatMap_records_iff _ hls

/-- The three readers answer the same on two contents of a file. -/
def ReadersAgree (content content' : List Byte) : Prop :=
  ∀ (files files' : CString → Option (List Byte)) (file : CString),
    files file = some content → files' file = some content' →
    (∀ options, readConfigFile files' file options = readConfigFile files file options) ∧
    (∀ user host proxy, getAuthFile files' (some user) (some host) (some file) proxy =
      getAuthFile files (some user) (some host) (some file) proxy) ∧
    ∀ he hostname, gethostentry files' he (some hostname) (some file) =
      gethostentry files he (some hostname) (some file)

theorem readersAgree_of_records {content content' : List Byte}
    (h : records content' = records content) : ReadersAgree content content' := by
  intro files files' file hfile hfile'
  refine ⟨?_, ?_, ?_⟩
  · intro options
    rw [readConfigFile_eq hfile, readConfigFile_eq hfile', h]
  · intro user host proxy
    have hiff : FileAdmits content' (trimmed user.bytes) (trimmed host.bytes) proxy ↔
        FileAdmits content (trimmed user.bytes) (trimmed host.bytes) proxy := by
      unfold FileAdmits
      rw [h]
    rw [getAuthFile_eq hfile, getAuthFile_eq hfile']
    by_cases hadmits : FileAdmits content (trimmed user.bytes) (trimmed host.bytes) proxy
    · rw [if_pos hadmits, if_pos (hiff.mpr hadmits)]
    · rw [if_neg hadmits, if_neg (mt hiff.mp hadmits)]
  · intro he hostname
    rw [gethostentry_eq, gethostentry_eq]
    simp only [lookupHost, contentOf, hfile, hfile', Option.getD_some, h]

/-- Deleting the comments changes no answer where no comment leaves a record behind, and it is
exactly there that the readers see the same records. -/
theorem readers_dropComments (content : List Byte) :
    (records (dropComments content) = records content ↔ CommentsFit content) ∧
      (CommentsFit content → ReadersAgree content (dropComments content)) := by
  refine ⟨records_dropComments_iff content, ?_⟩
  intro hfit
  exact readersAgree_of_records ((records_dropComments_iff content).mpr hfit)

/-- A comment behind a record, and one that goes on in the next chunk with blanks and a comment. -/
def longTails : List Byte :=
  bytes "bob:web # a comment\n" ++ (35 :: (List.replicate 1022 120 ++ bytes "  # more\nalice:db\n"))

theorem readers_dropComments_long : ReadersAgree longTails (dropComments longTails) :=
  (readers_dropComments longTails).2 (by unfold CommentsFit; decide +kernel)

/-- A comment line whose text fills the first chunk, with a record behind that. -/
def longComment : List Byte := 35 :: (List.replicate 1022 120 ++ bytes "bob:web")

/-- The end of a long comment grants access. -/
theorem longComment_grants :
    ¬ ∀ content : List Byte, 0 ∉ content → ReadersAgree content (dropComments content) := by
  intro h
  have hsingle : 10 ∉ longComment := by
    simp only [longComment, List.mem_cons, List.mem_append, List.mem_replicate]
    decide
  have hsplit : splitLines (joinLines [longComment] []) = ([longComment], []) :=
    splitLines_joinLines (by simpa using hsingle) (by simp)
  have hdrop : dropComments (joinLines [longComment] []) = [10] := by
    rw [dropComments, hsplit]
    rfl
  have hzero : 0 ∉ joinLines [longComment] [] := by
    simp only [joinLines, longComment, List.map_cons, List.map_nil, List.flatten_cons,
      List.flatten_nil, List.append_nil, List.mem_append, List.mem_cons, List.mem_replicate]
    decide
  have hcut : uncomment longComment = [] := List.takeWhile_cons_of_neg (by decide)
  have htail : commentTail longComment = bytes "bob:web\n" := by
    have hstart : (35 :: List.replicate 1022 (120 : Byte)).length = 1023 := by
      rw [List.length_cons, List.length_replicate]
    have hline : longComment ++ [10] =
        (35 :: List.replicate 1022 120) ++ (bytes "bob:web" ++ [10]) := by
      rw [longComment, List.cons_append, List.append_assoc, List.cons_append]
    rw [commentTail, hcut, hline]
    simp only [List.length_nil, Nat.zero_div, Nat.zero_add, Nat.one_mul]
    rw [List.drop_left' hstart]
    rfl
  have hrecords : records (joinLines [longComment] []) = [bytes "bob:web"] := by
    have hjoin : joinLines [longComment] [] = longComment ++ [10] := by simp [joinLines]
    rw [hjoin, records_comment hsingle, htail, hcut]
    decide
  have hgrant := (h _ hzero (fun _ => some (joinLines [longComment] []))
    (fun _ => some (dropComments (joinLines [longComment] []))) (.lit "users.lst") rfl rfl).2.1
    (.lit "bob") (.lit "web") 0
  rw [getAuthFile_eq rfl, getAuthFile_eq rfl, hdrop] at hgrant
  simp only [FileAdmits, hrecords] at hgrant
  revert hgrant
  decide

end Stonesh
