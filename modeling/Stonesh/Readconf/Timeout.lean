import Stonesh.Readconf.Quoted

/-!
# The timeout

`ncTimeout` takes a string and asks `atoi` whether it is positive. That accepts more than numerals
in the range of `int`, and the string is stored whatever the answer was.
-/

namespace Stonesh

open CLib

/-- Optional blanks and digits, with a value from 1 to `INT_MAX`. -/
def Numeral (a : List Byte) : Prop :=
  ∃ b d, a = b ++ d ∧ (∀ c ∈ b, isspace c) ∧ d ≠ [] ∧ (∀ c ∈ d, isdigit c) ∧
    1 ≤ decimalValue d ∧ decimalValue d ≤ intMax

section
variable {a k sep : List Byte} {o : Options} {active : Int}

theorem Numeral.timeoutStatus (h0 : 0 ∉ a) (h : Numeral a) : timeoutStatus (some (.ofList a)) = 0 := by
  obtain ⟨b, d, rfl, hb, hd, hdigit, hpos, hle⟩ := h
  have hvalue : atoi (.ofList (b ++ d)) = decimalValue d := by
    rw [atoi_blank hb h0, atoi_digits hdigit hle]
  rw [Stonesh.timeoutStatus, CString.ofList_bytes h0, hvalue, if_neg]
  rintro (hnil | hneg)
  · exact hd (List.append_eq_nil_iff.mp hnil).2
  · omega

theorem processConfigLine_timeout (hk : k.map tolower = bytes "nctimeout") (hsep : IsSeparator sep)
    (h0 : 0 ∉ a) (h34 : 34 ∉ a) (h35 : 35 ∉ a) (hunset : o.str .ncTimeout = none) (hactive : active ≠ 0) :
    processConfigLine o (quotedLine k sep a ++ [0]) (some active) =
      .ok (timeoutStatus (some (.ofList a)), o.setStr .ncTimeout (some (.ofList a))) := by
  rw [processConfigLine_quoted (by decide : ("nctimeout", OpCode.oNCTimeout) ∈ keywords) hk hsep h0 h34 h35]
  show parseTimeout o (some active) (some (.ofList a)) = _
  rw [parseTimeout, storeArgument_some, if_pos ⟨hactive, hunset⟩]
  rfl

/-- Status 0 for the numerals in the range alone, and nothing stored but these: so it is for these
arguments, and for no other, since any other is stored as well. -/
theorem processConfigLine_timeout_iff (hk : k.map tolower = bytes "nctimeout") {c : Byte}
    (hc : c ∈ bytes " \t") (ha : ∀ d ∈ a, d ∉ [(0 : Byte), 10, 34, 35])
    (hunset : o.str .ncTimeout = none) (hactive : active ≠ 0) :
    processConfigLine o (quotedLine k [c] a ++ [0]) (some active) =
        .ok (if a ≠ [] ∧ 0 < atoi (.ofList a) then 0 else -1,
          o.setStr .ncTimeout (some (.ofList a))) ∧
      ((∃ status o', processConfigLine o (quotedLine k [c] a ++ [0]) (some active) = .ok (status, o') ∧
        (status = 0 ↔ Numeral a) ∧ (o'.str .ncTimeout ≠ none → Numeral a)) ↔ Numeral a) := by
  have h0 : 0 ∉ a := fun hm => absurd (ha 0 hm) (by decide)
  have hrun := processConfigLine_timeout hk (isSeparator_blank hc) h0
    (fun hm => absurd (ha 34 hm) (by decide)) (fun hm => absurd (ha 35 hm) (by decide)) hunset hactive
  rw [hrun]
  constructor
  · have hstatus : timeoutStatus (some (.ofList a)) = if a ≠ [] ∧ 0 < atoi (.ofList a) then 0 else -1 := by
      rw [timeoutStatus, CString.ofList_bytes h0]
      by_cases hnil : a = []
      · rw [if_pos (Or.inl hnil), if_neg fun h => h.1 hnil]
      · by_cases hpos : 0 < atoi (.ofList a)
        · have hnot : ¬ (a = [] ∨ atoi (.ofList a) ≤ 0) := by
            rintro (h | h)
            · exact hnil h
            · omega
          rw [if_neg hnot, if_pos ⟨hnil, hpos⟩]
        · rw [if_pos (Or.inr (Int.not_lt.mp hpos)), if_neg fun h => hpos h.2]
    rw [hstatus]
  · constructor
    · rintro ⟨status, o', hsame, -, hstored⟩
      obtain ⟨-, rfl⟩ := Prod.mk.inj (Except.ok.inj hsame)
      apply hstored
      simp
    · intro hnum
      exact ⟨_, _, rfl, iff_of_true (hnum.timeoutStatus h0) hnum, fun _ => hnum⟩

theorem Numeral.plain (h : Numeral a) {c : Byte} (hc : c ∈ a) : isspace c ∨ isdigit c := by
  obtain ⟨b, d, rfl, hb, -, hdigit, -, -⟩ := h
  rcases List.mem_append.mp hc with hc | hc
  · exact Or.inl (hb c hc)
  · exact Or.inr (hdigit c hc)

end

example : atoi (.ofList (bytes "5abc")) = 5 := by decide
example : atoi (.ofList (bytes "4294967301")) = 5 := by decide

theorem processConfigLine_timeout_iff_ten :
    processConfigLine initializeOptions (quotedLine (bytes "ncTimeout") [32] (bytes "10") ++ [0])
        (some 1) = .ok (if bytes "10" ≠ [] ∧ 0 < atoi (.ofList (bytes "10")) then 0 else -1,
          initializeOptions.setStr .ncTimeout (some (.ofList (bytes "10")))) ∧
      ((∃ status o', processConfigLine initializeOptions
          (quotedLine (bytes "ncTimeout") [32] (bytes "10") ++ [0]) (some 1) = .ok (status, o') ∧
        (status = 0 ↔ Numeral (bytes "10")) ∧ (o'.str .ncTimeout ≠ none → Numeral (bytes "10"))) ↔
          Numeral (bytes "10")) :=
  processConfigLine_timeout_iff (by decide) (by decide) (by decide) rfl (by decide)

/-- `ncTimeout "soon"` is refused, and `soon` is stored. -/
theorem processConfigLine_timeout_stored :
    ¬ ∀ (a : List Byte) (o : Options), (∀ d ∈ a, d ∉ [(0 : Byte), 10, 34, 35]) →
      o.str .ncTimeout = none →
      ∃ status o', processConfigLine o (quotedLine (bytes "ncTimeout") [32] a ++ [0]) (some 1) =
          .ok (status, o') ∧
        (status = 0 ↔ Numeral a) ∧ (o'.str .ncTimeout ≠ none → Numeral a) := by
  intro h
  obtain ⟨status, o', hrun, -, hstored⟩ := h (bytes "soon") initializeOptions (by decide) rfl
  rw [processConfigLine_timeout (by decide) (isSeparator_blank (by decide)) (by decide) (by decide)
    (by decide) rfl (by decide)] at hrun
  obtain ⟨-, rfl⟩ := Prod.mk.inj (Except.ok.inj hrun)
  have hplain := (hstored (by simp)).plain (c := 115) (by decide)
  exact absurd hplain (by decide)

end Stonesh
