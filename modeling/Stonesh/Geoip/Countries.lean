import Stonesh.Geoip

/-!
# The list of countries

The loop of `is_from_valid_country` cuts, trims and converts the elements of the list in place,
one behind the other. None of it reaches the elements that are still to come, so the answer is
whether the country code is one of the elements of the list as it was given.
-/

namespace Stonesh

open CLib

/-- An element of the list as it is compared. -/
def countryName (t : List Byte) : List Byte := (trimmed t).map toupper

def countryNames (delimiter list : List Byte) : List (List Byte) :=
  (Text.tokens (· ∈ delimiter) list).map countryName

/-- The country code that the lookup in the database of the address family yields. -/
def countryCode (lib : GeoLib) (options : Options) (address : CString) : Option CString :=
  if getafbyaddr lib address = afInet then getcountrybyaddr lib address options.geoipDat
  else if getafbyaddr lib address = afInet6 then getcountrybyaddr6 lib address options.geoip6Dat
  else none

/-- A loopback address of its family. -/
def Loopback (lib : GeoLib) (address : CString) : Prop :=
  getafbyaddr lib address = afInet ∧ isLocal lib address = 1 ∨
    getafbyaddr lib address = afInet6 ∧ isLocal6 lib address = 1

/-- What the list promises: no list, a loopback address, or a country that is listed. -/
def FromValidCountry (lib : GeoLib) (options : Options) (address : CString)
    (list delim : Option CString) : Prop :=
  (∀ l ∈ list, l.bytes = []) ∨ Loopback lib address ∨
    ∃ code ∈ countryCode lib options address, ∃ l ∈ list,
      code.bytes ∈ countryNames (delim.getD (.lit ",")).bytes l.bytes

/-- Each element of one list is compared as some element of the other is. -/
def SameCountries (elements elements' : List (List Byte)) : Prop :=
  (∀ t ∈ elements, ∃ t' ∈ elements', countryName t = countryName t') ∧
    ∀ t' ∈ elements', ∃ t ∈ elements, countryName t = countryName t'

instance (elements elements' : List (List Byte)) : Decidable (SameCountries elements elements') :=
  inferInstanceAs (Decidable ((∀ t ∈ elements, ∃ t' ∈ elements', _) ∧ ∀ t' ∈ elements', ∃ t ∈ elements, _))

theorem zero_not_mem_countryName {t : List Byte} (ht : 0 ∉ t) : 0 ∉ countryName t := by
  intro hm
  obtain ⟨c, hc, hzero⟩ := List.mem_map.mp hm
  rw [toupper_eq_zero_iff] at hzero
  exact zero_not_mem_trimmed ht (hzero ▸ hc)

section
variable (pre t gap r post : List Byte)

private theorem convert_element (ht : 0 ∉ t) (hgap : gap = [0] ∨ gap = [] ∧ r = []) :
    ∃ b x, trim (pre ++ (t ++ (gap ++ (r ++ 0 :: post)))) (some pre.length) = .ok b ∧
      strtoupper b pre.length = .ok (pre ++ (x ++ (r ++ 0 :: post))) ∧
      str (pre ++ (x ++ (r ++ 0 :: post))) pre.length = .ok (.ofList (countryName t)) ∧
      x.length = t.length + gap.length := by
  obtain ⟨z, y, htrim, hy, hlen, -⟩ := trim_token pre t gap r post ht hgap
  have h0 : 0 ∉ trimmed t := zero_not_mem_trimmed ht
  refine ⟨_, countryName t ++ z, htrim, ?_, ?_, ?_⟩
  · rw [List.append_assoc, hy]
    apply convertCase_spec toupper pre (trimmed t) y rfl h0
    simp only [Block.size, List.length_append, List.length_cons]
    omega
  · rw [List.append_assoc, hy]
    exact str_at rfl (zero_not_mem_countryName ht)
  · rw [List.length_append, countryName, List.length_map]
    exact hlen

private theorem countryLoop_spec (code : CString) (delimiter : List Byte) (fuel : Nat) (ht : 0 ∉ t)
    (hr : 0 ∉ r) (hgap : gap = [0] ∨ gap = [] ∧ r = []) (hfuel : r.length + 2 ≤ fuel) :
    countryLoop code delimiter fuel (some pre.length) (pre ++ (t ++ gap)).length
        (pre ++ (t ++ (gap ++ (r ++ 0 :: post)))) =
      .ok (if code.bytes ∈ countryName t :: countryNames delimiter r then 1 else 0) := by
  induction fuel generalizing pre t gap r with
  | zero => omega
  | succ fuel ih =>
    obtain ⟨b, x, htrim, hupper, hname, hsize⟩ := convert_element pre t gap r post ht hgap
    have hsame : code = .ofList (countryName t) ↔ code.bytes = countryName t := by
      rw [CString.ext_iff, CString.ofList_bytes (zero_not_mem_countryName ht)]
    simp only [countryLoop, htrim, except_ok_bind, hupper, hname, length_strncmp_iff, hsame]
    by_cases hcode : code.bytes = countryName t
    · rw [if_pos hcode, if_pos (by simp [hcode])]
      rfl
    · rw [if_neg hcode]
      have hcursor : (pre ++ (t ++ gap)).length = (pre ++ x).length := by
        simp only [List.length_append, hsize]
      have hrest : (code.bytes ∈ countryName t :: countryNames delimiter r) ↔
          code.bytes ∈ countryNames delimiter r := by simp [hcode]
      simp only [hrest]
      rw [hcursor, ← List.append_assoc pre x]
      rcases strtok_cases (pre ++ x) post delimiter rfl hr with ⟨htok, cur, hcut⟩ |
          ⟨sep, t', gap', r', -, -, hmt, hmr, htok, hgap', hshort, hcut⟩
      · obtain ⟨fuel, rfl⟩ : ∃ n, fuel = n + 1 := ⟨fuel - 1, by omega⟩
        rw [hcut, countryNames, htok]
        simp [countryLoop]
      · have hnext := ih ((pre ++ x) ++ sep) t' gap' r' (fun hm => hr (hmt _ hm))
          (fun hm => hr (hmr _ hm)) hgap' (by omega)
        have hnames : countryNames delimiter r = countryName t' :: countryNames delimiter r' := by
          rw [countryNames, htok, List.map_cons, countryNames]
        rw [hcut, hnames]
        simpa [List.append_assoc] using hnext

end

theorem matchCountry_some (code list : CString) (delimiter : List Byte) :
    matchCountry (some code) list delimiter =
      .ok (if code.bytes ∈ countryNames delimiter list.bytes then 1 else 0) := by
  rw [matchCountry]
  have hb : list.block = [] ++ (list.bytes ++ 0 :: []) := by simp [CString.block]
  rcases strtok_cases (p := 0) [] [] delimiter rfl list.noNul with ⟨htok, cur, hcut⟩ |
      ⟨sep, t, gap, r, -, hne, hmt, hmr, htok, hgap, -, hcut⟩
  · rw [hb, hcut, countryNames, htok]
    simp [countryLoop, Block.size]
  · have hpos := List.length_pos_iff.mpr hne
    have hloop := countryLoop_spec sep t gap r [] code delimiter
      (Block.size (sep ++ (t ++ (gap ++ (r ++ 0 :: []))))) (fun hm => list.noNul (hmt _ hm))
      (fun hm => list.noNul (hmr _ hm)) hgap (by
        simp only [Block.size, List.length_append, List.length_cons]
        omega)
    have hnames : countryNames delimiter list.bytes = countryName t :: countryNames delimiter r := by
      rw [countryNames, htok, List.map_cons, countryNames]
    rw [hb, hcut, hnames]
    simpa using hloop

theorem matchCountry_none (list : CString) (delimiter : List Byte) :
    matchCountry none list delimiter = .ok 0 := rfl

section
variable (lib : GeoLib) (options : Options) (address : CString)

private theorem isFromValidCountry_listed {list : CString} (hne : list.bytes ≠ [])
    (delim : Option CString) (hlocal : ¬ Loopback lib address) :
    isFromValidCountry lib options address (some list) delim =
      matchCountry (countryCode lib options address) list (delim.getD (.lit ",")).bytes := by
  simp only [Loopback, not_or, not_and] at hlocal
  have hlen : ¬ list.bytes.length = 0 := fun h => hne (List.length_eq_zero_iff.mp h)
  simp only [isFromValidCountry, if_neg hlen, countryCode]
  by_cases hinet : getafbyaddr lib address = afInet
  · rw [if_pos hinet, if_pos hinet, if_neg (hlocal.1 hinet)]
  · rw [if_neg hinet, if_neg hinet]
    by_cases hinet6 : getafbyaddr lib address = afInet6
    · rw [if_pos hinet6, if_pos hinet6, if_neg (hlocal.2 hinet6)]
    · rw [if_neg hinet6, if_neg hinet6]

private theorem isFromValidCountry_loopback {list : CString} (delim : Option CString)
    (hlocal : Loopback lib address) :
    isFromValidCountry lib options address (some list) delim = .ok 1 := by
  rw [isFromValidCountry]
  split
  · rfl
  · rcases hlocal with ⟨hinet, hone⟩ | ⟨hinet6, hone⟩
    · simp [hinet, hone]
    · simp [hinet6, hone, afInet, afInet6]

theorem isFromValidCountry_answers (list delim : Option CString) :
    ∃ n, isFromValidCountry lib options address list delim = .ok n ∧
      (n = 1 ∧ FromValidCountry lib options address list delim ∨
        n = 0 ∧ ¬ FromValidCountry lib options address list delim) := by
  cases list with
  | none => exact ⟨1, rfl, Or.inl ⟨rfl, Or.inl (by simp)⟩⟩
  | some list =>
    by_cases hempty : list.bytes = []
    · refine ⟨1, ?_, Or.inl ⟨rfl, Or.inl (by simpa using hempty)⟩⟩
      rw [isFromValidCountry, if_pos (by rw [hempty]; rfl)]
      rfl
    · by_cases hlocal : Loopback lib address
      · exact ⟨1, isFromValidCountry_loopback lib options address delim hlocal,
          Or.inl ⟨rfl, Or.inr (Or.inl hlocal)⟩⟩
      · rw [isFromValidCountry_listed lib options address hempty delim hlocal]
        have hvalid : FromValidCountry lib options address (some list) delim ↔
            ∃ code ∈ countryCode lib options address,
              code.bytes ∈ countryNames (delim.getD (.lit ",")).bytes list.bytes := by
          simp [FromValidCountry, hempty, hlocal]
        rw [hvalid]
        cases countryCode lib options address with
        | none => exact ⟨0, matchCountry_none list _, Or.inr ⟨rfl, by simp⟩⟩
        | some code =>
          refine ⟨_, matchCountry_some code list _, ?_⟩
          by_cases hlisted : code.bytes ∈ countryNames (delim.getD (.lit ",")).bytes list.bytes
          · exact Or.inl ⟨if_pos hlisted, code, rfl, hlisted⟩
          · refine Or.inr ⟨if_neg hlisted, ?_⟩
            rintro ⟨code', hcode', hmem⟩
            rw [← Option.mem_some_iff.mp hcode'] at hmem
            exact hlisted hmem

private theorem fromValidCountry_congr {l l' : CString} {delim delim' : Option CString}
    (hl : l.bytes ≠ []) (hl' : l'.bytes ≠ [])
    (hsame : SameCountries (Text.tokens (· ∈ (delim.getD (.lit ",")).bytes) l.bytes)
      (Text.tokens (· ∈ (delim'.getD (.lit ",")).bytes) l'.bytes)) :
    FromValidCountry lib options address (some l) delim ↔
      FromValidCountry lib options address (some l') delim' := by
  have hmem (code : CString) : code.bytes ∈ countryNames (delim.getD (.lit ",")).bytes l.bytes ↔
      code.bytes ∈ countryNames (delim'.getD (.lit ",")).bytes l'.bytes := by
    constructor
    · intro h
      obtain ⟨t, ht, hname⟩ := List.mem_map.mp h
      obtain ⟨t', ht', heq⟩ := hsame.1 t ht
      exact List.mem_map.mpr ⟨t', ht', by rw [← heq, hname]⟩
    · intro h
      obtain ⟨t', ht', hname⟩ := List.mem_map.mp h
      obtain ⟨t, ht, heq⟩ := hsame.2 t' ht'
      exact List.mem_map.mpr ⟨t, ht, by rw [heq, hname]⟩
  simp [FromValidCountry, hl, hl', hmem]

/-- The answer is 1 exactly for an address that may pass, and neither the order of the elements
of the list nor repetitions, letter case and blanks around them change it. -/
theorem isFromValidCountry_iff :
    (∀ list delim : Option CString, ∃ n, isFromValidCountry lib options address list delim = .ok n ∧
      (n = 1 ∧ FromValidCountry lib options address list delim ∨
        n = 0 ∧ ¬ FromValidCountry lib options address list delim)) ∧
    ∀ (l l' : CString) (delim delim' : Option CString), l.bytes ≠ [] → l'.bytes ≠ [] →
      SameCountries (Text.tokens (· ∈ (delim.getD (.lit ",")).bytes) l.bytes)
        (Text.tokens (· ∈ (delim'.getD (.lit ",")).bytes) l'.bytes) →
      isFromValidCountry lib options address (some l) delim =
        isFromValidCountry lib options address (some l') delim' := by
  refine ⟨isFromValidCountry_answers lib options address, ?_⟩
  intro l l' delim delim' hl hl' hsame
  have hiff := fromValidCountry_congr lib options address hl hl' hsame
  obtain ⟨n, hrun, hn⟩ := isFromValidCountry_answers lib options address (some l) delim
  obtain ⟨n', hrun', hn'⟩ := isFromValidCountry_answers lib options address (some l') delim'
  rw [hiff] at hn
  rw [hrun, hrun']
  rcases hn with ⟨rfl, hvalid⟩ | ⟨rfl, hnot⟩
  · rcases hn' with ⟨rfl, -⟩ | ⟨-, hnot⟩
    · rfl
    · exact absurd hvalid hnot
  · rcases hn' with ⟨-, hvalid⟩ | ⟨rfl, -⟩
    · exact absurd hvalid hnot
    · rfl

end

/-- A library for which every address is an IPv4 address of one country. -/
def geoipAnswering (country : String) : GeoLib where
  order := .littleEndian
  getaddrinfo _ := (0, some afInet)
  inetPton _ := .parsed ⟨192, 0, 2, 1⟩
  inetPton6 _ := .malformed
  geoipOpen _ := true
  countryCodeByAddr _ _ := some (.lit country)
  countryCodeByAddrV6 _ _ := none

/-- Blanks, lower case, a repetition and another order. -/
theorem isFromValidCountry_reordered :
    isFromValidCountry (geoipAnswering "CA") initializeOptions (.lit "192.0.2.1")
        (some (.lit "US,CA")) none =
      isFromValidCountry (geoipAnswering "CA") initializeOptions (.lit "192.0.2.1")
        (some (.lit " ca , us,CA")) none :=
  (isFromValidCountry_iff _ _ _).2 _ _ _ _ (by decide) (by decide) (by decide +kernel)

end Stonesh
