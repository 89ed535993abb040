import Stonesh.AuthLdap.Closed

/-!
# What the filters denote

The names go into the filters as they are. Read by the grammar of filters, the text denotes what
it is built for as long as no name has a parenthesis, a star or a backslash; any such character
makes it denote something else, or nothing.
-/

namespace Stonesh

open CLib LdapFilter

section
variable {host user tag : List Byte} {fuel : Nat} {g : Filter} {r : List Byte}

private theorem plain_of_closed {join : Filter → Filter → Filter} {unit : Filter} {a v t : List Byte}
    (ha : ∀ c ∈ a, isAttributeChar c) (hne : a ≠ []) (hlast : a.getLast? ≠ some 58)
    (hjoin : Faithful join)
    (h : parseList (fuel + 1) join unit (40 :: a ++ 61 :: (v ++ 41 :: 41 :: t)) =
      some (join (equals a v) g, r)) : Plain v := by
  apply plain_of_test (w := []) ha hne hlast hjoin (readsValue_nil.pieces _) (readsValue_nil.pieces _) (by simp)
  rwa [List.append_nil]

private theorem reads_name {a v : List Byte} (ha : ∀ c ∈ a, isAttributeChar c) (hne : a ≠ [])
    (hlast : a.getLast? ≠ some 58) (hv : Plain v) : Reads 1 (40 :: a ++ 61 :: v ++ [41]) (equals a v) :=
  reads_equals ha hne hlast (readsValue_plain hv)

private theorem hostClause_read {s : List Byte} (h : parseList (fuel + 6) .and .top
      (bytes "(|(host=\\*)(host=" ++ (host ++ 41 :: 41 :: s)) =
        some (.and (hostClause host) g, r)) :
    Plain host ∧ parseList (fuel + 5) .and .top s = some (g, r) := by
  obtain ⟨f, g', r', hfilter, hlist, heq⟩ := parseList_cons h
  obtain ⟨rfl, rfl⟩ := Filter.and.inj heq
  have hor := parseFilter_or hfilter
  have hany : Reads 1 (bytes "(host=\\*)") (equals (bytes "host") (bytes "*")) :=
    reads_equals (a := bytes "host") (v := [92, 42]) (by decide) (by decide) (by decide)
      (readsValue_escaped 42)
  have hnext : parseList (fuel + 3) .or .bottom (bytes "(host=" ++ (host ++ 41 :: 41 :: s)) =
      some (.or (equals (bytes "host") host) .bottom, r') :=
    hany.rest (by omega) faithful_or hor
  have hplain : Plain host :=
    plain_of_closed (a := bytes "host") (by decide) (by decide) (by decide) faithful_or hnext
  have hname := reads_name (a := bytes "host") (by decide) (by decide) (by decide) hplain
  have htext : bytes "(host=" ++ (host ++ 41 :: 41 :: s) =
      (40 :: bytes "host" ++ 61 :: host ++ [41]) ++ 41 :: s := by simp [bytes]
  rw [htext] at hnext
  have hend := hname.rest (by omega) faithful_or hnext
  have hclose : r' = s := (Prod.mk.inj (Option.some.inj hend)).2.symm
  rw [hclose] at hlist
  exact ⟨hplain, hlist⟩

private theorem serviceClause_read (hplain : Plain host) {s : List Byte}
    (h : parseList (fuel + 6) .and .top (bytes "(|(authorizedService=" ++
      (tag ++ (bytes "-\\*)(authorizedService=" ++ (tag ++ (bytes "-" ++ (host ++ 41 :: 41 :: s)))))) =
        some (.and (serviceClause host tag) g, r)) :
    Plain tag ∧ parseList (fuel + 5) .and .top s = some (g, r) := by
  have hdash : Plain (bytes "-") := by decide
  obtain ⟨f, g', r', hfilter, hlist, heq⟩ := parseList_cons h
  obtain ⟨rfl, rfl⟩ := Filter.and.inj heq
  have hor := parseFilter_or hfilter
  obtain ⟨t, ht⟩ : ∃ t, t = bytes "(authorizedService=" ++ (tag ++ (bytes "-" ++ (host ++ 41 :: 41 :: s))) :=
    ⟨_, rfl⟩
  have hstar : bytes "(authorizedService=" ++ (tag ++ (bytes "-\\*)(authorizedService=" ++
      (tag ++ (bytes "-" ++ (host ++ 41 :: 41 :: s))))) =
        40 :: bytes "authorizedService" ++ 61 :: (tag ++ (bytes "-\\*)" ++ t)) := by
    rw [ht]
    simp [bytes]
  have hfirst : parseList (fuel + 4) .or .bottom
      (40 :: bytes "authorizedService" ++ 61 :: (tag ++ (bytes "-\\*)" ++ t))) =
        some (.or (equals (bytes "authorizedService") (tag ++ bytes "-*")) (.or
          (equals (bytes "authorizedService") (tag ++ bytes "-" ++ host)) .bottom), r') := by
    rw [← hstar]
    exact hor
  have hpieces : Pieces 2 (bytes "-\\*)" ++ t) := ((readsValue_escaped 42).plain_append hdash).pieces t
  have hpieces' : Pieces 2 (bytes "-\\*)" ++ t).tail :=
    ((readsValue_escaped 42).pieces t).mono (Nat.le_succ 1)
  have htag : Plain tag := plain_of_test (w := bytes "-*") (by decide) (by decide) (by decide)
    faithful_or hpieces hpieces' (by simp [bytes]) hfirst
  have hany : Reads 1 _ (equals (bytes "authorizedService") (tag ++ bytes "-*")) :=
    reads_equals (by decide) (by decide) (by decide)
      (by simpa [literal, bytes] using ((readsValue_escaped 42).plain_append hdash).plain_append htag)
  have hsvc : Reads 1 _ (equals (bytes "authorizedService") (tag ++ bytes "-" ++ host)) :=
    reads_equals (by decide) (by decide) (by decide)
      (by simpa [literal, bytes] using ((readsValue_plain hplain).plain_append hdash).plain_append htag)
  have hsecond := hany.rest (t := t) (by omega : 1 ≤ fuel + 3) faithful_or
    (by simpa [bytes] using hfirst)
  rw [ht] at hsecond
  have hend := hsvc.rest (t := 41 :: s) (by omega : 1 ≤ fuel + 2) faithful_or
    (by simpa [bytes] using hsecond)
  have hclose : r' = s := (Prod.mk.inj (Option.some.inj hend)).2.symm
  rw [hclose] at hlist
  exact ⟨htag, hlist⟩

private theorem userClause_read (h : parseList (fuel + 1) .and .top (bytes "(uid=" ++ (user ++ bytes "))")) =
    some (.and (equals (bytes "uid") user) g, r)) : Plain user :=
  plain_of_closed (a := bytes "uid") (t := []) (by decide) (by decide) (by decide) faithful_and h

private theorem parse_list {s : List Byte} {f : Filter} (hlen : 5 ≤ s.length)
    (h : parse (40 :: 38 :: s) = some f) :
    ∃ fuel, parseList (fuel + 7) .and .top s = some (f, []) := by
  rw [parse] at h
  split at h
  · next g hread =>
    rw [Option.some.inj h] at hread
    have hlist := parseFilter_and hread
    obtain ⟨n, hn⟩ : ∃ n, s.length = n + 5 := ⟨s.length - 5, by omega⟩
    refine ⟨n, ?_⟩
    rwa [List.length_cons, List.length_cons, hn] at hlist
  · simp at h

theorem parse_hostText_iff : parse (hostText host user) = some (hostFilter host user) ↔
    Plain host ∧ Plain user := by
  constructor
  · intro h
    have htext : hostText host user = 40 :: 38 :: (bytes "(|(host=\\*)(host=" ++
        (host ++ 41 :: 41 :: (bytes "(uid=" ++ (user ++ bytes "))")))) := rfl
    rw [htext] at h
    obtain ⟨fuel, hlist⟩ := parse_list (by simp [bytes]) h
    obtain ⟨hhost, hrest⟩ := hostClause_read hlist
    exact ⟨hhost, userClause_read hrest⟩
  · rintro ⟨hhost, huser⟩
    exact parse_hostText hhost huser

theorem parse_serviceText_iff : parse (serviceText host user tag) = some (serviceFilter host user tag) ↔
    Plain host ∧ Plain user ∧ Plain tag := by
  constructor
  · intro h
    have htext : serviceText host user tag = 40 :: 38 :: (bytes "(|(host=\\*)(host=" ++
        (host ++ 41 :: 41 :: (bytes "(|(authorizedService=" ++ (tag ++ (bytes "-\\*)(authorizedService=" ++
          (tag ++ (bytes "-" ++ (host ++ 41 :: 41 :: (bytes "(uid=" ++ (user ++ bytes "))")))))))))) := rfl
    rw [htext] at h
    obtain ⟨fuel, hlist⟩ := parse_list (by simp [bytes]) h
    obtain ⟨hhost, hservice⟩ := hostClause_read hlist
    obtain ⟨htag, hrest⟩ := serviceClause_read hhost hservice
    exact ⟨hhost, userClause_read hrest, htag⟩
  · rintro ⟨hhost, huser, htag⟩
    exact parse_serviceText hhost huser htag

end

/-- The filters carry their whole text, and they denote what they are built for exactly if no name
in them has a special character. -/
theorem filters_parse_iff (lib : LdapLib) (host user tag : CString) :
    (∀ filter, getHostFilter lib (some host) (some user) = some filter →
      filter.bytes = expandFormat ldapHostFilter [host, user] ∧
        (parse filter.bytes = some (hostFilter host.bytes user.bytes) ↔
          Plain host.bytes ∧ Plain user.bytes)) ∧
    ∀ filter, getServiceFilter lib (some host) (some user) (some tag) = some filter →
      filter.bytes = expandFormat ldapServiceFilter [host, tag, tag, host, user] ∧
        (parse filter.bytes = some (serviceFilter host.bytes user.bytes tag.bytes) ↔
          Plain host.bytes ∧ Plain user.bytes ∧ Plain tag.bytes) := by
  constructor
  · intro filter h
    rw [getHostFilter_bytes h, expandFormat_host]
    exact ⟨rfl, parse_hostText_iff⟩
  · intro filter h
    rw [getServiceFilter_bytes h, expandFormat_service]
    exact ⟨rfl, parse_serviceText_iff⟩

theorem filters_parse_iff_web :
    ∃ filter, getHostFilter (ldapReplying ⟨100, 1, none⟩) (some (.lit "web")) (some (.lit "bob")) =
        some filter ∧
      parse filter.bytes = some (hostFilter (CString.lit "web").bytes (CString.lit "bob").bytes) := by
  have hsome : (getHostFilter (ldapReplying ⟨100, 1, none⟩) (some (.lit "web"))
      (some (.lit "bob"))).isSome = true := rfl
  obtain ⟨filter, hfilter⟩ := Option.isSome_iff_exists.mp hsome
  have hparse := (filters_parse_iff _ (.lit "web") (.lit "bob") (.lit "proxy")).1 filter hfilter
  exact ⟨filter, hfilter, hparse.2.mpr ⟨by decide, by decide⟩⟩

/-- With `*` for a host the filter asks whether there is a host at all. -/
theorem getHostFilter_wildcard :
    ¬ ∀ (lib : LdapLib) (host user filter : CString), host.bytes ≠ [] → user.bytes ≠ [] →
      getHostFilter lib (some host) (some user) = some filter →
      parse filter.bytes = some (hostFilter host.bytes user.bytes) := by
  intro h
  have hsome : (getHostFilter (ldapReplying ⟨100, 1, none⟩) (some (.lit "*"))
      (some (.lit "bob"))).isSome = true := rfl
  obtain ⟨filter, hfilter⟩ := Option.isSome_iff_exists.mp hsome
  have hparse := h _ _ _ filter (by decide) (by decide) hfilter
  rw [getHostFilter_bytes hfilter, parse_hostText_iff] at hparse
  exact absurd hparse.1 (by decide)

end Stonesh
