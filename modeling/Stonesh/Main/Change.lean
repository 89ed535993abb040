import Stonesh.Main.Site

/-!
# Changes of a site

What an administrator does to a site changes runs only through the gateway. Rows that are added and
switches that are turned on take nothing away, and the order of the rows, the place where the users
are kept and everything else that no decision depends on can be chosen freely.
-/

namespace Stonesh

open CLib

/-- The rules of the second options are those of the first, or wider ones. -/
structure Options.Widened (o o' : Options) : Prop where
  proxy : o.enableProxy ≠ 0 → o'.enableProxy ≠ 0
  marks : o.disableProxyAuthorization ≠ 0 → o'.disableProxyAuthorization ≠ 0
  any : o.authType = authTypeAny → o'.authType = authTypeAny
  geoip : o'.geoipDat = o.geoipDat ∧ o'.geoip6Dat = o.geoip6Dat

def Listed (hosts hosts' : List HostRow) : Prop :=
  ∀ name row, hosts.find? (fun r => r.name.bytes = name) = some row →
    hosts'.find? (fun r => r.name.bytes = name) = some row

/-- Each access of the rows is one of the others, where it has at least the same mark. -/
def Covered (rows rows' : List UserRow) : Prop :=
  ∀ r ∈ rows, ∀ a ∈ r.hosts, ∃ r' ∈ rows', SameName r.user.bytes r'.user.bytes ∧
    ∃ a' ∈ r'.hosts, SameName a.host.bytes a'.host.bytes ∧ (a.proxy = true → a'.proxy = true)

section
variable {hosts hosts' : List HostRow} {site site' : Site}

theorem find_of_mem (hdistinct : (hosts.map fun r => r.name.bytes).Nodup) {row : HostRow}
    (hrow : row ∈ hosts) : hosts.find? (fun r => r.name.bytes = row.name.bytes) = some row := by
  induction hosts with
  | nil => simp at hrow
  | cons r hosts ih =>
    obtain ⟨hnot, hdistinct⟩ := List.nodup_cons.mp hdistinct
    rcases List.mem_cons.mp hrow with rfl | hrow
    · simp
    · have hne : r.name.bytes ≠ row.name.bytes := fun he => hnot (List.mem_map.mpr ⟨row, hrow, he.symm⟩)
      rw [List.find?_cons_of_neg (by simpa using hne)]
      exact ih hdistinct hrow

theorem listed_of_perm (h : hosts.Perm hosts') (hdistinct : (hosts.map fun r => r.name.bytes).Nodup) :
    Listed hosts hosts' := by
  intro name row hrow
  have hname : row.name.bytes = name := by simpa using List.find?_some hrow
  rw [← hname]
  exact find_of_mem ((h.map _).nodup_iff.mp hdistinct) (h.mem_iff.mp (List.mem_of_find?_eq_some hrow))

theorem covered_of_subset {rows rows' : List UserRow} (h : rows ⊆ rows') : Covered rows rows' :=
  fun r hr a ha => ⟨r, h hr, rfl, a, ha, rfl, id⟩

theorem tableGrants_mono {rows rows' : List UserRow} (h : Covered rows rows') {user host : List Byte}
    {mark mark' : Bool} (hmark : mark' = true → mark = true) (hgrants : TableGrants rows user host mark) :
    TableGrants rows' user host mark' := by
  obtain ⟨r, hr, huser, a, ha, hhost, hproxy⟩ := hgrants
  obtain ⟨r', hr', huser', a', ha', hhost', hproxy'⟩ := h r hr a ha
  exact ⟨r', hr', huser.trans huser', a', ha', hhost.trans hhost',
    fun hasked => hproxy' (hproxy (hmark hasked))⟩

theorem gateway_mono (hoptions : site.options.Widened site'.options) (hhosts : Listed site.hosts site'.hosts)
    (husers : Covered site.users site'.users) (geo : GeoLib) : site.gateway geo ≤ site'.gateway geo := by
  refine ⟨fun name row hrow => hhosts name row hrow, ?_, ?_⟩
  · rintro user host mode ⟨hgate, hgrants⟩
    have hmark : AsksForMark site'.options mode = true → AsksForMark site.options mode = true := by
      simp only [AsksForMark, decide_eq_true_eq]
      rintro ⟨hmode, hasked⟩
      exact ⟨hmode, by_contra fun hne => hoptions.marks hne hasked⟩
    refine ⟨fun h => hgate ⟨by_contra fun hne => hoptions.proxy hne h.1, h.2⟩, ?_⟩
    rcases hgrants with hany | htable
    · exact Or.inl (hoptions.any hany)
    · exact Or.inr (tableGrants_mono husers hmark htable)
  · intro row origin hwelcomes address haddress
    have hcode : countryCode geo site'.options address = countryCode geo site.options address := by
      rw [countryCode, countryCode, hoptions.geoip.1, hoptions.geoip.2]
    have hrow := hwelcomes address haddress
    unfold HostRow.Welcomes at hrow ⊢
    rwa [hcode]

end

section
variable {site site' : Site} {s : Session} {w w' : World}

/-- Neither the order of the rows of the two tables nor the backend the users are kept in makes a
difference to a run, as long as no host is listed twice. -/
theorem main_site_rearranged (h : site.Receives s w) (h' : site'.Receives s w') (hgeo : w'.geo = w.geo)
    (hoptions : site.options.Widened site'.options) (hoptions' : site'.options.Widened site.options)
    (hprograms : site'.options.sshPath = site.options.sshPath ∧
      site'.options.ncPath = site.options.ncPath ∧ site'.options.ncTimeout = site.options.ncTimeout)
    (hhosts : site.hosts.Perm site'.hosts) (hdistinct : (site.hosts.map fun r => r.name.bytes).Nodup)
    (husers : site.users.Perm site'.users) (hfails : w'.execvpFails = w.execvpFails) (fuel fuel' : Nat) :
    (∀ argv, .execvp argv ∈ (main w' (fuel' + 1)).1 ↔ .execvp argv ∈ (main w (fuel + 1)).1) ∧
      (main w' (fuel' + 1)).2 = (main w (fuel + 1)).2 := by
  have hle := gateway_mono hoptions (listed_of_perm hhosts hdistinct) (covered_of_subset husers.subset) w.geo
  have hge := gateway_mono hoptions' (listed_of_perm hhosts.symm ((hhosts.map _).nodup_iff.mp hdistinct))
    (covered_of_subset husers.symm.subset) w.geo
  have hargv (row : HostRow) : s.demand.argv site'.options row = s.demand.argv site.options row := by
    obtain ⟨hssh, hnc, htimeout⟩ := hprograms
    unfold Demand.argv
    rw [hssh, hnc, htimeout]
  have hverdict : site'.verdict w'.geo s = site.verdict w.geo s := by
    rw [Site.verdict, Site.verdict, hgeo, Gateway.decide_eq_of_le hge hle]
    cases (site.gateway w.geo).decide s.request with
    | unlisted => rfl
    | refused => rfl
    | permitted row => rw [Session.verdict, Session.verdict, hargv]
  refine ⟨fun argv => ?_, ?_⟩
  · rw [execvp_session h fuel, execvp_session h' fuel', hverdict]
  · rw [outcome_session h fuel, outcome_session h' fuel', hverdict, hfails]

end

def directorySite (hosts : List HostRow) : Site := ⟨ldapOptions, hosts, [bobRow]⟩

def directoryMachine (hosts : String) : World :=
  { bobWorld "direct web" "useLDAP yes\nenableProxy=yes\n" hosts "" with
    sshClient := some (.lit "192.0.2.1 50000 22")
    ldap := directoryLdap [bobRow.entry (bytes "proxy")] }

theorem directorySite_receives {hosts : String} {rows : List HostRow}
    (h : HoldsRows hostFormat (bytes hosts) rows) :
    (directorySite rows).Receives bobSession (directoryMachine hosts) where
  installed :=
    { config := by
        have hfile : (directoryMachine hosts).files (.lit defaultConfigFile) =
            some (bytes "useLDAP yes\nenableProxy=yes\n") := rfl
        have hoptions : (directorySite rows).options = ldapOptions := rfl
        rw [readConfigFile_eq hfile, hoptions]
        decide +kernel
      hosts := ⟨.lit "/etc/stonesh/hosts.lst", bytes hosts, rfl, rfl, h⟩
      users := Or.inr (Or.inr ⟨rfl, (by decide : ldapOptions.useLdap ≠ 0),
        ⟨.lit "proxy", rfl, ⟨by decide, by decide⟩,
          directoryLdap_serves [bobRow.entry (bytes "proxy")] rfl rfl⟩,
        (by decide : ∀ r ∈ [bobRow], ∀ a ∈ r.hosts, a.host.bytes ≠ bytes "*")⟩)
      strdup := rfl
      cmdlineMalloc := rfl
      hostMalloc := fun _ => rfl }
  posed :=
    { user := rfl
      client := ⟨.lit "192.0.2.1 50000 22", rfl, by decide⟩
      argv := by
        rintro keyword ⟨⟩
        have hargv : (directoryMachine hosts).argv = bobMachine.argv := rfl
        rw [hargv]
        exact ⟨.lit "stonesh", by decide⟩
      typed := by simp [bobSession]
      tty := rfl }
  wellFormed :=
    { whole := Or.inr (by decide)
      apart := by
        rintro keyword ⟨⟩
        exact ⟨by decide, by decide⟩
      args := by simp [bobSession, Demand.args] }
  understood :=
    { file := fun h => absurd h (by decide : ldapOptions.authType ≠ authTypeLocal)
      directory := fun _ => by decide }

/-- Bob is moved to a directory, and the hosts change places. -/
theorem main_site_rearranged_directory :
    (∀ argv, .execvp argv ∈ (main (directoryMachine "db::US,CA\nweb:2222\n") 1).1 ↔
        .execvp argv ∈ (main bobMachine 1).1) ∧
      (main (directoryMachine "db::US,CA\nweb:2222\n") 1).2 = (main bobMachine 1).2 :=
  have hrows : HoldsRows hostFormat (bytes "db::US,CA\nweb:2222\n") [dbRow, webRow] :=
    holdsRows_joinLines (by decide)
  have hoptions : bobSite.options.Widened (directorySite [dbRow, webRow]).options :=
    ⟨fun _ => by decide, fun h => absurd rfl h, fun h => absurd h (by decide), rfl, rfl⟩
  have hoptions' : (directorySite [dbRow, webRow]).options.Widened bobSite.options :=
    ⟨fun _ => by decide, fun h => absurd rfl h, fun h => absurd h (by decide), rfl, rfl⟩
  main_site_rearranged bobSite_receives (directorySite_receives hrows) rfl hoptions hoptions'
    ⟨rfl, rfl, rfl⟩ (.swap dbRow webRow []) (by decide) (.refl _) rfl 0 0

end Stonesh
