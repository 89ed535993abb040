import Stonesh.AuthLocal.Record

/-!
# Scanning the users file

`get_auth_file` reads users.lst chunk by chunk, cuts each chunk with `strsep` and `strtok` and
carries the flag `can_proxy` from one element and one line to the next. The scan is followed here
in place, on the line buffer; its specification is that some record of the file admits the user.
-/

namespace Stonesh

open CLib

def authLocalFailure : Int := 0
def authLocalSuccess : Int := 1

/-- The offset of `hostname[strlen(hostname) - 1]`. For an empty string the unsigned subtraction
wraps and the address arithmetic takes it back to the byte in front of the token. -/
def lastIndex (p n : Nat) : Checked Nat :=
  if p + n = 0 then throw .outOfBounds else pure (p + n - 1)

/-- The same offset where the token has to have a last byte. -/
def strictIndex (p n : Nat) : Checked Nat := if n = 0 then throw .outOfBounds else lastIndex p n

section
variable (index : Nat → Nat → Checked Nat) (user host : CString) (proxy : Int)

/-- The loop over the host list, from the element `strtok` has just returned. The result is the
new value of `auth` and the flag `can_proxy` it leaves. -/
def hostLoop : Nat → Option Nat → Nat → Int → Block → Checked (Int × Int)
  | 0, _, _, _, _ => throw .outOfBounds
  | _ + 1, none, _, canProxy, _ => pure (authLocalFailure, canProxy)
  | fuel + 1, some hostname, cursor, canProxy, b => do
    let b ← trim b (some hostname)
    let last ← index hostname (← strlen b hostname)
    let plus := (← load b last) == 43
    let b ← (if plus then store b last 0 else pure b)
    let canProxy := if plus then 1 else canProxy
    let name ← str b hostname
    if strncasecmp host name host.bytes.length = 0 then
      pure (if canProxy = 0 ∧ proxy = 1 then authLocalFailure else authLocalSuccess, canProxy)
    else
      let cut ← strtok b cursor [44]
      hostLoop fuel cut.token cut.cursor 0 cut.block

def scanLine (b : Block) (canProxy : Int) : Checked (Int × Int) := do
  if 0 < (← strlen b 0) then
    let b ← trim b (some 0)
    let field ← strsep b (some 0) [58]
    match field.token with
    | none => pure (authLocalFailure, canProxy)
    | some username =>
      let b ← trim field.block (some username)
      let name ← str b username
      if strncasecmp user name user.bytes.length = 0 then
        let field ← strsep b field.cursor [58]
        match field.token with
        | none => pure (authLocalFailure, canProxy)
        | some hosts =>
          let cut ← strtok field.block hosts [44]
          hostLoop index host proxy cut.block.size cut.token cut.cursor canProxy cut.block
      else pure (authLocalFailure, canProxy)
  else pure (authLocalFailure, canProxy)

/-- The loop over the file; each chunk is read into the line buffer with its terminator. -/
def scanFile : List (List Byte) → Int → Checked Int
  | [], _ => pure authLocalFailure
  | line :: rest, canProxy => do
    let r ← scanLine index user host proxy (line ++ [0]) canProxy
    if r.1 = authLocalFailure then scanFile rest r.2 else pure r.1

end

/-- The result of `get_auth_file`, and its string arguments as it leaves them. -/
structure LocalAuth where
  auth : Int
  user : Option CString
  host : Option CString
  deriving DecidableEq

def getAuthFileWith (index : Nat → Nat → Checked Nat) (files : CString → Option (List Byte))
    (user host file : Option CString) (proxy : Int) : Checked LocalAuth :=
  match user, host, file with
  | some user, some host, some file =>
    match files file with
    | none => pure ⟨authLocalFailure, some user, some host⟩
    | some content => do
      let user ← trimString user
      let host ← trimString host
      let auth ← scanFile index user host proxy (chunks maxLineLen content) 0
      pure ⟨auth, some user, some host⟩
  | _, _, _ => pure ⟨authLocalFailure, user, host⟩

def getAuthFile := getAuthFileWith lastIndex

/-- The verdict of the host list: its first element that begins with the host asked for. -/
def listVerdict (host : List Byte) (proxy : Int) (es : List HostElement) : Int :=
  match es.find? fun e => Extends host e.name with
  | none => authLocalFailure
  | some e => if proxy = 1 ∧ e.plus = false then authLocalFailure else authLocalSuccess

/-- An element without a name and without a mark. -/
def HostElement.blank : HostElement := ⟨[], false⟩

theorem HostElement.parse_eq_blank {t : List Byte} : parse t = blank ↔ trimmed t = [] := by
  rw [parse, blank]
  split
  · next hplus =>
    constructor
    · intro he
      simp at he
    · intro hnil
      simp [hnil] at hplus
  · simp

/-- The elements the loop comes to: up to the first that begins with the host asked for. -/
def visited (host : List Byte) (es : List HostElement) : List HostElement :=
  Text.upTo (fun e => Extends host e.name) es

def tokenIndex : Bool → Nat → Nat → Checked Nat
  | false => lastIndex
  | true => strictIndex

/-- What a scan of these elements returns: the verdict, with a clear flag whenever it refuses. With
the strict index it stops at a blank element. -/
def Scanned (strict : Bool) (es : List HostElement) (run : Checked (Int × Int)) (verdict : Int) : Prop :=
  if strict = true ∧ HostElement.blank ∈ es then run = .error .outOfBounds
  else ∃ flag, run = .ok (verdict, flag) ∧ (verdict = authLocalFailure → flag = 0)

theorem Scanned.congr {strict : Bool} {es es' : List HostElement} {run : Checked (Int × Int)}
    {verdict : Int} (h : (strict = true ∧ HostElement.blank ∈ es) ↔ strict = true ∧ HostElement.blank ∈ es') :
    Scanned strict es run verdict ↔ Scanned strict es' run verdict := by
  rw [Scanned, Scanned]
  by_cases hmem : strict = true ∧ HostElement.blank ∈ es
  · rw [if_pos hmem, if_pos (h.mp hmem)]
  · rw [if_neg hmem, if_neg fun h' => hmem (h.mpr h')]

theorem Scanned.refused {strict : Bool} {run : Checked (Int × Int)}
    (h : run = .ok (authLocalFailure, 0)) : Scanned strict [] run authLocalFailure := by
  rw [Scanned, if_neg (by simp)]
  exact ⟨0, h, fun _ => rfl⟩

private theorem compare_extends (asked : CString) {name : List Byte} (h0 : 0 ∉ name) :
    strncasecmp asked (.ofList name) asked.bytes.length = 0 ↔ Extends asked.bytes name := by
  rw [strncasecmp_length_eq_zero_iff, CString.ofList_bytes h0]
  rfl

private theorem zero_not_mem_name {t : List Byte} (ht : 0 ∉ t) : 0 ∉ (HostElement.parse t).name := by
  have h0 := zero_not_mem_trimmed ht
  unfold HostElement.parse
  split
  · exact fun hm => h0 ((List.dropLast_sublist _).subset hm)
  · exact h0

private theorem hostElements_token {h t r : List Byte}
    (htok : Text.tokens (· ∈ [44]) h = t :: Text.tokens (· ∈ [44]) r) :
    hostElements h = HostElement.parse t :: hostElements r := by
  rw [hostElements, htok, List.map_cons, hostElements]

private theorem last_before_token {pre sep : List Byte} (hpre : pre.getLast? = some 0)
    (hsep : ∀ c ∈ sep, c ∈ [44]) : ∃ d, (pre ++ sep).getLast? = some d ∧ d ≠ 43 := by
  rcases List.eq_nil_or_concat sep with rfl | ⟨s, d, rfl⟩
  · exact ⟨0, by simpa using hpre, by decide⟩
  · have hd : d = 44 := by simpa using hsep d (by simp)
    exact ⟨d, by simp [← List.append_assoc], by rw [hd]; decide⟩

section
variable (pre t gap r post : List Byte) (host : CString) (proxy : Int)

private structure ElementRun (pre t gap r post : List Byte) (b : Block) (last : Nat) (plus : Byte)
    (named : Block) (x : List Byte) : Prop where
  trims : trim (pre ++ (t ++ (gap ++ (r ++ 0 :: post)))) (some pre.length) = .ok b
  length : strlen b pre.length = .ok (trimmed t).length
  index : lastIndex pre.length (trimmed t).length = .ok last
  loads : load b last = .ok plus
  marked : (plus == 43) = (HostElement.parse t).plus
  stores : (if (HostElement.parse t).plus then store b last 0 else .ok b) = .ok named
  block : named = pre ++ (x ++ (r ++ 0 :: post))
  size : x.length = t.length + gap.length
  name : str named pre.length = .ok (.ofList (HostElement.parse t).name)
  ends : r = [] ∨ x.getLast? = some 0

private theorem element_empty {c : Byte} (ht : 0 ∉ t) (hgap : gap = [0] ∨ gap = [] ∧ r = [])
    (hpre : pre.getLast? = some c) (hc : c ≠ 43) (hnil : trimmed t = []) :
    ∃ b last plus named x, ElementRun pre t gap r post b last plus named x := by
  obtain ⟨z, y, htrim, hy, hlen, hlast⟩ := trim_token pre t gap r post ht hgap
  obtain ⟨front, rfl⟩ := List.getLast?_eq_some_iff.mp hpre
  have hparse : HostElement.parse t = ⟨[], false⟩ := by simp [HostElement.parse, hnil]
  rw [hnil] at htrim hlen
  have hb : (front ++ [c]) ++ (z ++ (r ++ 0 :: post)) = (front ++ [c]) ++ ([] ++ 0 :: y) := by
    rw [hy, List.nil_append]
  refine ⟨(front ++ [c]) ++ (z ++ (r ++ 0 :: post)), front.length, c, _, z, htrim, ?_, ?_, ?_, ?_, ?_,
    rfl, by simpa using hlen, ?_, hlast⟩
  · rw [hb, hnil]
    exact strlen_at rfl (by simp)
  · simp [lastIndex, hnil]
  · rw [List.append_assoc]
    exact load_at' rfl
  · simpa [hparse] using hc
  · simp [hparse]
  · rw [hb, hparse]
    exact str_at rfl (by simp)

private theorem element_named {w : List Byte} {a : Byte} (ht : 0 ∉ t)
    (hgap : gap = [0] ∨ gap = [] ∧ r = []) (hw : trimmed t = w ++ [a]) :
    ∃ b last plus named x, ElementRun pre t gap r post b last plus named x := by
  obtain ⟨z, y, htrim, hy, hlen, hlast⟩ := trim_token pre t gap r post ht hgap
  have h0 : 0 ∉ trimmed t := zero_not_mem_trimmed ht
  have hw0 : 0 ∉ w := fun hm => h0 (by rw [hw]; simp [hm])
  have hindex : lastIndex pre.length (trimmed t).length = .ok (pre.length + w.length) := by
    rw [hw]
    simp [lastIndex]
  have hb : pre ++ (trimmed t ++ (z ++ (r ++ 0 :: post))) =
      pre ++ (w ++ a :: (z ++ (r ++ 0 :: post))) := by simp [hw]
  have hload : load (pre ++ (trimmed t ++ (z ++ (r ++ 0 :: post)))) (pre.length + w.length) =
      .ok a := by
    rw [hb]
    exact load_after rfl
  have hslen : strlen (pre ++ (trimmed t ++ (z ++ (r ++ 0 :: post)))) pre.length =
      .ok (trimmed t).length := by
    rw [hy]
    exact strlen_at rfl h0
  by_cases ha : a = 43
  · have hparse : HostElement.parse t = ⟨w, true⟩ := by simp [HostElement.parse, hw, ha]
    refine ⟨_, _, a, pre ++ ((w ++ 0 :: z) ++ (r ++ 0 :: post)), w ++ 0 :: z, htrim, hslen, hindex,
      hload, by simp [hparse, ha], ?_, rfl, ?_, ?_, ?_⟩
    · rw [if_pos (by simp [hparse]), hb, store_after rfl]
      simp
    · have hwlen : (trimmed t).length = w.length + 1 := by simp [hw]
      simp only [List.length_append, List.length_cons]
      omega
    · rw [hparse, List.append_assoc, List.cons_append]
      exact str_at rfl hw0
    · apply hlast.imp id
      intro h
      simp [List.getLast?_append, List.getLast?_cons, h]
  · have hparse : HostElement.parse t = ⟨trimmed t, false⟩ := by simp [HostElement.parse, hw, ha]
    refine ⟨_, _, a, pre ++ ((trimmed t ++ z) ++ (r ++ 0 :: post)), trimmed t ++ z, htrim, hslen,
      hindex, hload, by simpa [hparse] using ha, ?_, rfl, by simpa using hlen, ?_, ?_⟩
    · rw [if_neg (by simp [hparse])]
      simp
    · rw [hparse, List.append_assoc, hy]
      exact str_at rfl h0
    · apply hlast.imp id
      intro h
      simp [List.getLast?_append, h]

private theorem element_run {c : Byte} (ht : 0 ∉ t) (hgap : gap = [0] ∨ gap = [] ∧ r = [])
    (hpre : pre.getLast? = some c) (hc : c ≠ 43) :
    ∃ b last plus named x, ElementRun pre t gap r post b last plus named x := by
  rcases List.eq_nil_or_concat (trimmed t) with hnil | ⟨w, a, hw⟩
  · exact element_empty pre t gap r post ht hgap hpre hc hnil
  · exact element_named pre t gap r post ht hgap (List.concat_eq_append ▸ hw)

private theorem hostLoop_spec (strict : Bool) (fuel : Nat) {c : Byte} (ht : 0 ∉ t) (hr : 0 ∉ r)
    (hgap : gap = [0] ∨ gap = [] ∧ r = []) (hpre : pre.getLast? = some c) (hc : c ≠ 43)
    (hfuel : r.length + 2 ≤ fuel) :
    Scanned strict (visited host.bytes (HostElement.parse t :: hostElements r))
      (hostLoop (tokenIndex strict) host proxy fuel (some pre.length) (pre ++ (t ++ gap)).length 0
        (pre ++ (t ++ (gap ++ (r ++ 0 :: post)))))
      (listVerdict host.bytes proxy (HostElement.parse t :: hostElements r)) := by
  induction fuel generalizing pre t gap r c with
  | zero => omega
  | succ fuel ih =>
    obtain ⟨b, last, plus, named, x, hrun⟩ := element_run pre t gap r post ht hgap hpre hc
    by_cases hblank : strict = true ∧ trimmed t = []
    · -- the element is blank, and the strict index does not exist
      obtain ⟨rfl, hnil⟩ := hblank
      have hmem : HostElement.blank ∈ visited host.bytes (HostElement.parse t :: hostElements r) :=
        Text.mem_upTo_cons.mpr (Or.inl (HostElement.parse_eq_blank.mpr hnil).symm)
      have hindex : tokenIndex true pre.length (trimmed t).length = .error .outOfBounds := by
        rw [hnil]
        rfl
      rw [Scanned, if_pos ⟨rfl, hmem⟩]
      simp only [hostLoop, hrun.trims, except_ok_bind, hrun.length, hindex, except_error_bind]
    have hindex : tokenIndex strict pre.length (trimmed t).length = .ok last := by
      rw [← hrun.index]
      cases strict with
      | false => rfl
      | true => exact if_neg fun h => hblank ⟨rfl, List.length_eq_zero_iff.mp h⟩
    have hcompare := compare_extends host (zero_not_mem_name ht)
    have hlook (hext : ¬ Extends host.bytes (HostElement.parse t).name) :
        (strict = true ∧ HostElement.blank ∈ visited host.bytes (HostElement.parse t :: hostElements r)) ↔
          strict = true ∧ HostElement.blank ∈ visited host.bytes (hostElements r) := by
      apply and_congr_right
      intro hstrict
      have hne : HostElement.blank ≠ HostElement.parse t := fun he =>
        hblank ⟨hstrict, HostElement.parse_eq_blank.mp he.symm⟩
      rw [visited, Text.mem_upTo_cons]
      simp [hne, hext, visited]
    simp only [hostLoop, hrun.trims, except_ok_bind, hrun.length, hindex, hrun.loads, hrun.marked,
      hrun.stores, hrun.name, except_pure, hcompare]
    by_cases hext : Extends host.bytes (HostElement.parse t).name
    · have hfirst : ¬ (strict = true ∧
          HostElement.blank ∈ visited host.bytes (HostElement.parse t :: hostElements r)) := by
        rintro ⟨hstrict, hmem⟩
        rcases Text.mem_upTo_cons.mp hmem with he | ⟨hno, -⟩
        · exact hblank ⟨hstrict, HostElement.parse_eq_blank.mp he.symm⟩
        · simp [hext] at hno
      rw [Scanned, if_neg hfirst, if_pos hext]
      cases hp : (HostElement.parse t).plus with
      | true => exact ⟨1, by simp [listVerdict, hext, hp], by
          simp [listVerdict, hext, hp, authLocalSuccess, authLocalFailure]⟩
      | false =>
        refine ⟨0, ?_, fun _ => rfl⟩
        by_cases hproxy : proxy = 1 <;> simp [listVerdict, hext, hp, hproxy]
    · rw [if_neg hext]
      have hverdict : listVerdict host.bytes proxy (HostElement.parse t :: hostElements r) =
          listVerdict host.bytes proxy (hostElements r) := by simp [listVerdict, hext]
      have hcursor : (pre ++ (t ++ gap)).length = (pre ++ x).length := by
        simp only [List.length_append, hrun.size]
      rw [hverdict, hrun.block, ← List.append_assoc pre x, hcursor, Scanned.congr (hlook hext)]
      rcases strtok_cases (pre ++ x) post [44] rfl hr with ⟨htok, cur, hcut⟩ |
          ⟨sep, t', gap', r', hsep, hne, hmt, hmr, htok, hgap', hshort, hcut⟩
      · obtain ⟨fuel, rfl⟩ : ∃ n, fuel = n + 1 := ⟨fuel - 1, by omega⟩
        have helems : hostElements r = [] := by rw [hostElements, htok, List.map_nil]
        rw [hcut, helems]
        exact Scanned.refused rfl
      · have hrne : r ≠ [] := by
          intro he
          simp [he] at htok
        have hx0 : (pre ++ x).getLast? = some 0 := by
          simp [List.getLast?_append, hrun.ends.resolve_left hrne]
        obtain ⟨d, hd, hd43⟩ := last_before_token hx0 hsep
        have hrest := ih ((pre ++ x) ++ sep) t' gap' r' (fun hm => hr (hmt _ hm))
          (fun hm => hr (hmr _ hm)) hgap' hd hd43 (by omega)
        rw [hostElements_token htok, hcut]
        simpa [List.append_assoc] using hrest

end

def UserRecord.verdict (r : UserRecord) (user host : List Byte) (proxy : Int) : Int :=
  if r.Admits user host proxy then authLocalSuccess else authLocalFailure

private theorem verdict_of_extends {r : UserRecord} {user : List Byte} (host : List Byte) (proxy : Int)
    (h : Extends user r.user) : r.verdict user host proxy = listVerdict host proxy r.hosts := by
  have hiff : r.Admits user host proxy ↔ ∃ e ∈ r.firstMatch host, proxy = 1 → e.plus = true :=
    and_iff_right h
  simp only [UserRecord.verdict, hiff]
  rw [listVerdict]
  cases hfirst : r.firstMatch host with
  | none =>
    rw [UserRecord.firstMatch] at hfirst
    simp [hfirst]
  | some e =>
    rw [UserRecord.firstMatch] at hfirst
    rw [hfirst]
    by_cases hproxy : proxy = 1 <;> cases hplus : e.plus <;> simp [hproxy, hplus]

private theorem verdict_of_not_extends {r : UserRecord} {user : List Byte} (host : List Byte)
    (proxy : Int) (h : ¬ Extends user r.user) : r.verdict user host proxy = authLocalFailure :=
  if_neg fun hadmits => h hadmits.1

def UserRecord.visited (r : UserRecord) (user host : List Byte) : List HostElement :=
  if Extends user r.user then Stonesh.visited host r.hosts else []

private theorem scanHosts_spec (strict : Bool) (pre h post : List Byte) (host : CString) (proxy : Int)
    (hpre : pre.getLast? = some 0) (hh : 0 ∉ h) :
    Scanned strict (visited host.bytes (hostElements h))
      (do
        let cut ← strtok (pre ++ (h ++ 0 :: post)) pre.length [44]
        hostLoop (tokenIndex strict) host proxy cut.block.size cut.token cut.cursor 0 cut.block)
      (listVerdict host.bytes proxy (hostElements h)) := by
  rcases strtok_cases pre post [44] rfl hh with
    ⟨htok, cur, hcut⟩ | ⟨sep, t, gap, r, hsep, hne, hmt, hmr, htok, hgap, hshort, hcut⟩
  · have helems : hostElements h = [] := by rw [hostElements, htok, List.map_nil]
    obtain ⟨fuel, hfuel⟩ : ∃ n, (pre ++ (h ++ 0 :: post)).length = n + 1 :=
      ⟨(pre ++ (h ++ post)).length, by simp only [List.length_append, List.length_cons]; omega⟩
    rw [hcut, helems]
    apply Scanned.refused
    simp only [except_ok_bind, Block.size, hfuel, hostLoop, except_pure]
  · obtain ⟨c, hc, hc43⟩ := last_before_token hpre hsep
    have hpos : 0 < t.length := List.length_pos_iff.mpr hne
    have hpre0 : 0 < pre.length := by
      apply List.length_pos_iff.mpr
      intro he
      simp [he] at hpre
    have hrun := hostLoop_spec (pre ++ sep) t gap r post host proxy strict
      (pre ++ (sep ++ (t ++ (gap ++ (r ++ 0 :: post))))).length (fun hm => hh (hmt _ hm))
      (fun hm => hh (hmr _ hm)) hgap hc hc43
      (by simp only [List.length_append, List.length_cons]; omega)
    rw [hcut, hostElements_token htok]
    simpa [Block.size, List.append_assoc] using hrun

private theorem scanRest_spec (strict : Bool) (pre u post : List Byte) (host : CString) (proxy : Int)
    (hpre : pre.getLast? = some 0) (hu : 0 ∉ u) :
    Scanned strict (visited host.bytes (hostElements (u.takeWhile (· ≠ 58))))
      (do
        let field ← strsep (pre ++ (u ++ 0 :: post)) (some pre.length) [58]
        match field.token with
        | none => pure (authLocalFailure, 0)
        | some hosts =>
          let cut ← strtok field.block hosts [44]
          hostLoop (tokenIndex strict) host proxy cut.block.size cut.token cut.cursor 0 cut.block)
      (listVerdict host.bytes proxy (hostElements (u.takeWhile (· ≠ 58)))) := by
  obtain ⟨cursor, post', hsep⟩ := strsep_token pre post 58 hu
  rw [hsep]
  exact scanHosts_spec strict pre _ post' host proxy hpre fun hm => hu (List.takeWhile_subset _ hm)

private theorem scanFields_spec (strict : Bool) (user host : CString) (proxy : Int) (t u post : List Byte)
    (ht : 58 ∉ t) (hw : 0 ∉ t ++ 58 :: u) :
    Scanned strict ((UserRecord.parse (t ++ 58 :: u)).visited user.bytes host.bytes)
      (do
        let field ← strsep ((t ++ 58 :: u) ++ 0 :: post) (some 0) [58]
        match field.token with
        | none => pure (authLocalFailure, 0)
        | some username =>
          let b ← trim field.block (some username)
          let name ← str b username
          if strncasecmp user name user.bytes.length = 0 then
            let field ← strsep b field.cursor [58]
            match field.token with
            | none => pure (authLocalFailure, 0)
            | some hosts =>
              let cut ← strtok field.block hosts [44]
              hostLoop (tokenIndex strict) host proxy cut.block.size cut.token cut.cursor 0 cut.block
          else pure (authLocalFailure, 0))
      ((UserRecord.parse (t ++ 58 :: u)).verdict user.bytes host.bytes proxy) := by
  have ht0 : 0 ∉ t := fun hm => hw (by simp [hm])
  have hu0 : 0 ∉ u := fun hm => hw (by simp [hm])
  have hname0 : 0 ∉ trimmed t := zero_not_mem_trimmed ht0
  have hsep := strsep_field [] post [58] (p := 0) rfl hw
    (by simpa using forall_ne_of_not_mem ht) (by simp)
  obtain ⟨mid, htrim, hmid, hlast⟩ := trim_spec [] t (u ++ 0 :: post) (p := 0) rfl ht0
  have hname : str (trimmed t ++ 0 :: (mid ++ (u ++ 0 :: post))) 0 = .ok (.ofList (trimmed t)) :=
    str_start _ hname0
  simp only [List.nil_append] at hsep htrim
  rw [List.append_assoc, List.cons_append, hsep, UserRecord.parse_fields ht]
  simp only [except_ok_bind, htrim, hname, compare_extends user hname0]
  by_cases hext : Extends user.bytes (trimmed t)
  · rw [if_pos hext, verdict_of_extends host.bytes proxy hext, UserRecord.visited, if_pos hext]
    obtain ⟨pre, hpre⟩ : ∃ p, p = trimmed t ++ 0 :: mid := ⟨_, rfl⟩
    have hb : trimmed t ++ 0 :: (mid ++ (u ++ 0 :: post)) = pre ++ (u ++ 0 :: post) := by
      rw [hpre, List.append_assoc, List.cons_append]
    have hp : 0 + t.length + 1 = pre.length := by
      rw [hpre, List.length_append, List.length_cons]
      omega
    have hend : pre.getLast? = some 0 := by
      rw [hpre, List.getLast?_append, hlast]
      rfl
    rw [hb, hp]
    exact scanRest_spec strict pre u post host proxy hend hu0
  · rw [if_neg hext, verdict_of_not_extends host.bytes proxy hext, UserRecord.visited, if_neg hext]
    exact Scanned.refused rfl

private theorem verdict_of_no_hosts {r : UserRecord} (user host : List Byte) (proxy : Int)
    (h : r.hosts = []) :
    r.verdict user host proxy = authLocalFailure ∧ r.visited user host = [] := by
  constructor
  · apply if_neg
    rintro ⟨_, e, he, _⟩
    simp [UserRecord.firstMatch, h] at he
  · rw [UserRecord.visited, h]
    exact ite_self _

private theorem scanLine_scanned (strict : Bool) (user host : CString) (proxy : Int) (line : List Byte) :
    Scanned strict ((UserRecord.parse (lineText line)).visited user.bytes host.bytes)
      (scanLine (tokenIndex strict) user host proxy (line ++ [0]) 0)
      ((UserRecord.parse (lineText line)).verdict user.bytes host.bytes proxy) := by
  obtain ⟨post, hb⟩ := terminated_split line
  have hs0 : 0 ∉ line.takeWhile (· ≠ 0) := not_mem_takeWhile_ne_zero line
  rw [hb, lineText]
  generalize line.takeWhile (· ≠ 0) = s at hs0
  have hlen : strlen (s ++ 0 :: post) 0 = .ok s.length := strlen_start post hs0
  by_cases hnil : s = []
  · subst hnil
    obtain ⟨hverdict, hvisited⟩ := verdict_of_no_hosts (r := UserRecord.parse (trimmed []))
      user.bytes host.bytes proxy rfl
    rw [hverdict, hvisited]
    apply Scanned.refused
    simp only [scanLine, hlen, except_ok_bind, List.length_nil, Nat.lt_irrefl, if_false, except_pure]
  obtain ⟨mid, htrim, -, -⟩ := trim_spec [] s post (p := 0) rfl hs0
  have hpos : 0 < s.length := List.length_pos_iff.mpr hnil
  have hw0 : 0 ∉ trimmed s := zero_not_mem_trimmed hs0
  simp only [List.nil_append] at htrim
  simp only [scanLine, hlen, except_ok_bind, hpos, if_true, htrim]
  generalize trimmed s = w at hw0
  generalize mid ++ post = post
  by_cases hcolon : 58 ∈ w
  · obtain ⟨t, u, rfl, ht⟩ := List.eq_append_cons_of_mem hcolon
    exact scanFields_spec strict user host proxy t u post ht hw0
  · -- the whole text is the user field, and the second call finds no host list
    have hsep := strsep_last [] post [58] (p := 0) rfl hw0
      (by simpa using forall_ne_of_not_mem hcolon)
    obtain ⟨hverdict, hvisited⟩ := verdict_of_no_hosts (r := UserRecord.parse w) user.bytes host.bytes
      proxy (by rw [UserRecord.parse_single hcolon])
    obtain ⟨mid, htrim, -, -⟩ := trim_spec [] w post (p := 0) rfl hw0
    have hname : str (trimmed w ++ 0 :: (mid ++ post)) 0 = .ok (.ofList (trimmed w)) :=
      str_start _ (zero_not_mem_trimmed hw0)
    simp only [List.nil_append] at hsep htrim
    rw [hverdict, hvisited, hsep]
    apply Scanned.refused
    simp only [except_ok_bind, htrim, hname, strsep, except_pure, ite_self]

/-- A round of the loop over the file gives the verdict of the line's record, and it leaves the
flag clear for the next line. -/
theorem scanLine_spec (user host : CString) (proxy : Int) (line : List Byte) :
    ∃ flag, scanLine lastIndex user host proxy (line ++ [0]) 0 =
        .ok ((UserRecord.parse (lineText line)).verdict user.bytes host.bytes proxy, flag) ∧
      ((UserRecord.parse (lineText line)).verdict user.bytes host.bytes proxy = authLocalFailure →
        flag = 0) := by
  have hscan := scanLine_scanned false user host proxy line
  rw [Scanned, if_neg (by simp)] at hscan
  exact hscan

theorem scanFile_spec (user host : CString) (proxy : Int) (lines : List (List Byte)) :
    scanFile lastIndex user host proxy lines 0 =
      .ok (if ∃ line ∈ lines, (UserRecord.parse (lineText line)).Admits user.bytes host.bytes proxy
        then authLocalSuccess else authLocalFailure) := by
  induction lines with
  | nil => simp [scanFile]
  | cons line lines ih =>
    obtain ⟨flag, hline, hflag⟩ := scanLine_spec user host proxy line
    rw [scanFile, hline, except_ok_bind]
    by_cases hadmits : (UserRecord.parse (lineText line)).Admits user.bytes host.bytes proxy
    · have hverdict : (UserRecord.parse (lineText line)).verdict user.bytes host.bytes proxy =
          authLocalSuccess := if_pos hadmits
      simp [hverdict, hadmits, authLocalSuccess, authLocalFailure]
    · have hverdict : (UserRecord.parse (lineText line)).verdict user.bytes host.bytes proxy =
          authLocalFailure := if_neg hadmits
      simp only [hverdict, hflag hverdict, if_true, ih, List.exists_mem_cons_iff, hadmits, false_or]

/-- No record the scan comes to has a blank element in front of the one that decides. -/
def NoBlankVisited (user host : List Byte) (proxy : Int) (texts : List (List Byte)) : Prop :=
  ∀ text ∈ Text.upTo (fun text => (UserRecord.parse text).Admits user host proxy) texts,
    HostElement.blank ∉ (UserRecord.parse text).visited user host

instance (user host : List Byte) (proxy : Int) (texts : List (List Byte)) :
    Decidable (NoBlankVisited user host proxy texts) :=
  inferInstanceAs (Decidable (∀ text ∈ Text.upTo _ texts, _))

theorem noBlankVisited_cons {user host : List Byte} {proxy : Int} {text : List Byte}
    {texts : List (List Byte)} : NoBlankVisited user host proxy (text :: texts) ↔
      HostElement.blank ∉ (UserRecord.parse text).visited user host ∧
        (¬ (UserRecord.parse text).Admits user host proxy → NoBlankVisited user host proxy texts) := by
  unfold NoBlankVisited
  simp only [Text.mem_upTo_cons, forall_eq_or_imp, decide_eq_false_iff_not, and_imp]
  tauto

theorem scanFile_strict (user host : CString) (proxy : Int) (lines : List (List Byte)) :
    scanFile strictIndex user host proxy lines 0 =
      if NoBlankVisited user.bytes host.bytes proxy (lines.map lineText) then
        scanFile lastIndex user host proxy lines 0
      else .error .outOfBounds := by
  induction lines with
  | nil => rfl
  | cons line lines ih =>
    have hscan : Scanned true _ (scanLine strictIndex user host proxy (line ++ [0]) 0) _ :=
      scanLine_scanned true user host proxy line
    obtain ⟨flag', hline', hflag'⟩ := scanLine_spec user host proxy line
    rw [Scanned] at hscan
    rw [List.map_cons]
    split at hscan
    · next hblank =>
      rw [if_neg fun h => (noBlankVisited_cons.mp h).1 hblank.2, scanFile, hscan, except_error_bind]
    · next hblank =>
      obtain ⟨flag, hline, hflag⟩ := hscan
      have hnot : HostElement.blank ∉
          (UserRecord.parse (lineText line)).visited user.bytes host.bytes :=
        fun hmem => hblank ⟨rfl, hmem⟩
      rw [scanFile, scanFile, hline, hline', except_ok_bind, except_ok_bind]
      by_cases hadmits : (UserRecord.parse (lineText line)).Admits user.bytes host.bytes proxy
      · have hverdict : (UserRecord.parse (lineText line)).verdict user.bytes host.bytes proxy =
            authLocalSuccess := if_pos hadmits
        rw [if_pos (noBlankVisited_cons.mpr ⟨hnot, fun h => absurd hadmits h⟩), hverdict]
        simp [authLocalSuccess, authLocalFailure]
      · have hverdict : (UserRecord.parse (lineText line)).verdict user.bytes host.bytes proxy =
            authLocalFailure := if_neg hadmits
        simp only [hverdict, hflag hverdict, hflag' hverdict, if_true, ih]
        by_cases hrest : NoBlankVisited user.bytes host.bytes proxy (lines.map lineText)
        · rw [if_pos hrest, if_pos (noBlankVisited_cons.mpr ⟨hnot, fun _ => hrest⟩)]
        · rw [if_neg hrest, if_neg fun h => hrest ((noBlankVisited_cons.mp h).2 hadmits)]

/-- Some record of the users file admits the user. -/
def FileAdmits (content user host : List Byte) (proxy : Int) : Prop :=
  ∃ line ∈ records content, (UserRecord.parse line).Admits user host proxy

instance (content user host : List Byte) (proxy : Int) :
    Decidable (FileAdmits content user host proxy) :=
  inferInstanceAs (Decidable (∃ line ∈ records content, _))

private theorem exists_chunk_iff (content user host : List Byte) (proxy : Int) :
    (∃ line ∈ chunks maxLineLen content, (UserRecord.parse (lineText line)).Admits user host proxy) ↔
      FileAdmits content user host proxy := by
  constructor
  · rintro ⟨line, hline, hadmits⟩
    have hne : lineText line ≠ [] := by
      intro he
      rw [he] at hadmits
      exact UserRecord.not_admits_nil proxy hadmits
    refine ⟨lineText line, ?_, hadmits⟩
    exact List.mem_filter.mpr ⟨List.mem_map_of_mem hline, by simpa using hne⟩
  · rintro ⟨text, htext, hadmits⟩
    obtain ⟨line, hline, rfl⟩ := List.mem_map.mp (List.mem_filter.mp htext).1
    exact ⟨line, hline, hadmits⟩

/-- `get_auth_file` succeeds exactly when some record of the file admits the trimmed user to the
trimmed host. -/
theorem getAuthFile_eq {files : CString → Option (List Byte)} {file : CString} {content : List Byte}
    (hfile : files file = some content) (user host : CString) (proxy : Int) :
    getAuthFile files (some user) (some host) (some file) proxy =
      .ok ⟨if FileAdmits content (trimmed user.bytes) (trimmed host.bytes) proxy then
          authLocalSuccess else authLocalFailure,
        some (trimmedString user), some (trimmedString host)⟩ := by
  simp only [getAuthFile, getAuthFileWith, hfile, trimString_eq, except_ok_bind, scanFile_spec,
    exists_chunk_iff, trimmedString_bytes, except_pure]

theorem getAuthFile_unreadable {files : CString → Option (List Byte)} {file : CString}
    (hfile : files file = none) (user host : CString) (proxy : Int) :
    getAuthFile files (some user) (some host) (some file) proxy =
      .ok ⟨authLocalFailure, some user, some host⟩ := by
  simp only [getAuthFile, getAuthFileWith, hfile, except_pure]

end Stonesh
