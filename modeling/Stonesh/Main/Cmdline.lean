import Stonesh.Framework.Buffer
import Stonesh.Main.Execution

/-!
# Command lines

`main` writes its own arguments and those of the program it executes into buffers for the log, the
first one as it is and each other one in quotes behind a blank. The buffers are as long as the
arguments and four bytes more for each of them, which is enough, and the text says which arguments
they were.
-/

namespace Stonesh

open CLib

def argvLen : List (Option CString) → Nat
  | [] => 0
  | none :: argv => argvLen argv
  | some arg :: argv => arg.bytes.length + argvLen argv

/-- `argv_len + (argc * 4)`. -/
def cmdlineSize (argv : List (Option CString)) : Nat := argvLen argv + argv.length * 4

/-- The loop over the arguments behind the first one. -/
def appendArgs : Block → List (Option CString) → Checked Block
  | cmdline, [] => pure cmdline
  | cmdline, none :: rest => appendArgs cmdline rest
  | cmdline, some arg :: rest => do
    let cmdline ← strncat cmdline 0 (.lit " \"") 2
    let cmdline ← strncat cmdline 0 arg arg.bytes.length
    let cmdline ← strncat cmdline 0 (.lit "\"") 1
    appendArgs cmdline rest

/-- The buffer after `malloc`, `memset`, `strncpy` of the first argument and the loop. -/
def concatenate (argv : List (Option CString)) : Checked CString :=
  match argv with
  | some arg :: rest => do
    let cmdline ← strncpyFrom (List.replicate (cmdlineSize argv) 0) 0 arg arg.bytes.length
    let cmdline ← appendArgs cmdline rest
    str cmdline 0
  | _ => throw .nullArgument

/-- The number of pointers `newargv` has room for, with pointers of eight bytes. -/
def newargvSize : Nat := 8 / 4 + 10

def quotedArg (arg : List Byte) : List Byte := 32 :: 34 :: (arg ++ [34])

def quotedArgs (args : List (Option CString)) : List Byte :=
  args.flatMap fun arg => arg.elim [] fun s => quotedArg s.bytes

section
variable {text : List Byte} {size : Nat} {args : List (Option CString)} {arg : CString}

theorem quotedArgs_none : quotedArgs (none :: args) = quotedArgs args := rfl

theorem quotedArgs_some : quotedArgs (some arg :: args) = quotedArg arg.bytes ++ quotedArgs args := rfl

theorem length_quotedArg (l : List Byte) : (quotedArg l).length = l.length + 3 := by simp [quotedArg]

theorem zero_not_mem_quotedArg (s : CString) : 0 ∉ quotedArg s.bytes := by
  simp only [quotedArg, List.mem_cons, List.mem_append, not_or]
  exact ⟨by decide, by decide, s.noNul, by decide, by simp⟩

theorem zero_not_mem_quotedArgs : 0 ∉ quotedArgs args := by
  rw [quotedArgs, List.mem_flatMap]
  rintro ⟨arg, -, hm⟩
  cases arg with
  | none => simp at hm
  | some s => exact zero_not_mem_quotedArg s hm

theorem length_quotedArgs_le : (quotedArgs args).length ≤ argvLen args + args.length * 3 := by
  induction args with
  | nil => simp [quotedArgs]
  | cons arg args ih =>
    rw [List.length_cons]
    cases arg with
    | none =>
      rw [quotedArgs_none, argvLen]
      omega
    | some s =>
      rw [quotedArgs_some, List.length_append, length_quotedArg, argvLen]
      omega

private theorem appendArg_filled (arg : CString) (h0 : 0 ∉ text)
    (hfit : text.length + arg.bytes.length + 3 < size) :
    ∃ first second, strncat (filled text size) 0 (.lit " \"") 2 = .ok first ∧
      strncat first 0 arg arg.bytes.length = .ok second ∧
      strncat second 0 (.lit "\"") 1 = .ok (filled (text ++ quotedArg arg.bytes) size) := by
  have hopen : (CString.lit " \"").bytes = [32, 34] := by decide
  have hclose : (CString.lit "\"").bytes = [34] := by decide
  have hfirst : strncat (filled text size) 0 (.lit " \"") 2 = .ok (filled (text ++ [32, 34]) size) := by
    rw [← hopen]
    exact strncat_filled h0 (by rw [hopen]; simp; omega)
  have hsecond : strncat (filled (text ++ [32, 34]) size) 0 arg arg.bytes.length =
      .ok (filled (text ++ [32, 34] ++ arg.bytes) size) :=
    strncat_filled (by simp [h0]) (by simp; omega)
  have hthird := @strncat_filled (text ++ [32, 34] ++ arg.bytes) size (.lit "\"")
    (by simp [h0, arg.noNul]) (by rw [hclose]; simp; omega)
  have htext : text ++ [32, 34] ++ arg.bytes ++ [34] = text ++ quotedArg arg.bytes := by simp [quotedArg]
  rw [hclose, htext] at hthird
  exact ⟨_, _, hfirst, hsecond, hthird⟩

private theorem appendArgs_filled (h0 : 0 ∉ text) (hfit : text.length + (quotedArgs args).length < size) :
    appendArgs (filled text size) args = .ok (filled (text ++ quotedArgs args) size) := by
  induction args generalizing text with
  | nil => simp [appendArgs, quotedArgs]
  | cons arg args ih =>
    cases arg with
    | none => exact ih h0 hfit
    | some s =>
      rw [quotedArgs_some, List.length_append, length_quotedArg] at hfit
      obtain ⟨first, second, hfirst, hsecond, hthird⟩ := @appendArg_filled text size s h0 (by omega)
      have hnext : 0 ∉ text ++ quotedArg s.bytes := by
        rw [List.mem_append, not_or]
        exact ⟨h0, zero_not_mem_quotedArg s⟩
      rw [appendArgs, hfirst, except_ok_bind, hsecond, except_ok_bind, hthird, except_ok_bind,
        ih hnext (by rw [List.length_append, length_quotedArg]; omega), quotedArgs_some,
        List.append_assoc]

/-- The concatenation stays inside its buffer, and the text is complete. -/
theorem concatenate_eq (arg : CString) (args : List (Option CString)) :
    concatenate (some arg :: args) = .ok (.ofList (arg.bytes ++ quotedArgs args)) := by
  have hargs := @length_quotedArgs_le args
  have hsize : arg.bytes.length + (quotedArgs args).length < cmdlineSize (some arg :: args) := by
    rw [cmdlineSize, argvLen, List.length_cons]
    omega
  have h0 : 0 ∉ arg.bytes ++ quotedArgs args := by
    rw [List.mem_append, not_or]
    exact ⟨arg.noNul, zero_not_mem_quotedArgs⟩
  rw [concatenate, ← filled_nil, strncpyFrom_filled (by omega), except_ok_bind,
    appendArgs_filled arg.noNul hsize, except_ok_bind, str_filled h0 (by rwa [List.length_append])]

end

theorem buildCmdline_eq (w : World) :
    buildCmdline w =
      if w.cmdlineMalloc then (checked (concatenate (w.argv.map some))).map fun _ => ()
      else .error (.cleanExit exitFailure .undefined) := by
  unfold buildCmdline
  split
  · cases w.argv with
    | nil => rfl
    | cons arg args =>
      rw [List.map_cons, concatenate_eq, if_neg (by simp)]
      rfl
  · rfl

section
variable {args args' : List CString} {last last' : Option CString}

def QuoteFree (args : List CString) : Prop := ∀ s ∈ args, 34 ∉ s.bytes

theorem quotedArgs_cons (s : CString) (args : List CString) :
    quotedArgs ((s :: args).map some) = 32 :: 34 :: (s.bytes ++ 34 :: quotedArgs (args.map some)) := by
  simp [quotedArgs, quotedArg]

private theorem upToQuote_inj {a b x y : List Byte} (ha : 34 ∉ a) (hb : 34 ∉ b)
    (h : a ++ 34 :: x = b ++ 34 :: y) : a = b ∧ x = y := by
  have hfront : a = b := by
    have htake := congrArg (List.takeWhile (· ≠ 34)) h
    rwa [Text.takeWhile_ne_stop ha, Text.takeWhile_ne_stop hb] at htake
  subst hfront
  exact ⟨rfl, (List.cons.inj (List.append_cancel_left h)).2⟩

theorem quotedArgs_inj (hfree : QuoteFree args) (hfree' : QuoteFree args')
    (hshort : last ≠ none → args'.length ≤ args.length) (hshort' : last' ≠ none → args.length ≤ args'.length)
    (h : quotedArgs ((args ++ last.toList).map some) = quotedArgs ((args' ++ last'.toList).map some)) :
    args ++ last.toList = args' ++ last'.toList := by
  induction args generalizing args' with
  | nil =>
    cases args' with
    | nil =>
      cases last with
      | none =>
        cases last' with
        | none => rfl
        | some z' => simp [quotedArgs, quotedArg] at h
      | some z =>
        cases last' with
        | none => simp [quotedArgs, quotedArg] at h
        | some z' =>
          have hbytes : z.bytes = z'.bytes := by simpa [quotedArgs, quotedArg] using h
          rw [CString.ext hbytes]
    | cons s' args' =>
      cases last with
      | none =>
        rw [List.cons_append, quotedArgs_cons] at h
        simp [quotedArgs] at h
      | some z => exact absurd (hshort (by simp)) (by simp)
  | cons s args ih =>
    cases args' with
    | nil =>
      cases last' with
      | none =>
        rw [List.cons_append, quotedArgs_cons] at h
        simp [quotedArgs] at h
      | some z' => exact absurd (hshort' (by simp)) (by simp)
    | cons s' args' =>
      obtain ⟨hs, hfree⟩ := List.forall_mem_cons.mp hfree
      obtain ⟨hs', hfree'⟩ := List.forall_mem_cons.mp hfree'
      rw [List.cons_append, List.cons_append, quotedArgs_cons, quotedArgs_cons] at h
      obtain ⟨hbytes, hrest⟩ := upToQuote_inj hs hs' (List.cons.inj (List.cons.inj h).2).2
      have hargs := ih hfree hfree' (fun hne => Nat.le_of_succ_le_succ (hshort hne))
        (fun hne => Nat.le_of_succ_le_succ (hshort' hne)) hrest
      rw [List.cons_append, List.cons_append, CString.ext hbytes, hargs]

end

/-- The two forms of `newargv`: all arguments are from the configuration and the hosts file, but
for the one the client may have put behind those of `ssh`. -/
structure Vector (path : CString) (args : List CString) (last : Option CString)
    (argv : List (Option CString)) : Prop where
  argv : argv = (path :: (args ++ last.toList)).map some
  place : args.length = 5 ∨ args.length = 4 ∧ last = none

section
variable {path path' text text' : CString} {args args' : List CString} {last last' : Option CString}
  {argv argv' : List (Option CString)}

theorem Vector.concatenate (h : Vector path args last argv) :
    concatenate argv = .ok (.ofList (path.bytes ++ quotedArgs ((args ++ last.toList).map some))) := by
  rw [h.argv, List.map_cons]
  exact concatenate_eq path _

theorem Vector.length_lt (h : Vector path args last argv) : argv.length < newargvSize := by
  have hlast : last.toList.length ≤ 1 := by cases last <;> simp
  rw [h.argv, newargvSize]
  simp only [List.length_map, List.length_cons, List.length_append]
  rcases h.place with hplace | ⟨hplace, -⟩
  · omega
  · omega

private theorem Vector.quoteFree (h : Vector path args last argv)
    (hfree : ∀ s, some s ∈ argv.take 6 → 34 ∉ s.bytes) : 34 ∉ path.bytes ∧ QuoteFree args := by
  have hle : args.length ≤ 5 := by
    rcases h.place with hplace | ⟨hplace, -⟩
    · omega
    · omega
  have htake : argv.take 6 = some path :: ((args ++ last.toList).map some).take 5 := by
    rw [h.argv]
    rfl
  rw [htake] at hfree
  refine ⟨hfree path (by simp), ?_⟩
  intro s hs
  apply hfree s
  refine List.mem_cons_of_mem _ ?_
  rw [← List.map_take, List.take_append, List.take_of_length_le hle]
  exact List.mem_map_of_mem (List.mem_append_left _ hs)

/-- The text of a vector tells it from the other ones. -/
theorem Vector.inj (h : Vector path args last argv) (h' : Vector path' args' last' argv')
    (hfree : ∀ s, some s ∈ argv.take 6 → 34 ∉ s.bytes) (hfree' : ∀ s, some s ∈ argv'.take 6 → 34 ∉ s.bytes)
    (htext : Stonesh.concatenate argv = Stonesh.concatenate argv') : argv = argv' := by
  have h0 (s : CString) (args : List (Option CString)) : 0 ∉ s.bytes ++ quotedArgs args := by
    rw [List.mem_append, not_or]
    exact ⟨s.noNul, zero_not_mem_quotedArgs⟩
  rw [h.concatenate, h'.concatenate] at htext
  have htext := congrArg CString.bytes (Except.ok.inj htext)
  rw [CString.ofList_bytes (h0 _ _), CString.ofList_bytes (h0 _ _)] at htext
  obtain ⟨hpath, hargs⟩ := h.quoteFree hfree
  obtain ⟨hpath', hargs'⟩ := h'.quoteFree hfree'
  have hplace := h.place
  have hplace' := h'.place
  have hcons {args : List CString} {last : Option CString} (hlen : args.length ≠ 0) :
      ∃ more, quotedArgs ((args ++ last.toList).map some) = 32 :: 34 :: more := by
    cases args with
    | nil => exact absurd rfl hlen
    | cons s args => exact ⟨_, quotedArgs_cons s _⟩
  obtain ⟨more, hmore⟩ := @hcons args last (by omega)
  obtain ⟨more', hmore'⟩ := @hcons args' last' (by omega)
  -- the path ends in front of the blank and the first quote
  have hblank (l more : List Byte) : l ++ 32 :: 34 :: more = (l ++ [32]) ++ 34 :: more := by simp
  rw [hmore, hmore', hblank, hblank] at htext
  obtain ⟨hfront, hrest⟩ := upToQuote_inj (by simp [hpath]) (by simp [hpath']) htext
  have hquoted : quotedArgs ((args ++ last.toList).map some) =
      quotedArgs ((args' ++ last'.toList).map some) := by rw [hmore, hmore', hrest]
  have hshort (hne : last ≠ none) : args'.length ≤ args.length := by
    rcases hplace with hplace | ⟨-, hnone⟩
    · omega
    · exact absurd hnone hne
  have hshort' (hne : last' ≠ none) : args.length ≤ args'.length := by
    rcases hplace' with hplace' | ⟨-, hnone⟩
    · omega
    · exact absurd hnone hne
  rw [h.argv, h'.argv, CString.ext (List.append_cancel_right hfront),
    quotedArgs_inj hargs hargs' hshort hshort' hquoted]

end

section
variable {w w' : World} {fuel fuel' : Nat} {argv argv' : List (Option CString)}

theorem vector_of_execvp (h : .execvp argv ∈ (main w fuel).1) :
    ∃ path args last, Vector path args last argv := by
  obtain ⟨p, hp, hevent⟩ := mem_run_trace.mp h
  obtain ⟨cl, o, hof⟩ := prepare_ok hp
  obtain ⟨hentry, ⟨port, hport⟩, -⟩ := hof.entry
  rcases hevent with hevent | ⟨argHost, hauthorized, hevent⟩
  · rcases mem_authorize_trace.mp hevent with he | ⟨l, -, he⟩
    · exact absurd he (by simp)
    · exact absurd he (by simp)
  · obtain ⟨r, auth, hr, -, -, rfl⟩ := authorize_ok hauthorized
    obtain ⟨-, -, htrim⟩ := (authUser_run w.ldap w.files hof.accepted _ _ _).value r hr
    obtain ⟨host, hhost⟩ : ∃ host, r.host = some host := by
      rw [hentry] at htrim
      rcases htrim with htrim | htrim
      · exact ⟨p.host, htrim⟩
      · exact ⟨trimmedString p.host, htrim⟩
    have hargv := MainEvent.execvp.inj (mem_handOver_trace hevent)
    rw [newargv, hhost, hport] at hargv
    obtain ⟨nc, hnc, -⟩ := hof.accepted.strings .ncPath (by decide) (by decide)
    obtain ⟨timeout, htimeout, -⟩ := hof.accepted.strings .ncTimeout (by decide) (by decide)
    obtain ⟨ssh, hssh, -⟩ := hof.accepted.strings .sshPath (by decide) (by decide)
    have hnc : p.options.ncPath = some nc := hnc
    have htimeout : p.options.ncTimeout = some timeout := htimeout
    have hssh : p.options.sshPath = some ssh := hssh
    rw [hnc, htimeout, hssh] at hargv
    split at hargv
    · exact ⟨nc, [.lit "-w", timeout, host, port], none, hargv, Or.inr ⟨rfl, rfl⟩⟩
    · refine ⟨ssh, [.lit "-p", port, .lit "-q", host, .lit "--"], p.command.args, ?_, Or.inl rfl⟩
      rw [hargv]
      simp

/-- Before a program is executed its command line is written into a buffer without leaving it, and
the vector has room for its NULL. Where no configured argument has a quote in it, the text
identifies the vector: two runs, on any machines, that write the same text execute the same thing,
whatever the client has written behind the host. -/
theorem newcmdline_identifies (h : .execvp argv ∈ (main w fuel).1) (h' : .execvp argv' ∈ (main w' fuel').1) :
    argv.length < newargvSize ∧ ∃ text text', concatenate argv = .ok text ∧
      concatenate argv' = .ok text' ∧
      ((∀ s, some s ∈ argv.take 6 → 34 ∉ s.bytes) → (∀ s, some s ∈ argv'.take 6 → 34 ∉ s.bytes) →
        (text = text' ↔ argv = argv')) := by
  obtain ⟨path, args, last, hvector⟩ := vector_of_execvp h
  obtain ⟨path', args', last', hvector'⟩ := vector_of_execvp h'
  refine ⟨hvector.length_lt, _, _, hvector.concatenate, hvector'.concatenate, ?_⟩
  intro hfree hfree'
  constructor
  · intro htext
    apply hvector.inj hvector' hfree hfree'
    rw [hvector.concatenate, hvector'.concatenate, htext]
  · rintro rfl
    exact Except.ok.inj (hvector.concatenate.symm.trans hvector'.concatenate)

end

/-- What bob executes when he puts this behind the name of the host. -/
def bobArgv (args : String) : List (Option CString) :=
  [some (.lit "/usr/bin/ssh"), some (.lit "-p"), some (.lit "2222"), some (.lit "-q"), some (.lit "web"),
    some (.lit "--"), some (.lit args)]

theorem bobArgv_plain (args : String) : ∀ s, some s ∈ (bobArgv args).take 6 → 34 ∉ s.bytes := by
  intro s hs
  simp only [bobArgv, List.take_succ_cons, List.take_zero, List.mem_cons, Option.some.injEq,
    List.not_mem_nil, or_false] at hs
  rcases hs with rfl | rfl | rfl | rfl | rfl | rfl <;> decide

/-- One argument with quotes in it, and the same without. -/
theorem newcmdline_identifies_bob :
    (bobArgv "ls\" \"-l").length < newargvSize ∧
      ∃ text text', concatenate (bobArgv "ls\" \"-l") = .ok text ∧
        concatenate (bobArgv "ls -l") = .ok text' ∧
        (text = text' ↔ bobArgv "ls\" \"-l" = bobArgv "ls -l") := by
  have hquoted : .execvp (bobArgv "ls\" \"-l") ∈
      (main (bobWorld "web ls\" \"-l" "" "web:2222\n" "bob:web\n") 1).1 := by decide +kernel
  have hplain : .execvp (bobArgv "ls -l") ∈
      (main (bobWorld "web ls -l" "" "web:2222\n" "bob:web\n") 1).1 := by decide +kernel
  obtain ⟨hroom, text, text', htext, htext', hiff⟩ := newcmdline_identifies hquoted hplain
  exact ⟨hroom, text, text', htext, htext', hiff (bobArgv_plain _) (bobArgv_plain _)⟩

end Stonesh
