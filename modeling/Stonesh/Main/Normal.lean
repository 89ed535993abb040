import Stonesh.Main.Program

/-!
# Command lines in normal form

An option of the command line may be given alone or among others, with its argument in the same
element or in the next one, before or behind operands, and more than once. What `main` reads off it
is no more than this: whether it is asked for its usage or its version and is to end, whether it is
to log to standard error, and the last file and the last command. A command line that says this and
nothing else leads to the same run, up to the text that is shown before the end.
-/

namespace Stonesh

open CLib

def World.opts (w : World) : List Opt := getopt (bytes "c:C:lhv") w.posixlyCorrect w.argv.tail

def EndsProgram (opts : List Opt) : Prop := .option 104 none ∈ opts ∨ .option 118 none ∈ opts

instance (opts : List Opt) : Decidable (EndsProgram opts) := inferInstanceAs (Decidable (_ ∨ _))

/-- The elements that say what the options say. -/
def normalArgs (opts : List Opt) : List CString :=
  if EndsProgram opts then [.lit "-h"]
  else (if .option 108 none ∈ opts then [.lit "-l"] else []) ++
    (lastArgument 67 opts).elim [] (fun file => [.lit "-C", file]) ++
    (lastArgument 99 opts).elim [] (fun command => [.lit "-c", command])

/-- The same machine with the command line in normal form. -/
def World.normal (w : World) : World := { w with argv := w.argv.take 1 ++ normalArgs w.opts }

/-- Every option is one of the program's, with an argument exactly if it takes one. -/
def Known (opts : List Opt) : Prop :=
  ∀ c optarg, .option c optarg ∈ opts → takesArgument (bytes "c:C:lhv") c = some optarg.isSome

section
variable {w : World} {opts : List Opt} {c : Byte} {optarg : Option CString}

private theorem known_cases (h : takesArgument (bytes "c:C:lhv") c = some optarg.isSome) :
    (∃ s, optarg = some s) ∧ (c = 99 ∨ c = 67) ∨ optarg = none ∧ (c = 108 ∨ c = 104 ∨ c = 118) := by
  have hbytes : bytes "c:C:lhv" = [99, 58, 67, 58, 108, 104, 118] := by decide
  rw [hbytes] at h
  cases optarg with
  | none =>
    refine Or.inr ⟨rfl, ?_⟩
    simp [takesArgument] at h
    grind
  | some s =>
    refine Or.inl ⟨⟨s, rfl⟩, ?_⟩
    simp [takesArgument] at h
    grind

private theorem readOptions_eq (h : Known opts) (cl : CommandLine) :
    readOptions w opts cl =
      if EndsProgram opts then .error (.exit exitFailure)
      else .ok ⟨(lastArgument 99 opts).or cl.cval,
        (lastArgument 67 opts).elim cl.configFile (copyString w),
        if .option 108 none ∈ opts then 1 else cl.logToStderr⟩ := by
  induction opts generalizing cl with
  | nil => rfl
  | cons opt opts ih =>
    have hrest : Known opts := fun c optarg hm => h c optarg (List.mem_cons_of_mem _ hm)
    cases opt with
    | unknown c =>
      have hends : EndsProgram (.unknown c :: opts) ↔ EndsProgram opts := by simp [EndsProgram]
      rw [readOptions, ih hrest]
      simp [hends, lastArgument_cons, Opt.argument]
    | option c optarg =>
      have hends (hother : c ≠ 104 ∧ c ≠ 118) :
          EndsProgram (.option c optarg :: opts) ↔ EndsProgram opts := by
        simp [EndsProgram, hother.1.symm, hother.2.symm]
      rcases known_cases (h c optarg (by simp)) with ⟨⟨s, rfl⟩, rfl | rfl⟩ | ⟨rfl, rfl | rfl | rfl⟩
      · rw [readOptions, if_pos rfl, ih hrest]
        simp [hends, lastArgument_cons, Opt.argument]
      · rw [readOptions, if_neg (by decide), if_pos rfl, ih hrest]
        cases hfile : lastArgument 67 opts <;> simp [hends, lastArgument_cons, Opt.argument, hfile]
      · rw [readOptions, if_neg (by decide), if_neg (by decide), if_pos rfl, ih hrest]
        simp [hends, lastArgument_cons, Opt.argument]
      · have hends : EndsProgram (.option 104 none :: opts) := Or.inl (by simp)
        rw [readOptions, if_neg (by decide), if_neg (by decide), if_neg (by decide), if_pos hends]
        rfl
      · have hends : EndsProgram (.option 118 none :: opts) := Or.inr (by simp)
        rw [readOptions, if_neg (by decide), if_neg (by decide), if_neg (by decide), if_pos hends]
        rfl

theorem known_opts (w : World) : Known w.opts :=
  fun _ _ h => takesArgument_of_mem_getopt h

private theorem tail_normal (w : World) : w.normal.argv.tail = normalArgs w.opts := by
  unfold World.normal World.opts
  cases w.argv with
  | nil => rfl
  | cons program args => simp

private theorem opts_normal (w : World) : w.normal.opts =
    if EndsProgram w.opts then [.option 104 none]
    else (if .option 108 none ∈ w.opts then [.option 108 none] else []) ++
      (lastArgument 67 w.opts).elim [] (fun file => [.option 67 (some file)]) ++
      (lastArgument 99 w.opts).elim [] (fun command => [.option 99 (some command)]) := by
  have hopts : w.normal.opts = getopt (bytes "c:C:lhv") w.posixlyCorrect (normalArgs w.opts) := by
    rw [← tail_normal]
    rfl
  rw [hopts, normalArgs]
  by_cases hends : EndsProgram w.opts
  · rw [if_pos hends, if_pos hends]
    rfl
  · rw [if_neg hends, if_neg hends]
    by_cases hlog : .option 108 none ∈ w.opts
    · rw [if_pos hlog, if_pos hlog]
      cases lastArgument 67 w.opts <;> cases lastArgument 99 w.opts <;> rfl
    · rw [if_neg hlog, if_neg hlog]
      cases lastArgument 67 w.opts <;> cases lastArgument 99 w.opts <;> rfl

private theorem commandLine_eq (w : World) : commandLine w =
    if EndsProgram w.opts then .error (.exit exitFailure)
    else .ok ⟨lastArgument 99 w.opts, (lastArgument 67 w.opts).elim none (copyString w),
      if .option 108 none ∈ w.opts then 1 else 0⟩ := by
  have hread := readOptions_eq (w := w) (known_opts w) ⟨none, none, 0⟩
  rw [Option.or_none] at hread
  exact hread

theorem commandLine_normal (w : World) : commandLine w.normal = commandLine w := by
  rw [commandLine_eq, commandLine_eq, opts_normal]
  have hcopy : copyString w.normal = copyString w := rfl
  rw [hcopy]
  by_cases hends : EndsProgram w.opts
  · have hnormal : EndsProgram [.option 104 none] := Or.inl (by simp)
    rw [if_pos hends, if_pos hends, if_pos hnormal]
  · rw [if_neg hends, if_neg hends]
    by_cases hlog : .option 108 none ∈ w.opts
    · rw [if_pos hlog, if_pos hlog]
      cases lastArgument 67 w.opts <;> cases lastArgument 99 w.opts <;> rfl
    · rw [if_neg hlog, if_neg hlog]
      cases lastArgument 67 w.opts <;> cases lastArgument 99 w.opts <;> rfl

theorem buildCmdline_normal (w : World) : buildCmdline w.normal = buildCmdline w := by
  have hargv : w.normal.argv = [] ↔ w.argv = [] := by
    unfold World.normal World.opts
    cases w.argv with
    | nil => simp [getopt, normalArgs, EndsProgram, lastArgument]
    | cons program args => simp
  unfold buildCmdline
  simp only [hargv]
  rfl

/-- **Normal form**: `main` runs alike on a command line and on its normal form, whatever the
machine, the files and the directory are. -/
theorem main_normal (w : World) (fuel : Nat) : main w.normal fuel = main w fuel := by
  have hprepare : prepare w.normal fuel = prepare w fuel := by
    unfold prepare
    rw [commandLine_normal, buildCmdline_normal]
    rfl
  have hrun : run w.normal fuel = run w fuel := by
    unfold run
    rw [hprepare]
    rfl
  unfold main
  rw [hrun]
  rfl

end

end Stonesh
