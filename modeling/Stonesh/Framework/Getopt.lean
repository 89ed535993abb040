import Stonesh.Framework.Block

/-!
# Command-line options

`getopt` over a whole argument vector, as the sequence of its return values. An element may hold
several options; an option that takes an argument has the rest of its element, or the next element
where nothing is left. Elements that are no options are passed over, unless the environment asks
for the behaviour of POSIX, where the first of them ends the options.
-/

namespace CLib

/-- One return value of `getopt`; `?` is returned for an option that is unknown or lacks its
argument. -/
inductive Opt
  | option (c : Byte) (optarg : Option CString)
  | unknown (c : Byte)
  deriving DecidableEq

def takesArgument : List Byte → Byte → Option Bool
  | [], _ => none
  | d :: 58 :: rest, c => if d = c then some true else takesArgument rest c
  | d :: rest, c => if d = c then some false else takesArgument rest c

/-- The options of one element, and the option that takes the next element as its argument. -/
def getoptElement (optstring : List Byte) : List Byte → List Opt × Option Byte
  | [] => ([], none)
  | c :: cs =>
    match takesArgument optstring c with
    | some true => if cs = [] then ([], some c) else ([.option c (some (.ofList cs))], none)
    | some false =>
      let (opts, pending) := getoptElement optstring cs
      (.option c none :: opts, pending)
    | none =>
      let (opts, pending) := getoptElement optstring cs
      (.unknown c :: opts, pending)

/-- The return values for the elements behind the name of the program. -/
def getopt (optstring : List Byte) (posixlyCorrect : Bool) : List CString → List Opt
  | [] => []
  | arg :: rest =>
    if arg.bytes = [45, 45] then []
    else if arg.bytes.head? = some 45 ∧ arg.bytes ≠ [45] then
      let (opts, pending) := getoptElement optstring arg.bytes.tail
      match pending, rest with
      | none, rest => opts ++ getopt optstring posixlyCorrect rest
      | some c, [] => opts ++ [.unknown c]
      | some c, optarg :: rest =>
        opts ++ .option c (some optarg) :: getopt optstring posixlyCorrect rest
    else if posixlyCorrect then []
    else getopt optstring posixlyCorrect rest

def Opt.argument (c : Byte) : Opt → Option CString
  | .option d optarg => if d = c then optarg else none
  | .unknown _ => none

def lastArgument (c : Byte) (opts : List Opt) : Option CString :=
  (opts.filterMap (Opt.argument c)).getLast?

theorem lastArgument_cons (c : Byte) (opt : Opt) (opts : List Opt) :
    lastArgument c (opt :: opts) = (lastArgument c opts).or (opt.argument c) := by
  unfold lastArgument
  cases h : opt.argument c with
  | none => rw [List.filterMap_cons_none h, Option.or_none]
  | some arg =>
    rw [List.filterMap_cons_some h, List.getLast?_cons]
    cases (opts.filterMap (Opt.argument c)).getLast? <;> rfl

section
variable {optstring : List Byte} {posixlyCorrect : Bool} {c : Byte} {optarg : Option CString}

private theorem getoptElement_options (cs : List Byte) :
    (∀ c optarg, .option c optarg ∈ (getoptElement optstring cs).1 →
        takesArgument optstring c = some optarg.isSome) ∧
      ∀ c, (getoptElement optstring cs).2 = some c → takesArgument optstring c = some true := by
  induction cs with
  | nil => simp [getoptElement]
  | cons d cs ih =>
    obtain ⟨hopts, hpending⟩ := ih
    rw [getoptElement]
    cases htakes : takesArgument optstring d with
    | none =>
      refine ⟨?_, hpending⟩
      intro c optarg h
      rcases List.mem_cons.mp h with h | h
      · simp at h
      · exact hopts c optarg h
    | some takes =>
      cases takes with
      | false =>
        refine ⟨?_, hpending⟩
        intro c optarg h
        rcases List.mem_cons.mp h with h | h
        · obtain ⟨rfl, rfl⟩ := Opt.option.inj h
          exact htakes
        · exact hopts c optarg h
      | true =>
        by_cases hnil : cs = []
        · simp only [hnil, if_true]
          refine ⟨by simp, ?_⟩
          rintro c ⟨⟩
          exact htakes
        · simp only [hnil, if_false]
          refine ⟨?_, by simp⟩
          intro c optarg h
          obtain ⟨rfl, rfl⟩ := Opt.option.inj (List.mem_singleton.mp h)
          exact htakes

theorem takesArgument_of_mem_getopt {args : List CString}
    (h : .option c optarg ∈ getopt optstring posixlyCorrect args) :
    takesArgument optstring c = some optarg.isSome := by
  have helement (arg : CString) := @getoptElement_options optstring arg.bytes.tail
  induction args using getopt.induct optstring posixlyCorrect with
  | case1 => simp [getopt] at h
  | case2 arg rest hend => simp [getopt, hend] at h
  | case3 arg hend hdash opts rest hopts ih =>
    have hrun : getopt optstring posixlyCorrect (arg :: rest) =
        opts ++ getopt optstring posixlyCorrect rest := by
      rw [getopt, if_neg hend, if_pos hdash, hopts]
    rw [hrun] at h
    rcases List.mem_append.mp h with h | h
    · exact (helement arg).1 c optarg (by rwa [hopts])
    · exact ih h
  | case4 arg hend hdash opts d hopts =>
    have hrun : getopt optstring posixlyCorrect [arg] = opts ++ [.unknown d] := by
      rw [getopt, if_neg hend, if_pos hdash, hopts]
    rw [hrun] at h
    rcases List.mem_append.mp h with h | h
    · exact (helement arg).1 c optarg (by rwa [hopts])
    · simp at h
  | case5 arg hend hdash opts d next rest hopts ih =>
    have hrun : getopt optstring posixlyCorrect (arg :: next :: rest) =
        opts ++ .option d (some next) :: getopt optstring posixlyCorrect rest := by
      rw [getopt, if_neg hend, if_pos hdash, hopts]
    rw [hrun] at h
    rcases List.mem_append.mp h with h | h
    · exact (helement arg).1 c optarg (by rwa [hopts])
    · rcases List.mem_cons.mp h with h | h
      · obtain ⟨rfl, rfl⟩ := Opt.option.inj h
        exact (helement arg).2 c (by rw [hopts])
      · exact ih h
  | case6 arg rest hend hdash hposix =>
    rw [getopt, if_neg hend, if_neg hdash, if_pos hposix] at h
    simp at h
  | case7 arg rest hend hdash hposix ih =>
    rw [getopt, if_neg hend, if_neg hdash, if_neg hposix] at h
    exact ih h

end

end CLib
