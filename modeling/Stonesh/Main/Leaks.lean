import Mathlib.Data.List.Nodup
import Stonesh.Framework.Frugal
import Stonesh.Main.Cleanup

/-!
# What the program hands back

Every string that `main` and the functions behind it store in the pointers of the program, in its
options and in the static host entry is released by the time `main` returns: no pointer is set
while it holds a live object, and the clean-up leaves none behind. The exception is the name of a
configuration file when the option `C` is given again.
-/

namespace Stonesh

open CLib Ownership

section
variable {o o' : Options} {status : Int} {target : Target} {activep : Option Int} {arg : Option CString}

private theorem storeArgument_kept {f g : StrField} (h : storeArgument o f activep arg = .ok o')
    (hg : o.str g ≠ none) : o'.str g = o.str g := by
  unfold storeArgument at h
  split at h
  · simp at h
  · split at h
    · next hempty =>
      obtain ⟨s, -, h⟩ := except_bind_eq_ok.mp h
      have hne : g ≠ f := by
        rintro rfl
        exact hg hempty.2
      rw [← Except.ok.inj h, Options.str_setStr, if_neg hne]
    · rw [← Except.ok.inj h]

theorem assign_kept {f : StrField} (h : target.assign o activep arg = .ok (status, o')) (hf : o.str f ≠ none) :
    o'.str f = o.str f := by
  cases target with
  | flag g =>
    cases arg with
    | none => rw [← (Prod.mk.inj (Except.ok.inj h)).2]
    | some arg =>
      simp only [Target.assign, parseFlag] at h
      split at h
      · rw [← (Prod.mk.inj (Except.ok.inj h)).2]
      · rw [← (Prod.mk.inj (Except.ok.inj h)).2]
        split
        · exact Options.str_setInt _ _ _ _
        · rfl
  | string g =>
    obtain ⟨o'', hstored, h⟩ := except_bind_eq_ok.mp h
    rw [← (Prod.mk.inj (Except.ok.inj h)).2]
    exact storeArgument_kept hstored hf
  | timeout =>
    obtain ⟨o'', hstored, h⟩ := except_bind_eq_ok.mp h
    rw [← (Prod.mk.inj (Except.ok.inj h)).2]
    exact storeArgument_kept hstored hf
  | bad => rw [← (Prod.mk.inj (Except.ok.inj h)).2]
  | unimplemented => rw [← (Prod.mk.inj (Except.ok.inj h)).2]

theorem processConfigLine_kept {line : List Byte} {f : StrField}
    (h : processConfigLine o (line ++ [0]) activep = .ok (status, o')) (hf : o.str f ≠ none) :
    o'.str f = o.str f := by
  rw [processConfigLine_eq, processText] at h
  split at h
  · rw [← (Prod.mk.inj (Except.ok.inj h)).2]
  · obtain ⟨keyword, -, h⟩ := except_bind_eq_ok.mp h
    split at h
    · rw [← (Prod.mk.inj (Except.ok.inj h)).2]
    · rw [← (Prod.mk.inj (Except.ok.inj h)).2]
    · obtain ⟨⟨status', o''⟩, hassign, h⟩ := except_bind_eq_ok.mp h
      have hsame : o'' = o' := by
        simp only at h
        split at h
        · obtain ⟨status, -, h⟩ := except_bind_eq_ok.mp h
          exact (Prod.mk.inj (Except.ok.inj h)).2
        · exact (Prod.mk.inj (Except.ok.inj h)).2
      rw [← hsame]
      exact assign_kept hassign hf

end

namespace Owned

def Held (o : Options) : Set MainPtr := {p | p = .cval ∨ ∃ f, p = .option f ∧ o.str f ≠ none}

def Configured : Set MainPtr := {p | ∃ f, p = .option f}

def Entry : Set MainPtr := {p | ∃ f, p = .entry f}

def Found : Set MainPtr := insert .hostent (Entry ∪ insert .optionHost Configured)

/-- What may be live where a run stops, and is left to the code behind `clean_exit`. -/
def unreleased : Stop → Set MainPtr
  | .cleanExit _ .static => Found
  | .cleanExit _ _ => insert .optionHost Configured
  | _ => Set.univ

section
variable {w : World} {fuel : Nat}

private theorem storedSteps_saves {σ : Type} {before after : Options} {R : σ → Set MainPtr}
    (hkept : ∀ f, before.str f ≠ none → after.str f ≠ none) :
    Saves (Held before) (Traced.emits (storedSteps before after)) (fun _ => Held after) R := by
  apply saves_emits
  intro S hS
  have hsteps : storedSteps before after = ((strFields.filter fun f =>
      before.str f = none ∧ after.str f ≠ none).map MainPtr.option).map (.store · .fresh) := by
    rw [storedSteps, List.map_map]
    rfl
  have hfields : (strFields.filter fun f => before.str f = none ∧ after.str f ≠ none).Nodup :=
    List.Nodup.filter _ (by decide)
  have hinj : Function.Injective MainPtr.option := fun f g h => MainPtr.option.inj h
  rw [hsteps]
  obtain ⟨hfrugal, hwithin⟩ := @frugal_stores _ _ _ _ _ .fresh hS (hfields.map hinj) (by
    intro p hp hm
    obtain ⟨f, hf, rfl⟩ := List.mem_map.mp hp
    have hnone : before.str f = none := (of_decide_eq_true (List.mem_filter.mp hf).2).1
    rcases hm with hm | ⟨g, hg, hsome⟩
    · simp at hm
    · exact hsome (MainPtr.option.inj hg ▸ hnone))
  refine ⟨hfrugal, hwithin.mono ?_⟩
  rintro p ((hp | ⟨f, rfl, hf⟩) | ⟨hp, -⟩)
  · exact Or.inl hp
  · exact Or.inr ⟨f, rfl, hkept f hf⟩
  · obtain ⟨f, hf, rfl⟩ := List.mem_map.mp hp
    have hsome : after.str f ≠ none := (of_decide_eq_true (List.mem_filter.mp hf).2).2
    exact Or.inr ⟨f, rfl, hsome⟩

private theorem readConfigLoop_saves (lines : List (List Byte)) (o : Options) (badOptions : Nat) :
    Saves (Held o) (readConfigLoop lines o badOptions) (fun r => Held r.2) fun _ => Set.univ := by
  induction lines generalizing o badOptions with
  | nil => exact saves_pure _ le_rfl
  | cons line lines ih =>
    have hline : Saves (Held o) (Traced.lift id (processConfigLine o (line ++ [0]) (some 1)) :
        Traced (Step MainPtr) Fault (Int × Options)) (fun _ => Held o) fun _ => Set.univ :=
      saves_lift (fun _ _ => le_rfl) fun _ _ => Set.subset_univ _
    refine hline.bind ?_
    rintro ⟨err, o'⟩ hr
    have hkept (f : StrField) (hf : o.str f ≠ none) : o'.str f ≠ none := by
      rw [processConfigLine_kept (Traced.lift_result_eq_ok.mp hr) hf]
      exact hf
    refine (storedSteps_saves hkept).bind fun _ _ => ?_
    simp only
    split
    · exact saves_pure _ le_rfl
    · exact ih _ _

private theorem frugal_freeOptions {A : Set MainPtr} {S : MainPtr → Status} (hS : Within A S) :
    Frugal S freeOptionsSteps ∧
      Within (A \ insert .optionHost Configured) (effects S freeOptionsSteps) := by
  obtain ⟨hfrugal, hwithin⟩ := @frugal_drops _ _ _ _ [.option .ldapUri, .option .ldapBase, .option .ncPath,
    .option .sshPath, .option .proxyKeyword, .option .hostsFile, .option .usersFile, .option .ncTimeout,
    .option .authorizedServiceTag, .optionHost, .optionPort, .option .geoipDat, .option .geoip6Dat] hS
  refine ⟨hfrugal, hwithin.mono ?_⟩
  rintro p ⟨hp, hother⟩
  refine ⟨hp, ?_⟩
  rintro (rfl | ⟨f, rfl⟩)
  · exact hother (by simp)
  · exact hother (by cases f <;> simp)

private theorem readConfigFile_saves (files : CString → Option (List Byte)) (filename : CString) (o : Options) :
    Saves {.cval} (readConfigFile files filename o) (fun _ => insert .cval Configured) fun _ => Set.univ := by
  have hfree {A : Set MainPtr} (hA : A ⊆ insert .cval Configured) (r : Int × Options) :
      Saves A (do Traced.emits freeOptionsSteps; pure r : Traced (Step MainPtr) Fault (Int × Options))
        (fun _ => insert .cval Configured) fun _ => Set.univ := by
    refine Saves.bind (Q := fun _ => A) ?_ fun _ _ => saves_pure _ hA
    apply saves_emits
    intro S hS
    obtain ⟨hfrugal, hwithin⟩ := frugal_freeOptions hS
    exact ⟨hfrugal, hwithin.mono fun p hp => hp.1⟩
  have hheld (o : Options) : Held o ⊆ insert .cval Configured := by
    rintro p (hp | ⟨f, hp, -⟩)
    · exact Or.inl hp
    · exact Or.inr ⟨f, hp⟩
  unfold readConfigFile
  cases files filename with
  | none => exact hfree (by rintro p rfl; exact Or.inl rfl) _
  | some content =>
    have hinit : Saves {.cval} (Traced.emits initializeOptionsSteps : Traced (Step MainPtr) Fault Unit)
        (fun _ => Held initializeOptions) fun _ => Set.univ := by
      apply saves_emits
      intro S hS
      obtain ⟨hfrugal, hwithin⟩ := @frugal_stores _ _ _ _ optionPtrs .null hS (by decide) (by
        simp [optionPtrs])
      obtain ⟨hfrugal', hwithin'⟩ := @frugal_drops _ _ _ _ optionPtrs hwithin
      rw [initializeOptionsSteps, frugal_append]
      refine ⟨⟨hfrugal, hfrugal'⟩, ?_⟩
      rw [effects_append]
      refine hwithin'.mono ?_
      rintro p ⟨hp | ⟨-, hp⟩, -⟩
      · exact Or.inl hp
      · simp at hp
    refine hinit.bind fun _ _ => (readConfigLoop_saves _ _ _).bind ?_
    rintro ⟨bad, o⟩ -
    simp only
    split
    · exact hfree (hheld o) _
    · have hkept (f : StrField) (hf : o.str f ≠ none) : (fillDefaultOptions o).str f ≠ none := by
        rw [str_fillDefaultOptions]
        cases hstr : o.str f with
        | none => exact absurd hstr hf
        | some s => simp
      exact (storedSteps_saves hkept).bind fun _ _ => saves_pure _ (hheld _)

end

def Named (cl : CommandLine) : Set MainPtr := {p | p = .cval ∧ cl.configFile ≠ none}

/-- No option `C` follows a name that is live: the one the variable holds, or one of the options. -/
structure NamesOnce (w : World) (cl : CommandLine) (opts : List Opt) : Prop where
  first : cl.configFile ≠ none → ∀ name, .option 67 name ∉ opts
  rest : opts.Pairwise fun x y => ∀ name name', x = .option 67 name → y = .option 67 name' →
    name.bind (copyString w) = none

section
variable {w : World} {fuel : Nat} {cl : CommandLine} {o : Options}

private theorem NamesOnce.tail {opt : Opt} {opts : List Opt} (h : NamesOnce w cl (opt :: opts)) :
    NamesOnce w cl opts where
  first hne name hm := h.first hne name (List.mem_cons_of_mem _ hm)
  rest := (List.pairwise_cons.mp h.rest).2

private theorem readOptions_saves (opts : List Opt) (cl : CommandLine) (h : NamesOnce w cl opts) :
    Saves (Named cl) (readOptions w opts cl) Named unreleased := by
  induction opts generalizing cl with
  | nil => exact saves_pure _ le_rfl
  | cons opt opts ih =>
    cases opt with
    | unknown c => exact ih cl h.tail
    | option c optarg =>
      rw [readOptions]
      split
      · exact ih { cl with cval := optarg } ⟨h.tail.first, h.tail.rest⟩
      · split
        · next hc =>
          subst hc
          have hnone : cl.configFile = none := by
            by_contra hne
            exact h.first hne optarg (by simp)
          have hfree : .cval ∉ Named cl := fun hm => hm.2 hnone
          refine (saves_store hfree).bind fun _ _ => (ih _ ⟨?_, h.tail.rest⟩).weaken ?_ fun _ => le_rfl
          · intro hne name hm
            exact hne ((List.pairwise_cons.mp h.rest).1 _ hm optarg name rfl rfl)
          · intro p hp
            have hempty : Named cl = ∅ := by
              ext q
              simp [Named, hnone]
            cases hcopy : optarg.bind (copyString w) with
            | none => simp [hcopy, hempty] at hp
            | some file =>
              have hp : p = .cval := by simpa [hcopy, hempty] using hp
              exact ⟨hp, by simp⟩
        · split
          · exact ih { cl with logToStderr := 1 } ⟨h.tail.first, h.tail.rest⟩
          · exact saves_stop (Set.subset_univ _)

private theorem checked_saves {α : Type} {A : Set MainPtr} (x : Checked α) :
    Saves A (Traced.lift .fault x : MainRun α) (fun _ => A) unreleased :=
  saves_lift (fun _ _ => le_rfl) fun _ _ => Set.subset_univ _

private theorem loadOptions_saves (cl : CommandLine) :
    Saves (Named cl) (loadOptions w cl) (fun _ => Configured) unreleased := by
  have hname : Saves (Named cl) (configFile w cl) (fun _ => {.cval}) unreleased := by
    unfold configFile
    refine Saves.bind (Q := fun _ => {.cval}) ?_ fun _ _ => checked_saves _
    apply saves_emits
    intro S hS
    by_cases hnone : cl.configFile = none
    · have hdead : S .cval ≠ .live := fun h => (hS _ h).2 hnone
      rw [if_pos hnone]
      refine ⟨⟨trivial, hdead, trivial⟩, ?_⟩
      intro p hp
      change Function.update S .cval _ p = _ at hp
      rw [Function.update_apply] at hp
      split at hp
      · next he => exact he
      · exact absurd hnone (hS p hp).2
    · rw [if_neg hnone]
      exact ⟨⟨trivial, trivial⟩, fun p hp => (hS p hp).1⟩
  have hconfigured : (insert .cval Configured : Set MainPtr) \ {.cval} ⊆ Configured := by
    rintro p ⟨hp | hp, hne⟩
    · exact absurd hp hne
    · exact hp
  refine hname.bind fun file _ => ?_
  refine Saves.bind (saves_embed (readConfigFile_saves w.files file staticOptions) fun _ => Set.subset_univ _) ?_
  rintro ⟨result, o⟩ -
  refine Saves.bind (saves_drop.weaken le_rfl fun _ => hconfigured) fun _ _ => ?_
  split
  · exact saves_stop (Set.subset_insert _ _)
  · exact saves_pure _ le_rfl

private theorem buildCmdline_saves :
    Saves Configured (buildCmdline w) (fun _ => insert .cmdline Configured) unreleased := by
  have hfree : .cmdline ∉ Configured := by
    rintro ⟨f, hf⟩
    simp at hf
  refine (saves_store hfree).bind fun _ _ => ?_
  unfold Stonesh.buildCmdline
  cases w.cmdlineMalloc with
  | true =>
    refine saves_lift (fun _ _ => le_rfl) ?_
    intro s hs
    rw [if_pos rfl] at hs
    split at hs
    · rw [← Except.error.inj hs]
      exact Set.subset_univ _
    · simp at hs
  | false =>
    refine saves_lift (by simp) ?_
    intro s hs
    rw [if_neg (by decide)] at hs
    rw [← Except.error.inj hs]
    exact Set.subset_insert _ _

private theorem parseCommand_saves (o : Options) (cval : Option CString) :
    Saves (insert .cmdline Configured) (parseCommand o cval) (fun _ => Configured) unreleased := by
  have hdropped : (insert .cmdline Configured : Set MainPtr) \ {.cmdline} ⊆ Configured := by
    rintro p ⟨hp | hp, hne⟩
    · exact absurd hp hne
    · exact hp
  unfold parseCommand
  split
  · exact saves_stop (Set.subset_univ _)
  · refine Saves.bind (saves_drop.weaken le_rfl fun _ => hdropped) fun _ _ => ?_
    refine saves_lift (fun _ _ => le_rfl) ?_
    intro s hs
    cases s with
    | cleanExit status hostent =>
      rw [id, parseCommand_exit hs]
      exact Set.subset_insert _ _
    | _ => exact Set.subset_univ _

private theorem optionHost_not_mem : .optionHost ∉ Configured := by
  rintro ⟨f, hf⟩
  simp at hf

private theorem promptHost_saves (malloc : Nat → Bool) (round : Nat) (lines : List (List Byte)) :
    Saves Configured (promptHost malloc fuel round lines) (fun _ => insert .optionHost Configured)
      unreleased := by
  induction fuel generalizing round lines with
  | zero => exact saves_stop (Set.subset_univ _)
  | succ fuel ih =>
    refine (saves_store optionHost_not_mem).bind fun _ _ => ?_
    have hdropped : (insert .optionHost Configured : Set MainPtr) \ {.optionHost} ⊆ Configured := by
      rintro p ⟨hp | hp, hne⟩
      · exact absurd hp hne
      · exact hp
    split
    · simp only
      split
      · exact Saves.bind (saves_drop.weaken le_rfl fun _ => hdropped) fun _ _ => ih _ _
      · exact saves_pure _ le_rfl
    · exact saves_stop (Set.subset_insert _ _)

private theorem hostName_saves (o : Options) (command : Command) :
    Saves Configured (hostName w fuel o command) (fun _ => insert .optionHost Configured) unreleased := by
  have hrequest : Saves Configured (requestedHost w fuel o command) (fun _ => insert .optionHost Configured)
      unreleased := by
    unfold requestedHost
    cases command.host with
    | some host =>
      refine Saves.bind (Q := fun _ => insert .optionHost Configured) ?_ fun _ _ => ?_
      · apply saves_emits
        intro S hS
        refine ⟨⟨trivial, by simp [Step.Keeps, Step.effect], trivial⟩, ?_⟩
        intro p hp
        change Function.update (Function.update S .optionHost .null) .optionHost _ p = _ at hp
        rw [Function.update_idem, Function.update_apply] at hp
        split at hp
        · next he => exact Or.inl he
        · exact Or.inr (hS p hp)
      · split
        · exact saves_pure _ le_rfl
        · exact saves_stop le_rfl
    | none =>
      cases o.host with
      | some host => exact saves_pure _ (Set.subset_insert _ _)
      | none => exact promptHost_saves _ _ _
  refine hrequest.bind fun host _ => ?_
  split
  · exact checked_saves _
  · exact saves_pure _ le_rfl

private theorem findEntry_saves (o : Options) (host : CString) :
    Saves (insert .optionHost Configured) (findEntry w o host) (fun _ => Found) unreleased := by
  have hlookup : Saves (insert .optionHost Configured) (gethostentry w o host)
      (fun lookup => if lookup.found then Entry ∪ insert .optionHost Configured
        else insert .optionHost Configured)
      unreleased := by
    refine Saves.bind (Q := fun _ => insert .optionHost Configured) ?_ fun _ _ =>
      (checked_saves _).bind fun lookup _ => ?_
    · apply saves_emits
      intro S hS
      split
      · obtain ⟨hfrugal, hwithin⟩ := @frugal_drops _ _ _ _ entryPtrs hS
        exact ⟨hfrugal, hwithin.mono fun p hp => hp.1⟩
      · exact ⟨trivial, hS⟩
    · refine Saves.bind ?_ fun _ _ => saves_pure _ le_rfl
      apply saves_emits
      intro S hS
      cases lookup.found with
      | true =>
        obtain ⟨hfrugal, hwithin⟩ := @frugal_stores _ _ _ _ entryPtrs .fresh hS (by decide)
          (by simp [entryPtrs, Configured])
        refine ⟨hfrugal, hwithin.mono ?_⟩
        rintro p (hp | ⟨hp, -⟩)
        · exact Or.inr hp
        · refine Or.inl ?_
          have hp : p ∈ entryPtrs := hp
          simp only [entryPtrs, List.mem_cons, List.not_mem_nil, or_false] at hp
          rcases hp with rfl | rfl | rfl
          · exact ⟨.host, rfl⟩
          · exact ⟨.port, rfl⟩
          · exact ⟨.countries, rfl⟩
      | false => exact ⟨trivial, hS⟩
  refine hlookup.bind fun lookup _ => ?_
  have hfree : .hostent ∉ Entry ∪ insert .optionHost Configured := by simp [Entry, Configured]
  have hfree' : .hostent ∉ insert .optionHost Configured := fun hm => hfree (Or.inr hm)
  cases lookup.found with
  | true => exact (saves_store hfree).bind fun _ _ => saves_pure _ le_rfl
  | false => exact (saves_store hfree').bind fun _ _ => saves_stop le_rfl

/-- The option `C` has not been given again behind a name that was copied. -/
def NamedOnce (w : World) : Prop :=
  NamesOnce w ⟨none, none, 0⟩ (getopt (bytes "c:C:lhv") w.posixlyCorrect w.argv.tail)

private theorem run_saves (h : NamedOnce w) : Saves ∅ (run w fuel) (fun _ => Set.univ) unreleased := by
  have hprepare : Saves ∅ (prepare w fuel) (fun _ => Found) unreleased := by
    unfold prepare
    cases w.user with
    | none => exact saves_stop (Set.subset_univ _)
    | some user =>
      have hstart : (∅ : Set MainPtr) ⊆ Named ⟨none, none, 0⟩ := Set.empty_subset _
      refine (checked_saves _).bind fun rhost _ => ?_
      refine Saves.bind ((readOptions_saves _ _ h).weaken hstart fun _ => le_rfl) fun cl _ => ?_
      refine (loadOptions_saves cl).bind fun o _ => buildCmdline_saves.bind fun _ _ => ?_
      refine (parseCommand_saves o cl.cval).bind fun command _ => ?_
      refine (hostName_saves o command).bind fun host _ => (findEntry_saves _ host).bind fun entry _ => ?_
      exact saves_pure _ le_rfl
  refine hprepare.bind fun p _ => Saves.bind (Q := fun _ => Found) ?_ fun host _ => ?_
  · refine saves_lift (fun _ _ => le_rfl) ?_
    intro s hs
    rcases authorize_error hs with ⟨f, rfl⟩ | ⟨rfl, -⟩
    · exact Set.subset_univ _
    · exact le_rfl
  · refine saves_lift (fun _ _ => Set.subset_univ _) ?_
    intro s hs
    rw [handOver] at hs
    split at hs
    · rw [← Except.error.inj hs]
      exact le_rfl
    · rw [Traced.emit_bind] at hs
      split at hs
      · rw [← Except.error.inj hs]
        exact le_rfl
      · rw [← Except.error.inj hs]
        exact Set.subset_univ _

end

section
variable {w : World} {fuel : Nat}

private theorem cleanExit_saves {S : MainPtr → Status} {status : Int} {hostent : HostentPtr}
    (hS : Within (unreleased (.cleanExit status hostent)) S)
    (hend : hostent = .undefined → w.hostentNull = true) :
    Frugal S (cleanExit w hostent) ∧ Within {.hostent} (effects S (cleanExit w hostent)) := by
  have hempty {A : Set MainPtr} {S : MainPtr → Status} (hS : Within A S) (hA : A ⊆ insert .hostent
      (insert .optionHost Configured)) :
      Frugal S freeOptionsSteps ∧ Within {.hostent} (effects S freeOptionsSteps) := by
    obtain ⟨hfrugal, hwithin⟩ := frugal_freeOptions hS
    refine ⟨hfrugal, hwithin.mono ?_⟩
    rintro p ⟨hp, hne⟩
    rcases hA hp with hp | hp
    · exact hp
    · exact absurd hp hne
  cases hostent with
  | undefined =>
    rw [cleanExit, if_pos (hend rfl)]
    obtain ⟨hfrugal, hwithin⟩ := hempty hS (Set.subset_insert _ _)
    exact ⟨⟨trivial, hfrugal⟩, hwithin⟩
  | null =>
    obtain ⟨hfrugal, hwithin⟩ := hempty hS (Set.subset_insert _ _)
    exact ⟨⟨trivial, hfrugal⟩, hwithin⟩
  | static =>
    obtain ⟨hfrugal, hwithin⟩ := @frugal_drops _ _ _ _ entryPtrs hS
    have hrest : unreleased (.cleanExit status .static) \ {p | p ∈ entryPtrs} ⊆
        insert .hostent (insert .optionHost Configured) := by
      rintro p ⟨rfl | ⟨f, rfl⟩ | hp, hne⟩
      · exact Or.inl rfl
      · exact absurd (show .entry f ∈ entryPtrs by cases f <;> decide) hne
      · exact Or.inr hp
    obtain ⟨hfrugal', hwithin'⟩ := hempty hwithin hrest
    rw [cleanExit]
    refine ⟨⟨trivial, frugal_append.mpr ⟨hfrugal, hfrugal'⟩⟩, ?_⟩
    rw [effects_append]
    exact hwithin'

private theorem start_within : Within ∅ (Ledger.start MainPtr.initialized).status := by
  intro p hp
  rw [Ledger.status_start] at hp
  split at hp <;> simp at hp

private theorem main_saves {status : Int} (h : NamedOnce w)
    (hreturned : (Stonesh.main w fuel).2 = .returned status) :
    Frugal (Ledger.start MainPtr.initialized).status (main w fuel) ∧
      Within {.hostent} (effects (Ledger.start MainPtr.initialized).status (main w fuel)) := by
  have hrun : Saves ∅ (run w fuel) (fun _ => Set.univ) unreleased := run_saves h
  obtain ⟨hfrugal, -, hstop⟩ := hrun _ start_within
  have hmain : (Stonesh.main w fuel).2 = finish w (run w fuel).result := by rw [run_result]; rfl
  rw [hmain] at hreturned
  rw [main, frugal_append, effects_append]
  cases hresult : (run w fuel).result with
  | ok u => exact absurd (run_result.symm.trans hresult) run_not_ok
  | error s =>
    rw [hresult] at hreturned
    obtain ⟨hostent, rfl⟩ := finish_returned hreturned
    have hend : hostent = .undefined → w.hostentNull = true := by
      rintro rfl
      by_contra hnull
      simp [finish, hnull] at hreturned
    obtain ⟨hfrugal', hwithin⟩ := cleanExit_saves (hstop _ hresult) hend
    exact ⟨⟨hfrugal, hfrugal'⟩, hwithin⟩

private theorem NamesOnce.cons {cl : CommandLine} {opt : Opt} {opts : List Opt} (h : NamesOnce w cl opts)
    (hopt : ∀ name, opt ≠ .option 67 name) : NamesOnce w cl (opt :: opts) where
  first := by
    intro hne name hm
    rcases List.mem_cons.mp hm with hm | hm
    · exact hopt name hm.symm
    · exact h.first hne name hm
  rest := List.pairwise_cons.mpr ⟨fun _ _ name _ he => absurd he (hopt name), h.rest⟩

private theorem namesOnce_of_frugal {opts : List Opt} {cl : CommandLine} {S : MainPtr → Status}
    (hS : cl.configFile ≠ none → S .cval = .live)
    (hread : ∀ status, (readOptions w opts cl).result ≠ .error (.exit status))
    (h : Frugal S (readOptions w opts cl).trace) : NamesOnce w cl opts := by
  induction opts generalizing cl S with
  | nil => exact ⟨by simp, List.Pairwise.nil⟩
  | cons opt opts ih =>
    cases opt with
    | unknown c => exact (ih hS hread h).cons (by simp)
    | option c optarg =>
      have hother (hc : c ≠ 67) (name : Option CString) : Opt.option c optarg ≠ .option 67 name :=
        fun he => hc (Opt.option.inj he).1
      simp only [readOptions] at hread h
      split at hread
      · next hc =>
        rw [if_pos hc] at h
        obtain ⟨hfirst, hrest⟩ := @ih { cl with cval := optarg } S hS hread h
        exact NamesOnce.cons ⟨hfirst, hrest⟩ (hother (by simp [hc]))
      · next hc =>
        rw [if_neg hc] at h
        split at hread
        · next hC =>
          rw [if_pos hC] at h
          obtain ⟨hkeeps, hrest⟩ := h
          have hnone : cl.configFile = none := by
            by_contra hne
            exact hkeeps (hS hne)
          have hafter : optarg.bind (copyString w) ≠ none →
              Step.effect S (.store .cval (.ofBool (optarg.bind (copyString w)).isSome)) .cval = .live := by
            intro hne
            obtain ⟨file, hfile⟩ := Option.ne_none_iff_exists'.mp hne
            simp [Step.effect, hfile, Stored.ofBool, Stored.status]
          obtain ⟨hfirst, hpairs⟩ := ih hafter hread hrest
          refine ⟨fun hne => absurd hnone hne, List.pairwise_cons.mpr ⟨?_, hpairs⟩⟩
          rintro y hy name name' ⟨⟩ rfl
          by_contra hne
          exact hfirst hne name' hy
        · next hC =>
          rw [if_neg hC] at h
          split at hread
          · next hl =>
            rw [if_pos hl] at h
            obtain ⟨hfirst, hrest⟩ := @ih { cl with logToStderr := 1 } S hS hread h
            exact NamesOnce.cons ⟨hfirst, hrest⟩ (hother hC)
          · exact absurd rfl (hread exitFailure)

private theorem namedOnce_of_frugal {status : Int} (hreturned : (Stonesh.main w fuel).2 = .returned status)
    (h : Frugal (Ledger.start MainPtr.initialized).status (main w fuel)) : NamedOnce w := by
  have hmain : (Stonesh.main w fuel).2 = finish w (run w fuel).result := by rw [run_result]; rfl
  have hrun (s : Stop) (hs : (prepare w fuel).result = .error s) :
      ∃ status' hostent, s = .cleanExit status' hostent := by
    have hresult : (run w fuel).result = .error s := Traced.result_bind_eq_error.mpr (Or.inl hs)
    rw [hmain, hresult] at hreturned
    exact ⟨status, finish_returned hreturned⟩
  have hprepare : Frugal (Ledger.start MainPtr.initialized).status (prepare w fuel).trace :=
    frugal_of_bind (frugal_append.mp h).1
  unfold prepare at hrun hprepare
  cases huser : w.user with
  | none =>
    obtain ⟨status', hostent, hs⟩ := hrun (.exit exitFailure) (by rw [huser]; rfl)
    simp at hs
  | some user =>
    simp only [huser] at hrun hprepare
    cases hclient : clientAddress w with
    | error f =>
      have hfault : (Traced.lift .fault (clientAddress w) : MainRun _).result = .error (.fault f) :=
        Traced.lift_result_eq_error.mpr ⟨f, hclient, rfl⟩
      obtain ⟨status', hostent, hs⟩ := hrun _ (Traced.result_bind_eq_error.mpr (Or.inl hfault))
      simp at hs
    | ok rhost =>
      rw [hclient] at hrun hprepare
      refine namesOnce_of_frugal (by simp) ?_ (frugal_of_bind hprepare)
      intro status' hexit
      obtain ⟨status'', hostent, hs⟩ := hrun _ (Traced.result_bind_eq_error.mpr
        (Or.inr ⟨rhost, rfl, Traced.result_bind_eq_error.mpr (Or.inl hexit)⟩))
      simp at hs

end

end Owned

def mainLedger (w : World) (fuel : Nat) : Ledger MainPtr :=
  (Ledger.start MainPtr.initialized).run (Owned.main w fuel)

/-- Whenever `main` returns, everything that was stored in its pointers, its options or the static
entry has been released, unless a name for the configuration file replaces one that was copied. -/
theorem main_released_iff {w : World} {fuel : Nat} {status : Int}
    (h : (main w fuel).2 = .returned status) :
    (∀ id < (mainLedger w fuel).next, id ∈ (mainLedger w fuel).released ∨
        (mainLedger w fuel).content .hostent = .object id) ↔
      Owned.NamedOnce w := by
  have hnone (id : Nat) : ¬ (Ledger.start MainPtr.initialized).Lost id :=
    fun hlost => Nat.not_lt_zero _ hlost.handed
  constructor
  · intro hall
    apply Owned.namedOnce_of_frugal h
    rw [Ledger.frugal_iff hnone]
    intro id hlost
    rcases hall id hlost.handed with hreleased | hheld
    · exact hlost.kept hreleased
    · exact hlost.unheld _ hheld
  · intro hnamed id hid
    obtain ⟨hfrugal, hwithin⟩ := Owned.main_saves hnamed h
    rcases Ledger.released_or_live ((Ledger.frugal_iff hnone).mp hfrugal) hid with hreleased | ⟨p, hlive, hp⟩
    · exact Or.inl hreleased
    · rw [Ledger.status_eq_effects] at hlive
      obtain rfl := hwithin p hlive
      exact Or.inr hp

/-- A request for a host that is not listed, with two names for the configuration file. -/
theorem main_released_iff_unlisted :
    let w := { bobWorld "" "" "web:22\n" "bob:web\n" with
      argv := [.lit "stonesh", .lit "-C", .lit "stonesh.conf", .lit "-C", .lit defaultConfigFile,
        .lit "-c", .lit "mail ls"] }
    (main w 1).2 = .returned 1 ∧
      ((∀ id < (mainLedger w 1).next, id ∈ (mainLedger w 1).released ∨
          (mainLedger w 1).content .hostent = .object id) ↔
        Owned.NamedOnce w) := by
  intro w
  have hend : (main w 1).2 = .returned 1 := by decide +kernel
  exact ⟨hend, main_released_iff hend⟩

end Stonesh
