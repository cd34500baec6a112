import Folio.CommandLine.Run
import Folio.Proofs.Site.Stopping
/-!
# Target after target

A command gives every target one turn, on the files that the turns before it left. A target that fails
takes no turn from another. What the command reports is that target's own failure where it is the
only target, and how many have failed where there are more.
-/

namespace Folio.CommandLine

variable {host : Host}

open Files

/-! ## Turns -/

/-- The targets with the files that each finds in its turn. -/
def turns (leave : Store host → ResolvedTarget → Store host) :
    Store host → List ResolvedTarget → List (Store host × ResolvedTarget)
  | _, [] => []
  | store, target :: rest => (store, target) :: turns leave (leave store target) rest

def Work.failure? (work : Work host) : Option Report :=
  match work.verdict with
  | .ok .passed => none
  | .ok .rejected => some .rejected
  | .error (.error error) => some (.site error)
  | .error _ => none

/-- What a command comes to on its targets, by what each of them leaves, how it fails and what it
prints in its turn. -/
structure InTurn (leave : Store host → ResolvedTarget → Store host)
    (failure? : Store host → ResolvedTarget → Option Report)
    (prints : Store host → ResolvedTarget → Transcript)
    (store : Store host) (targets : List ResolvedTarget) (run : Run host) : Prop where
  leaves : run.store = targets.foldl leave store
  out : run.transcript.out
    = (turns leave store targets).flatMap fun turn => (prints turn.1 turn.2).out
  journal : run.transcript.journal
    = (turns leave store targets).flatMap fun turn => (prints turn.1 turn.2).journal
  finished_iff : run.ending = .finished ↔
    ∀ turn ∈ turns leave store targets, failure? turn.1 turn.2 = none
  alone : ∀ target report, targets = [target] → failure? store target = some report →
    run.ending = .failed report
  several : targets.length ≠ 1 → ∀ failed,
    failed = (turns leave store targets).countP (fun turn => (failure? turn.1 turn.2).isSome) →
    failed ≠ 0 →
    ∃ report, run.ending = .failed report ∧ report.message
      = toString failed ++ " of " ++ toString targets.length ++ " target(s) failed"

def left (work : Store host → ResolvedTarget → Work host) (store : Store host)
    (target : ResolvedTarget) : Store host :=
  (work store target).store

variable {work : Store host → ResolvedTarget → Work host} {store : Store host}
    {targets : List ResolvedTarget}

/-- If none is aborted, each target is worked on in its turn. -/
theorem workAll_eq_map
    (h : ∀ turn ∈ turns (left work) store targets,
      (work turn.1 turn.2).isAborted = false) :
    workAll work store targets
      = (turns (left work) store targets).map
          fun turn => work turn.1 turn.2 := by
  induction targets generalizing store with
  | nil => rfl
  | cons target rest ih =>
    have hfirst : (work store target).isAborted = false := h _ List.mem_cons_self
    have hrest : workAll work (left work store target) rest
        = (turns (left work) (left work store target) rest).map fun turn => work turn.1 turn.2 :=
      ih fun turn ht => h turn (List.mem_cons_of_mem _ ht)
    rw [workAll, turns, List.map_cons, ← hrest]
    dsimp only
    rw [hfirst]
    rfl

theorem getLast?_turns (store : Store host) (targets : List ResolvedTarget) :
    (((turns (left work) store targets).map
        fun turn => work turn.1 turn.2).getLast?.map Work.store).getD store
      = targets.foldl (left work) store := by
  induction targets generalizing store with
  | nil => rfl
  | cons target rest ih =>
    rw [turns, List.map_cons, List.getLast?_cons, Option.map_some, Option.getD_some,
      List.foldl_cons, ← ih]
    cases ((turns (left work) (left work store target) rest).map fun turn =>
      work turn.1 turn.2).getLast? <;> rfl

/-! ## What is printed -/

theorem Transcript.out_append (first second : Transcript) :
    (first ++ second).out = first.out ++ second.out :=
  rfl

theorem Transcript.journal_append (first second : Transcript) :
    (first ++ second).journal = first.journal ++ second.journal :=
  rfl

theorem Work.out_told (work : Work host) : work.told.out = work.transcript.out := by
  rw [told, Transcript.out_append]
  split <;> exact List.append_nil _

theorem Work.journal_told (work : Work host) : work.told.journal = work.transcript.journal := by
  rw [told, Transcript.journal_append]
  split <;> exact List.append_nil _

theorem out_foldl_told (works : List (Work host)) (start : Transcript) :
    (works.foldl (fun transcript work => transcript ++ work.told) start).out
      = start.out ++ works.flatMap fun work => work.transcript.out := by
  induction works generalizing start with
  | nil => exact (List.append_nil _).symm
  | cons work rest ih =>
    rw [List.foldl_cons, ih, Transcript.out_append, Work.out_told, List.flatMap_cons,
      List.append_assoc]

theorem journal_foldl_told (works : List (Work host)) (start : Transcript) :
    (works.foldl (fun transcript work => transcript ++ work.told) start).journal
      = start.journal ++ works.flatMap fun work => work.transcript.journal := by
  induction works generalizing start with
  | nil => exact (List.append_nil _).symm
  | cons work rest ih =>
    rw [List.foldl_cons, ih, Transcript.journal_append, Work.journal_told, List.flatMap_cons,
      List.append_assoc]

/-! ## How it ends -/

theorem Work.hasFailed_eq (work : Work host) (h : work.isAborted = false) :
    work.hasFailed = work.failure?.isSome := by
  unfold isAborted at h
  unfold hasFailed failure?
  split at h
  · rename_i verdict hv
    rw [hv]
    cases verdict <;> rfl
  · rename_i hv
    rw [hv]
    rfl
  · cases h

theorem Work.ending_run (work : Work host) (h : work.isAborted = false) :
    work.run.ending = work.failure?.elim .finished .failed := by
  unfold isAborted at h
  unfold run failure?
  dsimp only
  split at h
  · rename_i verdict hv
    rw [hv]
    cases verdict <;> rfl
  · rename_i hv
    rw [hv]
    rfl
  · cases h

theorem runTargets_of_length_ne_one (h : targets.length ≠ 1) :
    runTargets work store targets =
      { transcript := (workAll work store targets).foldl
          (fun transcript work => transcript ++ work.told) {}
        ending :=
          if (workAll work store targets).any Work.isAborted then .aborted
          else if (workAll work store targets).countP Work.hasFailed = 0 then .finished
          else .failed (.targetsFailed ((workAll work store targets).countP Work.hasFailed)
            targets.length)
        store := ((workAll work store targets).getLast?.map Work.store).getD store } := by
  rcases targets with _ | ⟨target, _ | ⟨other, rest⟩⟩
  · rfl
  · exact absurd rfl h
  · rfl

variable (work store)

theorem inTurn_run (target : ResolvedTarget) (h : (work store target).isAborted = false) :
    InTurn (left work)
      (fun store target => (work store target).failure?)
      (fun store target => (work store target).transcript)
      store [target] (runTargets work store [target]) := by
  have hending := (work store target).ending_run h
  rw [runTargets]
  refine ⟨rfl, (List.append_nil _).symm, (List.append_nil _).symm, ?_, ?_, nofun⟩
  · rw [hending]
    simp only [turns, List.mem_singleton, forall_eq]
    cases (work store target).failure? <;> simp
  · rintro _ report ⟨⟩ hf
    rw [hending, hf]
    rfl

/-- If none is aborted, targets have their turns, whatever the work on them is. -/
theorem inTurn_runTargets (targets : List ResolvedTarget)
    (h : ∀ turn ∈ turns (left work) store targets,
      (work turn.1 turn.2).isAborted = false) :
    InTurn (left work)
      (fun store target => (work store target).failure?)
      (fun store target => (work store target).transcript)
      store targets (runTargets work store targets) := by
  by_cases hlen : targets.length = 1
  · obtain ⟨target, rfl⟩ := List.length_eq_one_iff.mp hlen
    exact inTurn_run work store target (h _ List.mem_cons_self)
  have hmap := workAll_eq_map h
  have hnone : (workAll work store targets).any Work.isAborted = false := by
    rw [hmap, List.any_map]
    exact List.any_eq_false.mpr fun turn ht => by simp [h turn ht]
  have hcount : (workAll work store targets).countP Work.hasFailed
      = (turns (left work) store targets).countP
          fun turn => (work turn.1 turn.2).failure?.isSome := by
    rw [hmap, List.countP_map]
    refine List.countP_congr fun turn ht => ?_
    rw [Function.comp_apply, Work.hasFailed_eq _ (h turn ht)]
  rw [runTargets_of_length_ne_one hlen, hnone, hcount, if_neg Bool.false_ne_true]
  constructor
  · dsimp only
    rw [hmap, getLast?_turns]
  · dsimp only
    rw [out_foldl_told, hmap, List.flatMap_map]
    rfl
  · dsimp only
    rw [journal_foldl_told, hmap, List.flatMap_map]
    rfl
  · have hzero : (turns (left work) store targets).countP
          (fun turn => (work turn.1 turn.2).failure?.isSome) = 0 ↔
        ∀ turn ∈ turns (left work) store targets,
          (work turn.1 turn.2).failure? = none := by
      simp [List.countP_eq_zero]
    rw [← hzero]
    simp
  · rintro target report rfl
    exact absurd rfl hlen
  · rintro - failed rfl hpos
    exact ⟨_, if_neg hpos, rfl⟩

/-! ## Building and checking -/

def reportOf? {α : Type} : Except Stop α → Option Report
  | .error (.error error) => some (.site error)
  | _ => none

/-- The report of a check, if it cannot be made or finds errors. -/
def checkReportOf? : Except Stop CheckResult → Option Report
  | .ok result => if result.errors = [] then none else some .rejected
  | .error stop => reportOf? (.error stop : Except Stop CheckResult)

def built (store : Store host) (target : ResolvedTarget) : Store host :=
  (build store target.globals target.options).2

theorem failure?_ofLogged {α : Type} (heading : String) (result : Logged α) (store : Store host)
    (print : α → Transcript) (judge : α → Verdict) :
    (Work.ofLogged heading result store print judge).failure?
      = match result.outcome with
        | .ok value => if judge value = .passed then none else some .rejected
        | .error stop => reportOf? (.error stop : Except Stop α) := by
  unfold Work.failure? Work.ofLogged
  dsimp only
  cases result.outcome with
  | error stop => cases stop <;> rfl
  | ok value =>
    dsimp only [Except.map]
    cases judge value <;> rfl

theorem isAborted_ofLogged {α : Type} (heading : String) (result : Logged α) (store : Store host)
    (print : α → Transcript) (judge : α → Verdict) :
    (Work.ofLogged heading result store print judge).isAborted = true ↔
      result.outcome = .error .aborted ∨ result.outcome = .error .endless := by
  unfold Work.isAborted Work.ofLogged
  dsimp only
  rcases result.outcome with ⟨_ | _ | _⟩ | value <;> simp [Except.map]

theorem buildTarget_eq {arguments : BuildArguments} (h : arguments.dryRun = false) (store : Store host)
    (target : ResolvedTarget) :
    buildTarget arguments store target
      = .ofLogged ("Building target " ++ targetLabel target)
          (build store target.globals target.options).1 (built store target) reportTranscript
          fun _ => .passed := by
  rw [buildTarget, h]
  rfl

theorem failure?_buildTarget {arguments : BuildArguments} (h : arguments.dryRun = false)
    (store : Store host) (target : ResolvedTarget) :
    (buildTarget arguments store target).failure?
      = reportOf? (build store target.globals target.options).1.outcome := by
  rw [buildTarget_eq h, failure?_ofLogged]
  cases (build store target.globals target.options).1.outcome <;> rfl

theorem failure?_checkTarget (store : Store host) (target : ResolvedTarget) :
    (checkTarget store target).failure?
      = checkReportOf? (checkSite store target.options).outcome := by
  rw [checkTarget, failure?_ofLogged]
  cases (checkSite store target.options).outcome with
  | error stop => rfl
  | ok result => simp [checkReportOf?, CheckResult.isOk]

theorem isAborted_checkTarget (store : Store host) (target : ResolvedTarget) :
    (checkTarget store target).isAborted = false := by
  rw [← Bool.not_eq_true, checkTarget, isAborted_ofLogged]
  cases hv : target.options.error? host with
  | some error =>
    have hc : (checkSite store target.options).outcome = .error (.error error) := by
      simp only [checkSite, mapError_matcher, hv, Logged.outcome_bind, Logged.outcome_lift,
        error_bind]
    simp [hc]
  | none =>
    obtain ⟨result, hc, -⟩ := checkSite_of_valid store hv
    simp [hc]

/-- A command that builds, unless it only plans, builds every target on what the builds before it
left, and a command that checks checks every target. Either finishes just if no target fails: no
build with an error, no check with an error or with errors in its result. Else the report is that of
the target, if it is the only one, and if not how many of how many have failed. That no build is cut
short is asked for; a check never is. -/
theorem runTargets_takes_turns (store : Store host) (targets : List ResolvedTarget) :
    (∀ arguments : BuildArguments, arguments.dryRun = false →
      (∀ turn ∈ turns built store targets,
        (build turn.1 turn.2.globals turn.2.options).1.outcome ≠ .error .aborted ∧
        (build turn.1 turn.2.globals turn.2.options).1.outcome ≠ .error .endless) →
      InTurn built
        (fun store target => reportOf? (build store target.globals target.options).1.outcome)
        (fun store target => (buildTarget arguments store target).transcript)
        store targets (runTargets (buildTarget arguments) store targets) ∧
      (arguments.resolve store = .ok targets →
        runBuild store arguments = runTargets (buildTarget arguments) store targets)) ∧
    InTurn (fun store _ => store)
      (fun store target => checkReportOf? (checkSite store target.options).outcome)
      (fun store target => (checkTarget store target).transcript)
      store targets (runTargets checkTarget store targets) ∧
    (∀ target source, resolveChecked store target source = .ok targets →
      runCheck store target source = runTargets checkTarget store targets) ∧
    Report.rejected.message = "check failed" := by
  refine ⟨fun arguments hd hstops => ⟨?_, fun hr => ?_⟩, ?_, fun target source hr => ?_, rfl⟩
  · have hleft : left (buildTarget arguments) = (built : Store host → _) := by
      funext store target
      rw [left, buildTarget_eq hd]
      rfl
    have hsound : ∀ turn ∈ turns (left (buildTarget arguments)) store targets,
        (buildTarget arguments turn.1 turn.2).isAborted = false := by
      intro turn ht
      rw [hleft] at ht
      rw [← Bool.not_eq_true, buildTarget_eq hd, isAborted_ofLogged, not_or]
      exact hstops turn ht
    have hturns := inTurn_runTargets (buildTarget arguments) store targets hsound
    simpa only [hleft, failure?_buildTarget hd] using hturns
  · rw [runBuild, hr]
    rfl
  · have hturns := inTurn_runTargets checkTarget store targets
      fun turn _ => isAborted_checkTarget turn.1 turn.2
    simp only [failure?_checkTarget] at hturns
    exact hturns
  · rw [runCheck, hr]
    rfl

/-- A target without a source folder before and after one with a page. -/
def gappedTargets : List ResolvedTarget :=
  [⟨some "a", [], { src := "none" }⟩, ⟨some "b", [], {}⟩, ⟨some "c", [], { src := "none" }⟩]

theorem runTargets_takes_turns_gapped :
    (∃ report,
      (runTargets (buildTarget {}) (.ofTexts [("src/pages/index.mustache", "hi")])
        gappedTargets).ending = .failed report ∧
      report.message = "2 of 3 target(s) failed") ∧
    (runTargets (buildTarget {}) (.ofTexts [("src/pages/index.mustache", "hi")])
      gappedTargets).store.readText "dist/index.html" = .ok "hi" := by
  have hstops : ∀ turn ∈ turns built (.ofTexts [("src/pages/index.mustache", "hi")]) gappedTargets,
      faultOf? (build turn.1 turn.2.globals turn.2.options).1.outcome ≠ some .aborted ∧
      faultOf? (build turn.1 turn.2.globals turn.2.options).1.outcome ≠ some .endless := by
    decide +kernel
  obtain ⟨hbuild, -⟩ :=
    runTargets_takes_turns (.ofTexts [("src/pages/index.mustache", "hi")]) gappedTargets
  obtain ⟨hturns, -⟩ := hbuild {} rfl fun turn ht =>
    (hstops turn ht).imp (mt faultOf?_eq_some_iff.mpr) (mt faultOf?_eq_some_iff.mpr)
  obtain ⟨report, hending, hmessage⟩ :=
    hturns.several (by decide) 2 (by decide +kernel) (by decide)
  refine ⟨⟨report, hending, hmessage.trans (by decide +kernel)⟩, ?_⟩
  rw [hturns.leaves]
  exact eq_ok_of_toOption (by decide +kernel)

end Folio.CommandLine
