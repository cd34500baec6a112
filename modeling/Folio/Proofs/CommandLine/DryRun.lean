import Folio.Proofs.CommandLine.Turns
import Folio.Proofs.Site.Repetition
/-!
# Dry runs

A dry run plans a build and prints the plan. The build itself starts with the same plan, so it can
only go wrong where the dry run does, or else in writing; and what it writes, counts and warns of is
what the dry run has listed.
-/

namespace Folio.CommandLine

variable {host : Host}

open Files

/-- The arguments with or without the wish to leave all files as they are. -/
def BuildArguments.asDryRun (arguments : BuildArguments) (dryRun : Bool) : BuildArguments :=
  { arguments with dryRun }

variable {store : Store host} {arguments : BuildArguments} {target : ResolvedTarget}

theorem runBuild_asDryRun (hr : arguments.resolve store = .ok [target]) (dryRun : Bool) :
    runBuild store (arguments.asDryRun dryRun)
      = (buildTarget (arguments.asDryRun dryRun) store target).run := by
  have hsame : (arguments.asDryRun dryRun).resolve store = arguments.resolve store := rfl
  rw [runBuild, hsame, hr, runResolved, runTargets]

theorem buildTarget_dry (arguments : BuildArguments) (store : Store host) (target : ResolvedTarget) :
    buildTarget (arguments.asDryRun true) store target
      = .ofLogged ("Building target " ++ targetLabel target)
          (planBuild store target.globals target.options) store (planTranscript arguments.verbose)
          fun _ => .passed := by
  rfl

theorem finished_ofLogged {α : Type} {heading : String} {result : Logged α}
    {print : α → Transcript} :
    (Work.ofLogged heading result store print fun _ => .passed).run.ending = .finished ↔
      ∃ value, result.outcome = .ok value := by
  rw [Work.run, Work.ofLogged]
  dsimp only
  rcases result.outcome with ⟨_ | _ | _⟩ | value <;> simp [Except.map]

/-! ## Carrying out what was planned -/

theorem executeBuild_fst {plan : BuildPlan} {written : List String}
    (h : (writePages plan.dist store plan.pages).1.outcome = .ok written) :
    (executeBuild store plan).1
      = ⟨.ok ⟨plan.layouts, plan.partials, plan.pages.length,
          plan.pages.map fun page => Path.join plan.dist page.path, plan.warnings⟩,
        (plan.pages.flatMap fun page => Journal.debug ("wrote " ++ Path.join plan.dist page.path))
          ++ Journal.info (countsText plan.layouts plan.partials plan.pages.length)⟩ := by
  rw [executeBuild]
  dsimp only
  rw [writePages_fst h]
  rfl

theorem planLines_of_quiet (plan : BuildPlan) :
    planLines false plan
      = ["", "==> Dry run — pages that would be written to " ++ plan.dist ++ ":"]
        ++ (plan.pages.map fun page =>
          "  create " ++ page.path ++ " (layout: " ++ page.layout.getD "-" ++ ")")
        ++ ["", "Summary: " ++ countsText plan.layouts plan.partials plan.pages.length,
          "", "ℹ Dry run — no files written."] := by
  have hlines : plan.pages.flatMap (pageLines false) = plan.pages.map fun page =>
      "  create " ++ page.path ++ " (layout: " ++ page.layout.getD "-" ++ ")" :=
    List.flatMap_pure_eq_map _ _
  rw [planLines, hlines]

/-- A dry run that has listed what a run on the same target comes to: the pages it writes, in order,
how many templates of each kind there are, and what it warns of. -/
structure Foretells (store : Store host) (target : ResolvedTarget) (dry real : Run host)
    (layouts partials : Nat) (pages : List PlannedPage) : Prop where
  finished : dry.ending = .finished
  listed : dry.transcript.out
    = ["Building target " ++ targetLabel target, "",
        "==> Dry run — pages that would be written to " ++ target.options.dist ++ ":"]
      ++ (pages.map fun page =>
        "  create " ++ page.path ++ " (layout: " ++ page.layout.getD "-" ++ ")")
      ++ ["", "Summary: " ++ countsText layouts partials pages.length,
        "", "ℹ Dry run — no files written."]
  counted : real.transcript.out
    = ["Building target " ++ targetLabel target, "  ✓ " ++ countsText layouts partials pages.length]
  warned : dry.transcript.err = real.transcript.err
  journal : real.transcript.journal = dry.transcript.journal
    ++ (pages.flatMap fun page =>
      Journal.debug ("wrote " ++ Path.join target.options.dist page.path))
    ++ Journal.info (countsText layouts partials pages.length)
  written : ∃ report, (build store target.globals target.options).1.outcome = .ok report ∧
    report.written = pages.map fun page => Path.join target.options.dist page.path
  touched : Store.Touches (PlacesOf host target.options.dist pages)
      (FoldersOf host target.options.dist pages)
    store real.store
  there : ∀ page ∈ pages, ∃ content,
    real.store.read (Path.join target.options.dist page.path) = .ok content

theorem foretells_of_planBuild {plan : BuildPlan} {journal : Journal}
    (hv : arguments.verbose = false)
    (hp : planBuild store target.globals target.options = ⟨.ok plan, journal⟩)
    (hf : (buildTarget (arguments.asDryRun false) store target).run.ending = .finished) :
    Foretells store target (buildTarget (arguments.asDryRun true) store target).run
      (buildTarget (arguments.asDryRun false) store target).run plan.layouts plan.partials
      plan.pages := by
  have hplan : (planBuild store target.globals target.options).outcome = .ok plan := by rw [hp]
  have hdist : plan.dist = target.options.dist := by
    obtain ⟨-, registry, pages, -, -, -, rfl⟩ := planBuild_eq_ok hplan
    rfl
  rw [buildTarget_eq rfl, finished_ofLogged] at hf
  obtain ⟨report, hb⟩ := hf
  obtain ⟨_, hplan', hw, hstore⟩ := build_eq_ok hb
  obtain rfl := Except.ok.inj (hplan.symm.trans hplan')
  have hbuild := build_of_planBuild hp
  rw [executeBuild_fst hw] at hbuild
  have hwet : (arguments.asDryRun false).dryRun = false := rfl
  have hreal := buildTarget_eq hwet store target
  have hdry := buildTarget_dry arguments store target
  rw [built, hbuild] at hreal
  rw [hp] at hdry
  rw [hdist] at hw hbuild
  have hleft : (buildTarget (arguments.asDryRun false) store target).run.store
      = (writePages target.options.dist store plan.pages).2 := by
    rw [hreal, ← hdist]
    rfl
  constructor
  · rw [hdry]
    rfl
  · show (buildTarget (arguments.asDryRun true) store target).transcript.out = _
    rw [hdry]
    show ["Building target " ++ targetLabel target] ++ planLines arguments.verbose plan = _
    rw [hv, planLines_of_quiet, hdist]
    rfl
  · rw [hreal]
    rfl
  · rw [hreal, hdry]
    rfl
  · rw [hreal, hdry, hdist]
    show journal ++ (_ ++ _) ++ [] = journal ++ [] ++ _ ++ _
    rw [List.append_nil, List.append_nil, List.append_assoc]
  · exact ⟨report, hb, (writePages_eq_ok hw).1⟩
  · rw [hleft]
    exact (touches_writePages _ store plan.pages).1
  · intro page hm
    obtain ⟨-, hc, ht, hwalk, content, hf⟩ := settled_of_writePages hw page hm
    rw [hleft]
    exact ⟨content, Store.read_of_walk hc ht hwalk hf⟩

/-- A dry run tells beforehand how a build on one target goes. It leaves all files as they are. If
the build finishes, so does the dry run, and has listed what the build writes. If the dry run does
not finish, the build ends as it does, with the same report, and leaves all files as they are too. -/
theorem dryRun_foretells (hv : arguments.verbose = false)
    (hr : arguments.resolve store = .ok [target]) :
    (runBuild store (arguments.asDryRun true)).store = store ∧
    ((runBuild store (arguments.asDryRun false)).ending = .finished →
      ∃ layouts partials pages, Foretells store target (runBuild store (arguments.asDryRun true))
        (runBuild store (arguments.asDryRun false)) layouts partials pages) ∧
    ((runBuild store (arguments.asDryRun true)).ending ≠ .finished →
      runBuild store (arguments.asDryRun false) = runBuild store (arguments.asDryRun true)) := by
  rw [runBuild_asDryRun hr, runBuild_asDryRun hr]
  cases hp : planBuild store target.globals target.options with
  | mk outcome journal =>
    have hdry := buildTarget_dry arguments store target
    cases outcome with
    | error stop =>
      have hb : build store target.globals target.options = (⟨.error stop, journal⟩, store) := by
        rw [build, hp]
      have hsame : buildTarget (arguments.asDryRun false) store target
          = buildTarget (arguments.asDryRun true) store target := by
        rw [hdry, buildTarget_eq rfl, built, hb, hp]
        rfl
      refine ⟨?_, fun hf => ?_, fun _ => by rw [hsame]⟩
      · rw [hdry]
        rfl
      · rw [hsame, hdry, finished_ofLogged, hp] at hf
        obtain ⟨_, hf⟩ := hf
        cases hf
    | ok plan =>
      refine ⟨?_, fun hf => ⟨_, _, _, foretells_of_planBuild hv hp hf⟩, fun hf => ?_⟩
      · rw [hdry]
        rfl
      · rw [hdry, ne_eq, finished_ofLogged, hp] at hf
        exact absurd ⟨plan, rfl⟩ hf

/-- Two templates for one page, which asks for a layout and shows a global. -/
def greetingSite : Store .process :=
  .ofTexts [("src/layouts/main.hbs", "<\x7b\x7b> content\x7d\x7d>"), ("src/pages/a.hbs", "old"),
    ("src/pages/a.mustache", "hello \x7b\x7bwho\x7d\x7d"),
    ("src/pages/a.json", "\x7b\"render\":\x7b\"layout\":\"main\"\x7d\x7d")]

def greeting : BuildArguments where
  source := { types := ["mustache", "hbs"] }
  globals := ["who=you"]

theorem greetingSite_runs :
    (greeting.resolve greetingSite).toOption.any (·.length = 1) = true ∧
    (runBuild greetingSite (greeting.asDryRun false)).ending = .finished ∧
    (runBuild greetingSite (greeting.asDryRun false)).transcript.err
      = ["warning: duplicate template name 'a': src/pages/a.mustache replaces src/pages/a.hbs"] ∧
    (runBuild greetingSite (greeting.asDryRun true)).transcript.out
      = ["Building target default", "", "==> Dry run — pages that would be written to dist:",
        "  create a.html (layout: main)", "", "Summary: 1 layouts, 0 partials, 1 pages", "",
        "ℹ Dry run — no files written."] := by
  decide +kernel

theorem dryRun_foretells_greeting : ∃ target layouts partials pages,
    greeting.resolve greetingSite = .ok [target] ∧
    Foretells greetingSite target (runBuild greetingSite (greeting.asDryRun true))
      (runBuild greetingSite (greeting.asDryRun false)) layouts partials pages ∧
    (runBuild greetingSite (greeting.asDryRun false)).transcript.err
      = ["warning: duplicate template name 'a': src/pages/a.mustache replaces src/pages/a.hbs"] ∧
    (runBuild greetingSite (greeting.asDryRun true)).transcript.out
      = ["Building target default", "", "==> Dry run — pages that would be written to dist:",
        "  create a.html (layout: main)", "", "Summary: 1 layouts, 0 partials, 1 pages", "",
        "ℹ Dry run — no files written."] := by
  obtain ⟨hresolved, hfinished, herr, hout⟩ := greetingSite_runs
  obtain ⟨targets, hr, hone⟩ := exists_ok hresolved
  obtain ⟨target, rfl⟩ := List.length_eq_one_iff.mp (of_decide_eq_true hone)
  have hv : greeting.verbose = false := rfl
  obtain ⟨-, hforetold, -⟩ := dryRun_foretells hv hr
  obtain ⟨layouts, partials, pages, hforetells⟩ := hforetold hfinished
  exact ⟨target, layouts, partials, pages, hr, hforetells, herr, hout⟩

end Folio.CommandLine
