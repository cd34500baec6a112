import Folio.Proofs.CommandLine.Validity
/-!
# Commands that are declined

A command that builds reads its globals, then the configuration, then the names of its targets, and
starts to work only when nothing is wrong with any of them. Otherwise it is declined for what is met
first, whatever else is wrong and whatever else is right.
-/

namespace Folio.CommandLine

variable {host : Host}

/-- A global without an equals sign, or with nothing before the first one. -/
def BadlyWritten (pair : String) : Prop :=
  '=' ∉ pair.toList ∨ pair.toList.head? = some '='

instance (pair : String) : Decidable (BadlyWritten pair) :=
  inferInstanceAs (Decidable (_ ∨ _))

/-- Something on the command line or in the configuration cannot be honoured: a global, the
configuration itself or the name of a target. -/
def BuildArguments.Unfit (store : Files.Store host) (arguments : BuildArguments) : Prop :=
  (∃ pair ∈ arguments.globals, BadlyWritten pair) ∨
    (∀ config, arguments.source.load store = .ok config → config.validate ≠ .ok ()) ∨
    ∃ config, arguments.source.load store = .ok config ∧
      ∃ name ∈ arguments.targets, name ∉ config.targetNames

/-- What a command is declined for: the first global that is badly written, or else the fault of the
configuration, or else the first name that is not configured. -/
def BuildArguments.decline? (store : Files.Store host) (arguments : BuildArguments) : Option Report :=
  ((arguments.globals.find? (BadlyWritten ·)).map .badGlobal).or
    (match arguments.source.load store with
      | .error error => some (.site error)
      | .ok config => (arguments.targets.find? (· ∉ config.targetNames)).map fun name =>
          .site (.unknownTarget name))

variable {store : Files.Store host} {arguments : BuildArguments} {pair : String} {report : Report}

theorem faultOf?_of_first {ε α β : Type} {outcome : Except ε α} {items : List β} {bad : β → Prop}
    [DecidablePred bad] {fault : β → ε}
    (h : ∀ found, outcome = .error found ↔ ∃ before item after, items = before ++ item :: after ∧
      (∀ other ∈ before, ¬ bad other) ∧ bad item ∧ found = fault item) :
    faultOf? outcome = (items.find? (bad ·)).map fault := by
  refine Option.ext fun found => ?_
  rw [faultOf?_eq_some_iff, h, Option.map_eq_some_iff]
  constructor
  · rintro ⟨before, item, after, rfl, hb, hi, rfl⟩
    exact ⟨item, List.find?_eq_some_iff_append.mpr
      ⟨decide_eq_true hi, before, after, rfl, by simpa using hb⟩, rfl⟩
  · rintro ⟨item, hf, rfl⟩
    obtain ⟨hi, before, after, rfl, hb⟩ := List.find?_eq_some_iff_append.mp hf
    exact ⟨before, item, after, rfl, by simpa using hb, of_decide_eq_true hi, rfl⟩

/-! ## Globals -/

theorem exists_parseGlobal_iff :
    (∃ flag, parseGlobal pair = .ok flag) ↔ ¬ BadlyWritten pair := by
  simp only [parseGlobal_eq_ok, BadlyWritten, not_or, not_not]
  constructor
  · rintro ⟨⟨key, value⟩, hne, hn, raw, rfl, -⟩
    obtain ⟨c, rest, hc⟩ := List.exists_cons_of_ne_nil (mt String.toList_eq_nil_iff.mp hne)
    dsimp only at hc hn
    rw [hc] at hn
    simp only [String.toList_append, hc]
    exact ⟨by simp, by simpa [eq_comm] using List.ne_of_not_mem_cons hn⟩
  · rintro ⟨hm, hh⟩
    obtain ⟨key, raw, hp, hn⟩ := List.eq_append_cons_of_mem hm
    refine ⟨(String.ofList key, valueOfText (String.ofList raw)), ?_, by simpa using hn,
      String.ofList raw, ?_, rfl⟩
    · intro he
      have hkey : key = [] := by simpa using congrArg String.toList he
      exact hh (by simp [hp, hkey])
    · apply String.toList_injective
      simp [hp]

theorem parseGlobal_eq_error :
    parseGlobal pair = .error report ↔ BadlyWritten pair ∧ report = .badGlobal pair := by
  have hfault : ∀ fault, parseGlobal pair = .error fault → fault = .badGlobal pair := by
    intro fault h
    rw [parseGlobal] at h
    split at h
    · cases h
    · cases h
      rfl
  constructor
  · intro h
    refine ⟨not_not.mp fun hb => ?_, hfault _ h⟩
    obtain ⟨flag, hf⟩ := exists_parseGlobal_iff.mpr hb
    rw [hf] at h
    cases h
  · rintro ⟨hb, rfl⟩
    cases h : parseGlobal pair with
    | ok flag => exact absurd hb (exists_parseGlobal_iff.mp ⟨flag, h⟩)
    | error fault => rw [hfault fault h]

theorem faultOf?_parseGlobals (pairs : List String) :
    faultOf? (parseGlobals pairs) = (pairs.find? (BadlyWritten ·)).map .badGlobal := by
  refine faultOf?_of_first fun found => ?_
  rw [parseGlobals, mapM_eq_error]
  simp only [exists_parseGlobal_iff, parseGlobal_eq_error]

/-! ## Names of targets -/

theorem faultOf?_resolveIn (config : SiteConfig) (globals : List (String × Json)) :
    faultOf? (arguments.resolveIn config globals)
      = (arguments.targets.find? (· ∉ config.targetNames)).map .unknownTarget := by
  refine faultOf?_of_first fun found => ?_
  rw [resolveIn_eq_error_iff]
  simp only [not_not]

/-! ## Commands -/

namespace BuildArguments

/-- The three phases of reading a command, each begun only when the one before it is through. -/
theorem faultOf?_resolve : faultOf? (arguments.resolve store) = arguments.decline? store := by
  rw [decline?, ← faultOf?_parseGlobals]
  cases hg : parseGlobals arguments.globals with
  | error fault =>
    rw [resolve, hg]
    rfl
  | ok globals =>
    cases hl : arguments.source.load store with
    | error error =>
      rw [resolve, hg, hl]
      rfl
    | ok config =>
      rw [resolve_of_load hg hl]
      dsimp only
      rw [← Function.comp_def Report.site, ← Option.map_map,
        ← faultOf?_resolveIn config globals]
      cases arguments.resolveIn config globals <;> rfl

theorem decline?_eq_none_iff : arguments.decline? store = none ↔ ¬ arguments.Unfit store := by
  rw [decline?, Option.or_eq_none_iff, Option.map_eq_none_iff, List.find?_eq_none, Unfit, not_or]
  refine and_congr (by simp) ?_
  cases hl : arguments.source.load store with
  | error error => simp
  | ok config => simp [(loaded_of_load hl).validate]

end BuildArguments

/-- A command that cannot be honoured is declined before any target is looked at: it prints nothing but
the report, which is on what is met first, and leaves all files as they are. Any other command goes on
to its targets. -/
theorem declined_or_run (store : Files.Store host) (arguments : BuildArguments) :
    (arguments.Unfit store → ∃ report, arguments.decline? store = some report ∧
      (Command.build arguments).run store = ⟨{}, .failed report, store⟩) ∧
    (¬ arguments.Unfit store → ∃ targets, arguments.resolve store = .ok targets ∧
      (Command.build arguments).run store = runTargets (buildTarget arguments) store targets) := by
  have hnone : arguments.decline? store = none ↔ ¬ arguments.Unfit store :=
    BuildArguments.decline?_eq_none_iff
  rw [← BuildArguments.faultOf?_resolve] at hnone ⊢
  rw [← hnone, ← not_not (a := arguments.Unfit store), ← hnone, Command.run, runBuild]
  cases arguments.resolve store with
  | error report => exact ⟨fun _ => ⟨report, rfl, rfl⟩, fun h => by cases h⟩
  | ok targets => exact ⟨fun h => absurd rfl h, fun _ => ⟨targets, rfl, rfl⟩⟩

def mixedArguments (globals : List String) (config : Option String) : BuildArguments where
  targets := ["blog", "nope", "shop", "nada"]
  source := { config }
  globals

theorem declined_or_run_mixed :
    (Command.build (mixedArguments ["a=1", "=x", "b=[", "c"] (some "site"))).run writtenConfig
      = ⟨{}, .failed (.badGlobal "=x"), writtenConfig⟩ ∧
    (Command.build (mixedArguments ["a=1", "b=["] (some "site"))).run writtenConfig
      = ⟨{}, .failed (.site (.configNotFound "site/stache.toml")), writtenConfig⟩ ∧
    (Command.build (mixedArguments ["a=1", "b=["] none)).run writtenConfig
      = ⟨{}, .failed (.site (.unknownTarget "nope")), writtenConfig⟩ := by
  have hdeclined : ∀ arguments, arguments.Unfit writtenConfig → ∀ report,
      arguments.decline? writtenConfig = some report →
      (Command.build arguments).run writtenConfig = ⟨{}, .failed report, writtenConfig⟩ := by
    intro arguments hu report hr
    obtain ⟨found, hf, hrun⟩ := (declined_or_run writtenConfig arguments).1 hu
    cases hr.symm.trans hf
    exact hrun
  have hload : (mixedArguments ["a=1", "b=["] (some "site")).source.load writtenConfig
      = .error (.configNotFound "site/stache.toml") := eq_error_of_faultOf? (by decide +kernel)
  obtain ⟨config, hc, hnope⟩ : ∃ config,
      (mixedArguments ["a=1", "b=["] none).source.load writtenConfig = .ok config ∧
      decide ("nope" ∉ config.targetNames) = true := exists_ok (by decide +kernel)
  refine ⟨?_, ?_, ?_⟩
  · exact hdeclined _ (.inl ⟨"=x", by decide, by decide⟩) _ (by decide +kernel)
  · refine hdeclined _ (.inr (.inl fun config hc => ?_)) _ (by decide +kernel)
    cases hload.symm.trans hc
  · exact hdeclined _ (.inr (.inr ⟨config, hc, "nope", by decide, of_decide_eq_true hnope⟩)) _
      (by decide +kernel)

end Folio.CommandLine
