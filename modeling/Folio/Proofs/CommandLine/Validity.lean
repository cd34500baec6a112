import Folio.CommandLine.Run
import Folio.Proofs.CommandLine.Precedence
import Folio.Proofs.Site.PagePaths
/-!
# Options that stay valid

A configuration is only handed out if the options of the site and of all its targets are valid, and
a command line only if no path on it is empty. What is left to go wrong with the options of a target
are the types that the command line gives for its own.
-/

namespace Folio

variable {host : Host}

theorem forM_eq_ok {ε α : Type} {items : List α} {step : α → Except ε Unit} :
    items.forM step = .ok () ↔ ∀ item ∈ items, step item = .ok () := by
  induction items with
  | nil => simp [pure, Except.pure]
  | cons item rest ih =>
    show (step item >>= fun _ => rest.forM step) = .ok () ↔ _
    rw [bind_eq_ok, List.forall_mem_cons, ih]
    exact ⟨fun ⟨_, hi, hr⟩ => ⟨hi, hr⟩, fun ⟨hi, hr⟩ => ⟨(), hi, hr⟩⟩

namespace CommandLine

/-! ## Accepted values -/

namespace Draft

/-- Every value that has been taken in is one that its option accepts. -/
def Checked (draft : Draft) : Prop :=
  ∀ item ∈ draft.given, item.2.bind item.1.fault? = none

theorem checked_empty : Checked {} :=
  List.forall_mem_nil _

variable {place : Place} {draft later : Draft} {switch : Switch} {value : Option String}
  {word : String} {words : List String}

theorem take_eq_ok (h : draft.take switch value = .ok later) :
    later.given = draft.given ++ [(switch, value)] ∧ value.bind switch.fault? = none := by
  unfold take at h
  dsimp only at h
  split at h
  · cases h
  · cases h
  · split at h
    · cases h
    · split at h
      · cases h
      · split at h
        · cases h
        · rename_i hn
          cases h
          exact ⟨rfl, hn⟩

theorem Checked.take (hd : draft.Checked) (h : draft.take switch value = .ok later) :
    later.Checked := by
  obtain ⟨hgiven, hn⟩ := take_eq_ok h
  rw [Checked, hgiven, List.forall_mem_append, List.forall_mem_singleton]
  exact ⟨hd, hn⟩

theorem Checked.settle (hd : draft.Checked) (h : draft.settle = .ok later) : later.Checked := by
  rw [Draft.settle] at h
  split at h
  · cases h
    exact hd
  · have hd : Checked { draft with pending := none } := hd
    exact hd.take h

theorem Checked.give (hd : draft.Checked) (h : draft.give switch value = .ok later) :
    later.Checked := by
  obtain ⟨settled, hs, h⟩ := bind_eq_ok.mp h
  have hd := hd.settle hs
  split at h
  · cases h
    exact hd
  · exact hd.take h

theorem Checked.giveLong {name : String} (hd : draft.Checked)
    (h : draft.giveLong place name value = .ok later) : later.Checked := by
  unfold Draft.giveLong at h
  split at h
  · cases h
  · split at h
    · exact hd.give h
    · cases h
  · exact hd.give h

theorem Checked.giveShort {letters : List Char} (hd : draft.Checked)
    (h : draft.giveShort place letters = .ok later) : later.Checked := by
  induction letters generalizing draft with
  | nil =>
    cases h
    exact hd
  | cons c rest ih =>
    rw [Draft.giveShort] at h
    split at h
    · cases h
    · split at h
      · exact hd.give h
      · obtain ⟨given, hg, h⟩ := bind_eq_ok.mp h
        exact ih (hd.give hg) h

theorem Checked.addOperand (hd : draft.Checked) (h : draft.addOperand place word = .ok later) :
    later.Checked := by
  rw [Draft.addOperand] at h
  split at h
  · obtain ⟨settled, hs, h⟩ := bind_eq_ok.mp h
    have hd := hd.settle hs
    cases h
    exact hd
  · split at h <;> cases h

theorem Checked.addWord (hd : draft.Checked) (h : draft.addWord place word = .ok later) :
    later.Checked := by
  rw [Draft.addWord] at h
  split at h
  · cases h
    exact hd
  · exact hd.addOperand h

theorem Checked.addOperands (hd : draft.Checked) (h : draft.addOperands place words = .ok later) :
    later.Checked := by
  induction words generalizing draft with
  | nil =>
    cases h
    exact hd
  | cons word rest ih =>
    rw [Draft.addOperands] at h
    split at h
    · cases h
    · obtain ⟨added, ha, h⟩ := bind_eq_ok.mp h
      exact ih (hd.addOperand ha) h

/-- No argument lets an unchecked value in, so no command line does. -/
theorem Checked.read {reading : Reading} (hd : draft.Checked)
    (h : draft.read place words = .ok reading) : reading.draft.Checked := by
  induction words generalizing draft with
  | nil =>
    cases h
    exact hd
  | cons word rest ih =>
    rw [Draft.read] at h
    split at h
    · cases h
      exact hd
    · split at h
      · obtain ⟨added, ha, h⟩ := bind_eq_ok.mp h
        cases h
        exact hd.addOperands ha
      · obtain ⟨given, hg, h⟩ := bind_eq_ok.mp h
        exact ih (hd.giveLong hg) h
      · obtain ⟨given, hg, h⟩ := bind_eq_ok.mp h
        exact ih (hd.giveShort hg) h
      · obtain ⟨added, ha, h⟩ := bind_eq_ok.mp h
        exact ih (hd.addWord ha) h

theorem checked_of_readAll (h : readAll place words = .ok draft) : draft.Checked := by
  obtain ⟨reading, hr, h⟩ := bind_eq_ok.mp h
  exact (checked_empty.read hr).settle h

theorem Checked.fault?_eq_none {text : String} (hd : draft.Checked)
    (h : draft.value? switch = some text) : switch.fault? text = none := by
  obtain ⟨⟨other, given⟩, hm, hv⟩ := List.mem_filterMap.mp (List.mem_of_mem_head? h)
  dsimp only at hv
  split at hv
  · rename_i he
    obtain rfl := he
    have hn := hd _ hm
    rw [hv] at hn
    exact hn
  · cases hv

end Draft

theorem Invocation.exists_checked {words : List String} {invocation : Invocation}
    (h : ofArguments words = .ok invocation) : ∃ draft : Draft, draft.Checked ∧
      (invocation.command = draft.buildCommand ∨ invocation.command = draft.checkCommand) := by
  have hfinish : ∀ (front : Reading) (draft : Draft) (command : Command),
      (do
        let front ← front.draft.settle
        return { log := (draft.log? <|> front.log?).getD (some .error), command } :
          Except Refusal Invocation) = .ok invocation → invocation.command = command := by
    intro front draft command h
    obtain ⟨settled, -, h⟩ := bind_eq_ok.mp h
    cases h
    rfl
  obtain ⟨front, -, h⟩ := bind_eq_ok.mp h
  dsimp only at h
  split at h
  · obtain ⟨draft, -, h⟩ := bind_eq_ok.mp h
    cases h
  · cases h
  · obtain ⟨draft, hd, h⟩ := bind_eq_ok.mp h
    exact ⟨draft, Draft.checked_of_readAll hd, .inl (hfinish front draft _ h)⟩
  · obtain ⟨draft, hd, h⟩ := bind_eq_ok.mp h
    exact ⟨draft, Draft.checked_of_readAll hd, .inr (hfinish front draft _ h)⟩

namespace Command

def arguments : Command → BuildArguments
  | .build arguments => arguments
  | .check target source => { targets := target.toList, source }

def work : Command → Files.Store host → ResolvedTarget → Work host
  | .build arguments => buildTarget arguments
  | .check _ _ => checkTarget

def resolveIn (command : Command) (config : SiteConfig) (globals : List (String × Json)) :
    Except SiteError (List ResolvedTarget) :=
  command.arguments.resolveIn config globals

variable {command : Command} {store : Files.Store host} {config : SiteConfig}
  {globals : List (String × Json)}

theorem run_of_load (hg : parseGlobals command.arguments.globals = .ok globals)
    (hl : command.arguments.source.load store = .ok config) : command.run store
      = runResolved command.work store ((command.resolveIn config globals).mapError .site) := by
  rw [resolveIn, ← resolve_of_load hg hl]
  cases command with
  | build arguments => rfl
  | check target source =>
    cases hg
    have htargets : (arguments (.check target source)).resolve store
        = resolveChecked store target source := by
      have hl : source.load store = .ok config := hl
      rw [resolve_of_load rfl hl, resolveChecked, hl]
      show (resolveTargets config target.toList source [] >>= _).mapError Report.site
        = (resolveTargets config target.toList source []).mapError Report.site
      cases resolveTargets config target.toList source [] with
      | error error => rfl
      | ok targets => exact congrArg Except.ok (List.map_id targets)
    exact congrArg (runResolved checkTarget store) htargets.symm

end Command

theorem Invocation.paths_ne_empty {words : List String} {invocation : Invocation}
    (h : ofArguments words = .ok invocation) :
    invocation.command.arguments.layer.src ≠ some "" ∧
      invocation.command.arguments.layer.dist ≠ some "" := by
  obtain ⟨draft, hd, hcommand⟩ := exists_checked h
  have hfault : ∀ switch ∈ [Switch.src, Switch.dist], switch.fault? "" ≠ none := by decide
  have hne : ∀ switch ∈ [Switch.src, Switch.dist], draft.value? switch ≠ some "" :=
    fun switch hm he => hfault switch hm (hd.fault?_eq_none he)
  have hsrc := hne .src (by simp)
  rcases hcommand with hcommand | hcommand
  · rw [hcommand]
    exact ⟨hsrc, hne .dist (by simp)⟩
  · rw [hcommand]
    exact ⟨hsrc, nofun⟩

end CommandLine

/-! ## Valid options -/

namespace BuildOptions

theorem validate_eq_ok_iff {options : BuildOptions} : options.validate = .ok () ↔
    options.src ≠ "" ∧ options.dist ≠ "" ∧ options.types ≠ [] ∧
      ∀ type ∈ options.types, isPlainExtension type = true := by
  have hfault : options.validate = .ok () ↔ options.fault? = none := by
    rw [validate]
    cases options.fault? <;> simp
  rw [hfault, fault?]
  by_cases hs : options.src = ""
  · simp [hs]
  · by_cases hd : options.dist = ""
    · simp [hs, hd]
    · by_cases ht : options.types = []
      · simp [hs, hd, ht]
      · simp [hs, hd, ht]

/-- A layer that sets no empty option can make options invalid by its types only. -/
theorem validate_overlay_iff {options : BuildOptions} {layer : OptionsLayer}
    (hv : options.validate = .ok ()) (hs : layer.src ≠ some "") (hd : layer.dist ≠ some "")
    (ht : layer.types ≠ some []) : (options.overlay layer).validate = .ok () ↔
      ∀ type ∈ layer.types.getD [], isPlainExtension type = true := by
  obtain ⟨hsrc, hdist, htypes, hplain⟩ := validate_eq_ok_iff.mp hv
  obtain ⟨src, dist, types⟩ := layer
  have hsrc : src.getD options.src ≠ "" := by
    cases src with
    | none => exact hsrc
    | some src => exact fun he => hs (congrArg some he)
  have hdist : dist.getD options.dist ≠ "" := by
    cases dist with
    | none => exact hdist
    | some dist => exact fun he => hd (congrArg some he)
  rw [validate_eq_ok_iff, overlay]
  dsimp only
  cases types with
  | none => simpa [hsrc, hdist, htypes] using hplain
  | some types =>
    have hne : types ≠ [] := fun he => ht (congrArg some he)
    simp [hsrc, hdist, hne]

end BuildOptions

namespace SiteConfig

theorem validate_configured {config : SiteConfig} (h : config.validate = .ok ())
    (name : Option String) :
    (BuildOptions.stack [(config.configured name).options, config.options]).validate = .ok () := by
  obtain ⟨_, htop, htargets⟩ := bind_eq_ok.mp h
  have htargets := forM_eq_ok.mp htargets
  rw [BuildOptions.stack_cons, BuildOptions.stack_cons, configured]
  cases hn : name.bind config.target? with
  | none => exact htop
  | some target =>
    obtain ⟨text, rfl, ht⟩ := Option.bind_eq_some_iff.mp hn
    exact htargets (text, target) (Index.get?_eq_some_iff.mp ht)

/-- A configuration that comes of loading, be it one that sets nothing because there is none. -/
def Loaded (config : SiteConfig) : Prop :=
  ∃ (host : Host) (store : Files.Store host) (path : String),
    loadConfig store path = .ok config ∨ loadConfigOrDefault store path = .ok config

theorem Loaded.validate {config : SiteConfig} (h : config.Loaded) : config.validate = .ok () := by
  have hload : ∀ (host : Host) (store : Files.Store host) (path : String),
      loadConfig store path = .ok config → config.validate = .ok () := by
    intro host store path h
    rw [loadConfig] at h
    split at h
    · split at h
      · cases h
      · rw [readConfig] at h
        split at h
        · cases h
        · obtain ⟨_, hv, h⟩ := bind_eq_ok.mp h
          cases h
          exact hv
    · cases h
  obtain ⟨host, store, path, h | h⟩ := h
  · exact hload host store path h
  · rw [loadConfigOrDefault] at h
    split at h
    · exact hload host store path h
    · cases h
      rfl

end SiteConfig

namespace CommandLine

theorem BuildArguments.types_layer (arguments : BuildArguments) :
    arguments.layer.types ≠ some [] ∧ arguments.layer.types.getD [] = arguments.source.types := by
  rw [layer]
  split <;> simp_all

theorem loaded_of_load {store : Files.Store host} {source : SourceArguments} {config : SiteConfig}
    (h : source.load store = .ok config) : config.Loaded := by
  rw [SourceArguments.load] at h
  split at h
  · exact ⟨host, store, _, .inl h⟩
  · exact ⟨host, store, _, .inr h⟩

/-- A configuration that has been loaded can be made invalid by the types of the command line only.
With a command line that is accepted, all that is configured can be resolved if no target is named; if
some are, the first name that is not configured is all that can fail. The options of a target are then
valid just if all types on the command line are plain extensions, whatever paths it gives. This is what
a command gets its targets by. -/
theorem options_stay_valid {config : SiteConfig} {words : List String} {invocation : Invocation}
    (hc : config.Loaded) (hi : Invocation.ofArguments words = .ok invocation)
    (globals : List (String × Json)) :
    (invocation.command.arguments.targets = [] →
      ∃ targets, invocation.command.resolveIn config globals = .ok targets ∧
        targets.map ResolvedTarget.name
          = if config.targetNames = [] then [none] else config.targetNames.map some) ∧
    (∀ error, invocation.command.resolveIn config globals = .error error ↔ ∃ before name after,
      invocation.command.arguments.targets = before ++ name :: after ∧
      (∀ other ∈ before, other ∈ config.targetNames) ∧ name ∉ config.targetNames ∧
      error = .unknownTarget name) ∧
    (∀ targets, invocation.command.resolveIn config globals = .ok targets → ∀ target ∈ targets,
      (target.options.validate = .ok () ↔ ∀ type ∈ invocation.command.arguments.source.types,
        type ≠ "" ∧ type.startsWith "." = false ∧ '/' ∉ type.toList ∧ '\\' ∉ type.toList)) ∧
    ∀ (host : Host) (store : Files.Store host),
      parseGlobals invocation.command.arguments.globals = .ok globals →
      invocation.command.arguments.source.load store = .ok config →
      invocation.command.run store = runResolved invocation.command.work store
        ((invocation.command.resolveIn config globals).mapError .site) := by
  refine ⟨fun hn => ?_, fun error => resolveIn_eq_error_iff, fun targets h target hm => ?_,
    fun host store hg hl => Command.run_of_load hg hl⟩
  · cases hr : invocation.command.resolveIn config globals with
    | error error =>
      obtain ⟨before, name, after, he, -⟩ := resolveIn_eq_error_iff.mp hr
      rw [hn] at he
      simp at he
    | ok targets =>
      refine ⟨targets, rfl, ?_⟩
      have hnames : targets.map ResolvedTarget.name
          = requested config invocation.command.arguments.targets := by
        rw [eq_comm, ← List.forall₂_eq_eq_eq, List.forall₂_map_right_iff]
        exact (resolveIn_eq_ok hr).imp fun _ _ ht => ht.1.symm
      rw [hnames, requested_eq, if_neg (not_not_intro hn)]
  · obtain ⟨name, -, -, hoptions, -⟩ := exists_of_mem_right (resolveIn_eq_ok h) hm
    obtain ⟨hsrc, hdist⟩ := Invocation.paths_ne_empty hi
    obtain ⟨htypes, hgiven⟩ := invocation.command.arguments.types_layer
    rw [hoptions, BuildOptions.stack_cons,
      BuildOptions.validate_overlay_iff (SiteConfig.validate_configured hc.validate name) hsrc hdist
        htypes, hgiven]
    exact forall₂_congr fun _ _ => isPlainExtension_iff

/-- The configuration of a site with two targets, one of which has a folder of its own. -/
def writtenConfig : Files.Store .process :=
  .ofTexts [("stache.toml", "[options]\ntype = \"hbs\"\n"
    ++ "[targets.shop.options]\nsrc = \"goods\"\n[targets.blog]\n")]

theorem options_stay_valid_dotted : ∃ config invocation targets,
    loadConfig writtenConfig "." = .ok config ∧
    Invocation.ofArguments ["build", "--src", "top", "--type", "htm", "--type", ".md"]
      = .ok invocation ∧
    invocation.command.resolveIn config [] = .ok targets ∧
    targets.map ResolvedTarget.name = [some "blog", some "shop"] ∧
    ∀ target ∈ targets, target.options.validate ≠ .ok () := by
  obtain ⟨config, hc, hnames⟩ : ∃ config, loadConfig writtenConfig "." = .ok config ∧
      decide (config.targetNames = ["blog", "shop"]) = true := exists_ok (by decide +kernel)
  have hi : Invocation.ofArguments ["build", "--src", "top", "--type", "htm", "--type", ".md"]
      = .ok ⟨some .error, .build { source := { src := some "top", types := ["htm", ".md"] } }⟩ := by
    decide +kernel
  obtain ⟨hall, -, hvalid, -⟩ := options_stay_valid ⟨_, _, _, .inl hc⟩ hi []
  obtain ⟨targets, ht, hn⟩ := hall rfl
  rw [of_decide_eq_true hnames, if_neg (by decide)] at hn
  refine ⟨config, _, targets, hc, hi, ht, hn, fun target hm hv => ?_⟩
  obtain ⟨-, hdot, -⟩ := (hvalid targets ht target hm).mp hv ".md" (by decide)
  exact absurd hdot (by decide +kernel)

end CommandLine

end Folio
