import Folio.CommandLine.Targets
import Folio.Json.Printer
import Folio.Proofs.Outcome
import Folio.Proofs.Template.History
import Mathlib.Data.List.Forall2
/-!
# What counts over what

Options and globals are given in layers: on the command line, for a target, for the site, and
options by default too. Each option and each global comes whole from the highest layer that sets it,
whatever the layers say of the others.
-/

namespace Folio

variable {host : Host}

variable {ε α β : Type}

theorem mapM_eq_ok {items : List α} {step : α → Except ε β} {results : List β} :
    items.mapM step = .ok results ↔
      List.Forall₂ (fun item result => step item = .ok result) items results := by
  induction items generalizing results with
  | nil => cases results <;> simp [pure, Except.pure]
  | cons item rest ih =>
    rw [List.mapM_cons, bind_eq_ok]
    constructor
    · rintro ⟨first, hf, h⟩
      obtain ⟨more, hm, h⟩ := bind_eq_ok.mp h
      cases h
      exact .cons hf (ih.mp hm)
    · rintro (_ | ⟨hf, hm⟩)
      exact ⟨_, hf, bind_eq_ok.mpr ⟨_, ih.mpr hm, rfl⟩⟩

theorem mapM_eq_error {items : List α} {step : α → Except ε β} {fault : ε} :
    items.mapM step = .error fault ↔ ∃ before item after, items = before ++ item :: after ∧
      (∀ other ∈ before, ∃ value, step other = .ok value) ∧ step item = .error fault := by
  induction items with
  | nil => simp [pure, Except.pure]
  | cons item rest ih =>
    rw [List.mapM_cons, bind_eq_error]
    constructor
    · rintro (h | ⟨first, hf, h⟩)
      · exact ⟨[], item, rest, rfl, List.forall_mem_nil _, h⟩
      · rcases bind_eq_error.mp h with h | ⟨_, -, h⟩
        · obtain ⟨before, other, after, rfl, hb, h⟩ := ih.mp h
          exact ⟨item :: before, other, after, rfl, List.forall_mem_cons.mpr ⟨⟨first, hf⟩, hb⟩, h⟩
        · cases h
    · rintro ⟨before, other, after, he, hb, h⟩
      cases before with
      | nil =>
        cases he
        exact .inl h
      | cons first before =>
        cases he
        obtain ⟨⟨value, hv⟩, hb⟩ := List.forall_mem_cons.mp hb
        exact .inr ⟨value, hv, bind_eq_error.mpr (.inl (ih.mpr ⟨before, other, after, rfl, hb, h⟩))⟩

theorem exists_of_mem_right {related : α → β → Prop} {items : List α} {results : List β}
    (h : List.Forall₂ related items results) {result : β} (hm : result ∈ results) :
    ∃ item ∈ items, related item result := by
  induction h with
  | nil => cases hm
  | cons hr _ ih =>
    rcases List.mem_cons.mp hm with rfl | hm
    · exact ⟨_, List.mem_cons_self, hr⟩
    · obtain ⟨item, hi, hr⟩ := ih hm
      exact ⟨item, List.mem_cons_of_mem _ hi, hr⟩

/-! ## Layers -/

namespace Fields

theorem get?_ofList (pairs : List (String × Json)) (key : String) :
    (ofList pairs).get? key = pairs.reverse.lookup key := by
  induction pairs using List.reverseRecOn with
  | nil => rfl
  | append_singleton before last ih =>
    obtain ⟨k, v⟩ := last
    have hstep : ofList (before ++ [(k, v)]) = (ofList before).set k v := by
      rw [ofList, List.foldl_append]
      rfl
    rw [hstep, get?_set, List.reverse_append, List.reverse_singleton, List.singleton_append,
      List.lookup_cons, ih]
    by_cases h : key = k
    · simp [h]
    · simp [h, beq_false_of_ne h]

end Fields

namespace BuildOptions

/-- The options that layers come to, the highest first: each is that of the first layer that sets
it, or else the default one. -/
def stack (layers : List OptionsLayer) : BuildOptions where
  src := (layers.findSome? (·.src)).getD "src"
  dist := (layers.findSome? (·.dist)).getD "dist"
  types := (layers.findSome? (·.types)).getD ["mustache"]

theorem stack_cons (layer : OptionsLayer) (layers : List OptionsLayer) :
    stack (layer :: layers) = (stack layers).overlay layer := by
  obtain ⟨src, dist, types⟩ := layer
  cases src <;> cases dist <;> cases types <;> rfl

end BuildOptions

namespace SiteConfig

def configured (config : SiteConfig) (name : Option String) : TargetConfig :=
  (name.bind config.target?).getD {}

theorem resolve_eq_ok {config : SiteConfig} {name : Option String} {target : ResolvedTarget}
    (h : config.resolve name = .ok target) : target.name = name ∧
      target.options = .stack [(config.configured name).options, config.options] ∧
      ∀ key, target.globals.get? key
        = ((config.configured name).globals.get? key).or (config.globals.get? key) := by
  rw [BuildOptions.stack_cons, BuildOptions.stack_cons]
  cases name with
  | none =>
    cases h
    exact ⟨rfl, rfl, fun key => rfl⟩
  | some name =>
    rw [resolve] at h
    cases ht : config.target? name with
    | none => simp [ht] at h
    | some found =>
      rw [ht] at h
      cases h
      rw [configured, Option.bind_some, ht, Option.getD_some]
      exact ⟨rfl, rfl, Fields.get?_overlay _ _⟩

theorem resolve_eq_error {config : SiteConfig} {name : Option String} {error : SiteError} :
    config.resolve name = .error error ↔
      ∃ unknown, name = some unknown ∧ config.target? unknown = none ∧
        error = .unknownTarget unknown := by
  cases name with
  | none => simp [resolve]
  | some name =>
    rw [resolve]
    cases ht : config.target? name with
    | none => simp [ht, eq_comm]
    | some found => simp [ht]

theorem sorted_targetNames (config : SiteConfig) : config.targetNames.Pairwise (· < ·) := by
  rw [targetNames, Index.keys, List.pairwise_map]
  exact config.targets.sorted

theorem mem_targetNames {config : SiteConfig} {name : String} :
    name ∈ config.targetNames ↔ (config.target? name).isSome = true :=
  Index.mem_keys

theorem target?_eq_none_iff {config : SiteConfig} {name : String} :
    config.target? name = none ↔ name ∉ config.targetNames := by
  rw [mem_targetNames, Option.not_isSome_iff_eq_none]

theorem exists_resolve_iff {config : SiteConfig} {name : String} :
    (∃ target, config.resolve (some name) = .ok target) ↔ name ∈ config.targetNames := by
  rw [mem_targetNames, resolve]
  cases config.target? name <;> simp

end SiteConfig

namespace CommandLine

/-! ## Options -/

/-- The options that the command line sets. An empty list of types sets none. -/
def BuildArguments.layer (arguments : BuildArguments) : OptionsLayer where
  src := arguments.source.src
  dist := arguments.dist
  types := if arguments.source.types = [] then none else some arguments.source.types

def BuildArguments.resolveIn (arguments : BuildArguments) (config : SiteConfig)
    (globals : List (String × Json)) : Except SiteError (List ResolvedTarget) := do
  let targets ← resolveTargets config arguments.targets arguments.source globals
  return targets.map fun target => {
    target with
    options := { target.options with dist := arguments.dist.getD target.options.dist } }

variable {config : SiteConfig} {arguments : BuildArguments} {globals : List (String × Json)}
  {targets : List ResolvedTarget}

theorem resolve_of_load {store : Files.Store host} (hg : parseGlobals arguments.globals = .ok globals)
    (hl : arguments.source.load store = .ok config) :
    arguments.resolve store = (arguments.resolveIn config globals).mapError .site := by
  rw [BuildArguments.resolve, hg, hl, BuildArguments.resolveIn]
  show (resolveTargets config arguments.targets arguments.source globals).mapError Report.site >>= _ = _
  cases resolveTargets config arguments.targets arguments.source globals <;> rfl

theorem adjusted_options (options : BuildOptions) : ({
      src := arguments.source.src.getD options.src
      dist := arguments.dist.getD options.dist
      types := if arguments.source.types.isEmpty then options.types else arguments.source.types
    } : BuildOptions) = options.overlay arguments.layer := by
  rw [BuildOptions.overlay, BuildArguments.layer]
  cases arguments.source.types <;> rfl

/-- Each target is resolved under the name it is asked for by. -/
theorem resolveIn_eq_ok (h : arguments.resolveIn config globals = .ok targets) :
    List.Forall₂ (fun name target => target.name = name ∧
        target.options
          = .stack [arguments.layer, (config.configured name).options, config.options] ∧
        ∀ key, target.globals.get? key = (globals.reverse.lookup key).or
          (((config.configured name).globals.get? key).or (config.globals.get? key)))
      (requested config arguments.targets) targets := by
  obtain ⟨resolved, hr, h⟩ := bind_eq_ok.mp h
  cases h
  rw [List.forall₂_map_right_iff]
  refine (mapM_eq_ok.mp hr).imp fun name target ht => ?_
  cases hn : config.resolve name with
  | error error =>
    rw [hn] at ht
    cases ht
  | ok found =>
    rw [hn] at ht
    cases ht
    obtain ⟨hname, hoptions, hglobals⟩ := SiteConfig.resolve_eq_ok hn
    refine ⟨hname, ?_, fun key => ?_⟩
    · rw [BuildOptions.stack_cons, ← hoptions]
      exact adjusted_options found.options
    · rw [← hglobals, ← Fields.get?_ofList]
      exact Fields.get?_overlay _ _ key

theorem resolveIn_eq_error {error : SiteError} :
    arguments.resolveIn config globals = .error error ↔ ∃ before name after,
      requested config arguments.targets = before ++ some name :: after ∧
      (∀ other ∈ before, ∃ target, config.resolve other = .ok target) ∧
      config.target? name = none ∧ error = .unknownTarget name := by
  have hmap : arguments.resolveIn config globals = .error error ↔
      resolveTargets config arguments.targets arguments.source globals = .error error := by
    rw [BuildArguments.resolveIn, bind_eq_error]
    refine or_iff_left ?_
    rintro ⟨_, -, h⟩
    cases h
  have hok : ∀ name, (∃ target, (config.resolve name).map (arguments.source.adjust globals)
      = .ok target) ↔ ∃ target, config.resolve name = .ok target := by
    intro name
    cases config.resolve name <;> simp [Except.map]
  have herror : ∀ name, (config.resolve name).map (arguments.source.adjust globals)
      = .error error ↔ config.resolve name = .error error := by
    intro name
    cases config.resolve name <;> simp [Except.map]
  simp only [hmap, resolveTargets, mapM_eq_error, hok, herror, SiteConfig.resolve_eq_error]
  constructor
  · rintro ⟨before, _, after, he, hb, name, rfl, hn, rfl⟩
    exact ⟨before, name, after, he, hb, hn, rfl⟩
  · rintro ⟨before, name, after, he, hb, hn, rfl⟩
    exact ⟨before, some name, after, he, hb, name, rfl, hn, rfl⟩

theorem requested_eq (config : SiteConfig) (names : List String) :
    requested config names = if names ≠ [] then names.map some
      else if config.targetNames = [] then [none] else config.targetNames.map some := by
  rw [requested]
  cases names with
  | cons first rest => rfl
  | nil =>
    have hempty : config.targets.isEmpty = true ↔ config.targetNames = [] := by
      rw [Index.isEmpty, List.isEmpty_iff, SiteConfig.targetNames, Index.keys, List.map_eq_nil_iff]
    simp [hempty]

/-- Only a name that is given can be one that is not configured. -/
theorem resolveIn_eq_error_iff {error : SiteError} :
    arguments.resolveIn config globals = .error error ↔ ∃ before name after,
      arguments.targets = before ++ name :: after ∧ (∀ other ∈ before, other ∈ config.targetNames) ∧
      name ∉ config.targetNames ∧ error = .unknownTarget name := by
  simp only [resolveIn_eq_error, requested_eq, SiteConfig.target?_eq_none_iff]
  by_cases hn : arguments.targets = []
  · rw [if_neg (not_not_intro hn), hn]
    constructor
    · rintro ⟨before, name, after, he, -, hu, -⟩
      have hm : some name ∈ (if config.targetNames = [] then [none]
          else config.targetNames.map some) := by
        rw [he]
        simp
      split at hm
      · simp at hm
      · exact absurd (by simpa using hm) hu
    · rintro ⟨before, name, after, he, -⟩
      simp at he
  · rw [if_pos hn]
    constructor
    · rintro ⟨before, name, after, he, hb, hu, rfl⟩
      obtain ⟨named, rest, he, rfl, hr⟩ := List.map_eq_append_iff.mp he
      obtain ⟨other, more, rfl, ho, -⟩ := List.map_eq_cons_iff.mp hr
      cases ho
      refine ⟨named, name, more, he, fun other ho => ?_, hu, rfl⟩
      exact SiteConfig.exists_resolve_iff.mp (hb (some other) (List.mem_map_of_mem ho))
    · rintro ⟨before, name, after, he, hb, hu, rfl⟩
      refine ⟨before.map some, name, after.map some, by simp [he], ?_, hu, rfl⟩
      intro other ho
      obtain ⟨known, hk, rfl⟩ := List.mem_map.mp ho
      exact SiteConfig.exists_resolve_iff.mpr (hb known hk)

/-- Options come by layers, each on its own: the source folder, the output folder and the types of a
target are each those of the command line, or else of the target, or else of the site, or else the
default ones. The targets are those named on the command line, in order and as often as they are
named there; if none is named, they are all that are configured, in sorted order, or the site itself
if none is. A name that is not configured is an error. -/
theorem resolveIn_by_layers (config : SiteConfig) (arguments : BuildArguments)
    (globals : List (String × Json)) :
    (∀ targets, arguments.resolveIn config globals = .ok targets →
      targets.map (fun target => (target.name, target.options))
        = (if arguments.targets ≠ [] then arguments.targets.map some
            else if config.targetNames = [] then [none] else config.targetNames.map some).map
          fun name => (name, .stack
            [arguments.layer, (config.configured name).options, config.options])) ∧
    (∀ error, arguments.resolveIn config globals = .error error ↔ ∃ before name after,
      arguments.targets = before ++ name :: after ∧ (∀ other ∈ before, other ∈ config.targetNames) ∧
      name ∉ config.targetNames ∧ error = .unknownTarget name) ∧
    config.targetNames.Pairwise (· < ·) ∧
    (∀ name, name ∈ config.targetNames ↔ (config.target? name).isSome = true) ∧
    ∀ (host : Host) (store : Files.Store host), parseGlobals arguments.globals = .ok globals →
      arguments.source.load store = .ok config →
      arguments.resolve store = (arguments.resolveIn config globals).mapError .site := by
  refine ⟨fun targets h => ?_, fun error => resolveIn_eq_error_iff, config.sorted_targetNames,
    fun name => SiteConfig.mem_targetNames, fun _ store hg hl => resolve_of_load hg hl⟩
  rw [← requested_eq, eq_comm, ← List.forall₂_eq_eq_eq, List.forall₂_map_left_iff,
    List.forall₂_map_right_iff]
  refine (resolveIn_eq_ok h).imp fun name target ht => ?_
  rw [ht.1, ht.2.1]

/-- A site with two targets, of which one has another output folder and a global of its own. -/
def layeredConfig : SiteConfig where
  globals := [("site", .object [("name", .string "Top"), ("lang", .string "en")]),
    ("who", .string "all")]
  options := { src := some "top", types := some ["hbs"] }
  targets := .ofList [
    ("shop", { options := { src := some "goods", dist := some "shop" } }),
    ("blog", { globals := [("site", .object [("name", .string "Blog")]), ("draft", .bool true)] })]

theorem resolveIn_by_layers_repeated : ∃ targets,
    ({ targets := ["shop", "blog", "shop"], source := { types := ["htm", "html"] } } :
      BuildArguments).resolveIn layeredConfig [] = .ok targets ∧
    targets.map (fun target => (target.name, target.options))
      = [(some "shop", ⟨"goods", "shop", ["htm", "html"]⟩),
        (some "blog", ⟨"top", "dist", ["htm", "html"]⟩),
        (some "shop", ⟨"goods", "shop", ["htm", "html"]⟩)] := by
  obtain ⟨targets, h⟩ : ∃ targets,
      ({ targets := ["shop", "blog", "shop"], source := { types := ["htm", "html"] } } :
        BuildArguments).resolveIn layeredConfig [] = .ok targets :=
    exists_of_isOk (by decide +kernel)
  obtain ⟨hok, -⟩ := resolveIn_by_layers layeredConfig
    { targets := ["shop", "blog", "shop"], source := { types := ["htm", "html"] } } []
  exact ⟨targets, h, (hok targets h).trans (by decide +kernel)⟩

/-! ## Globals -/

theorem cutAt?_singleton {mark : Char} {text before after : List Char} :
    Text.cutAt? [mark] text = some (before, after) ↔
      text = before ++ mark :: after ∧ mark ∉ before := by
  induction text generalizing before with
  | nil => simp [Text.cutAt?]
  | cons c rest ih =>
    rw [Text.cutAt?]
    by_cases hc : c = mark
    · subst hc
      rw [if_pos (by simp), List.length_singleton, List.drop_one, List.tail_cons]
      cases before with
      | nil => simp [eq_comm]
      | cons first more =>
        refine iff_of_false (by simp) ?_
        rintro ⟨he, hn⟩
        exact hn (by simp [(List.cons.inj he).1])
    · rw [if_neg (by simpa using Ne.symm hc)]
      cases before with
      | nil =>
        refine iff_of_false (by simp) ?_
        rintro ⟨he, -⟩
        exact hc (List.cons.inj he).1
      | cons first more =>
        rw [Option.map_eq_some_iff]
        constructor
        · rintro ⟨⟨found, value⟩, hf, he⟩
          cases he
          obtain ⟨rfl, hn⟩ := ih.mp hf
          exact ⟨rfl, by simpa [Ne.symm hc] using hn⟩
        · rintro ⟨he, hn⟩
          obtain ⟨rfl, ht⟩ := List.cons.inj he
          exact ⟨(more, after), ih.mpr ⟨ht, fun hm => hn (List.mem_cons_of_mem _ hm)⟩, rfl⟩

/-- A global as it is written: a key without an equals sign, then one, then its value. -/
def IsFlag (pair : String) (flag : String × Json) : Prop :=
  flag.1 ≠ "" ∧ '=' ∉ flag.1.toList ∧
    ∃ raw, pair = flag.1 ++ "=" ++ raw ∧ flag.2 = valueOfText raw

theorem parseGlobal_eq_ok {pair : String} {flag : String × Json} :
    parseGlobal pair = .ok flag ↔ IsFlag pair flag := by
  obtain ⟨key, value⟩ := flag
  rw [parseGlobal]
  constructor
  · intro h
    split at h
    · rename_i c rest raw hcut
      cases h
      obtain ⟨hp, hn⟩ := cutAt?_singleton.mp hcut
      refine ⟨by simp, by simpa using hn, String.ofList raw, ?_, rfl⟩
      apply String.toList_injective
      simp [hp]
    · cases h
  · rintro ⟨hne, hn, raw, rfl, rfl⟩
    have hcut : Text.cutAt? ['='] (key ++ "=" ++ raw).toList = some (key.toList, raw.toList) :=
      cutAt?_singleton.mpr ⟨by simp, hn⟩
    obtain ⟨c, rest, hc⟩ := List.exists_cons_of_ne_nil (mt String.toList_eq_nil_iff.mp hne)
    rw [hcut, hc]
    dsimp only
    rw [← hc, String.ofList_toList, String.ofList_toList]

/-- Globals come by layers, each whole: what a template is rendered with binds a key to what the
template's own data has for it, or else to what the last global for it on the command line says, or
else to what the target has, or else to what the site has, and only if one of them has it. The targets
are those of the command wherever the configuration is read. -/
theorem context_by_layers (hg : parseGlobals arguments.globals = .ok globals)
    (hr : arguments.resolveIn config globals = .ok targets) :
    (∀ (host : Host) (store : Files.Store host), arguments.source.load store = .ok config →
        arguments.resolve store = .ok targets) ∧
    List.Forall₂ IsFlag arguments.globals globals ∧
    ∀ target ∈ targets, ∀ (data : Option RenderData) (key : String),
      (buildContext target.globals data).get? key
        = (data.bind (·.vars.get? key)).or ((globals.reverse.lookup key).or
          (((config.configured target.name).globals.get? key).or (config.globals.get? key))) := by
  refine ⟨fun _ store hl => ?_, (mapM_eq_ok.mp hg).imp fun _ _ => parseGlobal_eq_ok.mp,
    fun target hm data key => ?_⟩
  · rw [resolve_of_load hg hl, hr]
    rfl
  · have hglobals : target.globals.get? key = (globals.reverse.lookup key).or
        (((config.configured target.name).globals.get? key).or (config.globals.get? key)) := by
      obtain ⟨name, -, hname, -, hglobals⟩ := exists_of_mem_right (resolveIn_eq_ok hr) hm
      rw [hname]
      exact hglobals key
    rw [← hglobals]
    cases data with
    | none => rfl
    | some data => exact Fields.get?_overlay target.globals data.vars key

/-- Globals as written for a site: a number and then a text under one key, and an object. -/
def writtenGlobals : List String :=
  ["who=3", "site=\x7b\"name\":\"Line\"\x7d", "who=you=me"]

theorem context_by_layers_shadowed : ∃ globals targets target,
    parseGlobals writtenGlobals = .ok globals ∧
    ({ targets := ["blog"], globals := writtenGlobals } : BuildArguments).resolveIn layeredConfig
        globals
      = .ok targets ∧
    target ∈ targets ∧ target.name = some "blog" ∧
    ((buildContext target.globals none).get? "who").map Json.text = some "\"you=me\"" ∧
    ((buildContext target.globals none).get? "site").map Json.text
      = some "\x7b\"name\":\"Line\"\x7d" ∧
    ((buildContext target.globals (some (.ofVars [("who", .null)]))).get? "who").map Json.text
      = some "null" ∧
    ((buildContext target.globals (some (.ofVars [("who", .null)]))).get? "draft").map Json.text
      = some "true" ∧
    ((buildContext target.globals none).get? "other").map Json.text = none := by
  have hg : parseGlobals writtenGlobals = .ok [("who", valueOfText "3"),
      ("site", valueOfText "\x7b\"name\":\"Line\"\x7d"), ("who", valueOfText "you=me")] := rfl
  obtain ⟨targets, hr, hnames⟩ : ∃ targets,
      ({ targets := ["blog"], globals := writtenGlobals } : BuildArguments).resolveIn layeredConfig
        [("who", valueOfText "3"), ("site", valueOfText "\x7b\"name\":\"Line\"\x7d"),
          ("who", valueOfText "you=me")]
          = .ok targets ∧ decide (targets.map ResolvedTarget.name = [some "blog"]) = true :=
    exists_ok (by decide +kernel)
  obtain ⟨target, rest, rfl, hname, -⟩ := List.map_eq_cons_iff.mp (of_decide_eq_true hnames)
  obtain ⟨-, -, hcontext⟩ := context_by_layers hg hr
  have hcontext := hcontext target List.mem_cons_self
  rw [hname] at hcontext
  refine ⟨_, _, target, hg, hr, List.mem_cons_self, hname, ?_, ?_, ?_, ?_, ?_⟩
  all_goals
    rw [hcontext]
    decide +kernel

end CommandLine

end Folio
