import Folio.Proofs.Site.Collecting
import Folio.Site.Check
import Folio.Site.Plan
/-!
# Planning and checking

A plan stops at the first template that cannot be loaded, a check goes on past it. Over the same
files both gather the same templates as long as nothing fails, so a site that can be planned is
one in which a check finds no error.
-/

namespace Folio

variable {host : Host}

namespace Survey

/-- One file that a collection can take in is taken into a survey of that collection, and no error
comes of it. -/
theorem add_template (store : Files.Store host) (survey : Survey) {found : Found}
    {file : TemplateFile} {template : Template} (hf : found.file? = .ok (some file))
    (hl : (Template.load store file).outcome = .ok template) :
    (survey.add store found).collection = survey.collection.insert template ∧
      (survey.add store found).errors = survey.errors := by
  simp [add, hf, hl]

theorem add_nothing (store : Files.Store host) (survey : Survey) {found : Found}
    (hf : found.file? = .ok none) :
    (survey.add store found).collection = survey.collection ∧
      (survey.add store found).errors = survey.errors := by
  simp [add, hf]

/-- Files that can all be taken in leave the same collection in a survey as in a registry. -/
theorem foldl_add_of_addAll {store : Files.Store host} {founds : List Found} {collection : Collection}
    (survey : Survey)
    (h : (Collection.addAll store survey.collection founds).outcome = .ok collection) :
    (founds.foldl (add store) survey).collection = collection ∧
      (founds.foldl (add store) survey).errors = survey.errors := by
  induction founds generalizing survey with
  | nil =>
    simp only [Collection.addAll, Logged.outcome_pure, Except.ok.injEq] at h
    exact ⟨h, rfl⟩
  | cons found rest ih =>
    rw [Collection.addAll_cons] at h
    rw [List.foldl_cons]
    cases hf : found.file? with
    | error error => simp [hf] at h
    | ok file =>
      cases file with
      | none =>
        obtain ⟨hc, he⟩ := add_nothing store survey hf
        simp only [hf] at h
        rw [← he]
        exact ih (survey.add store found) (by rw [hc]; exact h)
      | some file =>
        cases hl : (Template.load store file).outcome with
        | error stop => simp [hf, hl, bind, Except.bind] at h
        | ok template =>
          obtain ⟨hc, he⟩ := add_template store survey hf hl
          simp only [hf, hl, bind, Except.bind] at h
          rw [← he]
          exact ih (survey.add store found) (by rw [hc]; exact h)

theorem ofFolder_of_populate {store : Files.Store host} {folder : String} {matcher : Matcher}
    {collection : Collection}
    (h : (Collection.populate store folder matcher).outcome = .ok collection) :
    (ofFolder store folder matcher).collection = collection ∧
      (ofFolder store folder matcher).errors = [] :=
  foldl_add_of_addAll {} (Collection.populate_eq_ok.mp h)

end Survey

namespace Registry

theorem discover_eq_ok {store : Files.Store host} {src : String} {matcher : Matcher}
    {registry : Registry} :
    (discover store src matcher).outcome = .ok registry ↔
      (Collection.populate store (Files.Path.join src layoutsFolder) matcher).outcome
          = .ok registry.layouts ∧
        (Collection.populate store (Files.Path.join src partialsFolder) matcher).outcome
          = .ok registry.partials ∧
        (Collection.populate store (Files.Path.join src pagesFolder) matcher).outcome
          = .ok registry.pages := by
  simp only [discover, Logged.outcome_bind_eq_ok, Logged.outcome_tell, Logged.outcome_pure,
    Except.ok.injEq]
  constructor
  · rintro ⟨layouts, hl, _, -, partials, hp, _, -, pages, hg, _, -, rfl⟩
    exact ⟨hl, hp, hg⟩
  · rintro ⟨hl, hp, hg⟩
    exact ⟨_, hl, (), trivial, _, hp, (), trivial, _, hg, (), trivial, rfl⟩

end Registry

theorem outcomes_of_planPages {store : Files.Store host} {registry : Registry} {globals : Fields}
    {templates : List Template} {pages : List PlannedPage}
    (h : (planPages store registry globals templates).outcome = .ok pages) :
    templates.map (fun template => (planPage store registry globals template).outcome)
      = pages.map .ok := by
  induction templates generalizing pages with
  | nil =>
    cases h
    rfl
  | cons template rest ih =>
    simp only [planPages, Logged.outcome_bind_eq_ok, Logged.outcome_pure, Except.ok.injEq] at h
    obtain ⟨page, hp, more, hm, rfl⟩ := h
    rw [List.map_cons, List.map_cons, hp, ih hm]

theorem length_of_planPages {store : Files.Store host} {registry : Registry} {globals : Fields}
    {templates : List Template} {pages : List PlannedPage}
    (h : (planPages store registry globals templates).outcome = .ok pages) :
    pages.length = templates.length := by
  simpa using (congrArg List.length (outcomes_of_planPages h)).symm

namespace BuildOptions

/-- What options end in before the files are looked at, if they do. -/
def error? (host : Host) (options : BuildOptions) : Option SiteError :=
  match options.fault? with
  | some fault => some (.configInvalid fault)
  | none => (host.refusal? options.types).map .invalidMatcher

theorem matcher_eq (host : Host) (options : BuildOptions) :
    options.matcher host = match options.error? host with
      | some error => .error error
      | none => .ok ⟨options.types⟩ := by
  rw [matcher, validate, Matcher.ofTypes, error?]
  cases options.fault? with
  | some fault => rfl
  | none => cases host.refusal? options.types <;> rfl

theorem error?_eq_some_iff {options : BuildOptions} {error : SiteError} :
    options.error? host = some error ↔
      (∃ fault, options.fault? = some fault ∧ error = .configInvalid fault) ∨
        options.fault? = none ∧
          ∃ cause, host.refusal? options.types = some cause ∧ error = .invalidMatcher cause := by
  rw [error?]
  cases options.fault? with
  | some fault => simp [eq_comm]
  | none => simp [eq_comm]

end BuildOptions

/-- What a plan is made of. -/
theorem planBuild_eq_ok {store : Files.Store host} {globals : Fields} {options : BuildOptions}
    {plan : BuildPlan} (h : (planBuild store globals options).outcome = .ok plan) :
    options.error? host = none ∧ ∃ registry pages,
      (Registry.discover store options.src ⟨options.types⟩).outcome = .ok registry ∧
      registry.pages.isEmpty = false ∧
      (planPages store registry globals registry.pages.templates).outcome = .ok pages ∧
      plan = ⟨options.dist, registry.layouts.size, registry.partials.size, pages,
        registry.warnings⟩ := by
  simp only [planBuild, Logged.outcome_bind_eq_ok, Logged.outcome_lift] at h
  obtain ⟨matcher, hv, registry, hr, h⟩ := h
  have hnone : options.error? host = none := by
    cases ho : options.error? host with
    | none => rfl
    | some error => simp [BuildOptions.matcher_eq, ho, Except.mapError] at hv
  have hmatcher : options.matcher host = .ok ⟨options.types⟩ := by
    rw [BuildOptions.matcher_eq, hnone]
  rw [hmatcher] at hv
  cases hv
  cases he : registry.pages.isEmpty with
  | true => simp [he] at h
  | false =>
    simp only [he, Bool.false_eq_true, if_false, Logged.outcome_bind_eq_ok,
      Logged.outcome_pure, Except.ok.injEq] at h
    obtain ⟨pages, hp, rfl⟩ := h
    exact ⟨hnone, registry, pages, hr, he, hp, rfl⟩

/-- What can be planned checks without an error, with the same counts, and the warnings of the plan
come first among those of the check. -/
theorem checkSite_of_planBuild {store : Files.Store host} {globals : Fields} {options : BuildOptions}
    {plan : BuildPlan} (h : (planBuild store globals options).outcome = .ok plan) :
    ∃ result, (checkSite store options).outcome = .ok result ∧
      result.errors = [] ∧
      result.layouts = plan.layouts ∧
      result.partials = plan.partials ∧
      result.pages = plan.pages.length ∧
      plan.warnings <+: result.warnings := by
  obtain ⟨hv, registry, pages, hr, he, hp, rfl⟩ := planBuild_eq_ok h
  obtain ⟨hl, hq, hg⟩ := Registry.discover_eq_ok.mp hr
  obtain ⟨hlc, hle⟩ := Survey.ofFolder_of_populate hl
  obtain ⟨hqc, hqe⟩ := Survey.ofFolder_of_populate hq
  obtain ⟨hgc, hge⟩ := Survey.ofFolder_of_populate hg
  simp only [checkSite, BuildOptions.matcher_eq, hv, Except.mapError, Logged.outcome_bind,
    Logged.outcome_lift, Logged.outcome_tell, Logged.outcome_pure, ok_bind, hlc, hqc, hgc, hle, hqe,
    hge, he]
  exact ⟨_, rfl, by simp, rfl, rfl, (length_of_planPages hp).symm, List.prefix_append _ _⟩

theorem checkSite_of_planBuild_duplicate : ∃ result,
    (checkSite (.ofTexts [("src/pages/a.hbs", "old"), ("src/pages/a.mustache", "new")])
      { types := ["mustache", "hbs"] }).outcome = .ok result ∧
    result.errors = [] ∧ result.layouts = 0 ∧ result.partials = 0 ∧ result.pages = 1 ∧
    ["duplicate template name 'a': src/pages/a.mustache replaces src/pages/a.hbs"]
      <+: result.warnings := by
  have hp : (planBuild (.ofTexts [("src/pages/a.hbs", "old"), ("src/pages/a.mustache", "new")]) []
      { types := ["mustache", "hbs"] }).outcome
        = .ok ⟨"dist", 0, 0, [⟨"a", "a.html", none, "new"⟩],
            ["duplicate template name 'a': src/pages/a.mustache replaces src/pages/a.hbs"]⟩ :=
    eq_ok_of_toOption (by decide +kernel)
  exact checkSite_of_planBuild hp

end Folio
