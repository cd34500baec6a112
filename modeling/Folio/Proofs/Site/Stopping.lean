import Folio.Proofs.Site.Agreement
/-!
# Where a plan stops

Before it renders anything a plan does what a check does, but a check goes on past what stops the
plan. So the first error that a check lists is the one the plan stops at, and a plan gets as far as
rendering only if a check lists no error.
-/

namespace Folio

variable {host : Host}

/-! ## Loading -/

theorem RenderData.load_eq_error {store : Files.Store host} {path : String} {stop : Stop}
    (h : (load store path).outcome = .error stop) : ∃ error, stop = .error error := by
  unfold load at h
  split at h
  · split at h
    · exact ⟨_, (Except.error.inj h).symm⟩
    · split at h
      · exact ⟨_, (Except.error.inj h).symm⟩
      · cases h
      · exact ⟨_, (Except.error.inj h).symm⟩
  · cases h

theorem Template.load_eq_error {store : Files.Store host} {file : TemplateFile} {stop : Stop}
    (h : (load store file).outcome = .error stop) : ∃ error, stop = .error error := by
  rw [outcome_load] at h
  split at h
  · exact ⟨_, (Except.error.inj h).symm⟩
  · split at h
    · exact ⟨_, (Except.error.inj h).symm⟩
    · rcases bind_eq_error.mp h with hd | ⟨_, -, h⟩
      · exact RenderData.load_eq_error hd
      · cases h

/-! ## Surveys -/

namespace Survey

theorem errors_add (store : Files.Store host) (survey : Survey) (found : Found) :
    survey.errors <+: (survey.add store found).errors := by
  unfold add
  split
  · exact List.prefix_append _ _
  · exact List.prefix_rfl
  · dsimp only
    split
    · exact List.prefix_rfl
    · exact List.prefix_append _ _
    · exact List.prefix_rfl

theorem errors_foldl_add (store : Files.Store host) (founds : List Found) (survey : Survey) :
    survey.errors <+: (founds.foldl (add store) survey).errors := by
  induction founds generalizing survey with
  | nil => exact List.prefix_rfl
  | cons found rest ih => exact (errors_add store survey found).trans (ih _)

theorem add_unloaded {store : Files.Store host} {survey : Survey} {found : Found} {file : TemplateFile}
    {error : SiteError} (hf : found.file? = .ok (some file))
    (hl : (Template.load store file).outcome = .error (.error error)) :
    (survey.add store found).errors = survey.errors ++ [error.describe] := by
  simp [add, hf, hl]

theorem add_unopened {store : Files.Store host} {survey : Survey} {found : Found} {error : SiteError}
    (hf : found.file? = .error error) :
    (survey.add store found).errors = survey.errors ++ [error.describe] := by
  simp [add, hf]

/-- What a collection cannot take in is the first error that a survey of that collection gains. -/
theorem errors_of_addAll_error {store : Files.Store host} {founds : List Found} {stop : Stop}
    (survey : Survey)
    (h : (Collection.addAll store survey.collection founds).outcome = .error stop) :
    ∃ error, stop = .error error ∧
      survey.errors ++ [error.describe] <+: (founds.foldl (add store) survey).errors := by
  induction founds generalizing survey with
  | nil => cases h
  | cons found rest ih =>
    rw [Collection.addAll_cons] at h
    rw [List.foldl_cons]
    cases hf : found.file? with
    | error error =>
      simp only [hf] at h
      refine ⟨error, (Except.error.inj h).symm, ?_⟩
      rw [← add_unopened hf]
      exact errors_foldl_add store rest _
    | ok file =>
      cases file with
      | none =>
        obtain ⟨hc, he⟩ := add_nothing store survey hf
        simp only [hf] at h
        rw [← he]
        exact ih (survey.add store found) (by rw [hc]; exact h)
      | some file =>
        simp only [hf] at h
        rcases bind_eq_error.mp h with hl | ⟨template, hl, h⟩
        · obtain ⟨error, rfl⟩ := Template.load_eq_error hl
          refine ⟨error, rfl, ?_⟩
          rw [← add_unloaded hf hl]
          exact errors_foldl_add store rest _
        · obtain ⟨hc, he⟩ := add_template store survey hf hl
          rw [← he]
          exact ih (survey.add store found) (by rw [hc]; exact h)

theorem errors_of_populate_error {store : Files.Store host} {folder : String} {matcher : Matcher}
    {stop : Stop} (h : (Collection.populate store folder matcher).outcome = .error stop) :
    ∃ error, stop = .error error ∧
      [error.describe] <+: (ofFolder store folder matcher).errors := by
  have ha : (Collection.addAll store .empty (discover store folder matcher)).outcome = .error stop := by
    rw [Collection.populate, Logged.outcome_bind] at h
    refine (bind_eq_error.mp h).resolve_right ?_
    rintro ⟨_, -, h⟩
    cases h
  exact errors_of_addAll_error {} ha

end Survey

/-! ## Sites -/

theorem Registry.discover_eq_error {store : Files.Store host} {src : String} {matcher : Matcher}
    {stop : Stop} (h : (discover store src matcher).outcome = .error stop) :
    (Collection.populate store (Files.Path.join src layoutsFolder) matcher).outcome = .error stop ∨
    (∃ layouts, (Collection.populate store (Files.Path.join src layoutsFolder) matcher).outcome
        = .ok layouts) ∧
      ((Collection.populate store (Files.Path.join src partialsFolder) matcher).outcome = .error stop ∨
      (∃ partials, (Collection.populate store (Files.Path.join src partialsFolder) matcher).outcome
          = .ok partials) ∧
        (Collection.populate store (Files.Path.join src pagesFolder) matcher).outcome
          = .error stop) := by
  simp only [discover, Logged.outcome_bind, Logged.outcome_tell, Logged.outcome_pure, ok_bind] at h
  refine (bind_eq_error.mp h).imp_right ?_
  rintro ⟨layouts, hl, h⟩
  refine ⟨⟨layouts, hl⟩, (bind_eq_error.mp h).imp_right ?_⟩
  rintro ⟨partials, hp, h⟩
  refine ⟨⟨partials, hp⟩, (bind_eq_error.mp h).resolve_right ?_⟩
  rintro ⟨pages, -, h⟩
  cases h

/-- What comes before rendering: the options are looked at, all templates are loaded, and there must
be a page. -/
def prepare (store : Files.Store host) (options : BuildOptions) : Except Stop Registry := do
  let matcher ← (options.matcher host).mapError .error
  let registry ← (Registry.discover store options.src matcher).outcome
  if registry.pages.isEmpty then
    .error (.error (.noPages (Files.Path.join options.src Registry.pagesFolder)))
  else return registry

theorem outcome_planBuild (store : Files.Store host) (globals : Fields) (options : BuildOptions) :
    (planBuild store globals options).outcome = prepare store options >>= fun registry =>
      (planPages store registry globals registry.pages.templates).outcome >>= fun pages =>
        .ok ⟨options.dist, registry.layouts.size, registry.partials.size, pages,
          registry.warnings⟩ := by
  simp only [planBuild, prepare, Logged.outcome_bind, Logged.outcome_lift, bind_assoc]
  congr 1
  funext _
  congr 1
  funext registry
  split
  · rfl
  · simp only [Logged.outcome_bind, Logged.outcome_pure]
    rfl

theorem mapError_matcher (options : BuildOptions) :
    (options.matcher host).mapError Stop.error = match options.error? host with
      | some error => .error (.error error)
      | none => .ok ⟨options.types⟩ := by
  rw [BuildOptions.matcher_eq]
  cases options.error? host <;> rfl

theorem checkSite_of_valid {options : BuildOptions} (store : Files.Store host)
    (hv : options.error? host = none) :
    ∃ result, (checkSite store options).outcome = .ok result ∧
      result.errors =
        (Survey.ofFolder store (Files.Path.join options.src Registry.layoutsFolder)
          ⟨options.types⟩).errors
        ++ (Survey.ofFolder store (Files.Path.join options.src Registry.partialsFolder)
          ⟨options.types⟩).errors
        ++ (Survey.ofFolder store (Files.Path.join options.src Registry.pagesFolder)
          ⟨options.types⟩).errors
        ++ (if (Survey.ofFolder store (Files.Path.join options.src Registry.pagesFolder)
            ⟨options.types⟩).collection.isEmpty then
          [(SiteError.noPages (Files.Path.join options.src Registry.pagesFolder)).message]
          else []) := by
  simp only [checkSite, mapError_matcher, hv, Logged.outcome_bind, Logged.outcome_lift,
    Logged.outcome_tell, Logged.outcome_pure]
  exact ⟨_, rfl, rfl⟩

theorem SiteError.describe_eq_foldl (error : SiteError) :
    error.describe = error.causes.foldl (fun line cause => line ++ ": " ++ cause) error.message := by
  have hall : ∀ (causes : List String) (line : String),
      ": ".intercalate (line :: causes)
        = causes.foldl (fun line cause => line ++ ": " ++ cause) line := by
    intro causes
    induction causes with
    | nil => exact fun line => String.intercalate_singleton
    | cons cause rest ih =>
      intro line
      rw [List.foldl_cons, ← ih]
      cases rest with
      | nil => simp [String.intercalate_cons_cons]
      | cons second more => simp [String.intercalate_cons_cons, String.append_assoc]
  exact hall error.causes error.message

theorem errors_of_prepare_ok {store : Files.Store host} {options : BuildOptions} {registry : Registry}
    (h : prepare store options = .ok registry) {result : CheckResult}
    (hc : (checkSite store options).outcome = .ok result) : result.errors = [] := by
  obtain ⟨matcher, hv, h⟩ := bind_eq_ok.mp h
  obtain ⟨_, hr, h⟩ := bind_eq_ok.mp h
  split at h
  · cases h
  · rename_i hne
    cases h
    rw [mapError_matcher] at hv
    cases ho : options.error? host with
    | some error => simp [ho] at hv
    | none =>
      simp only [ho, Except.ok.injEq] at hv
      subst hv
      obtain ⟨checked, hk, he⟩ := checkSite_of_valid store ho
      obtain ⟨hl, hp, hg⟩ := Registry.discover_eq_ok.mp hr
      rw [hk] at hc
      cases hc
      rw [he, (Survey.ofFolder_of_populate hl).2, (Survey.ofFolder_of_populate hp).2,
        (Survey.ofFolder_of_populate hg).2, (Survey.ofFolder_of_populate hg).1, if_neg hne]
      rfl

/-- The folders are looked through in one order, so the first error of a check comes from the folder
that a registry cannot be filled from. -/
theorem errors_of_discover_error {store : Files.Store host} {options : BuildOptions} {stop : Stop}
    (hv : options.error? host = none)
    (h : (Registry.discover store options.src ⟨options.types⟩).outcome = .error stop) :
    ∃ error result, stop = .error error ∧ (checkSite store options).outcome = .ok result ∧
      [error.describe] <+: result.errors := by
  obtain ⟨result, hk, he⟩ := checkSite_of_valid store hv
  rcases Registry.discover_eq_error h with hl | ⟨⟨layouts, hl⟩, hp | ⟨⟨partials, hp⟩, hg⟩⟩
  · obtain ⟨error, hs, hpre⟩ := Survey.errors_of_populate_error hl
    refine ⟨error, result, hs, hk, ?_⟩
    rw [he, List.append_assoc, List.append_assoc]
    exact hpre.trans (List.prefix_append _ _)
  · obtain ⟨error, hs, hpre⟩ := Survey.errors_of_populate_error hp
    refine ⟨error, result, hs, hk, ?_⟩
    rw [he, (Survey.ofFolder_of_populate hl).2, List.nil_append, List.append_assoc]
    exact hpre.trans (List.prefix_append _ _)
  · obtain ⟨error, hs, hpre⟩ := Survey.errors_of_populate_error hg
    refine ⟨error, result, hs, hk, ?_⟩
    rw [he, (Survey.ofFolder_of_populate hl).2, (Survey.ofFolder_of_populate hp).2, List.nil_append,
      List.nil_append]
    exact hpre.trans (List.prefix_append _ _)

theorem errors_of_noPages {store : Files.Store host} {options : BuildOptions} {registry : Registry}
    (hv : options.error? host = none)
    (h : (Registry.discover store options.src ⟨options.types⟩).outcome = .ok registry)
    (hn : registry.pages.isEmpty = true) :
    ∃ result, (checkSite store options).outcome = .ok result ∧
      result.errors
        = [(SiteError.noPages (Files.Path.join options.src Registry.pagesFolder)).describe] := by
  obtain ⟨result, hk, he⟩ := checkSite_of_valid store hv
  obtain ⟨hl, hp, hg⟩ := Registry.discover_eq_ok.mp h
  refine ⟨result, hk, ?_⟩
  rw [he, (Survey.ofFolder_of_populate hl).2, (Survey.ofFolder_of_populate hp).2,
    (Survey.ofFolder_of_populate hg).2, (Survey.ofFolder_of_populate hg).1, if_pos hn,
    SiteError.describe_eq_foldl]
  rfl

/-- What stops a plan before it renders anything is always an error to report, and the check reports
it: as its own error if it comes of the options or of the pattern of their extensions, and else in its
first line, with the causes. A check that lists errors is one of a site whose plan stops before
rendering. -/
theorem errors_of_prepare_error (store : Files.Store host) (globals : Fields) (options : BuildOptions) :
    (∀ stop, prepare store options = .error stop →
      ∃ error, stop = .error error ∧
        (planBuild store globals options).outcome = .error (.error error) ∧
        (((∃ fault, options.fault? = some fault ∧ error = .configInvalid fault) ∨
            options.fault? = none ∧
              ∃ cause, host.refusal? options.types = some cause ∧ error = .invalidMatcher cause) ∧
            (checkSite store options).outcome = .error (.error error) ∨
          ∃ result, (checkSite store options).outcome = .ok result ∧
            result.errors.head?
              = some (error.causes.foldl (fun line cause => line ++ ": " ++ cause) error.message))) ∧
    ∀ result, (checkSite store options).outcome = .ok result → result.errors ≠ [] →
      ∃ error, prepare store options = .error (.error error) ∧
        (planBuild store globals options).outcome = .error (.error error) := by
  have hplan : ∀ stop, prepare store options = .error stop →
      (planBuild store globals options).outcome = .error stop := by
    intro stop h
    rw [outcome_planBuild, h, error_bind]
  have hstop : ∀ stop, prepare store options = .error stop → ∃ error, stop = .error error ∧
      (options.error? host = some error ∧ (checkSite store options).outcome = .error (.error error) ∨
        ∃ result, (checkSite store options).outcome = .ok result ∧
          [error.describe] <+: result.errors) := by
    intro stop h
    rw [prepare, mapError_matcher] at h
    cases hv : options.error? host with
    | some error =>
      simp only [hv, error_bind] at h
      cases h
      refine ⟨_, rfl, .inl ⟨rfl, ?_⟩⟩
      rw [checkSite, Logged.outcome_bind, Logged.outcome_lift, mapError_matcher, hv, error_bind]
    | none =>
      simp only [hv, ok_bind] at h
      rcases bind_eq_error.mp h with hr | ⟨registry, hr, h⟩
      · obtain ⟨error, result, hs, hk, hpre⟩ := errors_of_discover_error hv hr
        exact ⟨error, hs, .inr ⟨result, hk, hpre⟩⟩
      · split at h
        · rename_i hn
          obtain ⟨result, hk, he⟩ := errors_of_noPages hv hr hn
          exact ⟨_, (Except.error.inj h).symm, .inr ⟨result, hk, he ▸ List.prefix_rfl⟩⟩
        · cases h
  refine ⟨fun stop h => ?_, fun result hk hne => ?_⟩
  · obtain ⟨error, rfl, hc⟩ := hstop stop h
    refine ⟨error, rfl, hplan _ h, ?_⟩
    rcases hc with ⟨he, hc⟩ | ⟨result, hk, more, hm⟩
    · exact .inl ⟨BuildOptions.error?_eq_some_iff.mp he, hc⟩
    · refine .inr ⟨result, hk, ?_⟩
      rw [← hm, ← SiteError.describe_eq_foldl]
      rfl
  · cases h : prepare store options with
    | ok registry => exact absurd (errors_of_prepare_ok h hk) hne
    | error stop =>
      obtain ⟨error, rfl, -⟩ := hstop stop h
      exact ⟨error, rfl, hplan _ h⟩

theorem errors_of_prepare_error_layout : ∃ result,
    prepare (.ofTexts [("src/layouts/main.mustache", "\x7b\x7b#a\x7d\x7d"),
      ("src/pages/index.mustache", "\x7b\x7b\x7d\x7d")]) {}
        = .error (.error (.templateCompile "src/layouts/main.mustache" (.malformed .unclosedSection))) ∧
    (checkSite (.ofTexts [("src/layouts/main.mustache", "\x7b\x7b#a\x7d\x7d"),
      ("src/pages/index.mustache", "\x7b\x7b\x7d\x7d")]) {}).outcome = .ok result ∧
    result.errors.head?
      = some "Failed to compile template src/layouts/main.mustache: found an unclosed section" ∧
    ∃ error, (planBuild (.ofTexts [("src/layouts/main.mustache", "\x7b\x7b#a\x7d\x7d"),
      ("src/pages/index.mustache", "\x7b\x7b\x7d\x7d")]) [] {}).outcome = .error (.error error) := by
  have hp : prepare (.ofTexts [("src/layouts/main.mustache", "\x7b\x7b#a\x7d\x7d"),
      ("src/pages/index.mustache", "\x7b\x7b\x7d\x7d")]) {}
        = .error (.error (.templateCompile "src/layouts/main.mustache"
            (.malformed .unclosedSection))) :=
    eq_error_of_faultOf? (by decide +kernel)
  obtain ⟨hstop, hlisted⟩ := errors_of_prepare_error (.ofTexts
    [("src/layouts/main.mustache", "\x7b\x7b#a\x7d\x7d"),
      ("src/pages/index.mustache", "\x7b\x7b\x7d\x7d")]) [] {}
  obtain ⟨error, he, -, hc⟩ := hstop _ hp
  cases he
  rcases hc with ⟨⟨fault, -, hf⟩ | ⟨-, cause, -, hf⟩, -⟩ | ⟨result, hk, hh⟩
  · cases hf
  · cases hf
  · have hne : result.errors ≠ [] := by
      intro hnil
      rw [hnil] at hh
      cases hh
    obtain ⟨error, -, hplan⟩ := hlisted result hk hne
    exact ⟨result, hp, hk, hh, error, hplan⟩

end Folio
