import Folio.Proofs.Site.Replacements
/-!
# Layouts that pages declare

A page declares a layout by a string in its data. In a plan it is composed into the layout of that
name, or on its own if there is none, and a check has a warning for each page that declares a layout
in vain, in the order of the pages.
-/

namespace Folio

variable {host : Host}

open Files

/-! ## Declarations -/

theorem RenderSettings.declared?_eq_some_iff {vars : Fields} {key text : String} :
    declared? vars key = some text ↔ ∃ settings : Fields,
      vars.get? "render" = some (.object settings) ∧ settings.get? key = some (.string text) ∧
      text ≠ "" := by
  have hfield : ∀ value : Json, (value.field? key).bind Json.string? = some text ↔
      ∃ settings : Fields, value = .object settings ∧
        settings.get? key = some (.string text) := by
    intro value
    cases value with
    | object settings =>
      simp only [Json.field?, Option.bind_eq_some_iff, Json.object.injEq, exists_eq_left']
      constructor
      · rintro ⟨found, hf, hs⟩
        cases found <;> cases hs
        exact hf
      · exact fun h => ⟨_, h, rfl⟩
    | _ => simp [Json.field?]
  have hsplit : declared? vars key = some text ↔ ∃ value, vars.get? "render" = some value ∧
      (value.field? key).bind Json.string? = some text ∧ text ≠ "" := by
    simp only [declared?, bind, Option.bind_eq_some_iff, Option.ite_none_left_eq_some,
      String.isEmpty_iff, Option.some.injEq]
    constructor
    · rintro ⟨value, hv, field, hf, found, hs, hne, rfl⟩
      exact ⟨value, hv, ⟨field, hf, hs⟩, hne⟩
    · rintro ⟨value, hv, ⟨field, hf, hs⟩, hne⟩
      exact ⟨value, hv, field, hf, text, hs, hne, rfl⟩
  rw [hsplit]
  constructor
  · rintro ⟨value, hv, hs, hne⟩
    obtain ⟨settings, rfl, hf⟩ := (hfield value).mp hs
    exact ⟨settings, hv, hf, hne⟩
  · rintro ⟨settings, hv, hs, hne⟩
    exact ⟨_, hv, (hfield _).mpr ⟨settings, rfl, hs⟩, hne⟩

/-- The data of a template has an object `render` with a string `layout` that is not empty. -/
def Template.Declares (template : Template) (layout : String) : Prop :=
  ∃ (data : RenderData) (settings : Fields), template.data = some data ∧
    data.vars.get? "render" = some (.object settings) ∧
    settings.get? "layout" = some (.string layout) ∧ layout ≠ ""

theorem Template.Declares.ne_empty {template : Template} {layout : String}
    (h : template.Declares layout) : layout ≠ "" := by
  obtain ⟨_, _, -, -, -, hne⟩ := h
  exact hne

theorem Template.layout_eq_some_iff {store : Store host} {file : TemplateFile} {template : Template}
    (h : (load store file).outcome = .ok template) {layout : String} :
    template.layout = some layout ↔ template.Declares layout := by
  obtain ⟨-, -, hload⟩ := load_eq_ok h
  rw [Template.layout, Declares]
  cases hd : template.data with
  | none => simp
  | some data =>
    rw [hd] at hload
    have hsettings : data.settings = .ofVars data.vars :=
      congrArg RenderData.settings (RenderData.load_eq_ok hload)
    rw [Option.bind_some, hsettings, RenderSettings.ofVars, RenderSettings.declared?_eq_some_iff]
    constructor
    · rintro ⟨settings, hv, hs, hne⟩
      exact ⟨data, settings, rfl, hv, hs, hne⟩
    · rintro ⟨other, settings, he, hv, hs, hne⟩
      obtain rfl := Option.some.inj he
      exact ⟨settings, hv, hs, hne⟩

theorem Collection.layout_of_populate {store : Store host} {folder : String} {matcher : Matcher}
    {collection : Collection} (h : (populate store folder matcher).outcome = .ok collection) :
    ∀ template ∈ collection.templates, ∀ layout,
      template.layout = some layout ↔ template.Declares layout := by
  intro template hm layout
  obtain ⟨_, _, file, -, hl⟩ := comesFrom_of_populate h template hm
  exact Template.layout_eq_some_iff hl

/-! ## Pages of a plan -/

theorem resolveLayout_eq_some_iff {page layout : Template} {layouts : Collection}
    (h : ∀ name, page.layout = some name ↔ page.Declares name) :
    resolveLayout page layouts = some layout ↔
      page.Declares layout.name ∧ layout ∈ layouts.templates := by
  have hlookup : ∀ name, name ≠ "" → layouts.lookup name = layouts.find? name :=
    fun name hn => if_neg (by simpa using hn)
  simp only [resolveLayout, Option.bind_eq_some_iff, h]
  constructor
  · rintro ⟨name, hd, hf⟩
    rw [hlookup name hd.ne_empty, Collection.find?_eq_some_iff] at hf
    obtain ⟨hm, rfl⟩ := hf
    exact ⟨hd, hm⟩
  · rintro ⟨hd, hm⟩
    refine ⟨layout.name, hd, ?_⟩
    rw [hlookup layout.name hd.ne_empty, Collection.find?_eq_some_iff]
    exact ⟨hm, rfl⟩

/-- A planned page against the template it is of: it is in a layout just if that is declared and
there, and what is written is the layout around the page, or else the page alone. -/
structure PlannedPage.Composed (store : Store host) (registry : Registry) (globals : Fields)
    (planned : PlannedPage) (page : Template) : Prop where
  name : planned.name = page.name
  layout : ∀ name, planned.layout = some name ↔
    page.Declares name ∧ ∃ layout ∈ registry.layouts.templates, layout.name = name
  inside : ∀ layout ∈ registry.layouts.templates, planned.layout = some layout.name →
    layout.body.render store layout.name (buildContext globals layout.data)
      (registry.partials.partials.insert contentName page.body) = .ok planned.content
  alone : planned.layout = none →
    page.body.render store page.name (buildContext globals page.data) registry.partials.partials
      = .ok planned.content

variable {store : Store host}

theorem layout_of_planPage {registry : Registry} {globals : Fields} {page : Template}
    {planned : PlannedPage} (h : (planPage store registry globals page).outcome = .ok planned) :
    planned.layout = (resolveLayout page registry.layouts).map Template.name := by
  simp only [planPage, Logged.outcome_bind_eq_ok, Logged.outcome_lift, Logged.outcome_tell,
    Logged.outcome_pure, Except.ok.injEq] at h
  obtain ⟨_, -, _, -, rfl⟩ := h
  rfl

theorem composed_of_planPage {registry : Registry} {globals : Fields} {page : Template}
    {planned : PlannedPage} (h : (planPage store registry globals page).outcome = .ok planned)
    (hd : ∀ name, page.layout = some name ↔ page.Declares name) :
    planned.Composed store registry globals page := by
  obtain ⟨hname, -, hc⟩ := planPage_eq_ok h
  have hlayout := layout_of_planPage h
  have hresolve : ∀ layout, resolveLayout page registry.layouts = some layout ↔
      page.Declares layout.name ∧ layout ∈ registry.layouts.templates :=
    fun layout => resolveLayout_eq_some_iff hd
  refine ⟨hname, fun name => ?_, fun layout hm hl => ?_, fun hl => ?_⟩
  · rw [hlayout, Option.map_eq_some_iff]
    constructor
    · rintro ⟨layout, hr, rfl⟩
      obtain ⟨hdeclares, hm⟩ := (hresolve layout).mp hr
      exact ⟨hdeclares, layout, hm, rfl⟩
    · rintro ⟨hdeclares, layout, hm, rfl⟩
      exact ⟨layout, (hresolve layout).mpr ⟨hdeclares, hm⟩, rfl⟩
  · rw [hlayout] at hl
    obtain ⟨other, hr, hn⟩ := Option.map_eq_some_iff.mp hl
    obtain ⟨hdeclares, -⟩ := (hresolve other).mp hr
    have hsame : resolveLayout page registry.layouts = some layout :=
      (hresolve layout).mpr ⟨hn ▸ hdeclares, hm⟩
    rw [compose, hsame] at hc
    exact hc
  · rw [hlayout, Option.map_eq_none_iff] at hl
    rw [compose, hl] at hc
    exact hc

theorem forall₂_of_planPages {registry : Registry} {globals : Fields} {templates : List Template}
    {pages : List PlannedPage} (h : (planPages store registry globals templates).outcome = .ok pages) :
    List.Forall₂ (fun planned page => (planPage store registry globals page).outcome = .ok planned)
      pages templates := by
  have houtcomes : List.Forall₂ (· = ·) (pages.map .ok)
      (templates.map fun page => (planPage store registry globals page).outcome) := by
    rw [outcomes_of_planPages h]
    exact List.forall₂_refl _
  rw [List.forall₂_map_left_iff, List.forall₂_map_right_iff] at houtcomes
  exact houtcomes.imp fun _ _ heq => heq.symm

/-! ## Lines about unknown layouts -/

def unknownLayoutLine (page declared : String) : String :=
  "page '" ++ page ++ "' declares unknown layout '" ++ declared ++ "'; it will render without one"

/-- The line about a planned page that is in no layout, if it declares one. -/
def unknownLayout? (planned : PlannedPage) (page : Template) : Option String :=
  if planned.layout = none then page.layout.map (unknownLayoutLine planned.name) else none

theorem unknownLayouts_of_planPages {registry : Registry} {globals : Fields}
    {pages : List PlannedPage}
    (h : List.Forall₂ (fun planned page => (planPage store registry globals page).outcome = .ok planned)
      pages registry.pages.templates) :
    unknownLayouts registry.layouts registry.pages = (pages.zip registry.pages.templates).filterMap
      fun pair => unknownLayout? pair.1 pair.2 := by
  obtain ⟨hlength, hplanned⟩ := List.forall₂_iff_zip.mp h
  have hpages : registry.pages.templates = (pages.zip registry.pages.templates).map Prod.snd :=
    (List.map_snd_zip hlength.ge).symm
  rw [unknownLayouts]
  conv_lhs => rw [hpages]
  rw [List.filterMap_map]
  refine List.filterMap_congr fun pair hm => ?_
  have hp := hplanned hm
  rw [Function.comp_apply, unknownLayout?, layout_of_planPage hp, (planPage_eq_ok hp).1]
  cases pair.2.layout <;> cases resolveLayout pair.2 registry.layouts <;> rfl

theorem ne_unknownLayoutLine_of_start {start : String} (rest : String)
    (h : start.toList.take 3 ≠ ['p', 'a', 'g'] ∧ 3 ≤ start.toList.length)
    (page declared : String) : start ++ rest ≠ unknownLayoutLine page declared := by
  intro he
  have hline : (unknownLayoutLine page declared).toList.take 3 = ['p', 'a', 'g'] := by
    simp [unknownLayoutLine]
  rw [← he, String.toList_append, List.take_append_of_le_length h.2] at hline
  exact h.1 hline

theorem ne_unknownLayoutLine_of_end {ending : String} (start : String)
    (h : ending.toList.getLast?.any (· ≠ 'e') = true) (page declared : String) :
    start ++ ending ≠ unknownLayoutLine page declared := by
  intro he
  have hline : (unknownLayoutLine page declared).toList.getLast? = some 'e' := by
    rw [unknownLayoutLine, String.toList_append, List.getLast?_append]
    rfl
  rw [← he, String.toList_append, List.getLast?_append] at hline
  cases hl : ending.toList.getLast? with
  | none => simp [hl] at h
  | some last =>
    rw [hl] at h hline
    have hlast : last = 'e' := Option.some.inj hline
    simp [hlast] at h

/-- The other warnings about how templates refer to one another come before and after. -/
theorem relationWarnings_around (layouts partials pages : Collection) : ∃ before after,
    relationWarnings layouts partials pages = before ++ unknownLayouts layouts pages ++ after ∧
    ∀ line ∈ before ++ after, ∀ page declared, line ≠ unknownLayoutLine page declared := by
  obtain ⟨before, hbefore⟩ : ∃ before, before = (if (partials.lookup contentName).isSome
      && !layouts.isEmpty then ["partial '" ++ contentName
        ++ "' is shadowed by the page body inside layouts"] else []) ++ nestedLayouts layouts :=
    ⟨_, rfl⟩
  refine ⟨before, missingPartials "layout" [contentName] partials layouts
    ++ missingPartials "partial" [] partials partials ++ missingPartials "page" [] partials pages,
    by rw [relationWarnings, hbefore]; simp only [List.append_assoc], ?_⟩
  intro line hm page declared
  simp only [hbefore, List.mem_append, mem_missingPartials] at hm
  -- references missing from a page start alike and end otherwise, all other lines start otherwise
  rcases hm with (h | h) | ((⟨template, -, reference, -, -, -, rfl⟩ |
    ⟨template, -, reference, -, -, -, rfl⟩) | ⟨template, -, reference, -, -, -, rfl⟩)
  · split at h
    · rw [List.mem_singleton.mp h]
      simp only [String.append_assoc]
      exact ne_unknownLayoutLine_of_start _ (by decide) page declared
    · cases h
  · obtain ⟨layout, -, hl⟩ := List.mem_filterMap.mp h
    obtain ⟨nested, -, rfl⟩ := Option.map_eq_some_iff.mp hl
    simp only [String.append_assoc]
    exact ne_unknownLayoutLine_of_start _ (by decide) page declared
  · simp only [missedLine, String.append_assoc]
    exact ne_unknownLayoutLine_of_start _ (by decide) page declared
  · simp only [missedLine, String.append_assoc]
    exact ne_unknownLayoutLine_of_start _ (by decide) page declared
  · exact ne_unknownLayoutLine_of_end _ (by decide) page declared

theorem checkWarnings_of_discover {store : Store host} {options : BuildOptions} {registry : Registry}
    (hv : options.error? host = none)
    (hr : (Registry.discover store options.src ⟨options.types⟩).outcome = .ok registry) :
    ∃ result, (checkSite store options).outcome = .ok result ∧
      result.warnings = registry.warnings
        ++ relationWarnings registry.layouts registry.partials registry.pages := by
  obtain ⟨hl, hq, hg⟩ := Registry.discover_eq_ok.mp hr
  have hfolders : (Registry.folders options.src).map (surveyOf store options)
      = [Registry.layoutsFolder, Registry.partialsFolder, Registry.pagesFolder].map
        fun folder => surveyOf store options (Path.join options.src folder) := rfl
  refine ⟨_, checkSite_eq_ok store hv hfolders, ?_⟩
  simp only [surveyOf, (Survey.ofFolder_of_populate hl).1, (Survey.ofFolder_of_populate hq).1,
    (Survey.ofFolder_of_populate hg).1]
  rfl

/-! ## A check against a plan -/

/-- What a check says about layouts, held against a plan of the same site. -/
structure CheckResult.TellsLayouts (store : Store host) (registry : Registry) (globals : Fields)
    (plan : BuildPlan) (result : CheckResult) : Prop where
  /-- The pages of the plan are those that are found, in order, each in the layout it declares. -/
  pages : List.Forall₂ (PlannedPage.Composed store registry globals) plan.pages registry.pages.templates
  declared : ∀ page ∈ registry.pages.templates, ∀ name,
    page.layout = some name ↔ page.Declares name
  /-- There is a line for each page that is in no layout and declares one, and no other. -/
  lines : ∃ before after, result.warnings = before
      ++ ((plan.pages.zip registry.pages.templates).filterMap fun pair =>
        unknownLayout? pair.1 pair.2)
      ++ after ∧
    ∀ line ∈ before ++ after, ∀ page declared, line ≠ unknownLayoutLine page declared

/-- What can be planned can be checked, and the check has one line about an unknown layout for each
page of the plan that declares a layout and is in none, in the order of the pages. A page that is in
a layout declares that one, the layout is one that is found, and the page's text is composed with
it. -/
theorem layoutWarnings_of_planBuild {store : Store host} {globals : Fields} {options : BuildOptions}
    {plan : BuildPlan} (h : (planBuild store globals options).outcome = .ok plan) :
    ∃ registry result,
      (Registry.discover store options.src ⟨options.types⟩).outcome = .ok registry ∧
      (checkSite store options).outcome = .ok result ∧
      result.TellsLayouts store registry globals plan := by
  obtain ⟨hv, registry, pages, hr, -, hp, rfl⟩ := planBuild_eq_ok h
  obtain ⟨result, hc, hw⟩ := checkWarnings_of_discover hv hr
  have hdeclared := Collection.layout_of_populate (Registry.discover_eq_ok.mp hr).2.2
  have hplanned := forall₂_of_planPages hp
  refine ⟨registry, result, hr, hc, ?_, hdeclared, ?_⟩
  · obtain ⟨hlength, hall⟩ := List.forall₂_iff_zip.mp hplanned
    refine List.forall₂_iff_zip.mpr ⟨hlength, fun hm => ?_⟩
    exact composed_of_planPage (hall hm) (hdeclared _ (List.of_mem_zip hm).2)
  · obtain ⟨before, after, hsplit, hother⟩ :=
      relationWarnings_around registry.layouts registry.partials registry.pages
    refine ⟨registry.warnings ++ before, after, ?_, fun line hm page declared => ?_⟩
    · rw [hw, hsplit, unknownLayouts_of_planPages hplanned]
      simp only [List.append_assoc]
    · rw [List.append_assoc, List.mem_append] at hm
      rcases hm with hm | hm
      · rw [(Registry.warnings_of_discover hr).1, List.mem_flatMap] at hm
        obtain ⟨folder, -, hm⟩ := hm
        obtain ⟨rest, rfl⟩ := Collection.isReplacement_of_mem_warnings hm
        exact ne_unknownLayoutLine_of_start rest (by decide) page declared
      · exact hother line hm page declared

def layoutData (setting : String) : String :=
  "\x7b\"render\":\x7b\"layout\":" ++ setting ++ "\x7d\x7d"

def siteWithGhost : Store .process :=
  .ofTexts [("src/layouts/main.hbs", "old"),
    ("src/layouts/main.mustache", "[\x7b\x7b> content\x7d\x7d]"),
    ("src/pages/a.mustache", "A"), ("src/pages/a.json", layoutData "\"main\""),
    ("src/pages/b.mustache", "B"), ("src/pages/b.json", layoutData "\"ghost\""),
    ("src/pages/c.mustache", "C"), ("src/pages/c.json", layoutData "7")]

theorem siteWithGhost_seen :
    (planBuild siteWithGhost [] { types := ["mustache", "hbs"] }).outcome.toOption.map BuildPlan.pages
      = some [⟨"a", "a.html", some "main", "[A]"⟩, ⟨"b", "b.html", none, "B"⟩,
        ⟨"c", "c.html", none, "C"⟩] ∧
    (checkSite siteWithGhost { types := ["mustache", "hbs"] }).outcome.toOption.map
        CheckResult.warnings
      = some [
        "duplicate template name 'main': src/layouts/main.mustache replaces src/layouts/main.hbs",
        "page 'b' declares unknown layout 'ghost'; it will render without one"] := by
  decide +kernel

theorem layoutWarnings_of_planBuild_ghost : ∃ plan registry result,
    (planBuild siteWithGhost [] { types := ["mustache", "hbs"] }).outcome = .ok plan ∧
    plan.pages = [⟨"a", "a.html", some "main", "[A]"⟩, ⟨"b", "b.html", none, "B"⟩,
      ⟨"c", "c.html", none, "C"⟩] ∧
    (Registry.discover siteWithGhost "src" ⟨["mustache", "hbs"]⟩).outcome = .ok registry ∧
    (checkSite siteWithGhost { types := ["mustache", "hbs"] }).outcome = .ok result ∧
    result.TellsLayouts siteWithGhost registry [] plan ∧
    result.warnings = [
      "duplicate template name 'main': src/layouts/main.mustache replaces src/layouts/main.hbs",
      "page 'b' declares unknown layout 'ghost'; it will render without one"] := by
  obtain ⟨hplanned, hchecked⟩ := siteWithGhost_seen
  obtain ⟨plan, hp, hpages⟩ := Option.map_eq_some_iff.mp hplanned
  have hp := eq_ok_of_toOption hp
  obtain ⟨registry, result, hr, hc, htells⟩ := layoutWarnings_of_planBuild hp
  rw [hc] at hchecked
  exact ⟨plan, registry, result, hp, hpages, hr, hc, htells, Option.some.inj hchecked⟩

end Folio
