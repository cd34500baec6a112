import Folio.Proofs.Files.RealNames
import Folio.Proofs.Site.Agreement
import Folio.Proofs.Site.Matching
import Folio.Proofs.Site.Writing
/-!
# Where pages go

The path of a page is the name of its template with an extension. The name repeats where the
template lies below the folder of pages, and the extension, which the page's data may set, adds
nothing that leads elsewhere. So the page goes as deep below the output folder as its template lies
below the folder of pages.
-/

namespace Folio

variable {host : Host}

open Files

/-! ## Names of templates -/

namespace Matcher

theorem toList_of_strip? {matcher : Matcher} {fileName stem : String}
    (h : matcher.strip? fileName = some stem) :
    ∃ ending, fileName.toList = stem.toList ++ '.' :: ending := by
  obtain ⟨chars, hc, rfl⟩ := Option.map_eq_some_iff.mp h
  obtain ⟨⟨ending, -, he⟩, -⟩ := stripChars_eq_some_iff.mp hc
  exact ⟨ending, by rw [String.toList_ofList, he]⟩

theorem notMem_of_strip? {matcher : Matcher} {fileName stem : String} {c : Char}
    (h : matcher.strip? fileName = some stem) (hc : c ∉ fileName.toList) : c ∉ stem.toList := by
  obtain ⟨ending, he⟩ := toList_of_strip? h
  rw [he] at hc
  exact fun hm => hc (List.mem_append_left _ hm)

end Matcher

theorem pathBelow_map_ofText (folder : String) (texts : List String) :
    pathBelow folder (texts.map Name.ofText) = Path.join folder (Path.ofSegments texts) := by
  have hshown : Name.shown ∘ Name.ofText = id := by
    funext text
    rw [Function.comp_apply, Name.shown, Name.text?_ofText]
    rfl
  rw [pathBelow, List.map_map, hshown, List.map_id]
  rfl

def templateFile (folder : String) (folders : List String) (fileName stem : String) :
    TemplateFile where
  path := Path.join folder (Path.ofSegments (folders ++ [fileName]))
  name := Path.ofSegments (folders ++ [stem])
  dataPath := Path.sibling (Path.join folder (Path.ofSegments (folders ++ [fileName])))
    (stem ++ ".json")

/-- A template file below a folder is named by the folders it lies in there and by its stem, which
also names the data file beside it. -/
theorem classify_eq_template_iff {folder : String} {matcher : Matcher} {location : Location}
    {file : TemplateFile} : classify folder matcher location = some (.template file) ↔
      ∃ folders fileName stem, location = folders.map Name.ofText ++ [Name.ofText fileName] ∧
        matcher.strip? fileName = some stem ∧
        file = templateFile folder folders fileName stem := by
  have hpath : ∀ (folders : List String) (fileName : String),
      pathBelow folder (folders.map Name.ofText ++ [Name.ofText fileName])
        = Path.join folder (Path.ofSegments (folders ++ [fileName])) := fun folders fileName => by
    rw [← pathBelow_map_ofText, List.map_append, List.map_singleton]
  constructor
  · intro h
    rw [classify] at h
    split at h
    · cases h
    · rename_i fileName hf
      obtain ⟨last, hlast, ht⟩ := Option.bind_eq_some_iff.mp hf
      obtain ⟨stem, hs, h⟩ := Option.map_eq_some_iff.mp h
      split at h
      · cases h
      · rename_i folders hm
        have hlocation : location = folders.map Name.ofText ++ [Name.ofText fileName] := by
          rw [← Name.eq_map_of_mapM_text? hm, ← Name.ofText_of_text? ht]
          exact (List.dropLast_append_getLast? last hlast).symm
        rw [hlocation, hpath] at h
        cases h
        exact ⟨folders, fileName, stem, hlocation, hs, rfl⟩
  · rintro ⟨folders, fileName, stem, rfl, hs, rfl⟩
    rw [classify, List.getLast?_concat, Option.bind_some, Name.text?_ofText, List.dropLast_concat,
      Name.mapM_text?_map_ofText, hpath]
    dsimp only
    rw [hs]
    rfl

/-! ## Extensions -/

theorem isPlainExtension_iff {extension : String} : isPlainExtension extension = true ↔
    extension ≠ "" ∧ extension.startsWith "." = false ∧ '/' ∉ extension.toList ∧
      '\\' ∉ extension.toList := by
  have hstart : extension.startsWith "." = true ↔ ∃ rest, extension.toList = '.' :: rest := by
    rw [String.startsWith_string_iff]
    exact exists_congr fun rest => eq_comm
  rw [isPlainExtension, ← Bool.not_eq_true, hstart, ne_eq, ← String.toList_eq_nil_iff]
  cases extension.toList with
  | nil => simp
  | cons first rest =>
    simp only [Bool.and_eq_true, bne_iff_ne, List.all_eq_true]
    grind

namespace RenderData

theorem load_eq_ok {store : Store host} {path : String} {data : RenderData}
    (h : (load store path).outcome = .ok (some data)) : data = ofVars data.vars := by
  rw [load] at h
  split at h
  · split at h
    · cases h
    · split at h
      · cases h
      · cases h
        rfl
      · cases h
  · cases h

theorem isPlainExtension_of_load {store : Store host} {path : String} {data : RenderData}
    {extension : String} (h : (load store path).outcome = .ok (some data))
    (he : data.settings.extension = some extension) : isPlainExtension extension = true := by
  rw [load_eq_ok h] at he
  exact (Option.filter_eq_some_iff.mp he).2

end RenderData

theorem Template.isPlainExtension_of_load {store : Store host} {file : TemplateFile}
    {template : Template} (h : (load store file).outcome = .ok template) :
    isPlainExtension template.extension = true := by
  obtain ⟨-, -, hd⟩ := load_eq_ok h
  rw [extension]
  cases he : template.data.bind (·.settings.extension) with
  | none => decide
  | some extension =>
    obtain ⟨data, hs, he⟩ := Option.bind_eq_some_iff.mp he
    rw [hs] at hd
    exact RenderData.isPlainExtension_of_load hd he

/-! ## Paths of templates -/

theorem Template.outputPath_eq {template : Template} {folders : List String} {stem : String}
    (h : template.name = Path.ofSegments (folders ++ [stem])) : template.outputPath
      = Path.ofSegments (folders ++ [stem ++ ("." ++ template.extension)]) := by
  rw [outputPath, h, String.append_assoc, Path.ofSegments_append]

theorem Files.Path.Descending.concat_file {folders : List String} {stem extension : String}
    (h : Descending folders) (hs : '/' ∉ stem.toList) (he : isPlainExtension extension = true) :
    Descending (folders ++ [stem ++ ("." ++ extension)]) := by
  obtain ⟨hne, hdot, hslash, -⟩ := isPlainExtension_iff.mp he
  obtain ⟨c, rest, hc⟩ := List.exists_cons_of_ne_nil (mt String.toList_eq_nil_iff.mp hne)
  have hc' : c ≠ '.' := by
    rintro rfl
    rw [String.startsWith_string_eq_false_iff, hc] at hdot
    exact hdot ⟨rest, rfl⟩
  have hlist : (stem ++ ("." ++ extension)).toList = stem.toList ++ '.' :: c :: rest := by
    simp [hc]
  have hother : ∀ text : String, text.toList.length < 2 ∨ text = ".." →
      stem ++ ("." ++ extension) ≠ text := by
    rintro text ht rfl
    rcases ht with hlen | hdots
    · rw [hlist] at hlen
      simp at hlen
      omega
    · have htwo : "..".toList = ['.', '.'] := rfl
      have hmem : c ∈ ['.', '.'] := by
        rw [← htwo, ← hdots, hlist]
        simp
      exact hc' (by simpa using hmem)
  have hfile : isIdle (stem ++ ("." ++ extension)) = false :=
    isIdle_eq_false_iff.mpr ⟨hother "" (.inl (by decide)), hother "." (.inl (by decide))⟩
  refine ⟨⟨fun piece hp => ?_, fun piece hp => ?_⟩, fun hm => ?_⟩
  · rcases List.mem_append.mp hp with hp | hp
    · exact h.notIdle piece hp
    · rw [List.mem_singleton.mp hp]
      exact hfile
  · rcases List.mem_append.mp hp with hp | hp
    · exact h.noSlash piece hp
    · rw [List.mem_singleton.mp hp, hlist]
      rw [hc] at hslash
      simp only [List.mem_append, List.mem_cons, not_or] at hslash ⊢
      exact ⟨hs, by decide, hslash⟩
  · rcases List.mem_append.mp hm with hm | hm
    · exact h.noAbove hm
    · exact hother ".." (.inr rfl) (List.mem_singleton.mp hm).symm

/-- A template is loaded from a file at a location below a folder. -/
structure Template.ComesFrom (store : Store host) (folder : String) (matcher : Matcher)
    (location : Location) (template : Template) : Prop where
  isFile : ∃ content, (location, .file content) ∈ store.below (Route.location host folder)
  isLoaded : ∃ file, classify folder matcher location = some (.template file) ∧
    (load store file).outcome = .ok template

theorem visit_eq_template {folder : String} {matcher : Matcher} {item : Location × Entry}
    {file : TemplateFile} (h : visit host folder matcher item = some (.template file)) :
    (∃ content, item.2 = .file content) ∧
      classify folder matcher item.1 = some (.template file) := by
  rw [visit] at h
  split at h
  · cases h
  · split at h
    · split at h <;> cases h
    · rename_i content he
      exact ⟨⟨content, he⟩, h⟩

theorem discover_eq {store : Store host} {folder : String} {matcher : Matcher}
    (hf : store.hasFolder folder = true) : discover store folder matcher
      = (store.below (Route.location host folder)).filterMap (visit host folder matcher) := by
  obtain ⟨hl, hf⟩ := Store.hasFolder_iff.mp hf
  rw [discover, hl]
  exact if_pos hf

theorem discover_eq_nil {store : Store host} {folder : String} {matcher : Matcher}
    (hf : store.hasFolder folder = false) : discover store folder matcher = [] := by
  rw [← Bool.not_eq_true, Store.hasFolder_iff] at hf
  rw [discover]
  split
  · rfl
  · rename_i location hl
    obtain rfl := Store.location_of_locate hl
    exact if_neg fun hn => hf ⟨hl, hn⟩

theorem template_of_mem_discover {store : Store host} {folder : String} {matcher : Matcher}
    {file : TemplateFile} (h : .template file ∈ discover store folder matcher) :
    store.locate folder = .ok (Route.location host folder) ∧ ∃ location content,
      (location, .file content) ∈ store.below (Route.location host folder) ∧
      classify folder matcher location = some (.template file) := by
  cases hf : store.hasFolder folder with
  | false =>
    rw [discover_eq_nil hf] at h
    cases h
  | true =>
    rw [discover_eq hf] at h
    obtain ⟨item, hi, hv⟩ := List.mem_filterMap.mp h
    obtain ⟨⟨content, hc⟩, hk⟩ := visit_eq_template hv
    exact ⟨(Store.hasFolder_iff.mp hf).1, item.1, content, hc ▸ hi, hk⟩

theorem Collection.comesFrom_of_populate {store : Store host} {folder : String} {matcher : Matcher}
    {collection : Collection} (h : (populate store folder matcher).outcome = .ok collection) :
    ∀ template ∈ collection.templates,
      ∃ location, template.ComesFrom store folder matcher location := by
  refine forall_addAll _ ?_ (List.forall_mem_nil _) (populate_eq_ok.mp h)
  intro found hm file template hf hl
  cases found with
  | template found =>
    cases hf
    obtain ⟨-, location, content, hbelow, hk⟩ := template_of_mem_discover hm
    exact ⟨location, ⟨content, hbelow⟩, file, hk, hl⟩
  | unnamed path => cases hf
  | misplaced path => cases hf
  | unopened path => cases hf

theorem Template.ComesFrom.exists_name {store : Store host} {folder : String} {matcher : Matcher}
    {location : Location} {template : Template}
    (h : template.ComesFrom store folder matcher location) (hn : store.Named) :
    ∃ folders stem, template.name = Path.ofSegments (folders ++ [stem]) ∧
      Path.Descending folders ∧ '/' ∉ stem.toList ∧ location.length = folders.length + 1 := by
  obtain ⟨content, hm⟩ := h.isFile
  obtain ⟨file, hk, hl⟩ := h.isLoaded
  obtain ⟨folders, fileName, stem, rfl, hs, rfl⟩ := classify_eq_template_iff.mp hk
  obtain ⟨-, hreal⟩ := hn.real_of_mem_below hm
  have hfile := hreal (Name.ofText fileName) (by simp) fileName (Name.text?_ofText fileName)
  refine ⟨folders, stem, (load_eq_ok hl).1, ?_, Matcher.notMem_of_strip? hs hfile.2.2.2, by simp⟩
  apply Path.descending_of_real
  intro name hx
  exact hreal name (List.mem_append_left _ hx)

/-- A page goes as deep as its template lies. -/
theorem Template.ComesFrom.outputPath_eq {store : Store host} {folder : String} {matcher : Matcher}
    {location : Location} {template : Template}
    (h : template.ComesFrom store folder matcher location) (hn : store.Named) :
    ∃ pieces, template.outputPath = Path.ofSegments pieces ∧ Path.Descending pieces ∧
      pieces.length = location.length := by
  obtain ⟨folders, stem, hname, hfolders, hslash, hlength⟩ := h.exists_name hn
  obtain ⟨file, -, hl⟩ := h.isLoaded
  refine ⟨_, Template.outputPath_eq hname,
    hfolders.concat_file hslash (isPlainExtension_of_load hl), ?_⟩
  rw [List.length_append, List.length_singleton, hlength]

/-! ## Paths of pages -/

theorem planPage_eq_ok {store : Store host} {registry : Registry} {globals : Fields}
    {template : Template}
    {page : PlannedPage} (h : (planPage store registry globals template).outcome = .ok page) :
    page.name = template.name ∧ page.path = template.outputPath ∧
      compose store template registry.layouts registry.partials globals = .ok page.content := by
  simp only [planPage, Logged.outcome_bind_eq_ok, Logged.outcome_lift, Logged.outcome_tell,
    Logged.outcome_pure, Except.ok.injEq] at h
  obtain ⟨content, hc, _, -, rfl⟩ := h
  exact ⟨rfl, rfl, hc⟩

theorem map_of_planPages {store : Store host} {registry : Registry} {globals : Fields}
    {templates : List Template}
    {pages : List PlannedPage} (h : (planPages store registry globals templates).outcome = .ok pages) :
    pages.map (fun page => (page.name, page.path))
      = templates.map fun template => (template.name, template.outputPath) := by
  induction templates generalizing pages with
  | nil =>
    cases h
    rfl
  | cons template rest ih =>
    simp only [planPages, Logged.outcome_bind_eq_ok, Logged.outcome_pure, Except.ok.injEq] at h
    obtain ⟨page, hp, more, hm, rfl⟩ := h
    obtain ⟨hname, hpath, -⟩ := planPage_eq_ok hp
    rw [List.map_cons, List.map_cons, ih hm, hname, hpath]

theorem names_of_planPages {store : Store host} {registry : Registry} {globals : Fields}
    {templates : List Template}
    {pages : List PlannedPage} (h : (planPages store registry globals templates).outcome = .ok pages) :
    pages.map PlannedPage.name = templates.map Template.name := by
  have hboth := congrArg (List.map Prod.fst) (map_of_planPages h)
  rw [List.map_map, List.map_map] at hboth
  exact hboth

/-- A page is planned from a file at a location below the folder of pages. -/
def PlannedPage.ComesFrom (store : Store host) (options : BuildOptions) (location : Location)
    (page : PlannedPage) : Prop :=
  ∃ template, Template.ComesFrom store (Path.join options.src Registry.pagesFolder)
    ⟨options.types⟩ location template ∧ page.name = template.name ∧ page.path = template.outputPath

theorem comesFrom_of_planBuild {store : Store host} {globals : Fields} {options : BuildOptions}
    {plan : BuildPlan} (h : (planBuild store globals options).outcome = .ok plan) :
    ∀ page ∈ plan.pages, ∃ location, page.ComesFrom store options location := by
  obtain ⟨-, registry, pages, hr, -, hp, rfl⟩ := planBuild_eq_ok h
  intro page hm
  have hmap : (page.name, page.path)
      ∈ registry.pages.templates.map fun template => (template.name, template.outputPath) := by
    rw [← map_of_planPages hp]
    exact List.mem_map_of_mem hm
  obtain ⟨template, ht, he⟩ := List.mem_map.mp hmap
  obtain ⟨hname, hpath⟩ := Prod.mk.inj he
  obtain ⟨location, hl⟩ :=
    Collection.comesFrom_of_populate (Registry.discover_eq_ok.mp hr).2.2 template ht
  exact ⟨location, template, hl, hname.symm, hpath.symm⟩

theorem PlannedPage.ComesFrom.path_eq {store : Store host} {options : BuildOptions}
    {location : Location} {page : PlannedPage} (h : page.ComesFrom store options location)
    (hn : store.Named) : ∃ pieces, page.path = Path.ofSegments pieces ∧ Path.Descending pieces ∧
      pieces.length = location.length ∧ pieces ≠ [] := by
  obtain ⟨template, ht, -, hpath⟩ := h
  obtain ⟨pieces, he, hd, hl⟩ := ht.outputPath_eq hn
  refine ⟨pieces, hpath.trans he, hd, hl, ?_⟩
  obtain ⟨content, hm⟩ := ht.isFile
  have hne := (hn.real_of_mem_below hm).1
  rintro rfl
  exact hne (List.length_eq_zero_iff.mp hl.symm)

theorem PlannedPage.ComesFrom.exists_extension {store : Store host} {options : BuildOptions}
    {location : Location} {page : PlannedPage} (h : page.ComesFrom store options location) :
    ∃ extension, isPlainExtension extension = true ∧
      page.path = page.name ++ "." ++ extension := by
  obtain ⟨template, ht, hname, hpath⟩ := h
  obtain ⟨file, -, hload⟩ := ht.isLoaded
  refine ⟨template.extension, Template.isPlainExtension_of_load hload, ?_⟩
  rw [hpath, hname]
  rfl

/-- A page keeps to the output folder: its path goes straight down, as deep as its template lies
below the folder of pages, and ends in a dot and a plain extension. So whatever store the plan is
carried out in, and however far that gets, files are only written inside the output folder. -/
theorem inside_dist_of_planBuild {store : Store host} {globals : Fields} {options : BuildOptions}
    {plan : BuildPlan} (hn : store.Named)
    (h : (planBuild store globals options).outcome = .ok plan) :
    (∀ page ∈ plan.pages, ∃ location extension, page.ComesFrom store options location ∧
      page.path.startsWith "/" = false ∧
      (∀ segment ∈ Path.segments page.path, segment ≠ "" ∧ segment ≠ "." ∧ segment ≠ "..") ∧
      (Path.segments page.path).length = location.length ∧
      page.path = page.name ++ "." ++ extension ∧
      extension ≠ "" ∧ extension.startsWith "." = false ∧ '/' ∉ extension.toList ∧
        '\\' ∉ extension.toList) ∧
    ∀ target : Store host,
      (∀ location content,
        (executeBuild target plan).2.get? location = some (.file content) →
          target.get? location = some (.file content) ∨
            (Route.location host plan.dist).Inside location) ∧
      ∀ report, (executeBuild target plan).1.outcome = .ok report →
        report.written = plan.pages.map (fun page => Path.join plan.dist page.path) ∧
        ∀ path ∈ report.written, (Route.location host plan.dist).Inside (Route.location host path) := by
  have hfrom := comesFrom_of_planBuild h
  have hinside : ∀ page ∈ plan.pages,
      (Route.location host plan.dist).Inside (Route.location host (Path.join plan.dist page.path)) := by
    intro page hm
    obtain ⟨location, hl⟩ := hfrom page hm
    obtain ⟨pieces, he, hd, -, hne⟩ := hl.path_eq hn
    rw [he]
    exact hd.inside hne plan.dist
  refine ⟨fun page hm => ?_, fun target => ⟨fun location content hc => ?_, fun report hr => ?_⟩⟩
  · obtain ⟨location, hl⟩ := hfrom page hm
    obtain ⟨pieces, he, hd, hlen, -⟩ := hl.path_eq hn
    have hs : Path.segments page.path = pieces := by rw [he, hd.segments]
    obtain ⟨extension, hplain, hpath⟩ := hl.exists_extension
    refine ⟨location, extension, hl, ?_, ?_, ?_, hpath, isPlainExtension_iff.mp hplain⟩
    · rw [he]
      exact hd.startsWith
    · rw [hs]
      intro segment hx
      obtain ⟨hempty, hdot⟩ := Path.isIdle_eq_false_iff.mp (hd.notIdle segment hx)
      exact ⟨hempty, hdot, fun hdots => hd.noAbove (hdots ▸ hx)⟩
    · rw [hs, hlen]
  · rcases (touches_writePages plan.dist target plan.pages).1.file hc with hsame | ⟨page, hm, rfl⟩
    · exact .inl hsame
    · exact .inr (hinside page hm)
  · have hw := (writePages_eq_ok (executeBuild_eq_ok hr)).1
    refine ⟨hw, fun path hp => ?_⟩
    rw [hw] at hp
    obtain ⟨page, hm, rfl⟩ := List.mem_map.mp hp
    exact hinside page hm

theorem inside_dist_of_planBuild_dots : ∃ plan,
    (planBuild (.ofTexts [("src/pages/.mustache", "a"), ("src/pages/blog/...mustache", "b"),
      ("src/pages/blog/...json", "\x7b\"render\":\x7b\"extension\":\"../x\"\x7d\x7d")]) []
      {}).outcome = .ok plan ∧
    plan.pages.map PlannedPage.path = [".html", "blog/...html"] ∧
    ∀ page ∈ plan.pages, page.path.startsWith "/" = false ∧
      ".." ∉ Path.segments page.path := by
  obtain ⟨plan, hp, ht⟩ : ∃ plan, (planBuild (.ofTexts [("src/pages/.mustache", "a"),
      ("src/pages/blog/...mustache", "b"),
      ("src/pages/blog/...json", "\x7b\"render\":\x7b\"extension\":\"../x\"\x7d\x7d")]) []
      {}).outcome = .ok plan ∧
      decide (plan.pages.map PlannedPage.path = [".html", "blog/...html"]) = true :=
    exists_ok (by decide +kernel)
  refine ⟨plan, hp, of_decide_eq_true ht, fun page hm => ?_⟩
  obtain ⟨hpages, -⟩ := inside_dist_of_planBuild (Store.named_ofTexts _) hp
  obtain ⟨location, extension, -, hstart, hsegments, -⟩ := hpages page hm
  exact ⟨hstart, fun hx => (hsegments ".." hx).2.2 rfl⟩

end Folio
