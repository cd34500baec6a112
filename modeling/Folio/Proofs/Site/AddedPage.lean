import Folio.Proofs.Site.SharedNames
import Folio.Proofs.Template.Enlarging
/-!
# A page added

A file that is added below the folder of pages is found among the others, and loading any of these
does not come to it unless a partial tag leads there. If its name is new, what is gathered from the
folder gains one template, and the plan one page.
-/

namespace Folio

variable {host : Host}

open Files

/-! ## Entries of an index -/

namespace Index

variable {κ α : Type} [LT κ] [DecidableEq κ] [DecidableLT κ]

theorem exists_insertEntry {entries : List (κ × α)} {key : κ} (h : key ∉ entries.map Prod.fst)
    (value : α) : ∃ before after, entries = before ++ after ∧
      insertEntry key value entries = before ++ (key, value) :: after := by
  induction entries with
  | nil => exact ⟨[], [], rfl, rfl⟩
  | cons first rest ih =>
    obtain ⟨k, v⟩ := first
    obtain ⟨hk, hrest⟩ := not_or.mp (mt List.mem_cons.mpr h)
    rw [insertEntry]
    split
    · exact ⟨[], _, rfl, rfl⟩
    · obtain ⟨before, after, he, hi⟩ := ih hrest
      rw [hi, he]
      exact ⟨(k, v) :: before, after, rfl, rfl⟩

variable [KeyOrder κ]

theorem exists_insertion {entries larger : List (κ × α)} {key : κ} {value : α}
    (hs : entries.Pairwise fun a b => a.1 < b.1) (hl : larger.Pairwise fun a b => a.1 < b.1)
    (hn : key ∉ entries.map Prod.fst)
    (h : ∀ entry, entry ∈ larger ↔ entry = (key, value) ∨ entry ∈ entries) :
    ∃ before after, entries = before ++ after ∧ larger = before ++ (key, value) :: after := by
  have hinsert : (⟨larger, hl⟩ : Index κ α) = insert ⟨entries, hs⟩ key value := by
    refine ext_get? fun k => Option.ext fun v => ?_
    rw [get?_eq_some_iff, get?_eq_some_iff, mem_insert, h]
    refine or_congr_right ⟨fun hm => ⟨?_, hm⟩, And.right⟩
    rintro rfl
    exact hn (List.mem_map_of_mem hm)
  rw [show larger = insertEntry key value entries from congrArg Index.entries hinsert]
  exact exists_insertEntry hn value

end Index

/-! ## What is found -/

section

variable {store later : Store host} {matcher : Matcher} {folder : String} {folders : List String}
  {fileName stem : String}

theorem check_of_hasFolder (h : store.hasFolder folder = true) : Route.check host folder = .ok () := by
  obtain ⟨hl, -⟩ := Store.hasFolder_iff.mp h
  obtain ⟨_, hc, -⟩ := bind_eq_ok.mp hl
  exact hc

variable (hadd : Store.Adds store later
  (Route.location host folder ++ (folders.map Name.ofText ++ [Name.ofText fileName])))

include hadd

theorem reached_of_adds (hf : later.hasFolder folder = true) (ho : Openable later folder) :
    Reached later folder folders fileName := by
  obtain ⟨content, hc⟩ := hadd.isFile
  have hparent := (Store.isFolder_dropLast hc).2
  rw [← List.append_assoc, List.dropLast_concat] at hparent
  exact ⟨⟨content, hc⟩, ho.canOpen (check_of_hasFolder hf) hparent⟩

theorem reached_iff_of_adds {folders' : List String} {fileName' : String}
    (hne : folders'.map Name.ofText ++ [Name.ofText fileName']
      ≠ folders.map Name.ofText ++ [Name.ofText fileName]) :
    Reached later folder folders' fileName' ↔ Reached store folder folders' fileName' := by
  have hkeeps := hadd.elsewhere
    (Route.location host folder ++ (folders'.map Name.ofText ++ [Name.ofText fileName']))
    fun he => hne (List.append_cancel_left he)
  constructor
  · rintro ⟨⟨content, hc⟩, ho⟩
    exact ⟨⟨content, hkeeps.file_iff.mp hc⟩, ho⟩
  · rintro ⟨⟨content, hc⟩, ho⟩
    exact ⟨⟨content, hkeeps.file_iff.mpr hc⟩, ho⟩

/-- A search after a file is added yields that file besides, and all others as before. -/
theorem mem_searched_of_adds {location : Location} {file : TemplateFile}
    (hs : matcher.Strips fileName stem) (hf : store.hasFolder folder = true)
    (hf' : later.hasFolder folder = true) (ho : Openable later folder) :
    (location, .ok file) ∈ searched later matcher folder ↔
      (location = folders.map Name.ofText ++ [Name.ofText fileName] ∧
        file = templateFile folder folders fileName stem) ∨
      (location, .ok file) ∈ searched store matcher folder := by
  have hne := hs.extensions_ne_nil
  rw [file_mem_searched_iff hne hf', file_mem_searched_iff hne hf]
  constructor
  · rintro ⟨folders', fileName', stem', rfl, hr, hs', rfl⟩
    by_cases he : folders'.map Name.ofText ++ [Name.ofText fileName']
        = folders.map Name.ofText ++ [Name.ofText fileName]
    · obtain ⟨rfl, rfl⟩ := Name.map_concat_inj.mp he
      rw [← Matcher.strip?_eq_some_iff hne] at hs hs'
      obtain rfl : stem' = stem := Option.some.inj (hs'.symm.trans hs)
      exact .inl ⟨rfl, rfl⟩
    · exact .inr ⟨folders', fileName', stem', rfl, (reached_iff_of_adds hadd he).mp hr, hs', rfl⟩
  · rintro (⟨rfl, rfl⟩ | ⟨folders', fileName', stem', rfl, hr, hs', rfl⟩)
    · exact ⟨folders, fileName, stem, rfl, reached_of_adds hadd hf' ho, hs, rfl⟩
    · have he : folders'.map Name.ofText ++ [Name.ofText fileName']
          ≠ folders.map Name.ofText ++ [Name.ofText fileName] := by
        intro he
        obtain ⟨content, hc⟩ := hr.isFile
        rw [he, hadd.isFree] at hc
        cases hc
      exact ⟨folders', fileName', stem', rfl, (reached_iff_of_adds hadd he).mpr hr, hs', rfl⟩

theorem searched_of_adds (hs : matcher.Strips fileName stem)
    (hf : store.hasFolder folder = true) (hf' : later.hasFolder folder = true)
    (ho : Openable later folder)
    (hfiles : ∀ found ∈ searched store matcher folder, ∃ file, found.2 = .ok file)
    (hfiles' : ∀ found ∈ searched later matcher folder, ∃ file, found.2 = .ok file) :
    ∃ before after, searched store matcher folder = before ++ after ∧
      searched later matcher folder = before ++ (folders.map Name.ofText ++ [Name.ofText fileName],
        .ok (templateFile folder folders fileName stem)) :: after := by
  have hkey : folders.map Name.ofText ++ [Name.ofText fileName]
      ∉ (searched store matcher folder).map Prod.fst := by
    intro hm
    obtain ⟨⟨_, item⟩, hm, rfl⟩ := List.mem_map.mp hm
    obtain ⟨entry, -, hg, -⟩ := (mem_searched_iff hf).mp hm
    rw [hadd.isFree] at hg
    cases hg
  refine Index.exists_insertion (sorted_searched store matcher folder)
    (sorted_searched later matcher folder) hkey fun ⟨location, item⟩ => ?_
  cases item with
  | ok file =>
    rw [Prod.mk.injEq, Except.ok.injEq]
    exact mem_searched_of_adds hadd hs hf hf' ho
  | error error =>
    constructor
    · intro hm
      obtain ⟨file, he⟩ := hfiles' _ hm
      cases he
    · rintro (he | hm)
      · cases he
      · obtain ⟨file, he⟩ := hfiles _ hm
        cases he

/-! ## What is loaded -/

omit hadd in
theorem endsWith_append (before ending : String) : (before ++ ending).endsWith ending = true := by
  rw [String.endsWith_eq_endsWith_toSlice, String.Slice.endsWith_string_iff, String.copy_toSlice,
    String.toList_append]
  exact List.suffix_append _ _

/-- A new file that is no data file has no part in loading a template that was there before, unless
compiling that looks it up. -/
theorem load_of_adds {location : Location} {file : TemplateFile} {template : Template}
    (hn : store.Named) (hne : matcher.extensions ≠ []) (hj : fileName.endsWith ".json" = false)
    (hm : (location, .ok file) ∈ searched store matcher folder)
    (ht : (Template.load store file).outcome = .ok template)
    (hsame : ∀ name ∈ Stage.names template.body.found, Stage.SameAround store later name) :
    Template.load later file = Template.load store file := by
  have hf := hasFolder_of_mem_searched hm
  obtain ⟨folders', fileName', stem, rfl, ⟨⟨content, hc⟩, -⟩, hs, rfl⟩ :=
    (file_mem_searched_iff hne hf).mp hm
  obtain ⟨hpath, hdata⟩ := into_templateFile hn
    (Store.mem_below_iff.mpr ⟨by simp, hc⟩) ((Matcher.strip?_eq_some_iff hne).mpr hs)
  have hw := Store.walk_of_locate (Store.hasFolder_iff.mp hf).1
  refine Template.load_of_keeps hpath hdata hw (hadd.elsewhere _ fun he => ?_)
    (hadd.elsewhere _ fun he => ?_) hadd.grows ht hsame
  · have hfree := hadd.isFree
    rw [← he, hpath.location, List.map_append, List.map_singleton, hc] at hfree
    cases hfree
  · rw [hdata.location, List.map_append, List.map_singleton] at he
    obtain ⟨-, rfl⟩ := Name.map_concat_inj.mp (List.append_cancel_left he)
    rw [endsWith_append] at hj
    cases hj

omit hadd in
theorem mem_lookups_of_searched {location : Location} {file : TemplateFile} {template : Template}
    {name : String} (hm : (location, .ok file) ∈ searched store matcher folder)
    (ht : (Template.load store file).outcome = .ok template)
    (hn : name ∈ Stage.names template.body.found) :
    name ∈ Collection.lookups store folder matcher := by
  have hyielded : .ok file ∈ yielded store matcher folder := by
    rw [← map_snd_searched]
    exact List.mem_map_of_mem hm
  obtain ⟨found, hfound, hitem⟩ := List.mem_filterMap.mp hyielded
  cases found with
  | template other =>
    cases hitem
    refine List.mem_flatMap.mpr ⟨_, hfound, ?_⟩
    dsimp only
    rw [ht]
    exact hn
  | unnamed path => cases hitem
  | misplaced path => cases hitem
  | unopened path => cases hitem

/-- The templates gathered from the folder are those from before and the new one among them. -/
theorem gathered_of_adds {collection larger : Collection} (hn : store.Named)
    (hsame : ∀ name ∈ Collection.lookups store folder matcher, Stage.SameAround store later name)
    (hs : matcher.Strips fileName stem) (hj : fileName.endsWith ".json" = false)
    (hf : store.hasFolder folder = true) (hf' : later.hasFolder folder = true)
    (ho : Openable later folder)
    (h : (Collection.populate store folder matcher).outcome = .ok collection)
    (h' : (Collection.populate later folder matcher).outcome = .ok larger) :
    ∃ before template after, gathered store matcher folder = before ++ after ∧
      gathered later matcher folder = before ++ template :: after ∧
      template.name = Path.ofSegments (folders ++ [stem]) := by
  have hloaded := (gathered_of_populate h).2
  have hloaded' := (gathered_of_populate h').2
  obtain ⟨before, after, hsplit, hsplit'⟩ := searched_of_adds hadd hs hf hf' ho
    (fun found hm => (hloaded found hm).imp fun file ht => ht.choose_spec.1)
    (fun found hm => (hloaded' found hm).imp fun file ht => ht.choose_spec.1)
  have hitems : ∀ found ∈ before ++ after,
      (loadItem later found.2).toOption = (loadItem store found.2).toOption := by
    rw [← hsplit]
    rintro ⟨location, item⟩ hm
    obtain ⟨file, template, rfl, ht⟩ := hloaded _ hm
    have hload := load_of_adds hadd hn hs.extensions_ne_nil hj hm ht
      fun name hname => hsame name (mem_lookups_of_searched hm ht hname)
    rw [loadItem, loadItem, hload]
  obtain ⟨file, template, hfile, ht⟩ := hloaded' (folders.map Name.ofText ++ [Name.ofText fileName],
    .ok (templateFile folder folders fileName stem)) (by rw [hsplit']; simp)
  cases hfile
  have hload : (loadItem later (.ok (templateFile folder folders fileName stem))).toOption
      = some template := toOption_loadItem_eq_some.mpr ⟨_, rfl, ht⟩
  rw [List.forall_mem_append] at hitems
  refine ⟨before.filterMap fun found => (loadItem store found.2).toOption, template,
    after.filterMap fun found => (loadItem store found.2).toOption, ?_, ?_,
    (Template.load_eq_ok ht).1⟩
  · rw [gathered, hsplit, List.filterMap_append]
  · rw [gathered, hsplit', List.filterMap_append, List.filterMap_cons,
      List.filterMap_congr hitems.1, List.filterMap_congr hitems.2]
    dsimp only
    rw [hload]

theorem gains_of_adds {collection larger : Collection} (hn : store.Named)
    (hsame : ∀ name ∈ Collection.lookups store folder matcher, Stage.SameAround store later name)
    (hs : matcher.Strips fileName stem)
    (hj : fileName.endsWith ".json" = false) (ho : Openable later folder)
    (h : (Collection.populate store folder matcher).outcome = .ok collection)
    (h' : (Collection.populate later folder matcher).outcome = .ok larger)
    (he : collection.isEmpty = false) (he' : larger.isEmpty = false)
    (hname : Path.ofSegments (folders ++ [stem]) ∉ collection.templates.map Template.name) :
    ∃ template, collection.Gains larger template ∧
      template.name = Path.ofSegments (folders ++ [stem]) := by
  obtain ⟨before, template, after, hold, hnew, htemplate⟩ := gathered_of_adds hadd hn hsame hs hj
    (Collection.hasFolder_of_populate h he) (Collection.hasFolder_of_populate h' he') ho h h'
  obtain ⟨rfl, -⟩ := gathered_of_populate h
  obtain ⟨rfl, -⟩ := gathered_of_populate h'
  rw [Collection.names_ofList, List.mem_eraseDups, hold, ← htemplate] at hname
  rw [hold, hnew]
  exact ⟨template, Collection.gains_ofList hname, htemplate⟩

end

/-! ## Pages -/

section

variable {store later : Store host} {globals : Fields} {options : BuildOptions} {plan plan' : BuildPlan}

theorem not_inside_pages {src name : String} (rest : List Name)
    (hm : name ∈ [Registry.layoutsFolder, Registry.partialsFolder]) :
    ¬ (Route.location host (Path.join src name)).Inside
      (Route.location host (Path.join src Registry.pagesFolder) ++ rest) := by
  have hne : ∀ name ∈ [Registry.layoutsFolder, Registry.partialsFolder],
      name ∈ [Registry.layoutsFolder, Registry.partialsFolder, Registry.pagesFolder] ∧
        Name.ofText name ≠ Name.ofText Registry.pagesFolder := by decide
  obtain ⟨hmem, hne⟩ := hne name hm
  obtain ⟨hinto, -⟩ := into_sourceFolder hmem src
  obtain ⟨hpages, -⟩ := into_sourceFolder
    (by simp : Registry.pagesFolder ∈ [_, _, Registry.pagesFolder]) src
  rintro ⟨first, more, he⟩
  rw [hinto.location, hpages.location, List.append_assoc, List.append_assoc] at he
  exact hne (List.cons.inj (List.append_cancel_left he)).1.symm

theorem planPages_of_gains {registry : Registry} {larger : Collection} {template : Template}
    {pages pages' : List PlannedPage} (hn : store.Named)
    (hr : (Registry.discover store options.src ⟨options.types⟩).outcome = .ok registry)
    (hl : Unconsulted store later options) (hg : Collection.Gains registry.pages larger template)
    (h : (planPages store registry globals registry.pages.templates).outcome = .ok pages)
    (h' : (planPages later { registry with pages := larger } globals larger.templates).outcome
      = .ok pages') :
    ∃ before page after, pages = before ++ after ∧ pages' = before ++ page :: after ∧
      page.name = template.name := by
  obtain ⟨before, after, hold, hnew⟩ := hg.templates
  rw [← planPages_of_unconsulted hn hr hl h] at h
  have hpages := outcomes_of_planPages h
  have hpages' := outcomes_of_planPages h'
  have hplan : ∀ page, planPage later { registry with pages := larger } globals page
      = planPage later registry globals page := fun _ => rfl
  simp only [hplan] at hpages'
  rw [hold, List.map_append] at hpages
  rw [hnew, List.map_append, List.map_cons] at hpages'
  obtain ⟨before', rest', rfl, hbefore, hrest⟩ := List.map_eq_append_iff.mp hpages'.symm
  obtain ⟨page, after', rfl, hpage, hafter⟩ := List.map_eq_cons_iff.mp hrest
  refine ⟨before', page, after', ?_, rfl, (planPage_eq_ok hpage.symm).1⟩
  rw [← hbefore, ← hafter, ← List.map_append] at hpages
  exact (List.map_injective_iff.mpr (fun _ _ => Except.ok.inj) hpages).symm

/-- A template file that is added below the folder of pages, under a new name and not as a data file,
adds a page if no partial tag leads past it or past a folder that is added with it. All else in the plan
stays as it was, the other pages also in their order. -/
theorem planBuild_of_added_page {folders : List String} {fileName stem : String}
    (hn : store.Named)
    (hadd : Store.Adds store later (Route.location host (Path.join options.src Registry.pagesFolder)
      ++ (folders.map Name.ofText ++ [Name.ofText fileName])))
    (hs : Matcher.Strips ⟨options.types⟩ fileName stem)
    (hj : fileName.endsWith ".json" = false) (hl : Unconsulted store later options)
    (h : (planBuild store globals options).outcome = .ok plan)
    (hname : Path.ofSegments (folders ++ [stem]) ∉ plan.pages.map PlannedPage.name)
    (h' : (planBuild later globals options).outcome = .ok plan') :
    ∃ before page after, plan.pages = before ++ after ∧
      plan' = { plan with pages := before ++ page :: after } ∧
      page.name = Path.ofSegments (folders ++ [stem]) := by
  obtain ⟨hv, registry, pages, hr, he, hp, rfl⟩ := planBuild_eq_ok h
  obtain ⟨-, ⟨layouts, partials, larger⟩, pages', hr', he', hp', rfl⟩ := planBuild_eq_ok h'
  obtain ⟨hlayouts, hpartials, hpages⟩ := Registry.discover_eq_ok.mp hr
  obtain ⟨hlayouts', hpartials', hpages'⟩ := Registry.discover_eq_ok.mp hr'
  have hopen := openable_of_planBuild h'
  have hsame : ∀ name ∈ [Registry.layoutsFolder, Registry.partialsFolder], ∀ collection,
      (Collection.populate store (Path.join options.src name) ⟨options.types⟩).outcome
        = .ok collection →
      (Collection.populate later (Path.join options.src name) ⟨options.types⟩).outcome
        = .ok collection := by
    intro name hm collection hc
    have hfolder : Path.join options.src name ∈ Registry.folders options.src :=
      List.mem_map_of_mem (List.mem_append_left [_] hm)
    rw [Collection.populate_of_unchanged hn hfolder (populates_of_planBuild h).1
      ⟨hadd.grows, hadd.spares (not_inside_pages _ hm), hopen _ hfolder⟩ hl hc]
    exact hc
  obtain rfl := Except.ok.inj ((hsame _ (by simp) _ hlayouts).symm.trans hlayouts')
  obtain rfl := Except.ok.inj ((hsame _ (by simp) _ hpartials).symm.trans hpartials')
  have hfolder : Path.join options.src Registry.pagesFolder ∈ Registry.folders options.src :=
    List.mem_map_of_mem (by simp)
  have hlookups : ∀ name ∈ Collection.lookups store (Path.join options.src Registry.pagesFolder)
      ⟨options.types⟩, Stage.SameAround store later name := by
    intro name hm
    apply hl.sameAround
    apply List.mem_append_left
    exact List.mem_flatMap.mpr ⟨_, hfolder, hm⟩
  rw [names_of_planPages hp] at hname
  obtain ⟨template, hgains, htemplate⟩ := gains_of_adds hadd hn hlookups hs hj
    (hopen _ hfolder) hpages hpages' he he' hname
  obtain ⟨before, page, after, hpages, rfl, hpage⟩ := planPages_of_gains hn hr hl hgains hp hp'
  refine ⟨before, page, after, hpages, ?_, hpage.trans htemplate⟩
  rw [Registry.warnings, hgains.warnings]
  rfl

end

theorem adds_of_writePage {store later : Store host} {path content : String}
    (h : writePage store path content = (.ok (), later))
    (hf : store.get? (Route.location host path) = none) :
    Store.Adds store later (Route.location host path) := by
  obtain ⟨ht, -⟩ := touches_writePage store path content
  rw [h] at ht
  refine ⟨hf, ⟨_, (holds_of_writePage h).file⟩, fun other hne => ?_⟩
  rcases ht other with hsame | ⟨-, -, he⟩ | ⟨hn, hd, -⟩
  · exact .inl hsame
  · exact absurd he hne
  · exact .inr ⟨hn, hd⟩

/-- Two files of one name, of which the later names a partial by its place in the source tree, and a
page with a layout. -/
def twofoldSite : Store .process :=
  .ofTexts [("src/pages/a.hbs", "x"),
    ("src/pages/a.mustache", "y\x7b\x7b> /proc/self/cwd/src/partials/nav\x7d\x7d"),
    ("src/pages/b/c.hbs", "z"),
    ("src/pages/b/c.json", "\x7b\"render\":\x7b\"layout\":\"main\"\x7d\x7d"),
    ("src/layouts/main.hbs", "<\x7b\x7b> content\x7d\x7d>"), ("src/partials/nav.mustache", "n")]

def twofoldOptions : BuildOptions :=
  { types := ["mustache", "hbs"] }

def twofoldLater : Store .process :=
  (writePage twofoldSite "src/pages/a.i/d.hbs" "w").2

theorem twofoldSite_planned :
    (writePage twofoldSite "src/pages/a.i/d.hbs" "w").1.isOk = true ∧
    twofoldSite.get? (Route.location .process "src/pages/a.i/d.hbs") = none ∧
    (planBuild twofoldSite [] twofoldOptions).outcome.toOption.map
        (fun plan => (plan.pages, plan.warnings.length))
      = some ([⟨"a", "a.html", none, "yn"⟩, ⟨"b/c", "b/c.html", some "main", "<z>"⟩], 1) ∧
    (planBuild twofoldLater [] twofoldOptions).outcome.isOk = true ∧
    consulted twofoldSite twofoldOptions ≠ [] ∧
    Unconsulted twofoldSite twofoldLater twofoldOptions := by
  decide +kernel

theorem planBuild_of_added_page_between : ∃ plan plan',
    writePage twofoldSite "src/pages/a.i/d.hbs" "w" = (.ok (), twofoldLater) ∧
    (planBuild twofoldSite [] twofoldOptions).outcome = .ok plan ∧
    (planBuild twofoldLater [] twofoldOptions).outcome = .ok plan' ∧
    plan.pages = [⟨"a", "a.html", none, "yn"⟩, ⟨"b/c", "b/c.html", some "main", "<z>"⟩] ∧
    plan.warnings.length = 1 ∧ consulted twofoldSite twofoldOptions ≠ [] ∧
    ∃ before page after, plan.pages = before ++ after ∧
      plan' = { plan with pages := before ++ page :: after } ∧ page.name = "a.i/d" := by
  obtain ⟨hwritten, hfree, hplanned, hlater, hconsulted, hl⟩ := twofoldSite_planned
  obtain ⟨_, hok⟩ := exists_of_isOk hwritten
  have hw : writePage twofoldSite "src/pages/a.i/d.hbs" "w" = (.ok (), twofoldLater) :=
    Prod.ext hok rfl
  obtain ⟨plan, hplan, hshown⟩ := Option.map_eq_some_iff.mp hplanned
  obtain ⟨hpages, hwarnings⟩ := Prod.mk.inj hshown
  have hplan := eq_ok_of_toOption hplan
  obtain ⟨plan', hplan'⟩ := exists_of_isOk hlater
  have hadd := adds_of_writePage hw hfree
  have hlocation : Route.location .process "src/pages/a.i/d.hbs"
      = Route.location .process (Path.join twofoldOptions.src Registry.pagesFolder)
        ++ (["a.i"].map Name.ofText ++ [Name.ofText "d.hbs"]) := by decide +kernel
  have hstrips : Matcher.Strips ⟨twofoldOptions.types⟩ "d.hbs" "d" :=
    (Matcher.strip?_eq_some_iff (by decide)).mp (by decide +kernel)
  have hname : Path.ofSegments (["a.i"] ++ ["d"]) = "a.i/d" := by decide +kernel
  obtain ⟨before, page, after, hsplit, hinserted, hpage⟩ := planBuild_of_added_page
    (Store.named_ofTexts _) (hlocation ▸ hadd) hstrips (by decide +kernel) hl hplan
    (by rw [hpages, hname]; decide +kernel) hplan'
  exact ⟨plan, plan', hw, hplan, hplan', hpages, hwarnings, hconsulted, before, page, after, hsplit,
    hinserted, hpage.trans hname⟩

/-- A page with a tag that leads to where no file is. -/
def lookingSite : Store .process :=
  .ofTexts [("src/pages/index.mustache", "[\x7b\x7b> /proc/self/cwd/src/pages/new\x7d\x7d]")]

theorem lookingSite_planned :
    (writePage lookingSite "src/pages/new.mustache" "hi").1.isOk = true ∧
    (planBuild lookingSite [] {}).outcome.toOption.map BuildPlan.pages
      = some [⟨"index", "index.html", none, "[]"⟩] ∧
    (planBuild (writePage lookingSite "src/pages/new.mustache" "hi").2 [] {}).outcome.toOption.map
        BuildPlan.pages
      = some [⟨"index", "index.html", none, "[hi]"⟩, ⟨"new", "new.html", none, "hi"⟩] := by
  decide +kernel

/-- The page that is added there is written by the tag in the other one. -/
theorem planBuild_of_added_page_looking : ∃ later plan plan',
    writePage lookingSite "src/pages/new.mustache" "hi" = (.ok (), later) ∧
    (planBuild lookingSite [] {}).outcome = .ok plan ∧
    (planBuild later [] {}).outcome = .ok plan' ∧
    plan.pages = [⟨"index", "index.html", none, "[]"⟩] ∧
    plan'.pages = [⟨"index", "index.html", none, "[hi]"⟩, ⟨"new", "new.html", none, "hi"⟩] ∧
    ¬ ∃ before page after, plan.pages = before ++ after ∧
      plan' = { plan with pages := before ++ page :: after } := by
  obtain ⟨hwritten, hplanned, hplanned'⟩ := lookingSite_planned
  obtain ⟨_, hok⟩ := exists_of_isOk hwritten
  obtain ⟨plan, hplan, hpages⟩ := Option.map_eq_some_iff.mp hplanned
  obtain ⟨plan', hplan', hpages'⟩ := Option.map_eq_some_iff.mp hplanned'
  refine ⟨_, plan, plan', Prod.ext hok rfl, eq_ok_of_toOption hplan, eq_ok_of_toOption hplan', hpages,
    hpages', ?_⟩
  rintro ⟨before, page, after, hsplit, hinserted⟩
  have hkept : (⟨"index", "index.html", none, "[]"⟩ : PlannedPage) ∈ before ++ page :: after := by
    have hm : (⟨"index", "index.html", none, "[]"⟩ : PlannedPage) ∈ before ++ after := by
      rw [← hsplit, hpages]
      exact List.mem_singleton_self _
    simp only [List.mem_append, List.mem_cons] at hm ⊢
    exact hm.imp_right .inr
  have hall : before ++ page :: after = plan'.pages := by rw [hinserted]
  rw [hall, hpages'] at hkept
  revert hkept
  decide

end Folio
