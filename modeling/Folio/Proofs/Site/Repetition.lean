import Folio.Proofs.Files.Repeating
import Folio.Proofs.Site.Execution
import Folio.Proofs.Site.Overwriting
import Folio.Proofs.Site.Rediscovery
/-!
# Building again

A build that succeeds can be carried out again, over its own files. If none of these lie among the
templates, and no partial tag leads past anything that is written or made, the second build is the
first one over again, unless the first has made a folder among the templates whose path is too long to
look into it.
-/

namespace Folio

variable {host : Host}

open Files

variable {store store' later : Store host} {path content dist : String} {pages : List PlannedPage}

/-! ## Pages that are there -/

/-- A path where a page has been written: it leads to a file, and the folders around it are there. -/
structure Settled (store : Store host) (path : String) : Prop where
  folder : ∀ folder, Path.parent? path = some folder → store.makeFolders folder = (.ok (), store)
  sound : Route.check host path = .ok ()
  toFile : (Route.ofPath host path).toFolder = false
  follows : store.walk (Route.ofPath host path).start (Route.ofPath host path).names
    = .ok (Route.location host path)
  file : ∃ old, store.get? (Route.location host path) = some (.file old)

theorem settled_of_writePage (h : writePage store path content = (.ok (), store')) :
    Settled store' path := by
  obtain ⟨hc, ht, hw, hf⟩ := holds_of_writePage h
  refine ⟨fun folder hp => ?_, hc, ht, hw, _, hf⟩
  rw [writePage, hp] at h
  dsimp only [Option.elim] at h
  split at h
  · cases h
  · rename_i made hm
    split at h
    · cases h
    · rename_i written hwritten
      cases h
      exact Store.makeFolders_again hm (Store.write_eq_ok hwritten).2.2.1.grows

theorem Settled.touches {files folders : Location → Prop} (hs : Settled store path)
    (ht : Store.Touches files folders store later) (hg : Store.Grows store later) :
    Settled later path := by
  obtain ⟨old, hf⟩ := hs.file
  refine ⟨fun folder hp => Store.makeFolders_again (hs.folder folder hp) hg, hs.sound, hs.toFile,
    hg.walk hs.follows, ?_⟩
  rcases ht (Route.location host path) with he | ⟨new, hn, -⟩ | ⟨hn, -, -⟩
  · exact ⟨old, he.trans hf⟩
  · exact ⟨new, hn⟩
  · rw [hf] at hn
    cases hn

/-- Over a page that is there another one is written, and no folder is made. -/
theorem writePage_of_settled (hs : Settled store path) (content : String) :
    ∃ written, writePage store path content = (.ok (), written) ∧
      Store.Written (Route.location host path) content.toUTF8 store written := by
  obtain ⟨written, hw, hwritten⟩ :=
    Store.write_over hs.sound hs.toFile hs.follows hs.file content.toUTF8
  refine ⟨written, ?_, hwritten⟩
  have hfolder : (Path.parent? path).elim (Except.ok (), store) store.makeFolders
      = (.ok (), store) := by
    cases hp : Path.parent? path with
    | none => rfl
    | some folder => exact hs.folder folder hp
  rw [writePage, hfolder]
  dsimp only
  rw [hw]

theorem settled_of_writePages {written : List String}
    (h : (writePages dist store pages).1.outcome = .ok written) :
    ∀ page ∈ pages, Settled (writePages dist store pages).2 (Path.join dist page.path) := by
  induction pages generalizing store written with
  | nil => exact List.forall_mem_nil _
  | cons page rest ih =>
    rw [writePages] at h ⊢
    dsimp only at h ⊢
    split at h
    · cases h
    · rename_i made hw
      simp only [Logged.outcome_bind_eq_ok] at h
      obtain ⟨_, -, more, hm, -⟩ := h
      obtain ⟨ht, hg⟩ := touches_writePages dist made rest
      exact List.forall_mem_cons.mpr ⟨(settled_of_writePage hw).touches ht hg, ih hm⟩

theorem writePages_of_settled
    (hs : ∀ page ∈ pages, Settled store (Path.join dist page.path)) :
    (∃ written, (writePages dist store pages).1.outcome = .ok written) ∧
      Store.Touches (PlacesOf host dist pages) (fun _ => False) store
        (writePages dist store pages).2 := by
  induction pages generalizing store with
  | nil => exact ⟨⟨[], rfl⟩, .refl _ _ store⟩
  | cons page rest ih =>
    obtain ⟨hpage, hrest⟩ := List.forall_mem_cons.mp hs
    obtain ⟨made, hw, hwritten⟩ := writePage_of_settled hpage page.content
    have hfirst : Store.Touches (PlacesOf host dist (page :: rest)) (fun _ => False) store made :=
      (hwritten.touches _).mono (fun l hl => ⟨page, List.mem_cons_self, hl⟩) fun _ => id
    obtain ⟨⟨written, hok⟩, htail⟩ :=
      ih fun other ho => (hrest other ho).touches hfirst hwritten.grows
    rw [writePages]
    dsimp only
    rw [hw]
    dsimp only
    refine ⟨⟨Path.join dist page.path :: written, ?_⟩, hfirst.trans (htail.mono ?_ fun _ => id)⟩
    · simp only [Logged.outcome_bind, Logged.outcome_tell, ok_bind, hok, Logged.outcome_pure]
    · rintro l ⟨other, ho, hl⟩
      exact ⟨other, List.mem_cons_of_mem _ ho, hl⟩

theorem writePages_fst {written : List String}
    (h : (writePages dist store pages).1.outcome = .ok written) :
    (writePages dist store pages).1 = ⟨.ok (pages.map fun page => Path.join dist page.path),
      pages.flatMap fun page => Journal.debug ("wrote " ++ Path.join dist page.path)⟩ := by
  induction pages generalizing store written with
  | nil => rfl
  | cons page rest ih =>
    rw [writePages] at h ⊢
    dsimp only at h ⊢
    split at h
    · cases h
    · rename_i made hw
      simp only [Logged.outcome_bind_eq_ok] at h
      obtain ⟨_, -, more, hm, -⟩ := h
      dsimp only
      rw [ih hm, List.flatMap_cons, List.map_cons]
      show Logged.mk (.ok _) (Journal.debug _ ++ (_ ++ [])) = _
      rw [List.append_nil]

theorem PlacesOf.exists_last {location : Location} (h : PlacesOf host dist pages location) :
    ∃ before page after, pages = before ++ page :: after ∧
      location = Route.location host (Path.join dist page.path) ∧
          ¬ PlacesOf host dist after location := by
  induction pages with
  | nil =>
    obtain ⟨page, hp, -⟩ := h
    cases hp
  | cons first rest ih =>
    by_cases hr : PlacesOf host dist rest location
    · obtain ⟨before, page, after, rfl, hl, hlast⟩ := ih hr
      exact ⟨first :: before, page, after, rfl, hl, hlast⟩
    · obtain ⟨page, hp, hl⟩ := h
      rcases List.mem_cons.mp hp with rfl | hp
      · exact ⟨[], page, rest, rfl, hl, hr⟩
      · exact absurd ⟨page, hp, hl⟩ hr

theorem Files.Store.ext_get? {a b : Store host} (h : ∀ location, a.get? location = b.get? location) :
    a = b :=
  Store.ext (Index.ext_get? h)

/-- Pages that have been written once are written again to the same effect. -/
theorem writePages_again {written : List String}
    (h : (writePages dist store pages).1.outcome = .ok written) :
    writePages dist (writePages dist store pages).2 pages = writePages dist store pages := by
  obtain ⟨⟨_, hagain⟩, htouches⟩ := writePages_of_settled (settled_of_writePages h)
  refine Prod.ext ((writePages_fst hagain).trans (writePages_fst h).symm) ?_
  refine Store.ext_get? fun location => ?_
  by_cases hp : PlacesOf host dist pages location
  · obtain ⟨before, page, after, hsplit, rfl, hlast⟩ := hp.exists_last
    have hfirst := (writePages_eq_ok h).2 before page after hsplit hlast
    have hsecond := (writePages_eq_ok hagain).2 before page after hsplit hlast
    rw [hsecond.file, hfirst.file]
  · rcases htouches location with he | ⟨_, -, hl⟩ | ⟨-, -, hf⟩
    · exact he
    · exact absurd hl hp
    · exact hf.elim

theorem executeBuild_again {plan : BuildPlan} {written : List String}
    (h : (writePages plan.dist store plan.pages).1.outcome = .ok written) :
    executeBuild (executeBuild store plan).2 plan = executeBuild store plan := by
  have hstore : (executeBuild store plan).2 = (writePages plan.dist store plan.pages).2 := rfl
  rw [hstore, executeBuild, executeBuild, writePages_again h]

/-! ## Builds -/

/-- What a build that succeeds adds to the store lies where its pages go and around there. -/
theorem touches_build {globals : Fields} {options : BuildOptions} {report : BuildReport}
    (hn : store.Named) (hb : (build store globals options).1.outcome = .ok report) :
    Store.Touches (fun location => ∃ path ∈ report.written, location = Route.location host path)
      (fun location => ∃ path ∈ report.written, Ancestor host path location) store
      (build store globals options).2 := by
  obtain ⟨plan, hp, hw, hstore⟩ := build_eq_ok hb
  have hrelative : ∀ page ∈ plan.pages, Path.Relative page.path := by
    intro page hm
    obtain ⟨location, hl⟩ := comesFrom_of_planBuild hp page hm
    obtain ⟨pieces, he, hd, -, hne⟩ := hl.path_eq hn
    rw [he]
    exact hd.relative hne
  have hwritten := (writePages_eq_ok hw).1
  rw [hstore, hwritten]
  refine (touches_pages hrelative store).mono ?_ ?_
  · rintro _ ⟨page, hm, rfl⟩
    exact ⟨_, List.mem_map_of_mem hm, rfl⟩
  · rintro location ⟨page, hm, hl⟩
    exact ⟨_, List.mem_map_of_mem hm, hl⟩

/-- The folders that are new among the templates can be looked into. -/
def NewFoldersOpen (store later : Store host) (src : String) : Prop :=
  ∀ folder ∈ Registry.folders src, Route.check host folder = .ok () → ∀ rest,
    store.get? (Route.location host folder ++ rest) = none →
      later.get? (Route.location host folder ++ rest) = some .folder → canOpen host folder rest = true

section

variable {globals : Fields} {options : BuildOptions} {report : BuildReport}

theorem planBuild_again (hn : store.Named)
    (hb : (build store globals options).1.outcome = .ok report)
    (hf : ∀ path ∈ report.written, ∀ folder ∈ Registry.folders options.src,
      ¬ (Route.location host folder).Inside (Route.location host path))
    (hl : Unconsulted store (build store globals options).2 options)
    (ho : ∀ folder ∈ Registry.folders options.src, Openable (build store globals options).2 folder) :
    planBuild (build store globals options).2 globals options
      = planBuild store globals options := by
  obtain ⟨plan, hp, -, hstore⟩ := build_eq_ok hb
  have hgrows : Store.Grows store (build store globals options).2 := by
    rw [hstore]
    exact (touches_writePages plan.dist store plan.pages).2
  refine planBuild_of_unchanged hn hp
    (fun folder hm => ⟨hgrows, fun location hin => ?_, ho folder hm⟩) hl
  rcases touches_build hn hb location with he | ⟨_, -, path, hpath, rfl⟩ | ⟨hnone, hfolder, -⟩
  · exact .inl he
  · exact absurd hin (hf path hpath folder hm)
  · exact .inr ⟨hnone, hfolder⟩

theorem build_of_planBuild_again (hb : (build store globals options).1.outcome = .ok report)
    (h : planBuild (build store globals options).2 globals options
      = planBuild store globals options) :
    build (build store globals options).2 globals options = build store globals options := by
  obtain ⟨plan, hp, hw, hstore⟩ := build_eq_ok hb
  have hmade : (build store globals options).2 = (executeBuild store plan).2 := (outcome_build hp).2
  cases hl : planBuild store globals options with
  | mk outcome journal =>
    rw [hl] at hp
    obtain rfl : outcome = .ok plan := hp
    rw [hmade] at h ⊢
    rw [build_of_planBuild (h.trans hl), build_of_planBuild hl, executeBuild_again hw]

theorem newFoldersOpen_of_notMem (hn : store.Named)
    (hb : (build store globals options).1.outcome = .ok report)
    (hf : ∀ path ∈ report.written, ∀ folder ∈ Registry.folders options.src,
      ¬ (Route.location host folder).Inside (Route.location host path))
    (hup : ".." ∉ Path.segments options.dist) :
    NewFoldersOpen store (build store globals options).2 options.src := by
  obtain ⟨plan, hp, hw, -⟩ := build_eq_ok hb
  obtain ⟨-, registry, pages, -, -, -, hplan⟩ := planBuild_eq_ok hp
  have hdist : plan.dist = options.dist := by rw [hplan]
  intro folder hm _ rest hnone hfolder
  exfalso
  rcases touches_build hn hb (Route.location host folder ++ rest) with
    he | ⟨_, hfile, -⟩ | ⟨-, -, path, hpath, before, last, more, hnames, hl⟩
  · rw [he, hnone] at hfolder
    cases hfolder
  · rw [hfile] at hfolder
    cases hfolder
  · have habove : above ∉ (Route.ofPath host path).names := by
      rw [(writePages_eq_ok hw).1, hdist] at hpath
      obtain ⟨page, hm, rfl⟩ := List.mem_map.mp hpath
      obtain ⟨location, hl⟩ := comesFrom_of_planBuild hp page hm
      obtain ⟨pieces, he, hd, -, hne⟩ := hl.path_eq hn
      rw [he, (hd.into hne options.dist).route]
      simp [Path.above_notMem_names hup, hd.above_notMem]
    have hbefore : above ∉ before := fun hm => habove (by simp [hnames, hm])
    refine hf path hpath folder hm ?_
    obtain ⟨name, tail, ht⟩ := List.exists_cons_of_ne_nil
      (List.append_ne_nil_of_right_ne_nil rest (List.cons_ne_nil last more))
    refine ⟨name, tail, ?_⟩
    rw [Route.location, Route.follow_of_notMem habove, hnames, ← ht, ← List.append_assoc,
      ← List.append_assoc, hl, Route.follow_of_notMem hbefore]

/-- A build that succeeds, puts no file among the templates and changes nothing else that planning it
consults for partial tags can be had again. The second one leaves all as it is. It succeeds just if
the folders that the first has made among the templates can be looked into, and is then the first
one over again, with the same report and journal. Such folders are only made if the path of the
output folder leads up somewhere. -/
theorem build_again (hn : store.Named) (hb : (build store globals options).1.outcome = .ok report)
    (hf : ∀ path ∈ report.written, ∀ folder ∈ Registry.folders options.src,
      ¬ (Route.location host folder).Inside (Route.location host path))
    (hl : Unconsulted store (build store globals options).2 options) :
    (build (build store globals options).2 globals options).2 = (build store globals options).2 ∧
    ((∃ again, (build (build store globals options).2 globals options).1.outcome = .ok again) ↔
      NewFoldersOpen store (build store globals options).2 options.src) ∧
    (NewFoldersOpen store (build store globals options).2 options.src →
      build (build store globals options).2 globals options = build store globals options) ∧
    (".." ∉ Path.segments options.dist →
      NewFoldersOpen store (build store globals options).2 options.src) := by
  have hsame : (∀ folder ∈ Registry.folders options.src,
        Openable (build store globals options).2 folder) →
      build (build store globals options).2 globals options = build store globals options :=
    fun ho => build_of_planBuild_again hb (planBuild_again hn hb hf hl ho)
  have hopen : NewFoldersOpen store (build store globals options).2 options.src →
      ∀ folder ∈ Registry.folders options.src,
        Openable (build store globals options).2 folder := by
    obtain ⟨plan, hp, -⟩ := build_eq_ok hb
    intro hnew folder hm hc rest hfolder
    rcases touches_build hn hb (Route.location host folder ++ rest) with he | ⟨_, hfile, -⟩ | ⟨hnone, -⟩
    · exact openable_of_planBuild hp folder hm hc rest (he.symm.trans hfolder)
    · rw [hfile] at hfolder
      cases hfolder
    · exact hnew folder hm hc rest hnone hfolder
  have hplanned : ∀ plan,
      (planBuild (build store globals options).2 globals options).outcome = .ok plan →
      ∀ folder ∈ Registry.folders options.src,
        Openable (build store globals options).2 folder :=
    fun plan hp => openable_of_planBuild hp
  refine ⟨?_, ⟨?_, ?_⟩, fun hnew => hsame (hopen hnew), newFoldersOpen_of_notMem hn hb hf⟩
  · cases hp : (planBuild (build store globals options).2 globals options).outcome with
    | ok plan => rw [hsame (hplanned plan hp)]
    | error stop =>
      have hhead := faultOf?_planBuild (build store globals options).2 globals options
      rw [hp] at hhead
      exact (build_eq_of_head?_obstacles hhead.symm).2
  · rintro ⟨again, hagain⟩
    obtain ⟨plan, hp, -⟩ := build_eq_ok hagain
    exact fun folder hm hc rest _ => hplanned plan hp folder hm hc rest
  · intro hnew
    exact ⟨report, by rw [hsame (hopen hnew), hb]⟩

end

instance (folder location : Location) : Decidable (folder.Inside location) :=
  decidable_of_iff (folder <+: location ∧ folder ≠ location) <| by
    constructor
    · rintro ⟨⟨rest, rfl⟩, hne⟩
      obtain ⟨name, more, rfl⟩ := List.exists_cons_of_ne_nil (l := rest) (by rintro rfl; simp at hne)
      exact ⟨name, more, rfl⟩
    · rintro ⟨name, more, rfl⟩
      exact ⟨List.prefix_append _ _, by simp⟩

/-- Two pages that go to one file. One of them names a partial by its place in the source tree. -/
def namingSite : Store .process :=
  .ofTexts [("src/pages/a.b.mustache", "x"),
    ("src/pages/a.mustache", "y\x7b\x7b> /proc/self/cwd/src/partials/nav\x7d\x7d"),
    ("src/pages/a.json", "\x7b\"render\":\x7b\"extension\":\"b.html\"\x7d\x7d"),
    ("src/partials/nav.mustache", "z")]

/-- Options with a path of the output folder that passes through a folder that is made among the
pages. -/
def passing : BuildOptions where
  dist := "src/pages/new/../../../dist"

theorem namingSite_built :
    (build namingSite [] passing).1.outcome.toOption.map BuildReport.written
      = some ["src/pages/new/../../../dist/a.b.html", "src/pages/new/../../../dist/a.b.html"] ∧
    consulted namingSite passing ≠ [] ∧
    Unconsulted namingSite (build namingSite [] passing).2 passing ∧
    ((build namingSite [] passing).2.readText "dist/a.b.html").toOption = some "yz" ∧
    (build namingSite [] passing).2.hasFolder "src/pages/new" = true ∧
    (build (build namingSite [] passing).2 [] passing).1.outcome.isOk = true := by
  decide +kernel

theorem build_again_passing : ∃ report,
    (build namingSite [] passing).1.outcome = .ok report ∧
    report.written
      = ["src/pages/new/../../../dist/a.b.html", "src/pages/new/../../../dist/a.b.html"] ∧
    (∀ path ∈ report.written, ∀ folder ∈ Registry.folders passing.src,
      ¬ (Route.location .process folder).Inside (Route.location .process path)) ∧
    consulted namingSite passing ≠ [] ∧
    (build namingSite [] passing).2.readText "dist/a.b.html" = .ok "yz" ∧
    (build namingSite [] passing).2.hasFolder "src/pages/new" = true ∧
    build (build namingSite [] passing).2 [] passing = build namingSite [] passing := by
  obtain ⟨hbuilt, hconsulted, hl, htext, hfolder, hsecond⟩ := namingSite_built
  obtain ⟨report, hb, hw⟩ := Option.map_eq_some_iff.mp hbuilt
  have hb := eq_ok_of_toOption hb
  have hf : ∀ path ∈ report.written, ∀ folder ∈ Registry.folders passing.src,
      ¬ (Route.location .process folder).Inside (Route.location .process path) := by
    rw [hw]
    decide +kernel
  obtain ⟨-, hagain, hsame, -⟩ := build_again (Store.named_ofTexts _) hb hf hl
  have hopen := hagain.mp (exists_of_isOk hsecond)
  exact ⟨report, hb, hw, hf, hconsulted, eq_ok_of_toOption htext, hfolder, hsame hopen⟩

/-! ## A long way round -/

/-- Options whose source folder is written with many slashes, and whose path of the output folder
passes through a folder among the layouts that is not there. -/
def roundabout : BuildOptions where
  src := Path.slashed "src" 4060
  dist := "src/layouts/only-passed-through-on-the-way/../../../dist"

def plainSite : Store .process := .ofTexts [("src/pages/index.mustache", "hi")]

theorem plainSite_contents :
    (plainSite.walk Host.process.here [Name.ofText "src"]).toOption
      = some (Host.process.here ++ [Name.ofText "src"]) ∧
    (plainSite.walk Host.process.here [Name.ofText "src", Name.ofText Registry.pagesFolder]).toOption
      = some (Host.process.here ++ [Name.ofText "src", Name.ofText Registry.pagesFolder]) ∧
    (∀ name ∈ [Registry.layoutsFolder, Registry.partialsFolder],
      plainSite.below (Host.process.here ++ [Name.ofText "src", Name.ofText name]) = []) ∧
    plainSite.below (Host.process.here ++ [Name.ofText "src", Name.ofText Registry.pagesFolder])
      = [([Name.ofText "index.mustache"], .file "hi".toUTF8)] ∧
    plainSite.get? (Host.process.here ++ [Name.ofText "src", Name.ofText Registry.pagesFolder]
      ++ [Name.ofText "index.mustache"]) = some (.file "hi".toUTF8) ∧
    plainSite.get? (Host.process.here ++ [Name.ofText "src", Name.ofText Registry.pagesFolder]
      ++ [Name.ofText "index.json"]) = none := by
  decide +kernel

theorem startsWith_names : ∀ name ∈ ["src", Registry.layoutsFolder, Registry.partialsFolder,
    Registry.pagesFolder, "index.mustache", ""], name.startsWith "/" = false := by
  decide +kernel

theorem size_roundabout : roundabout.src.utf8ByteSize = 4063 := by
  rw [roundabout, Path.size_slashed]
  decide

theorem check_roundabout : Route.check .process roundabout.src = .ok () :=
  Route.check_slashed (Route.check_eq_ok_iff.mpr (by decide +kernel)) (by decide +kernel)

theorem route_roundabout : (Route.ofPath .process roundabout.src).start = Host.process.here ∧
    (Route.ofPath .process roundabout.src).names = [Name.ofText "src"] := by
  obtain ⟨hstart, hnames⟩ := Route.ofPath_slashed (show "src" ≠ "" by decide) 4060
  rw [roundabout, hstart, hnames]
  decide +kernel

theorem location_roundabout :
    Route.location .process roundabout.src = Host.process.here ++ [Name.ofText "src"] := by
  rw [Route.location, route_roundabout.1, route_roundabout.2]
  decide

theorem walk_roundabout :
    plainSite.walk (Route.ofPath .process roundabout.src).start
        (Route.ofPath .process roundabout.src).names
      = .ok (Route.location .process roundabout.src) := by
  obtain ⟨hwalk, -⟩ := plainSite_contents
  rw [location_roundabout, route_roundabout.1, route_roundabout.2]
  exact eq_ok_of_toOption hwalk

theorem folder_roundabout {name : String}
    (hm : name ∈ [Registry.layoutsFolder, Registry.partialsFolder, Registry.pagesFolder]) :
    (Path.join roundabout.src name).utf8ByteSize ≤ 4072 ∧
    Route.check .process (Path.join roundabout.src name) = .ok () ∧
    Route.location .process (Path.join roundabout.src name)
      = Host.process.here ++ [Name.ofText "src", Name.ofText name] ∧
    ∀ matcher, discover plainSite (Path.join roundabout.src name) matcher
      = (plainSite.below (Host.process.here ++ [Name.ofText "src", Name.ofText name])).filterMap
        (visit .process (Path.join roundabout.src name) matcher) := by
  have hall : ∀ name ∈ [Registry.layoutsFolder, Registry.partialsFolder, Registry.pagesFolder],
      '\x00' ∉ name.toList ∧ name.utf8ByteSize ≤ 8 := by
    decide
  obtain ⟨hnul, hname⟩ := hall name hm
  have hstart := startsWith_names name (List.mem_cons_of_mem _ (List.mem_append_left _ hm))
  obtain ⟨hinto, -, hshort⟩ := into_sourceFolder hm roundabout.src
  have hsize := size_roundabout
  have hprocess := Route.size_process roundabout.src
  have hlong : maxPath = 4095 := rfl
  have hjoin := (Path.size_join roundabout.src hstart).2
  have hcheck : Route.check .process (Path.join roundabout.src name) = .ok () :=
    Route.check_join check_roundabout hstart hnul (by omega)
  have hlocation : Route.location .process (Path.join roundabout.src name)
      = Host.process.here ++ [Name.ofText "src", Name.ofText name] := by
    rw [hinto.location, location_roundabout, List.append_assoc]
    rfl
  refine ⟨by omega, hcheck, hlocation, fun matcher => ?_⟩
  rw [discover_eq_below hinto (by simpa using hshort) walk_roundabout hcheck, hlocation]

section

variable {folder : String}
  (hw : plainSite.walk (Route.ofPath .process folder).start (Route.ofPath .process folder).names
    = .ok (Route.location .process folder))
  (hl : Route.location .process folder
    = Host.process.here ++ [Name.ofText "src", Name.ofText Registry.pagesFolder])

include hw hl

theorem readText_plainSite (hc : Route.check .process (Path.join folder "index.mustache") = .ok ()) :
    plainSite.readText (Path.join folder "index.mustache") = .ok "hi" := by
  have hname : Path.Descending ["index.mustache"] := ⟨⟨by decide, by decide⟩, by decide⟩
  have hinto : Path.Into .process folder (Path.join folder (Path.ofSegments ["index.mustache"]))
      (["index.mustache"].map Name.ofText) := hname.into (List.cons_ne_nil _ _) folder
  rw [Path.ofSegments_singleton] at hinto
  obtain ⟨-, -, -, -, hpage, -⟩ := plainSite_contents
  have hfile : plainSite.get? (Route.location .process (Path.join folder "index.mustache"))
      = some (.file "hi".toUTF8) := by
    rw [hinto.location, hl]
    exact hpage
  have hlocate := (Store.locate_into_iff hinto hw).mpr
    ⟨rfl, hc, by decide, by rw [hfile]; rfl⟩
  exact Store.readText_eq_ok.mpr ⟨_, _, hlocate, hfile, Store.fromUTF8?_toUTF8 "hi"⟩

theorem hasFile_plainSite :
    plainSite.hasFile (Path.sibling (Path.join folder "index.mustache") "index.json") = false := by
  have hname : Path.Descending ([] ++ ["index.mustache"]) := ⟨⟨by decide, by decide⟩, by decide⟩
  have hdata : Path.Descending ["index.json"] := ⟨⟨by decide, by decide⟩, by decide⟩
  have hbeside : Path.Into .process folder
      (Path.sibling (Path.join folder (Path.ofSegments ([] ++ ["index.mustache"]))) "index.json")
      (([] ++ ["index.json"]).map Name.ofText) := hname.into_sibling hdata folder
  rw [List.nil_append, Path.ofSegments_singleton] at hbeside
  rw [← Bool.not_eq_true, Store.hasFile_into_iff hbeside hw, hbeside.location, hl]
  rintro ⟨-, content, hf⟩
  obtain ⟨-, -, -, -, -, hnone⟩ := plainSite_contents
  cases hnone.symm.trans hf

theorem load_plainSite (hc : Route.check .process folder = .ok ()) (hsize : folder.utf8ByteSize ≤ 4072)
    {body : Body} (hb : Body.compile plainSite "hi" = .ok body) :
    ∃ file, visit .process folder ⟨roundabout.types⟩ ([Name.ofText "index.mustache"], .file "hi".toUTF8)
        = some (.template file) ∧
      (Template.load plainSite file).outcome = .ok ⟨"index", file.path, body, none⟩ := by
  have hcheck : Route.check .process (Path.join folder "index.mustache") = .ok () := by
    have hlong : maxPath = 4095 := rfl
    have hfile : "index.mustache".utf8ByteSize = 14 := by decide
    have hprocess := Route.size_process folder
    exact Route.check_join hc (startsWith_names "index.mustache" (by simp)) (by decide) (by omega)
  refine ⟨⟨Path.join folder "index.mustache", "index",
    Path.sibling (Path.join folder "index.mustache") "index.json"⟩, ?_, ?_⟩
  · have hpath : pathBelow folder [Name.ofText "index.mustache"]
        = Path.join folder "index.mustache" := by
      have hshown : "/".intercalate ([Name.ofText "index.mustache"].map Name.shown)
          = "index.mustache" := by decide
      rw [pathBelow, hshown]
    have hstrip : Matcher.strip? ⟨roundabout.types⟩ "index.mustache" = some "index" := by
      decide
    simp [visit, canOpen_nil hc, classify, Name.text?_ofText, hpath, hstrip]
  · simp only [Template.outcome_load, readText_plainSite hw hl hcheck, hb, RenderData.load,
      hasFile_plainSite hw hl]
    rfl

end

theorem populate_roundabout {name : String}
    (hm : name ∈ [Registry.layoutsFolder, Registry.partialsFolder]) :
    (Collection.populate plainSite (Path.join roundabout.src name) ⟨roundabout.types⟩).outcome
      = .ok .empty := by
  obtain ⟨-, -, -, hdiscover⟩ := folder_roundabout (List.mem_append_left [Registry.pagesFolder] hm)
  obtain ⟨-, -, hempty, -⟩ := plainSite_contents
  rw [Collection.populate_eq_ok, hdiscover, hempty name hm]
  rfl

theorem populate_pages_roundabout {body : Body} (hb : Body.compile plainSite "hi" = .ok body) :
    ∃ path, (Collection.populate plainSite (Path.join roundabout.src Registry.pagesFolder)
      ⟨roundabout.types⟩).outcome = .ok (Collection.empty.insert ⟨"index", path, body, none⟩) := by
  have hm : Registry.pagesFolder
      ∈ [Registry.layoutsFolder, Registry.partialsFolder, Registry.pagesFolder] := by simp
  obtain ⟨hsize, hcheck, hl, hdiscover⟩ := folder_roundabout hm
  obtain ⟨hinto, -⟩ := into_sourceFolder hm roundabout.src
  obtain ⟨-, hwalk, -, hbelow, -⟩ := plainSite_contents
  have hw : plainSite.walk (Route.ofPath .process (Path.join roundabout.src Registry.pagesFolder)).start
      (Route.ofPath .process (Path.join roundabout.src Registry.pagesFolder)).names
        = .ok (Route.location .process (Path.join roundabout.src Registry.pagesFolder)) := by
    rw [hl, hinto.route, route_roundabout.1, route_roundabout.2]
    exact eq_ok_of_toOption hwalk
  obtain ⟨file, hvisit, hload⟩ := load_plainSite hw hl hcheck hsize hb
  have hfound : discover plainSite (Path.join roundabout.src Registry.pagesFolder)
      ⟨roundabout.types⟩ = [.template file] := by
    rw [hdiscover, hbelow, List.filterMap_cons_some hvisit, List.filterMap_nil]
  refine ⟨file.path, ?_⟩
  rw [Collection.populate_eq_ok, hfound, Collection.addAll_cons]
  dsimp only [Found.file?]
  rw [hload]
  rfl

theorem planBuild_roundabout : ∃ plan, (planBuild plainSite [] roundabout).outcome = .ok plan ∧
    plan.dist = roundabout.dist ∧ plan.pages = [⟨"index", "index.html", none, "hi"⟩] := by
  obtain ⟨body, hb, hrender⟩ : ∃ body, Body.compile plainSite "hi" = .ok body ∧
      decide ((body.render plainSite "index" [] Collection.empty.partials).toOption = some "hi")
        = true :=
    exists_ok (by decide +kernel)
  obtain ⟨path, hpages⟩ := populate_pages_roundabout hb
  have hregistry : (Registry.discover plainSite roundabout.src ⟨roundabout.types⟩).outcome
      = .ok ⟨.empty, .empty, Collection.empty.insert ⟨"index", path, body, none⟩⟩ :=
    Registry.discover_eq_ok.mpr
      ⟨populate_roundabout (by simp), populate_roundabout (by simp), hpages⟩
  have hfault : roundabout.error? .process = none := by
    have hne := (Route.check_eq_ok_iff.mp check_roundabout).1
    rw [BuildOptions.error?, BuildOptions.fault?, if_neg (by simpa using hne)]
    decide
  have hcompose : compose plainSite ⟨"index", path, body, none⟩ .empty .empty [] = .ok "hi" :=
    eq_ok_of_toOption (of_decide_eq_true hrender)
  have hplanned : (planPages plainSite ⟨.empty, .empty,
      Collection.empty.insert ⟨"index", path, body, none⟩⟩
      [] [⟨"index", path, body, none⟩]).outcome = .ok [⟨"index", "index.html", none, "hi"⟩] := by
    simp only [planPages, planPage, hcompose, Logged.outcome_bind, Logged.outcome_lift,
      Logged.outcome_tell, Logged.outcome_pure, ok_bind]
    rfl
  refine ⟨⟨roundabout.dist, 0, 0, [⟨"index", "index.html", none, "hi"⟩], []⟩, ?_, rfl, rfl⟩
  rw [outcome_planBuild, prepare, mapError_matcher, hfault]
  dsimp only
  rw [ok_bind, hregistry]
  show ((planPages plainSite _ [] [_]).outcome >>= _) = _
  rw [hplanned]
  rfl

/-- The second build stops where the first has passed. -/
theorem build_again_stops : ∃ report,
    (build plainSite [] roundabout).1.outcome = .ok report ∧
    (∀ path ∈ report.written, ∀ folder ∈ Registry.folders roundabout.src,
      ¬ (Route.location .process folder).Inside (Route.location .process path)) ∧
    ¬ ∃ again, (build (build plainSite [] roundabout).2 [] roundabout).1.outcome = .ok again := by
  obtain ⟨plan, hp, hdist, hpages⟩ := planBuild_roundabout
  obtain ⟨written, hw⟩ : ∃ written,
      (writePages roundabout.dist plainSite [⟨"index", "index.html", none, "hi"⟩]).1.outcome
        = .ok written := exists_of_isOk (by decide +kernel)
  rw [← hdist, ← hpages] at hw
  obtain ⟨hbuild, hstore⟩ := outcome_build hp
  rw [executeBuild_of_writePages hw] at hbuild
  refine ⟨_, hbuild, ?_, ?_⟩
  · have hinside : ∀ name ∈ [Registry.layoutsFolder, Registry.partialsFolder, Registry.pagesFolder],
        ¬ Location.Inside (Host.process.here ++ [Name.ofText "src", Name.ofText name])
          (Route.location .process (Path.join roundabout.dist "index.html")) := by decide +kernel
    intro path hpath folder hm
    obtain ⟨name, hname, rfl⟩ := List.mem_map.mp hm
    have hpath : path = Path.join roundabout.dist "index.html" := by
      rw [(writePages_eq_ok hw).1, hpages, hdist] at hpath
      simpa using hpath
    rw [(folder_roundabout hname).2.2.1, hpath]
    exact hinside name hname
  · rintro ⟨again, hagain⟩
    obtain ⟨_, hp', -⟩ := build_eq_ok hagain
    have hm : Registry.layoutsFolder
        ∈ [Registry.layoutsFolder, Registry.partialsFolder, Registry.pagesFolder] := by simp
    obtain ⟨-, hcheck, hl, -⟩ := folder_roundabout hm
    have hopen := openable_of_planBuild hp' (Path.join roundabout.src Registry.layoutsFolder)
      (by simp [Registry.folders]) hcheck [Name.ofText "only-passed-through-on-the-way"]
    have hmade : (build plainSite [] roundabout).2.get?
        (Route.location .process (Path.join roundabout.src Registry.layoutsFolder)
          ++ [Name.ofText "only-passed-through-on-the-way"]) = some .folder := by
      have hstore : (build plainSite [] roundabout).2 = (writePages roundabout.dist plainSite
          [⟨"index", "index.html", none, "hi"⟩]).2 := by
        rw [hstore, ← hdist, ← hpages]
        rfl
      rw [hstore, hl]
      decide +kernel
    have hshort := of_decide_eq_true (hopen hmade)
    rw [pathSize, List.foldl_cons, List.foldl_nil, Name.length_ofText, Route.size_process] at hshort
    have hsize := size_roundabout
    have hlong : maxPath = 4095 := rfl
    have hjoin := (Path.size_join roundabout.src
      (startsWith_names Registry.layoutsFolder (by simp))).1
    have hslash := (Path.size_join (Path.join roundabout.src Registry.layoutsFolder)
      (startsWith_names "" (by simp))).1
    have hlayouts : Registry.layoutsFolder.utf8ByteSize = 7 := by decide
    have hpassed : "only-passed-through-on-the-way".utf8ByteSize = 30 := by decide
    omega

end Folio
