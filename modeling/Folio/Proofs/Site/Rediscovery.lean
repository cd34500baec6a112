import Folio.Proofs.Files.Listing
import Folio.Proofs.Site.Lookups
import Folio.Proofs.Template.History
/-!
# Looking again

A folder that is spared shows the same templates when it is looked into again, and each of them is
loaded as before. Only a new folder can get in the way, if the path to it is too long to look into
it.
-/

namespace Folio

variable {host : Host}

open Files

/-! ## Walking -/

namespace Index

variable {κ α β : Type} [LT κ] [DecidableEq κ] [KeyOrder κ]

theorem filterMap_entries_congr {a b : Index κ α} {f : κ × α → Option β}
    (h : ∀ entry, (f entry).isSome = true → (entry ∈ a.entries ↔ entry ∈ b.entries)) :
    a.entries.filterMap f = b.entries.filterMap f := by
  have hfilter : a.filter (fun entry => (f entry).isSome)
      = b.filter fun entry => (f entry).isSome := by
    refine ext_get? fun key => Option.ext fun value => ?_
    rw [get?_eq_some_iff, get?_eq_some_iff, filter, filter, List.mem_filter, List.mem_filter]
    exact and_congr_left fun hs => h _ hs
  have hsome : ∀ index : Index κ α, index.entries.filterMap f
      = (index.filter fun entry => (f entry).isSome).entries.filterMap f := by
    intro index
    rw [filter, List.filterMap_filter]
    congr 1
    funext entry
    cases f entry <;> rfl
  rw [hsome a, hfilter, ← hsome b]

end Index

namespace Files.Store

variable {store later : Store host} {location : Location}

theorem filterMap_below_congr {β : Type} {f : Location × Entry → Option β}
    (h : ∀ rest entry, rest ≠ [] → (f (rest, entry)).isSome = true →
      (store.get? (location ++ rest) = some entry ↔ later.get? (location ++ rest) = some entry)) :
    (store.below location).filterMap f = (later.below location).filterMap f := by
  rw [below, below, List.filterMap_filterMap, List.filterMap_filterMap]
  refine Index.filterMap_entries_congr fun item hs => ?_
  split at hs
  · rename_i hb
    obtain ⟨⟨tail, ht⟩, hne⟩ := hb
    have htail : tail ≠ [] := by
      rintro rfl
      exact hne (by simpa using ht)
    rw [Option.bind_some, ← ht, List.drop_left] at hs
    have hsame := h tail item.2 htail hs
    rw [ht, get?_eq_some_iff, get?_eq_some_iff] at hsame
    exact hsame
  · cases hs

end Files.Store

/-! ## Folders of templates -/

theorem into_sourceFolder {name : String}
    (hm : name ∈ [Registry.layoutsFolder, Registry.partialsFolder, Registry.pagesFolder])
    (src : String) : Path.Into host src (Path.join src name) [Name.ofText name] ∧
      Name.ofText name ≠ [] ∧ (Name.ofText name).length ≤ maxName := by
  have hall : ∀ name ∈ [Registry.layoutsFolder, Registry.partialsFolder, Registry.pagesFolder],
      (Path.isIdle name = false ∧ '/' ∉ name.toList ∧ name ≠ "..") ∧
        Name.ofText name ≠ [] ∧ (Name.ofText name).length ≤ maxName := by decide
  obtain ⟨⟨hidle, hslash, habove⟩, hshort⟩ := hall name hm
  have hd : Path.Descending [name] :=
    ⟨⟨by simpa using hidle, by simpa using hslash⟩, by simpa using habove.symm⟩
  have hinto : Path.Into host src (Path.join src (Path.ofSegments [name]))
      ([name].map Name.ofText) := hd.into (List.cons_ne_nil _ _) src
  rw [Path.ofSegments_singleton] at hinto
  exact ⟨hinto, hshort⟩

theorem into_of_mem_folders {src folder : String} (h : folder ∈ Registry.folders src) :
    ∃ rest, Path.Into host src folder rest ∧ ∀ name ∈ rest, name.length ≤ maxName := by
  obtain ⟨name, hm, rfl⟩ := List.mem_map.mp h
  obtain ⟨hinto, -, hshort⟩ := into_sourceFolder hm src
  exact ⟨_, hinto, by simpa using hshort⟩

section

variable {store later : Store host} {src folder : String} {rest : List Name} {matcher : Matcher}

theorem discover_of_unsound (hc : Route.check host folder ≠ .ok ()) :
    discover store folder matcher = [] := by
  rw [discover]
  split
  · rfl
  · rename_i location hl
    obtain ⟨_, hok, -⟩ := bind_eq_ok.mp hl
    exact absurd hok hc

/-- What is found in a folder is what lies below the location it has in the source tree. -/
theorem discover_eq_below (hi : Path.Into host src folder rest)
    (hshort : ∀ name ∈ rest, name.length ≤ maxName)
    (hw : store.walk (Route.ofPath host src).start (Route.ofPath host src).names =
        .ok (Route.location host src))
    (hc : Route.check host folder = .ok ()) :
    discover store folder matcher
      = (store.below (Route.location host folder)).filterMap (visit host folder matcher) := by
  cases hf : store.hasFolder folder with
  | true => exact discover_eq hf
  | false =>
    have hn : ¬ store.IsFolder (Route.location host folder) := by
      rintro (he | hfolder)
      · rw [hi.location] at he
        exact hi.ne_nil (List.append_eq_nil_iff.mp he).2
      · have hthere := (Store.locate_into_iff hi hw).mpr ⟨rfl, hc, hshort, by rw [hfolder]; rfl⟩
        rw [Store.hasFolder_iff.mpr ⟨hthere, .inr hfolder⟩] at hf
        cases hf
    rw [discover_eq_nil hf, Store.below_eq_nil hn, List.filterMap_nil]

/-- Everything in a folder can be looked into, as far as paths go. -/
def Openable (store : Store host) (folder : String) : Prop :=
  Route.check host folder = .ok () →
    ∀ rest, store.get? (Route.location host folder ++ rest) = some .folder →
        canOpen host folder rest = true

theorem visit_folder (ho : canOpen host folder rest = true) :
    visit host folder matcher (rest, .folder) = none := by
  rw [visit]
  dsimp only
  rw [if_pos ho]
  split <;> rfl

theorem canOpen_nil (hc : Route.check host folder = .ok ()) : canOpen host folder [] = true := by
  obtain ⟨-, -, hshort⟩ := Route.check_eq_ok_iff.mp hc
  have hrelative : "".startsWith "/" = false := by decide +kernel
  have hjoin : Route.size host (Path.join folder "") ≤ Route.size host folder + 1 + 0 :=
    Route.size_join hrelative
  rw [canOpen, pathSize, List.foldl_nil]
  exact decide_eq_true (by omega)

theorem Openable.canOpen {below : Location} (ho : Openable store folder)
    (hc : Route.check host folder = .ok ())
    (hf : store.IsFolder (Route.location host folder ++ below)) :
    canOpen host folder below = true := by
  rcases hf with he | hf
  · rw [(List.append_eq_nil_iff.mp he).2]
    exact canOpen_nil hc
  · exact ho hc below hf

theorem discover_of_spares (hi : Path.Into host src folder rest)
    (hshort : ∀ name ∈ rest, name.length ≤ maxName)
    (hw : store.walk (Route.ofPath host src).start (Route.ofPath host src).names =
        .ok (Route.location host src))
    (hs : Store.Spares (Route.location host folder) store later) (hg : Store.Grows store later)
    (ho : Openable later folder) :
    discover later folder matcher = discover store folder matcher := by
  by_cases hc : Route.check host folder = .ok ()
  · rw [discover_eq_below hi hshort hw hc, discover_eq_below hi hshort (hg.walk hw) hc]
    refine Store.filterMap_below_congr fun below entry hne hsome => ?_
    cases entry with
    | file content =>
      obtain ⟨name, more, rfl⟩ := List.exists_cons_of_ne_nil hne
      exact hs.file_iff ⟨name, more, rfl⟩
    | folder =>
      have hnone : ¬ later.get? (Route.location host folder ++ below) = some .folder := by
        intro hf
        rw [visit_folder (ho hc below hf)] at hsome
        cases hsome
      exact iff_of_false hnone fun hf => hnone (hg.folder hf)
  · rw [discover_of_unsound hc, discover_of_unsound hc]

/-! ## Loading -/

theorem into_templateFile {folders : List String} {fileName stem : String} {content : ByteArray}
    (hn : store.Named)
    (hm : (folders.map Name.ofText ++ [Name.ofText fileName], .file content)
      ∈ store.below (Route.location host folder))
    (hs : matcher.strip? fileName = some stem) :
    Path.Into host folder (templateFile folder folders fileName stem).path
        ((folders ++ [fileName]).map Name.ofText) ∧
      Path.Into host folder (templateFile folder folders fileName stem).dataPath
        ((folders ++ [stem ++ ".json"]).map Name.ofText) := by
  obtain ⟨-, hreal⟩ := hn.real_of_mem_below hm
  have hfile : Path.Descending (folders ++ [fileName]) :=
    Path.descending_of_real fun name hx => hreal name (by simpa using hx)
  have hfolders : Path.Descending folders :=
    Path.descending_of_real fun name hx => hreal name (List.mem_append_left _ hx)
  have hslash : '/' ∉ stem.toList :=
    Matcher.notMem_of_strip? hs (hfile.noSlash fileName (by simp))
  have hdata : Path.Descending (folders ++ [stem ++ ".json"]) :=
    hfolders.concat_file hslash (by decide : isPlainExtension "json" = true)
  exact ⟨hfile.into (by simp) folder, hfile.into_sibling hdata folder⟩

/-- What is done to a store leaves what a folder of templates shows as it was. -/
structure Unchanged (store later : Store host) (folder : String) : Prop where
  grows : Store.Grows store later
  spares : Store.Spares (Route.location host folder) store later
  openable : Openable later folder

theorem RenderData.load_of_keeps {path : String} (hi : Path.Into host folder path rest)
    (hw : store.walk (Route.ofPath host folder).start (Route.ofPath host folder).names
      = .ok (Route.location host folder))
    (hk : Store.Keeps store later (Route.location host path)) (hg : Store.Grows store later) :
    load later path = load store path := by
  obtain ⟨hsame, hread⟩ := hk.reads hg hi hw
  rw [load, load, hsame]
  split
  · rename_i hthere
    rw [hread hthere]
  · rfl

theorem Logged.bind_congr {α β : Type} {first : Logged α} {next other : α → Logged β}
    (h : ∀ value, first.outcome = .ok value → next value = other value) :
    (first >>= next) = (first >>= other) := by
  show bind first next = bind first other
  rw [bind, bind]
  cases ho : first.outcome with
  | error stop => rfl
  | ok value =>
    dsimp only
    rw [h value ho]

/-- A template is loaded as before if its two files are kept and nothing that compiling it looks up is
different. -/
theorem Template.load_of_keeps {file : TemplateFile} {template : Template} {beside : List Name}
    (hp : Path.Into host folder file.path rest) (hd : Path.Into host folder file.dataPath beside)
    (hw : store.walk (Route.ofPath host folder).start (Route.ofPath host folder).names
      = .ok (Route.location host folder))
    (hk : Store.Keeps store later (Route.location host file.path))
    (hk' : Store.Keeps store later (Route.location host file.dataPath)) (hg : Store.Grows store later)
    (h : (load store file).outcome = .ok template)
    (hsame : ∀ name ∈ Stage.names template.body.found, Stage.SameAround store later name) :
    load later file = load store file := by
  obtain ⟨source, hsource⟩ : ∃ source, store.readText file.path = .ok source := by
    rw [outcome_load] at h
    split at h
    · cases h
    · exact ⟨_, ‹_›⟩
  have hread := (hk.reads hg hp hw).2 (Store.hasFile_of_readText hsource)
  have hcompile : Body.compile store source = .ok template.body := by
    rw [outcome_load, hsource] at h
    dsimp only at h
    split at h
    · cases h
    · rename_i body hc
      obtain ⟨data, -, h⟩ := bind_eq_ok.mp h
      cases h
      exact hc
  rw [load, load, hread, hsource, RenderData.load_of_keeps hd hw hk' hg]
  refine Logged.bind_congr fun text htext => ?_
  obtain rfl := Except.ok.inj htext
  dsimp only
  rw [hcompile, Body.compile_congr hcompile hsame]

namespace Collection

theorem addAll_congr {founds : List Found} {collection result : Collection}
    (hl : ∀ found ∈ founds, ∀ file template, found.file? = .ok (some file) →
      (Template.load store file).outcome = .ok template →
      Template.load later file = Template.load store file)
    (h : (addAll store collection founds).outcome = .ok result) :
    addAll later collection founds = addAll store collection founds := by
  induction founds generalizing collection with
  | nil => rfl
  | cons found more ih =>
    have hmore := fun other hm => hl other (List.mem_cons_of_mem found hm)
    rw [addAll_cons] at h
    rw [addAll, addAll]
    refine Logged.bind_congr fun _ _ => ?_
    cases hf : found.file? with
    | error error => rfl
    | ok taken =>
      rw [hf] at h
      cases taken with
      | none => exact ih hmore h
      | some file =>
        obtain ⟨template, ht, h⟩ := bind_eq_ok.mp h
        dsimp only
        rw [hl found List.mem_cons_self file template hf ht]
        refine Logged.bind_congr fun other ho => Logged.bind_congr fun _ _ => ?_
        rw [ho] at ht
        cases ht
        exact ih hmore h

theorem populate_of_unchanged {options : BuildOptions} {collection : Collection}
    (hn : store.Named) (hm : folder ∈ Registry.folders options.src)
    (hw : store.walk (Route.ofPath host options.src).start (Route.ofPath host options.src).names
      = .ok (Route.location host options.src))
    (hu : Unchanged store later folder) (hl : Unconsulted store later options)
    (h : (populate store folder ⟨options.types⟩).outcome = .ok collection) :
    populate later folder ⟨options.types⟩ = populate store folder ⟨options.types⟩ := by
  obtain ⟨rest, hi, hshort⟩ := into_of_mem_folders hm
  have hload : ∀ found ∈ discover store folder ⟨options.types⟩, ∀ file template,
      found.file? = .ok (some file) → (Template.load store file).outcome = .ok template →
      Template.load later file = Template.load store file := by
    intro found hfound file template hf ht
    cases found with
    | template found =>
      cases hf
      obtain ⟨hlocate, below, content, hbelow, hk⟩ := template_of_mem_discover hfound
      obtain ⟨folders, fileName, stem, rfl, hs, rfl⟩ := classify_eq_template_iff.mp hk
      obtain ⟨hp, hd⟩ := into_templateFile hn hbelow hs
      exact Template.load_of_keeps hp hd (Store.walk_of_locate hlocate)
        (hu.spares.keeps hp.inside) (hu.spares.keeps hd.inside) hu.grows ht
        fun name hname => hl.sameAround (mem_lookups_of_load hm hfound ht hname)
    | unnamed path => cases hf
    | misplaced path => cases hf
    | unopened path => cases hf
  rw [populate, populate, discover_of_spares hi hshort hw hu.spares hu.grows hu.openable,
    addAll_congr hload (populate_eq_ok.mp h)]

/-- If everything could be taken in, every folder could be looked into. -/
theorem openable_of_populate {collection : Collection} (hm : folder ∈ Registry.folders src)
    (hw : store.walk (Route.ofPath host src).start (Route.ofPath host src).names =
        .ok (Route.location host src))
    (h : (populate store folder matcher).outcome = .ok collection) : Openable store folder := by
  obtain ⟨rest, hi, hshort⟩ := into_of_mem_folders hm
  intro hc below hf
  induction below using List.reverseRecOn with
  | nil => exact canOpen_nil hc
  | append_singleton before last ih =>
    have hbefore : canOpen host folder before = true := by
      rw [← List.append_assoc] at hf
      have hparent := (Store.isFolder_dropLast hf).2
      rw [List.dropLast_concat, hi.location] at hparent
      refine ih ?_
      rw [hi.location]
      refine hparent.resolve_left ?_
      simp [hi.ne_nil]
    by_contra hlong
    have hnone : loadFaults store matcher folder = [] := by
      rw [← List.head?_eq_none_iff, ← faultOf?_populate, h]
      rfl
    have hfound : .unopened (pathBelow folder (before ++ [last])) ∈ discover store folder matcher := by
      rw [discover_eq_below hi hshort hw hc]
      refine List.mem_filterMap.mpr
        ⟨(before ++ [last], .folder), Store.mem_below_iff.mpr ⟨by simp, hf⟩, ?_⟩
      simp [visit, hbefore, hlong]
    have hfault := List.filterMap_eq_nil_iff.mp hnone _ hfound
    cases hfault

end Collection

/-! ## Sites -/

theorem Collection.hasFolder_of_populate {collection : Collection}
    (h : (populate store folder matcher).outcome = .ok collection)
    (he : collection.isEmpty = false) : store.hasFolder folder = true := by
  rw [← Bool.not_eq_false]
  intro hf
  rw [isEmpty_of_populate h, isBare, discover_eq_nil hf] at he
  cases he

theorem Collection.walk_of_populate {collection : Collection} (hm : folder ∈ Registry.folders src)
    (h : (populate store folder matcher).outcome = .ok collection)
    (he : collection.isEmpty = false) :
    store.walk (Route.ofPath host src).start (Route.ofPath host src).names =
        .ok (Route.location host src) := by
  obtain ⟨rest, hi, -⟩ := into_of_mem_folders hm
  obtain ⟨hl, -⟩ := Store.hasFolder_iff.mp (hasFolder_of_populate h he)
  have hw := Store.walk_of_locate hl
  rw [hi.route] at hw
  dsimp only at hw
  rw [Store.walk_append] at hw
  obtain ⟨found, hw, -⟩ := bind_eq_ok.mp hw
  rw [hw, Store.follow_of_walk hw, Route.location]

variable {globals : Fields} {options : BuildOptions} {plan : BuildPlan}

theorem populates_of_planBuild (h : (planBuild store globals options).outcome = .ok plan) :
    store.walk (Route.ofPath host options.src).start (Route.ofPath host options.src).names
        = .ok (Route.location host options.src) ∧
      ∀ folder ∈ Registry.folders options.src, ∃ collection,
        (Collection.populate store folder ⟨options.types⟩).outcome = .ok collection := by
  obtain ⟨-, registry, -, hr, he, -⟩ := planBuild_eq_ok h
  obtain ⟨hl, hp, hg⟩ := Registry.discover_eq_ok.mp hr
  refine ⟨Collection.walk_of_populate (by simp [Registry.folders]) hg he, ?_⟩
  simp [Registry.folders, hl, hp, hg]

theorem planPages_of_unconsulted {registry : Registry} {pages : List PlannedPage} (hn : store.Named)
    (hr : (Registry.discover store options.src ⟨options.types⟩).outcome = .ok registry)
    (hl : Unconsulted store later options)
    (h : (planPages store registry globals registry.pages.templates).outcome = .ok pages) :
    planPages later registry globals registry.pages.templates
      = planPages store registry globals registry.pages.templates := by
  have hnames : ∀ name ∈ registry.lookups store, Stage.SameAround store later name := by
    intro name hm
    apply hl.sameAround
    apply List.mem_append_right
    rw [hr]
    exact hm
  have hall : ∀ templates ⊆ registry.pages.templates, ∀ pages,
      (planPages store registry globals templates).outcome = .ok pages →
      planPages later registry globals templates = planPages store registry globals templates := by
    intro templates hsub
    induction templates with
    | nil =>
      intro _ _
      rfl
    | cons page rest ih =>
      intro pages h
      obtain ⟨hpage, hrest⟩ := List.cons_subset.mp hsub
      simp only [planPages, Logged.outcome_bind_eq_ok] at h
      obtain ⟨planned, hplanned, more, hmore, -⟩ := h
      have hcompose := Registry.compose_congr_of_lookups hn hr hpage hnames
        (planPage_eq_ok hplanned).2.2
      rw [planPages, planPages, planPage, planPage, hcompose, ih hrest more hmore]
  exact hall _ (List.Subset.refl _) pages h

theorem openable_of_planBuild (h : (planBuild store globals options).outcome = .ok plan) :
    ∀ folder ∈ Registry.folders options.src, Openable store folder := by
  obtain ⟨hw, hp⟩ := populates_of_planBuild h
  intro folder hm
  obtain ⟨collection, hc⟩ := hp folder hm
  exact Collection.openable_of_populate hm hw hc

/-- A site is planned again as it was before, journal and all, if its folders are as they were and
nothing that planning it consults besides is different. -/
theorem planBuild_of_unchanged (hn : store.Named)
    (h : (planBuild store globals options).outcome = .ok plan)
    (hu : ∀ folder ∈ Registry.folders options.src, Unchanged store later folder)
    (hl : Unconsulted store later options) :
    planBuild later globals options = planBuild store globals options := by
  obtain ⟨hw, hp⟩ := populates_of_planBuild h
  obtain ⟨hv, registry, pages, hr, -, hpages, -⟩ := planBuild_eq_ok h
  have hsame : ∀ folder ∈ Registry.folders options.src,
      Collection.populate later folder ⟨options.types⟩
        = Collection.populate store folder ⟨options.types⟩ := by
    intro folder hm
    obtain ⟨collection, hc⟩ := hp folder hm
    exact Collection.populate_of_unchanged hn hm hw (hu folder hm) hl hc
  have hregistry : Registry.discover later options.src ⟨options.types⟩
      = Registry.discover store options.src ⟨options.types⟩ := by
    rw [Registry.discover, Registry.discover, hsame _ (by simp [Registry.folders]),
      hsame _ (by simp [Registry.folders]), hsame _ (by simp [Registry.folders])]
  rw [planBuild, planBuild, BuildOptions.matcher_eq, hv]
  refine Logged.bind_congr fun matcher hmatcher => ?_
  obtain rfl : matcher = ⟨options.types⟩ := (Except.ok.inj hmatcher).symm
  rw [hregistry]
  refine Logged.bind_congr fun found hfound => ?_
  obtain rfl := Except.ok.inj (hr.symm.trans hfound)
  rw [planPages_of_unconsulted hn hr hl hpages]

end

end Folio
