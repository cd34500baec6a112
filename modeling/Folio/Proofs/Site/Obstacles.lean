import Folio.Proofs.Site.Stopping
import Folio.Site.Build
/-!
# What stands in the way of a build

Everything that can go wrong before a build writes its first page, in the order in which it is come
to. The build ends with the first of these obstacles, and as long as there is one it writes nothing.
-/

namespace Folio

variable {host : Host}

/-! ## Loading -/

def Found.fault? (store : Files.Store host) (found : Found) : Option Stop :=
  match found.file? with
  | .error error => some (.error error)
  | .ok none => none
  | .ok (some file) => faultOf? (Template.load store file).outcome

def loadFaults (store : Files.Store host) (matcher : Matcher) (folder : String) : List Stop :=
  (discover store folder matcher).filterMap (Found.fault? store)

def isBare (store : Files.Store host) (matcher : Matcher) (folder : String) : Bool :=
  (discover store folder matcher).all fun found => found.file?.toOption = some none

namespace Collection

theorem faultOf?_addAll (store : Files.Store host) (collection : Collection) (founds : List Found) :
    faultOf? (addAll store collection founds).outcome
      = (founds.filterMap (Found.fault? store)).head? := by
  induction founds generalizing collection with
  | nil => rfl
  | cons found rest ih =>
    rw [addAll_cons, List.filterMap_cons, Found.fault?]
    cases found.file? with
    | error error => rfl
    | ok file =>
      cases file with
      | none => exact ih collection
      | some file =>
        dsimp only
        rw [faultOf?_bind]
        cases (Template.load store file).outcome with
        | error stop => rfl
        | ok template => exact ih (collection.insert template)

theorem faultOf?_populate (store : Files.Store host) (matcher : Matcher) (folder : String) :
    faultOf? (populate store folder matcher).outcome = (loadFaults store matcher folder).head? := by
  rw [populate, Logged.outcome_bind, faultOf?_bind, faultOf?_addAll, loadFaults]
  cases (addAll store .empty (discover store folder matcher)).outcome <;>
    exact Option.or_none

theorem place_ne_nil (template : Template) (templates : List Template) :
    place template templates ≠ [] := by
  cases templates with
  | nil => exact List.cons_ne_nil _ _
  | cons first rest =>
    rw [place]
    split <;> exact List.cons_ne_nil _ _

theorem templates_of_addAll_eq_nil_iff {store : Files.Store host} {collection result : Collection}
    {founds : List Found} (h : (addAll store collection founds).outcome = .ok result) :
    result.templates = [] ↔
      collection.templates = [] ∧ ∀ found ∈ founds, found.file?.toOption = some none := by
  induction founds generalizing collection with
  | nil =>
    cases h
    simp
  | cons found rest ih =>
    rw [addAll_cons] at h
    split at h
    · cases h
    · rename_i hf
      rw [ih h, List.forall_mem_cons, hf]
      simp [Except.toOption]
    · rename_i file hf
      obtain ⟨template, -, h⟩ := bind_eq_ok.mp h
      rw [ih h, List.forall_mem_cons, hf]
      simp [Except.toOption, insert, place_ne_nil]

theorem isEmpty_of_populate {store : Files.Store host} {folder : String} {matcher : Matcher}
    {collection : Collection} (h : (populate store folder matcher).outcome = .ok collection) :
    collection.isEmpty = isBare store matcher folder := by
  have hnil := templates_of_addAll_eq_nil_iff (populate_eq_ok.mp h)
  rw [Bool.eq_iff_iff, isEmpty, List.isEmpty_iff, hnil, isBare, List.all_eq_true]
  simp [empty]

end Collection

namespace Registry

def folders (src : String) : List String :=
  [layoutsFolder, partialsFolder, pagesFolder].map (Files.Path.join src)

theorem faultOf?_discover (store : Files.Store host) (src : String) (matcher : Matcher) :
    faultOf? (discover store src matcher).outcome
      = ((folders src).flatMap (loadFaults store matcher)).head? := by
  simp only [discover, Logged.outcome_bind, Logged.outcome_tell, Logged.outcome_pure, ok_bind,
    faultOf?_bind, folders, List.map_cons, List.map_nil, List.flatMap_cons, List.flatMap_nil,
    List.head?_append, ← Collection.faultOf?_populate]
  cases (Collection.populate store (Files.Path.join src layoutsFolder) matcher).outcome with
  | error stop => rfl
  | ok layouts =>
    cases (Collection.populate store (Files.Path.join src partialsFolder) matcher).outcome with
    | error stop => rfl
    | ok partials =>
      cases (Collection.populate store (Files.Path.join src pagesFolder) matcher).outcome <;> rfl

end Registry

/-! ## Rendering -/

def renderFaults (store : Files.Store host) (registry : Registry) (globals : Fields)
    (pages : List Template) : List Stop :=
  pages.filterMap fun page => faultOf? (compose store page registry.layouts registry.partials globals)

theorem faultOf?_planPage (store : Files.Store host) (registry : Registry) (globals : Fields)
    (page : Template) :
    faultOf? (planPage store registry globals page).outcome
      = faultOf? (compose store page registry.layouts registry.partials globals) := by
  rw [planPage, Logged.outcome_bind, Logged.outcome_lift, faultOf?_bind]
  cases compose store page registry.layouts registry.partials globals <;> rfl

theorem faultOf?_planPages (store : Files.Store host) (registry : Registry) (globals : Fields)
    (pages : List Template) :
    faultOf? (planPages store registry globals pages).outcome
      = (renderFaults store registry globals pages).head? := by
  induction pages with
  | nil => rfl
  | cons page rest ih =>
    have hpage := faultOf?_planPage store registry globals page
    rw [planPages, Logged.outcome_bind, faultOf?_bind, renderFaults, List.filterMap_cons, ← hpage]
    cases (planPage store registry globals page).outcome with
    | error stop => rfl
    | ok planned =>
      show faultOf? (planPages store registry globals rest >>= fun _ => _ : Logged _).outcome = _
      rw [Logged.outcome_bind, faultOf?_bind, ih, renderFaults]
      cases (planPages store registry globals rest).outcome <;> exact Option.or_none

/-! ## Sites -/

/-- All that stands in the way of a build, in order: what the options end in, or else the files that
cannot be loaded, the lack of a page, and, once everything is loaded, the pages that cannot be
rendered. -/
def obstacles (store : Files.Store host) (globals : Fields) (options : BuildOptions) : List Stop :=
  let matcher : Matcher := ⟨options.types⟩
  let pagesFolder := Files.Path.join options.src Registry.pagesFolder
  match options.error? host with
  | some error => [.error error]
  | none =>
    (Registry.folders options.src).flatMap (loadFaults store matcher)
    ++ (if isBare store matcher pagesFolder then [.error (.noPages pagesFolder)] else [])
    ++ (match (Registry.discover store options.src matcher).outcome with
      | .error _ => []
      | .ok registry => renderFaults store registry globals registry.pages.templates)

/-- A plan comes to nothing exactly because of the first obstacle. -/
theorem faultOf?_planBuild (store : Files.Store host) (globals : Fields) (options : BuildOptions) :
    faultOf? (planBuild store globals options).outcome
      = (obstacles store globals options).head? := by
  rw [outcome_planBuild, prepare, mapError_matcher, obstacles]
  cases options.error? host with
  | some error => rfl
  | none =>
    have hload := Registry.faultOf?_discover store options.src ⟨options.types⟩
    dsimp only
    rw [ok_bind, List.head?_append, List.head?_append, ← hload]
    cases hr : (Registry.discover store options.src ⟨options.types⟩).outcome with
    | error stop => rfl
    | ok registry =>
      have hbare := Collection.isEmpty_of_populate (Registry.discover_eq_ok.mp hr).2.2
      rw [ok_bind, hbare]
      cases isBare store ⟨options.types⟩ (Files.Path.join options.src Registry.pagesFolder) with
      | true => rfl
      | false =>
        show faultOf? ((planPages store registry globals registry.pages.templates).outcome >>= _) = _
        rw [faultOf?_bind, faultOf?_planPages]
        cases (planPages store registry globals registry.pages.templates).outcome <;>
          exact Option.or_none

/-- A build with an obstacle in its way ends with the first one and leaves all files as they are. -/
theorem build_eq_of_head?_obstacles {store : Files.Store host} {globals : Fields}
    {options : BuildOptions} {first : Stop}
    (h : (obstacles store globals options).head? = some first) :
    (build store globals options).1.outcome = .error first ∧
      (build store globals options).2 = store := by
  rw [← faultOf?_planBuild, faultOf?_eq_some_iff] at h
  rw [build]
  split
  · rename_i stop journal hp
    rw [hp] at h
    obtain rfl := Except.error.inj h
    exact ⟨rfl, rfl⟩
  · rename_i plan journal hp
    rw [hp] at h
    cases h

/-- Options that are not valid or whose extensions are refused, a template that cannot be loaded, the lack of a page, a page that
cannot be rendered: whatever it is and wherever it comes, the build ends with the first such thing,
and all files are as they were. -/
theorem store_of_obstructed_build (store : Files.Store host) (globals : Fields) (options : BuildOptions)
    (h : (∃ fault, options.fault? = some fault) ∨
      (∃ cause, host.refusal? options.types = some cause) ∨
      (∃ folder ∈ Registry.folders options.src,
        ∃ found ∈ discover store folder ⟨options.types⟩, (found.fault? store).isSome) ∨
      (∀ found ∈ discover store (Files.Path.join options.src Registry.pagesFolder) ⟨options.types⟩,
        found.file? = .ok none) ∨
      ∃ registry, (Registry.discover store options.src ⟨options.types⟩).outcome = .ok registry ∧
        ∃ page ∈ registry.pages.templates, ∃ stop,
          compose store page registry.layouts registry.partials globals = .error stop) :
    ∃ first, (obstacles store globals options).head? = some first ∧
      (build store globals options).1.outcome = .error first ∧
      (build store globals options).2 = store := by
  have hne : obstacles store globals options ≠ [] := by
    rw [obstacles]
    cases he : options.error? host with
    | some error => exact List.cons_ne_nil _ _
    | none =>
      have ⟨hfault, hrefusal⟩ : options.fault? = none ∧ host.refusal? options.types = none := by
        rw [BuildOptions.error?] at he
        cases hf : options.fault? with
        | some fault => simp [hf] at he
        | none => simpa [hf] using he
      rw [hfault, hrefusal] at h
      intro hnil
      obtain ⟨hloaded, hrendered⟩ := List.append_eq_nil_iff.mp hnil
      obtain ⟨hloaded, hpages⟩ := List.append_eq_nil_iff.mp hloaded
      rcases h with ⟨fault, hf⟩ | ⟨cause, hf⟩ | ⟨folder, hm, found, hd, hs⟩ | hbare |
          ⟨registry, hr, page, hp, stop, hc⟩
      · cases hf
      · cases hf
      · have hnone := List.filterMap_eq_nil_iff.mp (List.flatMap_eq_nil_iff.mp hloaded folder hm)
        rw [hnone found hd] at hs
        cases hs
      · have hall : isBare store ⟨options.types⟩
            (Files.Path.join options.src Registry.pagesFolder) = true := by
          refine List.all_eq_true.mpr fun found hd => ?_
          rw [hbare found hd]
          rfl
        rw [if_pos hall] at hpages
        cases hpages
      · rw [hr] at hrendered
        have hnone := List.filterMap_eq_nil_iff.mp hrendered page hp
        rw [hc] at hnone
        cases hnone
  obtain ⟨first, rest, he⟩ := List.exists_cons_of_ne_nil hne
  have hhead : (obstacles store globals options).head? = some first := by rw [he, List.head?_cons]
  exact ⟨first, hhead, build_eq_of_head?_obstacles hhead⟩

/-- Two partials of which the second wants a folder where the first has its file, and two pages of
which the second includes the first partial. -/
def jammedSite : Files.Store .process :=
  .ofTexts [("src/partials/x.hbs", "p"), ("src/partials/x.mustache/y.hbs", "q"),
    ("src/pages/a.hbs", "hi"), ("src/pages/b.hbs", "\x7b\x7b> x\x7d\x7d")]

theorem store_of_obstructed_build_jammed :
    (build jammedSite [] { types := ["hbs"] }).1.outcome
        = .error (.error (.io (.staging "x.mustache/y") .exists)) ∧
      (build jammedSite [] { types := ["hbs"] }).2 = jammedSite := by
  obtain ⟨registry, hr, ht⟩ : ∃ registry,
      (Registry.discover jammedSite "src" ⟨["hbs"]⟩).outcome = .ok registry ∧
      (registry.pages.templates.any fun page =>
        (faultOf? (compose jammedSite page registry.layouts registry.partials [])).isSome) = true :=
    exists_ok (by decide +kernel)
  obtain ⟨page, hp, hc⟩ := List.any_eq_true.mp ht
  obtain ⟨stop, hc⟩ := Option.isSome_iff_exists.mp hc
  obtain ⟨first, hhead, hbuild, hstore⟩ := store_of_obstructed_build jammedSite []
    { types := ["hbs"] }
    (.inr (.inr (.inr (.inr ⟨registry, hr, page, hp, stop, faultOf?_eq_some_iff.mp hc⟩))))
  have hfirst : (obstacles jammedSite [] { types := ["hbs"] }).head?
      = some (.error (.io (.staging "x.mustache/y") .exists)) := by decide +kernel
  rw [hfirst] at hhead
  exact ⟨hbuild.trans (congrArg _ (Option.some.inj hhead).symm), hstore⟩

end Folio
