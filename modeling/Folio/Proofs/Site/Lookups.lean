import Folio.Proofs.Site.MissingPartials
import Folio.Proofs.Site.Obstacles
import Folio.Proofs.Template.Surroundings
/-!
# What planning looks up

Planning a site looks up partials when it compiles the templates and when it renders the pages. Where
that leads to locations outside of the staging folders, the plan depends on what is there besides the
folders of templates.
-/

namespace Folio

open Files Markup

variable {host : Host}

/-! ## Names -/

/-- The names that compiling the templates below a folder looks up. -/
def Collection.lookups (store : Store host) (folder : String) (matcher : Matcher) : List String :=
  (discover store folder matcher).flatMap fun found =>
    match found with
    | .template file =>
      match (Template.load store file).outcome with
      | .ok template => Stage.names template.body.found
      | .error _ => []
    | _ => []

namespace Registry

def lookups (store : Store host) (registry : Registry) : List String :=
  registry.pages.templates.flatMap fun page =>
    match (registry.outerBody page).linked? store (registry.partialsFor page) with
    | some linked => Stage.names linked.partials
    | none => []

end Registry

def lookups (store : Store host) (options : BuildOptions) : List String :=
  (Registry.folders options.src).flatMap (Collection.lookups store · ⟨options.types⟩) ++
    match (Registry.discover store options.src ⟨options.types⟩).outcome with
    | .ok registry => registry.lookups store
    | .error _ => []

/-- The locations outside of staging folders that planning a site comes to in looking up partials. -/
def consulted (store : Store host) (options : BuildOptions) : List Location :=
  (lookups store options).flatMap (Stage.around host)

variable {store later : Store host}

/-- Nothing that planning a site consults is different in another tree. -/
def Unconsulted (store later : Store host) (options : BuildOptions) : Prop :=
  ∀ location ∈ consulted store options, later.get? location = store.get? location

instance (store later : Store host) (options : BuildOptions) :
    Decidable (Unconsulted store later options) :=
  inferInstanceAs (Decidable (∀ location ∈ consulted store options, _))

theorem Unconsulted.sameAround {options : BuildOptions} (h : Unconsulted store later options)
    {name : String} (hm : name ∈ lookups store options) : Stage.SameAround store later name := by
  intro location hl
  exact (h location (List.mem_flatMap.mpr ⟨name, hm, hl⟩)).symm

/-! ## Compiling -/

theorem mem_lookups_of_load {options : BuildOptions} {folder name : String} {file : TemplateFile}
    {template : Template} (hf : folder ∈ Registry.folders options.src)
    (hm : .template file ∈ discover store folder ⟨options.types⟩)
    (ht : (Template.load store file).outcome = .ok template)
    (hn : name ∈ Stage.names template.body.found) : name ∈ lookups store options := by
  apply List.mem_append_left
  refine List.mem_flatMap.mpr ⟨folder, hf, List.mem_flatMap.mpr ⟨_, hm, ?_⟩⟩
  dsimp only
  rw [ht]
  exact hn

/-! ## Rendering -/

/-- The name of a template is relative and leads up at its end at most. -/
theorem Template.ComesFrom.grounded {folder : String} {matcher : Matcher} {location : Location}
    {template : Template} (h : template.ComesFrom store folder matcher location)
    (hn : store.Named) : Partials.Grounded template.name := by
  obtain ⟨folders, stem, hname, hfolders, hslash, -⟩ := h.exists_name hn
  have hpieces : ∀ piece ∈ folders ++ [stem], '/' ∉ piece.toList := by
    rw [List.forall_mem_append, List.forall_mem_singleton]
    exact ⟨hfolders.noSlash, hslash⟩
  rw [hname]
  constructor
  · rw [← Bool.not_eq_true, Path.startsWith_ofSegments hpieces]
    rintro ⟨second, more, he⟩
    cases folders with
    | nil => cases he
    | cons first rest =>
      have hidle := hfolders.notIdle first List.mem_cons_self
      rw [(List.cons.inj he).1] at hidle
      cases hidle
  · rw [Path.named_ofSegments hpieces, List.filter_append,
      List.filter_eq_self.mpr fun piece hp => by simp [hfolders.notIdle piece hp]]
    intro hup
    apply hfolders.noAbove
    cases hidle : Path.isIdle stem with
    | true =>
      rw [List.filter_cons_of_neg (by simp [hidle]), List.filter_nil, List.append_nil] at hup
      exact List.dropLast_subset folders hup
    | false =>
      rw [List.filter_cons_of_pos (by simp [hidle]), List.filter_nil, List.dropLast_concat] at hup
      exact hup

namespace Registry

variable {registry : Registry} {page : Template} {src : String} {matcher : Matcher}

theorem grounded_partialsFor (hn : store.Named)
    (hr : (discover store src matcher).outcome = .ok registry) (page : Template) :
    ∀ key ∈ (registry.partialsFor page).keys, Partials.Grounded key := by
  intro key hk
  obtain ⟨⟨name, body⟩, hm, rfl⟩ := List.mem_map.mp hk
  have hg := Index.get?_eq_some_iff.mpr hm
  by_cases hc : name = contentName
  · have hcontent : Partials.Grounded contentName := ⟨by decide +kernel, by decide +kernel⟩
    rw [hc]
    exact hcontent
  · obtain ⟨template, ht, rfl, -⟩ := exists_template_of_partialsFor hc hg
    obtain ⟨location, hfrom⟩ :=
      Collection.comesFrom_of_populate (discover_eq_ok.mp hr).2.1 template ht
    exact hfrom.grounded hn

/-- A page that could be composed is composed again as before, if around the names that this looked up
nothing is different. -/
theorem compose_congr_of_lookups (hn : store.Named)
    (hr : (discover store src matcher).outcome = .ok registry) (hm : page ∈ registry.pages.templates)
    (hsame : ∀ name ∈ registry.lookups store, Stage.SameAround store later name) {globals : Fields}
    {text : String} (h : compose store page registry.layouts registry.partials globals = .ok text) :
    compose later page registry.layouts registry.partials globals
      = compose store page registry.layouts registry.partials globals := by
  rw [compose_eq] at h
  obtain ⟨linked, hl, -⟩ := Body.linked?_of_render h
  rw [compose_eq, compose_eq]
  refine Body.render_congr (grounded_partialsFor hn hr page) hl (fun name hname => hsame name ?_) _ _
  refine List.mem_flatMap.mpr ⟨page, hm, ?_⟩
  rw [hl]
  exact hname

end Registry

end Folio
