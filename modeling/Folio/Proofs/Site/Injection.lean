import Folio.Proofs.Markup.Chains
import Folio.Proofs.Site.MissingPartials
import Folio.Proofs.Template.Layout
/-!
# The page as a partial of its layout

Inside a layout the name `content` stands for the page, also where partials or the page itself ask
for it. Tags that go round in no circle without that may do so with it: just where the layout leads
to `content` and so does the page.
-/

namespace Folio

open Files Markup

/-! ## Tags of partials -/

theorem Collection.find_partials {collection : Collection} {outer inner : String}
    (h : inner ∈ Node.inclusions (collection.partials.find outer)) :
    ∃ template ∈ collection.templates, template.name = outer ∧
      collection.partials.find outer = template.body.nodes := by
  rw [Partials.find] at h
  cases hg : collection.partials.get? outer with
  | none =>
    rw [hg] at h
    cases h
  | some body =>
    obtain ⟨template, hm, hname, rfl⟩ := exists_template_of_get? hg
    exact ⟨template, hm, hname, by rw [Partials.find, hg]; rfl⟩

namespace Registry

variable {host : Host} {registry : Registry} {page : Template}

/-- With names looked up among the partials, no chain of tags from a page, from its layout or from a
partial comes back to a name that is on it already. -/
structure Untangled (registry : Registry) (page : Template) : Prop where
  ofPage : Markup.Untangled registry.partials.partials.find page.body.nodes
  ofLayout : ∀ layout, resolveLayout page registry.layouts = some layout →
    Markup.Untangled registry.partials.partials.find layout.body.nodes
  ofPartials : ∀ template ∈ registry.partials.templates,
    Markup.Untangled registry.partials.partials.find template.body.nodes

theorem untangled_of_rank (rank : String → Nat) (h : ∀ template ∈ registry.partials.templates,
    ∀ inner ∈ Node.inclusions template.body.nodes, rank inner < rank template.name) :
    registry.Untangled page := by
  have hrank : ∀ outer inner, Includes registry.partials.partials.find outer inner →
      rank inner < rank outer := by
    intro outer inner hi
    obtain ⟨template, hm, rfl, he⟩ := Collection.find_partials hi
    exact h template hm inner (he ▸ hi)
  exact ⟨neverReturns_of_rank rank hrank, fun _ _ => neverReturns_of_rank rank hrank,
    fun _ _ => neverReturns_of_rank rank hrank⟩

theorem Untangled.not_leads_self (h : registry.Untangled page) (name : String) :
    ¬ Leads registry.partials.partials.find (registry.partials.partials.find name) name := by
  intro hl
  obtain ⟨start, hs, -⟩ := leads_iff.mp hl
  obtain ⟨template, hm, -, he⟩ := Collection.find_partials hs
  rw [he] at hl
  exact untangled_iff.mp (h.ofPartials template hm) name hl (he ▸ hl)

theorem find_partialsFor_of_ne {layout : Template}
    (hl : resolveLayout page registry.layouts = some layout) {name : String}
    (hn : name ≠ contentName) :
    registry.partials.partials.find name = (registry.partialsFor page).find name := by
  simp only [Partials.find, partialsFor, hl, Index.get?_insert, if_neg hn]

theorem find_partialsFor_contentName {layout : Template}
    (hl : resolveLayout page registry.layouts = some layout) :
    (registry.partialsFor page).find contentName = page.body.nodes := by
  simp only [Partials.find, partialsFor, hl, Index.get?_insert, if_true, Option.map_some,
    Option.getD_some]

/-- Inside a layout, tags go round in a circle just if the layout and the page lead to `content`. -/
theorem Untangled.composed_iff (h : registry.Untangled page) {layout : Template}
    (hl : resolveLayout page registry.layouts = some layout) :
    Markup.Untangled (registry.partialsFor page).find layout.body.nodes ↔
      ¬ (Leads registry.partials.partials.find layout.body.nodes contentName ∧
        Leads registry.partials.partials.find page.body.nodes contentName) := by
  have hagree := fun name (hn : name ≠ contentName) => find_partialsFor_of_ne hl hn
  have hagree' := fun name (hn : name ≠ contentName) => (find_partialsFor_of_ne hl hn).symm
  rw [untangled_iff, leads_changed_iff hagree, leads_changed_iff hagree]
  constructor
  · rintro hn ⟨hlayout, hpage⟩
    rw [← find_partialsFor_contentName hl] at hpage
    exact hn contentName hlayout hpage
  · rintro hn name hreached hself
    -- a circle either passes through the page or was there without it
    have hthrough : Leads (registry.partialsFor page).find
        ((registry.partialsFor page).find name) contentName ∧
        Leads (registry.partialsFor page).find ((registry.partialsFor page).find contentName)
          name := by
      by_cases hc : name = contentName
      · subst hc
        exact ⟨hself, hself⟩
      · rcases hself.agree_or_through hagree' with hold | ⟨hto, -, hback⟩
        · rw [← hagree name hc] at hold
          exact absurd hold (h.not_leads_self name)
        · exact ⟨hto, hback⟩
    obtain ⟨hto, hback⟩ := hthrough
    refine hn ⟨hreached.trans hto, ?_⟩
    rw [← find_partialsFor_contentName hl]
    exact hback.trans hto

/-- A page is rendered from the body of its layout, or from its own, with the partials among which
`content` is the page if it is in a layout. If no chain of tags comes back to a name without that,
then one does in this rendering just if the layout leads to `content` and so does the page. -/
theorem injection_untangled_iff (h : registry.Untangled page) (store : Store host)
    (globals : Fields) :
    (∃ name, compose store page registry.layouts registry.partials globals
      = (registry.outerBody page).render store name (registry.contextFor globals page)
          (registry.partialsFor page)) ∧
    (Markup.Untangled (registry.partialsFor page).find (registry.outerBody page).nodes ↔
      ∀ layout, resolveLayout page registry.layouts = some layout →
        ¬ (Leads registry.partials.partials.find layout.body.nodes contentName ∧
          Leads registry.partials.partials.find page.body.nodes contentName)) := by
  refine ⟨registry.compose_eq_render store globals page, ?_⟩
  cases hl : resolveLayout page registry.layouts with
  | some layout =>
    have houter : registry.outerBody page = layout.body := by rw [outerBody, hl]
    rw [houter, h.composed_iff hl]
    simp
  | none =>
    have houter : registry.outerBody page = page.body := by rw [outerBody, hl]
    have hpartials : registry.partialsFor page = registry.partials.partials := by
      rw [partialsFor, hl]
    rw [houter, hpartials]
    simp [h.ofPage]

end Registry

/-- A page in the layout `main`, with other files beside them. -/
def siteInMain (layout page : String) (others : List (String × String)) : Store .process :=
  .ofTexts ([("src/layouts/main.mustache", layout), ("src/pages/index.mustache", page),
    ("src/pages/index.json", "\x7b\"render\":\x7b\"layout\":\"main\"\x7d\x7d")] ++ others)

/-- The layout comes to the page by way of the partial `nav`, and the page to another partial. -/
def siteAround : Store .process :=
  siteInMain "\x7b\x7b> nav\x7d\x7d" "\x7b\x7b> logo\x7d\x7d"
    [("src/partials/nav.mustache", "\x7b\x7b> content\x7d\x7d"),
      ("src/partials/logo.mustache", "L")]

theorem Registry.injection_untangled_nav : ∃ registry page layout,
    (Registry.discover siteAround "src" ⟨["mustache"]⟩).outcome = .ok registry ∧
    page ∈ registry.pages.templates ∧ registry.Untangled page ∧
    resolveLayout page registry.layouts = some layout ∧
    Leads registry.partials.partials.find layout.body.nodes contentName ∧
    Markup.Untangled (registry.partialsFor page).find (registry.outerBody page).nodes := by
  obtain ⟨registry, hr, ht⟩ : ∃ registry,
      (Registry.discover siteAround "src" ⟨["mustache"]⟩).outcome = .ok registry ∧
      decide ((∀ template ∈ registry.partials.templates,
          ∀ inner ∈ Node.inclusions template.body.nodes, inner ≠ "nav" ∧ template.name = "nav") ∧
        contentName ∈ Node.inclusions (registry.partials.partials.find "nav") ∧
        ∃ page ∈ registry.pages.templates,
          (resolveLayout page registry.layouts).any
            (fun layout => "nav" ∈ Node.inclusions layout.body.nodes) = true ∧
          ∀ name ∈ Node.inclusions page.body.nodes, name ≠ contentName ∧
            Node.inclusions (registry.partials.partials.find name) = []) = true :=
    exists_ok (by decide +kernel)
  obtain ⟨hrank, hnav, page, hm, hlayout, hpage⟩ := of_decide_eq_true ht
  obtain ⟨layout, hl, hn⟩ := (Option.any_eq_true _ _).mp hlayout
  have huntangled : registry.Untangled page := by
    refine untangled_of_rank (fun name => if name = "nav" then 1 else 0) ?_
    intro template ht inner hi
    obtain ⟨hne, he⟩ := hrank template ht inner hi
    simp [hne, he]
  have hleads : ∀ name, Leads registry.partials.partials.find page.body.nodes name →
      name ∈ Node.inclusions page.body.nodes := by
    intro name hleads
    induction hleads with
    | here hm => exact hm
    | next _ hi ih =>
      rw [(hpage _ ih).2] at hi
      cases hi
  have hiff := (injection_untangled_iff huntangled siteAround []).2
  refine ⟨registry, page, layout, hr, hm, huntangled, hl,
    .next (.here (of_decide_eq_true hn)) hnav, hiff.mpr fun _ _ hboth => ?_⟩
  exact (hpage contentName (hleads contentName hboth.2)).1 rfl

/-- The page has a tag `content`, and so has the layout. The data of the layout stop it the second
time. -/
def siteInCircle : Store .process :=
  siteInMain "\x7b\x7b> content\x7d\x7d"
    "x\x7b\x7b#a\x7d\x7d\x7b\x7b> content\x7d\x7d\x7b\x7b/a\x7d\x7d"
    [("src/layouts/main.json", "\x7b\"a\":\x7b\"a\":false\x7d\x7d")]

/-- A check has it that the tag in the page writes nothing, and a plan has the page twice. Without
an end in the data the rendering has none. -/
theorem Registry.injection_not_untangled : ∃ registry page,
    (Registry.discover siteInCircle "src" ⟨["mustache"]⟩).outcome = .ok registry ∧
    page ∈ registry.pages.templates ∧ registry.Untangled page ∧
    ¬ Markup.Untangled (registry.partialsFor page).find (registry.outerBody page).nodes ∧
    (checkSite siteInCircle {}).outcome = .ok ⟨1, 0, 1,
      ["page 'index' references missing partial 'content'; it renders empty"], []⟩ ∧
    (planBuild siteInCircle [] {}).outcome
      = .ok ⟨"dist", 1, 0, [⟨"index", "index.html", some "main", "xx"⟩], []⟩ ∧
    (planBuild (siteInMain "\x7b\x7b> content\x7d\x7d" "\x7b\x7b> content\x7d\x7d" []) []
      {}).outcome = .error .endless := by
  obtain ⟨registry, hr, ht⟩ : ∃ registry,
      (Registry.discover siteInCircle "src" ⟨["mustache"]⟩).outcome = .ok registry ∧
      decide (registry.partials.templates.length = 0 ∧ ∃ page ∈ registry.pages.templates,
        (resolveLayout page registry.layouts).any
          (fun layout => contentName ∈ Node.inclusions layout.body.nodes) = true ∧
        contentName ∈ Node.inclusions page.body.nodes) = true :=
    exists_ok (by decide +kernel)
  obtain ⟨hnone, page, hm, hlayout, hpage⟩ := of_decide_eq_true ht
  obtain ⟨layout, hl, hn⟩ := (Option.any_eq_true _ _).mp hlayout
  have huntangled : registry.Untangled page := untangled_of_rank (fun _ => 0) fun template ht => by
    rw [List.eq_nil_of_length_eq_zero hnone] at ht
    cases ht
  refine ⟨registry, page, hr, hm, huntangled, fun hu => ?_, eq_ok_of_toOption (by decide +kernel),
    eq_ok_of_toOption (by decide +kernel), eq_error_of_faultOf? (by decide +kernel)⟩
  have houter : registry.outerBody page = layout.body := by rw [outerBody, hl]
  rw [houter] at hu
  exact (huntangled.composed_iff hl).mp hu ⟨.here (of_decide_eq_true hn), .here hpage⟩

end Folio
