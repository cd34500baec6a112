import Folio.Proofs.Site.PagePaths
import Folio.Proofs.Template.Finding
import Folio.Proofs.Template.Layout
/-!
# Missing partials

A check warns of references to partials that are not there. What a page is rendered from holds no
partial of such a name, except that inside a layout `content` is the page, for the partials of the
layout too. Where it holds none, a tag writes nothing unless the file it looks up is that of a partial
with another name.
-/

namespace Folio

variable {host : Host}

open Files Markup

/-! ## References in vain -/

namespace Collection

theorem get?_partials_eq_none {collection : Collection} {name : String} (hn : name ≠ "")
    (h : collection.lookup name = none) : collection.partials.get? name = none := by
  rw [Option.eq_none_iff_forall_ne_some]
  intro body hg
  obtain ⟨template, ht, hname, -⟩ := exists_template_of_get? hg
  rw [lookup, if_neg (by simpa using hn), find?] at h
  exact absurd (List.find?_eq_none.mp h template ht) (by simpa using hname)

end Collection

/-- A template of a registry references a partial that is not there, and a check warns of it. -/
structure Missed (registry : Registry) (kind : String) (template : Template) (reference : String) :
    Prop where
  among : kind = "layout" ∧ template ∈ registry.layouts.templates ∧ reference ≠ contentName ∨
    kind = "partial" ∧ template ∈ registry.partials.templates ∨
    kind = "page" ∧ template ∈ registry.pages.templates
  references : reference ∈ template.body.references
  absent : registry.partials.lookup reference = none

theorem Missed.ne_empty {registry : Registry} {kind : String} {template : Template}
    {reference : String} (h : Missed registry kind template reference) : reference ≠ "" :=
  (stands_of_mem_references template.body.source reference h.references).ne_empty

def missedLine (kind : String) (template : Template) (reference : String) : String :=
  kind ++ " '" ++ template.name ++ "' references missing partial '" ++ reference
    ++ "'; it renders empty"

theorem mem_missingPartials {kind line : String} {bound : List String}
    {partials templates : Collection} :
    line ∈ missingPartials kind bound partials templates ↔
      ∃ template ∈ templates.templates, ∃ reference ∈ template.body.references,
        reference ∉ bound ∧ partials.lookup reference = none ∧
        line = missedLine kind template reference := by
  simp only [missingPartials, List.mem_flatMap, List.mem_map, List.mem_filter, Bool.and_eq_true,
    Bool.not_eq_true', List.contains_eq_mem, decide_eq_false_iff_not, Option.isNone_iff_eq_none]
  constructor
  · rintro ⟨template, ht, reference, ⟨hr, hb, hp⟩, rfl⟩
    exact ⟨template, ht, reference, hr, hb, hp, rfl⟩
  · rintro ⟨template, ht, reference, hr, hb, hp, rfl⟩
    exact ⟨template, ht, reference, ⟨hr, hb, hp⟩, rfl⟩

theorem relationWarnings_eq (layouts partials pages : Collection) :
    ∃ others, relationWarnings layouts partials pages = others
      ++ (missingPartials "layout" [contentName] partials layouts
        ++ missingPartials "partial" [] partials partials
        ++ missingPartials "page" [] partials pages) := by
  have hregroup (before layouts partials pages : List String) :
      before ++ layouts ++ partials ++ pages = before ++ (layouts ++ partials ++ pages) := by
    simp only [List.append_assoc]
  exact ⟨_, hregroup ..⟩

/-- The last warnings of a check are those of references in vain. -/
theorem checkSite_of_discover {store : Store host} {options : BuildOptions} {registry : Registry}
    (hv : options.error? host = none)
    (hr : (Registry.discover store options.src ⟨options.types⟩).outcome = .ok registry) :
    ∃ result others missing, (checkSite store options).outcome = .ok result ∧
      result.warnings = others ++ missing ∧
      ∀ line, line ∈ missing ↔ ∃ kind template reference,
        Missed registry kind template reference ∧ line = missedLine kind template reference := by
  obtain ⟨hl, hq, hg⟩ := Registry.discover_eq_ok.mp hr
  have hlc := (Survey.ofFolder_of_populate hl).1
  have hqc := (Survey.ofFolder_of_populate hq).1
  have hgc := (Survey.ofFolder_of_populate hg).1
  obtain ⟨others, ho⟩ := relationWarnings_eq registry.layouts registry.partials registry.pages
  simp only [checkSite, BuildOptions.matcher_eq, hv, Except.mapError, Logged.outcome_bind,
    Logged.outcome_lift, Logged.outcome_tell, Logged.outcome_pure, ok_bind, hlc, hqc, hgc, ho]
  refine ⟨_, _, _, rfl, (List.append_assoc ..).symm, fun line => ?_⟩
  simp only [List.mem_append, mem_missingPartials, List.mem_singleton, List.not_mem_nil,
    not_false_eq_true, true_and]
  constructor
  · rintro ((⟨template, ht, reference, hm, hc, hn, rfl⟩ | ⟨template, ht, reference, hm, hn, rfl⟩) |
      ⟨template, ht, reference, hm, hn, rfl⟩)
    · exact ⟨_, _, _, ⟨.inl ⟨rfl, ht, hc⟩, hm, hn⟩, rfl⟩
    · exact ⟨_, _, _, ⟨.inr (.inl ⟨rfl, ht⟩), hm, hn⟩, rfl⟩
    · exact ⟨_, _, _, ⟨.inr (.inr ⟨rfl, ht⟩), hm, hn⟩, rfl⟩
  · rintro ⟨_, template, reference, ⟨⟨rfl, ht, hc⟩ | ⟨rfl, ht⟩ | ⟨rfl, ht⟩, hm, hn⟩, rfl⟩
    · exact .inl (.inl ⟨template, ht, reference, hm, hc, hn, rfl⟩)
    · exact .inl (.inr ⟨template, ht, reference, hm, hn, rfl⟩)
    · exact .inr ⟨template, ht, reference, hm, hn, rfl⟩

/-! ## What a page is rendered from -/

namespace Registry

variable {registry : Registry} {page : Template}

/-- The body that a page is rendered as: that of its layout, or its own. -/
def outerBody (registry : Registry) (page : Template) : Body :=
  match resolveLayout page registry.layouts with
  | some layout => layout.body
  | none => page.body

def partialsFor (registry : Registry) (page : Template) : Partials :=
  match resolveLayout page registry.layouts with
  | some _ => registry.partials.partials.insert contentName page.body
  | none => registry.partials.partials

def contextFor (registry : Registry) (globals : Fields) (page : Template) : Fields :=
  buildContext globals ((resolveLayout page registry.layouts).getD page).data

theorem compose_eq (store : Store host) (registry : Registry) (globals : Fields) (page : Template) :
    compose store page registry.layouts registry.partials globals
      = (registry.outerBody page).render store ((resolveLayout page registry.layouts).getD page).name
          (registry.contextFor globals page) (registry.partialsFor page) := by
  rw [compose, outerBody, partialsFor, contextFor]
  cases resolveLayout page registry.layouts <;> rfl

theorem compose_eq_render (store : Store host) (registry : Registry) (globals : Fields)
    (page : Template) :
    ∃ name, compose store page registry.layouts registry.partials globals
      = (registry.outerBody page).render store name (registry.contextFor globals page)
          (registry.partialsFor page) :=
  ⟨_, registry.compose_eq store globals page⟩

theorem render_of_compose {store : Store host} {globals : Fields} {text : String}
    (h : compose store page registry.layouts registry.partials globals = .ok text) :
    ∃ name context, (registry.outerBody page).render store name context (registry.partialsFor page)
      = .ok text := by
  obtain ⟨name, hc⟩ := registry.compose_eq_render store globals page
  exact ⟨name, registry.contextFor globals page, hc ▸ h⟩

theorem get?_partialsFor {name : String} (hn : name ≠ "")
    (h : registry.partials.lookup name = none) (page : Template) :
    (registry.partialsFor page).get? name = none ↔
      (name = contentName → resolveLayout page registry.layouts = none) := by
  have hg := Collection.get?_partials_eq_none hn h
  rw [partialsFor]
  cases hl : resolveLayout page registry.layouts with
  | some layout =>
    dsimp only
    rw [Index.get?_insert, hg]
    by_cases hc : name = contentName <;> simp [hc]
  | none => simp [hg]

theorem exists_template_of_partialsFor {name : String} {body : Body} (hn : name ≠ contentName)
    (h : (registry.partialsFor page).get? name = some body) :
    ∃ template ∈ registry.partials.templates, template.name = name ∧ template.body = body := by
  refine Collection.exists_template_of_get? ?_
  rw [partialsFor] at h
  split at h
  · rwa [Index.get?_insert, if_neg hn] at h
  · exact h

variable {store : Store host} {src : String} {matcher : Matcher}

theorem compiled_partialsFor (hr : (discover store src matcher).outcome = .ok registry)
    (hm : page ∈ registry.pages.templates) : (registry.partialsFor page).Compiled store := by
  obtain ⟨-, hp, hg⟩ := discover_eq_ok.mp hr
  rw [partialsFor]
  split
  · intro name body hbody
    rw [Index.get?_insert] at hbody
    split at hbody
    · cases hbody
      exact Collection.compile_of_populate hg page hm
    · exact Collection.compiled_of_populate hp name body hbody
  · exact Collection.compiled_of_populate hp

theorem compile_outerBody (hr : (discover store src matcher).outcome = .ok registry)
    (hm : page ∈ registry.pages.templates) :
    Body.compile store (registry.outerBody page).source = .ok (registry.outerBody page) := by
  obtain ⟨hl, -, hg⟩ := discover_eq_ok.mp hr
  rw [outerBody]
  split
  · rename_i layout hlayout
    obtain ⟨asked, -, hfound⟩ := Option.bind_eq_some_iff.mp hlayout
    rw [Collection.lookup] at hfound
    split at hfound
    · cases hfound
    · exact Collection.compile_of_populate hl layout (List.mem_of_find?_eq_some hfound)
  · exact Collection.compile_of_populate hg page hm

end Registry

/-! ## What a tag writes -/

namespace Markup.Linked

/-- A tree that a rendering comes to: the outermost one, or what a chain of partial tags leads to. -/
def ComesTo (linked : Linked) (nodes : List Node) : Prop :=
  linked.nodes = nodes ∨ ∃ name, Leads linked.find linked.nodes name ∧ linked.find name = nodes

theorem ComesTo.leads {linked : Linked} {nodes : List Node} (h : linked.ComesTo nodes)
    {name : String} (hm : name ∈ Node.inclusions nodes) : Leads linked.find linked.nodes name := by
  obtain rfl | ⟨outer, hl, rfl⟩ := h
  · exact .here hm
  · exact .next hl hm

end Markup.Linked

theorem Stage.load_of_compile {stage : Stage host} {source : String} {linked : Linked}
    (h : stage.compile source = .ok linked) {name : String}
    (hl : Leads linked.find linked.nodes name) : stage.load name = .ok (linked.find name) := by
  refine (compile_ok h).2 name ?_
  induction hl with
  | here hm => exact .here hm
  | next _ hi ih =>
    rw [← find_of_load ((compile_ok h).2 _ ih)] at hi
    exact .next ih hi

/-- The tree of the file of the store that a name leads to outside of the stage. -/
def strayTree? (store : Store host) (name : String) : Option (List Node) :=
  let location := Route.location host.staging (Partials.lookupPath name)
  if host.stageFolder <+: location then none
  else match store.get? location with
    | some (.file content) => do
      let source ← String.fromUTF8? content
      (Node.ofSource source.toList).toOption
    | _ => none

/-- What is loaded for a name is a partial that is staged where the name leads to, or a file outside
of the stage, or there is nothing. -/
theorem Stage.load_eq_ok {store : Store host} {partials : Partials} {stage : Stage host}
    {name : String} {nodes : List Node}
    (hp : partials.Compiled store) (hs : partials.stage store = .ok stage)
    (h : stage.load name = .ok nodes) :
    nodes = [] ∨ strayTree? store name = some nodes ∨
      ∃ other found, partials.get? other = some found ∧
        Partials.stagedAt? host other
          = some (Route.location host.staging (Partials.lookupPath name)) ∧
        nodes = found.nodes := by
  rw [Stage.load] at h
  split at h
  · rename_i source hr
    right
    obtain ⟨location, content, hlocate, hfile, htext⟩ := Store.readText_eq_ok.mp hr
    have hl : location = Route.location host.staging (Partials.lookupPath name) :=
      Store.location_of_locate hlocate
    subst hl
    cases ho : Node.ofSource source.toList with
    | error fault =>
      rw [ho] at h
      cases h
    | ok tree =>
      rw [ho] at h
      obtain rfl : tree = nodes := Except.ok.inj h
      rcases Partials.file_of_stage hs hfile with ⟨other, found, hg, hat, rfl⟩ | ⟨hout, hfile⟩
      · rw [Store.fromUTF8?_toUTF8] at htext
        obtain rfl := Option.some.inj htext
        rw [(Body.compile_eq_ok (hp other found hg)).2.1] at ho
        exact .inr ⟨other, found, hg, hat, (Except.ok.inj ho).symm⟩
      · left
        simp only [strayTree?, if_neg hout, hfile, htext, ho, Option.bind_eq_bind, Option.bind_some,
          Except.toOption]
  · exact .inl (Except.ok.inj h).symm
  · cases h

namespace Body

variable {store : Store host} {body : Body} {partials : Partials} {linked : Linked}

/-- A tag finds nothing, or a file outside of the stage, or a partial that is staged where the tag
looks. -/
theorem find_of_linked? (hb : compile store body.source = .ok body) (hp : partials.Compiled store)
    (h : body.linked? store partials = some linked) {name : String}
    (hl : Leads linked.find linked.nodes name) :
    linked.find name = [] ∨ strayTree? store name = some (linked.find name) ∨
      ∃ other found, partials.get? other = some found ∧
        Partials.stagedAt? host other
          = some (Route.location host.staging (Partials.lookupPath name)) ∧
        linked.find name = found.nodes := by
  obtain ⟨staged, stage, hsub, hs, hc⟩ := linked?_eq_some hb h
  have hcompiled : staged.Compiled store := fun other found hg => hp other found (hsub other found hg)
  have hload := Stage.load_eq_ok hcompiled hs (Stage.load_of_compile hc hl)
  refine hload.imp_right (Or.imp_right ?_)
  rintro ⟨other, found, hg, hat, he⟩
  exact ⟨other, found, hsub other found hg, hat, he⟩

theorem find_of_stagedLast (hp : partials.Compiled store)
    (h : body.linked? store partials = some linked) (hr : body.references ≠ []) {name : String}
    {found : Body} (hg : partials.get? name = some found)
    (hlast : partials.StagedLast host name) (hl : Leads linked.find linked.nodes name) :
    linked.find name = found.nodes := by
  have hentries : partials.entries ≠ [] :=
    List.ne_nil_of_mem (Index.get?_eq_some_iff.mp hg)
  rw [linked?, if_neg (by simp [Index.isEmpty, hentries, hr])] at h
  obtain ⟨stage, hs, hc⟩ := Option.bind_eq_some_iff.mp h
  have hload := Stage.load_of_compile (eq_ok_of_toOption hc) hl
  rw [Stage.load, Partials.readText_of_stagedLast (eq_ok_of_toOption hs) hg hlast] at hload
  dsimp only at hload
  rw [(compile_eq_ok (hp name found hg)).2.1] at hload
  exact (Except.ok.inj hload).symm

theorem strayTree?_of_plain (store : Store host) {name : String} (hn : Partials.Plain name) :
    strayTree? store name = none := by
  rw [strayTree?]
  exact if_pos hn.looksInside

/-- Among plain names, a tag finds nothing for a name without a partial. -/
theorem find_eq_nil_of_plain (hb : compile store body.source = .ok body) (hp : partials.Compiled store)
    (h : body.linked? store partials = some linked) {name : String}
    (hl : Leads linked.find linked.nodes name) (hg : partials.get? name = none)
    (hn : Partials.Plain name) (hk : ∀ key ∈ partials.keys, Partials.Plain key) :
    linked.find name = [] := by
  rcases find_of_linked? hb hp h hl with hnil | hstray | ⟨other, found, hother, hat, -⟩
  · exact hnil
  · rw [strayTree?_of_plain store hn] at hstray
    cases hstray
  · have hplain : Partials.Plain other :=
      hk other (List.mem_map_of_mem (Index.get?_eq_some_iff.mp hother))
    obtain ⟨before, last, hparts⟩ := hplain.parts
    rw [Partials.stagedAt?, hparts.stagePath?_eq] at hat
    have hsame := hplain.location_injective hn (Option.some.inj hat)
    rw [← hsame, hother] at hg
    cases hg

end Body

/-! ## Whether the warnings are true -/

/-- A planned page is what a page of a registry is rendered to, by way of a tree. -/
structure PlannedPage.RenderedFrom (store : Store host) (planned : PlannedPage) (registry : Registry)
    (page : Template) (linked : Linked) : Prop where
  among : page ∈ registry.pages.templates
  name : planned.name = page.name
  path : planned.path = page.outputPath
  rendered : ∃ name context,
    (registry.outerBody page).render store name context (registry.partialsFor page)
      = .ok planned.content ∧
    Body.renderLinked linked context = .ok planned.content
  links : (registry.outerBody page).linked? store (registry.partialsFor page) = some linked
  nodes : linked.nodes = (registry.outerBody page).nodes

theorem exists_renderedFrom {store : Store host} {globals : Fields} {options : BuildOptions}
    {registry : Registry} {plan : BuildPlan}
    (h : (planBuild store globals options).outcome = .ok plan)
    (hr : (Registry.discover store options.src ⟨options.types⟩).outcome = .ok registry) :
    ∀ planned ∈ plan.pages, ∃ page linked, planned.RenderedFrom store registry page linked := by
  obtain ⟨-, found, pages, hfound, -, hpages, rfl⟩ := planBuild_eq_ok h
  have hsame : found = registry := Except.ok.inj (hfound.symm.trans hr)
  subst hsame
  intro planned hm
  have houtcome : .ok planned ∈ found.pages.templates.map fun template =>
      (planPage store found globals template).outcome := by
    rw [outcomes_of_planPages hpages]
    exact List.mem_map_of_mem hm
  obtain ⟨page, hmem, hp⟩ := List.mem_map.mp houtcome
  obtain ⟨hname, hpath, hc⟩ := planPage_eq_ok hp
  obtain ⟨name, context, hrender⟩ := Registry.render_of_compose hc
  obtain ⟨linked, hl, hlinked⟩ := Body.linked?_of_render hrender
  exact ⟨page, linked, hmem, hname, hpath, ⟨name, context, hrender, hlinked⟩, hl,
    Body.nodes_of_linked? (Registry.compile_outerBody hr hmem) hl⟩

theorem PlannedPage.RenderedFrom.comesTo {store : Store host} {planned : PlannedPage}
    {registry : Registry}
    {page : Template} {linked : Linked} (h : planned.RenderedFrom store registry page linked)
    (hp : (registry.partialsFor page).Compiled store) {name : String} {found : Body}
    (hr : (registry.outerBody page).references ≠ [])
    (hi : name ∈ Node.inclusions (registry.outerBody page).nodes)
    (hg : (registry.partialsFor page).get? name = some found)
    (hs : (registry.partialsFor page).StagedLast host name) :
    linked.ComesTo found.nodes := by
  have hl : Leads linked.find linked.nodes name := .here (h.nodes ▸ hi)
  exact .inr ⟨name, hl, Body.find_of_stagedLast hp h.links hr hg hs hl⟩

/-- The warnings of a check that a template references a missing partial, held against each page of
a plan. Of that name there is no partial for the page, unless the name is `content` and the page is
in a layout. Where the page comes to a tag of the template with that name, the tag writes nothing
just if nothing is written by any partial of the page that is staged where the tag looks and found
there, nor by a file of the site that the name leads to outside of the stage. It writes nothing if
there is no partial of that name and all names are plain. -/
theorem missed_iff_of_planBuild {store : Store host} {globals : Fields} {options : BuildOptions}
    {registry : Registry} {plan : BuildPlan}
    (h : (planBuild store globals options).outcome = .ok plan)
    (hr : (Registry.discover store options.src ⟨options.types⟩).outcome = .ok registry) :
    (∃ result others missing, (checkSite store options).outcome = .ok result ∧
      result.warnings = others ++ missing ∧
      ∀ line, line ∈ missing ↔ ∃ kind template reference,
        Missed registry kind template reference ∧ line = missedLine kind template reference) ∧
    ∀ planned ∈ plan.pages, ∃ page linked, planned.RenderedFrom store registry page linked ∧
      ∀ kind template reference, Missed registry kind template reference →
        ((registry.partialsFor page).get? reference = none ↔
          (reference = contentName → resolveLayout page registry.layouts = none)) ∧
        (linked.ComesTo template.body.nodes → reference ∈ Node.inclusions template.body.nodes →
          (∀ depth indent scope sheet,
            renderPartial linked.find (depth + 1) reference indent scope sheet = .ok sheet ↔
              (∀ other found, (registry.partialsFor page).get? other = some found →
                Partials.stagedAt? host other
                  = some (Route.location host.staging (Partials.lookupPath reference)) →
                linked.find reference = found.nodes →
                renderNodes (renderPartial linked.find depth) indent found.nodes scope sheet
                  = .ok sheet) ∧
              ∀ nodes, strayTree? store reference = some nodes → linked.find reference = nodes →
                renderNodes (renderPartial linked.find depth) indent nodes scope sheet
                  = .ok sheet) ∧
          ((registry.partialsFor page).get? reference = none → Partials.Plain reference →
            (∀ key ∈ (registry.partialsFor page).keys, Partials.Plain key) →
            ∀ depth indent scope sheet,
              renderPartial linked.find (depth + 1) reference indent scope sheet = .ok sheet)) := by
  obtain ⟨hv, -⟩ := planBuild_eq_ok h
  refine ⟨checkSite_of_discover hv hr, fun planned hm => ?_⟩
  obtain ⟨page, linked, hfrom⟩ := exists_renderedFrom h hr planned hm
  have hcompiled := Registry.compiled_partialsFor hr hfrom.among
  refine ⟨page, linked, hfrom, fun kind template reference hmissed => ⟨?_, fun hc hi => ?_⟩⟩
  · exact Registry.get?_partialsFor hmissed.ne_empty hmissed.absent page
  have hl := hc.leads hi
  have hbody := Registry.compile_outerBody hr hfrom.among
  refine ⟨fun depth indent scope sheet => ?_, fun hg hn hk depth indent scope sheet => ?_⟩
  · rw [renderPartial]
    constructor
    · intro h
      constructor
      · intro other found _ _ hf
        rwa [← hf]
      · intro nodes _ hf
        rwa [← hf]
    · rintro ⟨hstaged, hstray⟩
      rcases Body.find_of_linked? hbody hcompiled hfrom.links hl with
        hnil | hout | ⟨other, found, hg, hat, hf⟩
      · rw [hnil, renderNodes]
      · exact hstray _ hout rfl
      · rw [hf]
        exact hstaged other found hg hat hf
  · rw [renderPartial, Body.find_eq_nil_of_plain hbody hcompiled hfrom.links hl hg hn hk, renderNodes]

/-- A page in a layout that is a tag for the partial `nav`, which is a tag for another name. -/
def siteWithNav (reference : String) : Store .process :=
  .ofTexts [("src/layouts/main.mustache", "\x7b\x7b> nav\x7d\x7d"),
    ("src/partials/nav.mustache", "\x7b\x7b> " ++ reference ++ "\x7d\x7d"),
    ("src/pages/index.mustache", "hi"),
    ("src/pages/index.json", "\x7b\"render\":\x7b\"layout\":\"main\"\x7d\x7d")]

/-- All pages are in a layout that includes `nav`, and partials include a name that is missing. -/
structure NavMisses (registry : Registry) (reference : String) : Prop where
  absent : registry.partials.lookup reference = none
  partials : ∀ template ∈ registry.partials.templates,
    reference ∈ template.body.references ∧ reference ∈ Node.inclusions template.body.nodes
  pages : ∀ page ∈ registry.pages.templates,
    (resolveLayout page registry.layouts).isSome = true ∧
    (registry.outerBody page).references ≠ [] ∧
    "nav" ∈ Node.inclusions (registry.outerBody page).nodes ∧
    ((registry.partialsFor page).get? "nav").isSome = true ∧
    (registry.partialsFor page).StagedLast .process "nav" ∧
    ∀ key ∈ (registry.partialsFor page).keys, Partials.Plain key

instance (registry : Registry) (reference : String) : Decidable (NavMisses registry reference) :=
  decidable_of_iff ((registry.partials.lookup reference).isNone = true ∧ _ ∧ _)
    ⟨fun h => ⟨Option.isNone_iff_eq_none.mp h.1, h.2.1, h.2.2⟩,
      fun h => ⟨Option.isNone_iff_eq_none.mpr h.absent, h.partials, h.pages⟩⟩

theorem NavMisses.missed {registry : Registry} {reference : String}
    (h : NavMisses registry reference) {store : Store .process} {planned : PlannedPage}
    {page : Template} {linked : Linked}
    (hfrom : planned.RenderedFrom store registry page linked)
    (hp : (registry.partialsFor page).Compiled store) :
    ∃ nav, nav.name = "nav" ∧ Missed registry "partial" nav reference ∧
      linked.ComesTo nav.body.nodes ∧ reference ∈ Node.inclusions nav.body.nodes := by
  obtain ⟨-, hr, hi, hsome, hs, -⟩ := h.pages page hfrom.among
  obtain ⟨found, hg⟩ := Option.isSome_iff_exists.mp hsome
  obtain ⟨nav, hnav, hname, rfl⟩ := Registry.exists_template_of_partialsFor (by decide) hg
  obtain ⟨href, hincl⟩ := h.partials nav hnav
  exact ⟨nav, hname, ⟨.inr (.inl ⟨rfl, hnav⟩), href, h.absent⟩, hfrom.comesTo hp hr hi hg hs, hincl⟩

theorem siteWithNav_logo :
    (Registry.discover (siteWithNav "logo") "src" ⟨["mustache"]⟩).outcome.toOption.any
        (fun registry => NavMisses registry "logo") = true ∧
    (planBuild (siteWithNav "logo") [] {}).outcome.toOption
      = some ⟨"dist", 1, 1, [⟨"index", "index.html", some "main", ""⟩], []⟩ := by
  decide +kernel

theorem missed_iff_of_planBuild_logo : ∃ registry plan planned page linked nav,
    (Registry.discover (siteWithNav "logo") "src" ⟨["mustache"]⟩).outcome = .ok registry ∧
    (planBuild (siteWithNav "logo") [] {}).outcome = .ok plan ∧ planned ∈ plan.pages ∧
    planned.RenderedFrom (siteWithNav "logo") registry page linked ∧
    Missed registry "partial" nav "logo" ∧
    linked.ComesTo nav.body.nodes ∧
    (registry.partialsFor page).get? "logo" = none ∧
    ∀ depth indent scope sheet,
      renderPartial linked.find (depth + 1) "logo" indent scope sheet = .ok sheet := by
  obtain ⟨hfound, hplanned⟩ := siteWithNav_logo
  obtain ⟨registry, hr, ht⟩ := exists_ok hfound
  have hmisses := of_decide_eq_true ht
  have hplan := eq_ok_of_toOption hplanned
  obtain ⟨-, hpages⟩ := missed_iff_of_planBuild hplan hr
  obtain ⟨page, linked, hfrom, hall⟩ := hpages _ List.mem_cons_self
  have hp := (Registry.compiled_partialsFor hr hfrom.among)
  obtain ⟨nav, -, hmissed, hcomes, hincl⟩ := hmisses.missed hfrom hp
  obtain ⟨-, -, -, -, -, hplain⟩ := hmisses.pages page hfrom.among
  obtain ⟨hiff, htag⟩ := hall "partial" nav "logo" hmissed
  have hnone := hiff.mpr (fun hc => absurd hc (by decide))
  exact ⟨registry, _, _, page, linked, nav, hr, hplan, List.mem_cons_self, hfrom, hmissed, hcomes,
    hnone, (htag hcomes hincl).2 hnone (by decide +kernel) hplain⟩

theorem siteWithNav_content :
    (Registry.discover (siteWithNav "content") "src" ⟨["mustache"]⟩).outcome.toOption.any
        (fun registry => NavMisses registry "content") = true ∧
    (checkSite (siteWithNav "content") {}).outcome.toOption = some ⟨1, 1, 1,
      ["partial 'nav' references missing partial 'content'; it renders empty"], []⟩ ∧
    (planBuild (siteWithNav "content") [] {}).outcome.toOption
      = some ⟨"dist", 1, 1, [⟨"index", "index.html", some "main", "hi"⟩], []⟩ := by
  decide +kernel

/-- The partial `content` is missing, and its tag in `nav` writes the page. -/
theorem missed_content : ∃ registry page linked nav,
    (Registry.discover (siteWithNav "content") "src" ⟨["mustache"]⟩).outcome = .ok registry ∧
    (checkSite (siteWithNav "content") {}).outcome = .ok ⟨1, 1, 1,
      ["partial 'nav' references missing partial 'content'; it renders empty"], []⟩ ∧
    (planBuild (siteWithNav "content") [] {}).outcome
      = .ok ⟨"dist", 1, 1, [⟨"index", "index.html", some "main", "hi"⟩], []⟩ ∧
    PlannedPage.RenderedFrom (siteWithNav "content") ⟨"index", "index.html", some "main", "hi"⟩
        registry page linked ∧
    nav.name = "nav" ∧ Missed registry "partial" nav "content" ∧ linked.ComesTo nav.body.nodes ∧
    (registry.partialsFor page).get? "content" ≠ none := by
  obtain ⟨hfound, hchecked, hplanned⟩ := siteWithNav_content
  obtain ⟨registry, hr, ht⟩ := exists_ok hfound
  have hmisses := of_decide_eq_true ht
  have hplan := eq_ok_of_toOption hplanned
  obtain ⟨page, linked, hfrom⟩ := exists_renderedFrom hplan hr _ List.mem_cons_self
  obtain ⟨nav, hname, hmissed, hcomes, -⟩ :=
    hmisses.missed hfrom (Registry.compiled_partialsFor hr hfrom.among)
  obtain ⟨hlayout, -⟩ := hmisses.pages page hfrom.among
  refine ⟨registry, page, linked, nav, hr, eq_ok_of_toOption hchecked, hplan, hfrom,
    hname, hmissed, hcomes, fun hnone => ?_⟩
  have hno := (Registry.get?_partialsFor hmissed.ne_empty hmissed.absent page).mp hnone rfl
  rw [hno] at hlayout
  cases hlayout

end Folio
