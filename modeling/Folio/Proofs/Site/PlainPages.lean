import Folio.Proofs.Markup.Appending
import Folio.Proofs.Site.Agreement
import Folio.Proofs.Site.Collecting
import Folio.Proofs.Template.Shortcut
import Folio.Site.Plan
/-!
# Pages without tags

A source in which no tag opens is compiled to its own text, references nothing and is rendered as it
is, whatever the context and whatever partials there are. So the file of a page without tags is what
is planned for it, unless a layout is put around it.
-/

namespace Folio

variable {host : Host}

open Markup

namespace Markup

theorem references_of_unopened {source : String} (h : Unopened source.toList) :
    references source = [] := by
  rw [references, findReferences]
  split
  · rfl
  · rename_i before tag hcut
    refine absurd ?_ h
    rw [← Text.append_of_cutAt? hcut]
    exact ⟨before, '>' :: tag, by simp⟩

theorem Node.ofSource_of_unopened {text : List Char} (h : Unopened text) :
    Node.ofSource text = .ok (Node.ofText text) := by
  have hbuild := build_ofText [] [] text [] .clean
  rw [List.append_nil, List.append_nil] at hbuild
  have hclose : build [] (ofText text) false [] .clean = .ok (ofText text).reverse := rfl
  rw [ofSource, Lexeme.ofSource_of_unopened h]
  dsimp only
  rw [hbuild, hclose, reverse_ofText]

theorem render_ofText (find : String → List Node) (depth : Nat) (text : List Char)
    (context : Fields) :
    render find depth (Node.ofText text) context = .ok (String.ofList text) := by
  obtain ⟨sheet, hs, ht⟩ := renderNodes_ofText (renderPartial find depth) text [.object context] {}
  rw [render, hs]
  exact congrArg Except.ok (ht.trans String.empty_append)

end Markup

namespace Body

def ofPlain (source : String) : Body where
  source
  nodes := Node.ofText source.toList

variable {source : String}

theorem compile_of_unopened (store : Files.Store host) (h : Unopened source.toList) :
    compile store source = .ok (ofPlain source) := by
  rw [compile, compile_of_inclusions_nil _ (Node.ofSource_of_unopened h) (Node.inclusions_ofText _)]
  rfl

theorem references_ofPlain (h : Unopened source.toList) : (ofPlain source).references = [] :=
  references_of_unopened h

theorem render_ofPlain (store : Files.Store host) (h : Unopened source.toList) (name : String)
    (context : Fields) (partials : Partials) :
    (ofPlain source).render store name context partials = .ok source := by
  rw [render_of_references_nil (references_ofPlain h), renderLinked, Linked.render, linked, ofPlain,
    render_ofText, String.ofList_toList]

end Body

theorem Template.readText_of_load {store : Files.Store host} {file : TemplateFile} {template : Template}
    (h : (load store file).outcome = .ok template) :
    store.readText template.path = .ok template.body.source := by
  rw [outcome_load] at h
  split at h
  · cases h
  · rename_i source hs
    split at h
    · cases h
    · rename_i body hc
      obtain ⟨data, -, h⟩ := bind_eq_ok.mp h
      cases h
      rw [hs, (Body.compile_eq_ok hc).1]

theorem Collection.readText_of_populate {store : Files.Store host} {folder : String} {matcher : Matcher}
    {collection : Collection} (h : (populate store folder matcher).outcome = .ok collection) :
    ∀ template ∈ collection.templates, store.readText template.path = .ok template.body.source :=
  forall_addAll (fun template => store.readText template.path = .ok template.body.source)
    (fun _ _ _ _ _ hl => Template.readText_of_load hl) (List.forall_mem_nil _)
    (populate_eq_ok.mp h)

variable {store : Files.Store host} {globals : Fields} {options : BuildOptions} {registry : Registry}
  {page : Template}

theorem planPage_of_unopened (hb : Body.compile store page.body.source = .ok page.body)
    (hu : Unopened page.body.source.toList) (hl : resolveLayout page registry.layouts = none) :
    (planPage store registry globals page).outcome
      = .ok ⟨page.name, page.outputPath, none, page.body.source⟩ := by
  have hbody : page.body = .ofPlain page.body.source :=
    Except.ok.inj (hb.symm.trans (Body.compile_of_unopened store hu))
  have hcompose : compose store page registry.layouts registry.partials globals
      = .ok page.body.source := by
    rw [compose, hl]
    dsimp only
    rw [hbody]
    exact Body.render_ofPlain store hu _ _ _
  rw [planPage, hcompose, hl]
  rfl

theorem mem_pages_of_planPage {plan : BuildPlan} {planned : PlannedPage}
    (hr : (Registry.discover store options.src ⟨options.types⟩).outcome = .ok registry)
    (hm : page ∈ registry.pages.templates)
    (hp : (planPage store registry globals page).outcome = .ok planned)
    (h : (planBuild store globals options).outcome = .ok plan) : planned ∈ plan.pages := by
  obtain ⟨-, found, pages, hf, -, hpages, rfl⟩ := planBuild_eq_ok h
  obtain rfl : registry = found := Except.ok.inj (hr.symm.trans hf)
  have hall := List.mem_map_of_mem (f := fun page => (planPage store registry globals page).outcome) hm
  rw [outcomes_of_planPages hpages, hp] at hall
  obtain ⟨_, hmem, he⟩ := List.mem_map.mp hall
  cases he
  exact hmem

/-- A source in which no tag opens is rendered as it is. So a page with the text of such a file is
planned, and with this text, if no layout is found for it. -/
theorem unopened_passes_through {source : String} (h : Unopened source.toList) :
    (∃ body : Body, body.references = [] ∧ ∀ store : Files.Store host,
      Body.compile store source = .ok body ∧
      ∀ name context partials, body.render store name context partials = .ok source) ∧
    ∀ (store : Files.Store host) (globals : Fields) (options : BuildOptions) (registry : Registry),
      (Registry.discover store options.src ⟨options.types⟩).outcome = .ok registry →
      ∀ page ∈ registry.pages.templates, store.readText page.path = .ok source →
        resolveLayout page registry.layouts = none →
        (planPage store registry globals page).outcome
          = .ok ⟨page.name, page.outputPath, none, source⟩ ∧
        ∀ plan, (planBuild store globals options).outcome = .ok plan →
          ⟨page.name, page.outputPath, none, source⟩ ∈ plan.pages := by
  refine ⟨⟨.ofPlain source, Body.references_ofPlain h, fun store =>
    ⟨Body.compile_of_unopened store h, Body.render_ofPlain store h⟩⟩,
    fun store globals options registry hr page hm hs hl => ?_⟩
  have hpages := (Registry.discover_eq_ok.mp hr).2.2
  obtain rfl : source = page.body.source :=
    Except.ok.inj (hs.symm.trans (Collection.readText_of_populate hpages page hm))
  have hpage : (planPage store registry globals page).outcome
      = .ok ⟨page.name, page.outputPath, none, page.body.source⟩ :=
    planPage_of_unopened (Collection.compile_of_populate hpages page hm) h hl
  exact ⟨hpage, fun plan hplan => mem_pages_of_planPage hr hm hpage hplan⟩

def bracedText : String :=
  "a \x7b b \x7d\x7d c\r\n\x00 \x7b\t\x7b"

/-- A page of this text, whose data asks for a layout that is not there. -/
def bracedSite : Files.Store .process :=
  .ofTexts [("src/pages/deep/a.mustache", bracedText),
    ("src/pages/deep/a.json",
        "\x7b\"render\": \x7b\"layout\": \"gone\", \"extension\": \"txt\"\x7d\x7d"),
    ("src/layouts/main.mustache", "x"), ("src/partials/c.mustache", "y")]

theorem unopened_passes_through_braced :
    (∃ body, Body.compile bracedSite bracedText = .ok body ∧
      body.render bracedSite "a" [("b", .null)] (.ofList [("c", ⟨"y", [.text "y"], []⟩)])
        = .ok bracedText) ∧
    ∃ plan, (planBuild bracedSite [] {}).outcome = .ok plan ∧
      ⟨"deep/a", "deep/a.txt", none, bracedText⟩ ∈ plan.pages := by
  have hu : Unopened bracedText.toList := by decide +kernel
  obtain ⟨⟨body, -, hbody⟩, hpages⟩ := unopened_passes_through hu
  obtain ⟨hb, hrender⟩ := hbody bracedSite
  obtain ⟨registry, hr, htest⟩ : ∃ registry,
      (Registry.discover bracedSite "src" ⟨["mustache"]⟩).outcome = .ok registry ∧
      decide (registry.pages.templates.map (fun page => (page.name, page.outputPath))
          = [("deep/a", "deep/a.txt")] ∧
        ∀ page ∈ registry.pages.templates, page.path = "src/pages/deep/a.mustache" ∧
          (resolveLayout page registry.layouts).isNone = true) = true := exists_ok (by decide +kernel)
  obtain ⟨plan, hplan⟩ : ∃ plan, (planBuild bracedSite [] {}).outcome = .ok plan :=
    exists_of_isOk (by decide +kernel)
  obtain ⟨hnames, hpage⟩ := of_decide_eq_true htest
  obtain ⟨page, rest, hp, hname, -⟩ := List.map_eq_cons_iff.mp hnames
  obtain ⟨hname, houtput⟩ := Prod.mk.inj hname
  have hm : page ∈ registry.pages.templates := by
    rw [hp]
    exact List.mem_cons_self
  obtain ⟨hpath, hlayout⟩ := hpage page hm
  have htext : bracedSite.readText page.path = .ok bracedText := by
    rw [hpath]
    exact eq_ok_of_toOption (by decide +kernel)
  obtain ⟨-, hplanned⟩ := hpages bracedSite [] {} registry hr page hm htext
    (Option.isNone_iff_eq_none.mp hlayout)
  rw [hname, houtput] at hplanned
  exact ⟨⟨body, hb, hrender _ _ _⟩, plan, hplan, hplanned plan hplan⟩

end Folio
