import Folio.Proofs.Outcome
import Folio.Proofs.Template.History
import Folio.Site.Composition
/-!
# What a composition depends on

A page inside a layout counts by its body alone, and takes the place of a partial called `content`
if there is one. A page on its own is not touched by the layouts. Of the partials only the bodies by
name are seen.
-/

namespace Folio

variable {host : Host} {store : Files.Store host}

namespace Collection

theorem bodyOf?_insert (collection : Collection) (template : Template) (name : String) :
    (collection.insert template).bodyOf? name
      = if name = template.name then some template.body else collection.bodyOf? name := by
  rw [bodyOf?, find?_insert]
  by_cases h : name = template.name
  · simp [h]
  · simp [h, bodyOf?]

/-- The same templates with other data. -/
def withData (collection : Collection) (data : Template → Option RenderData) : Collection where
  templates := collection.templates.map fun template => { template with data := data template }
  warnings := collection.warnings
  distinct := by
    rw [List.map_map]
    exact collection.distinct

theorem bodyOf?_withData (collection : Collection) (data : Template → Option RenderData)
    (name : String) : (collection.withData data).bodyOf? name = collection.bodyOf? name := by
  rw [bodyOf?, find?, withData, List.find?_map, Option.map_map]
  rfl

def without (collection : Collection) (name : String) : Collection where
  templates := collection.templates.filter (·.name ≠ name)
  warnings := collection.warnings
  distinct := collection.distinct.sublist (List.filter_sublist.map Template.name)

theorem bodyOf?_without (collection : Collection) {name hidden : String} (h : name ≠ hidden) :
    (collection.without hidden).bodyOf? name = collection.bodyOf? name := by
  have hsame : ∀ template : Template,
      (template.name ≠ hidden ∧ template.name = name) ↔ template.name = name :=
    fun _ => and_iff_right_of_imp fun hn => hn ▸ h
  simp only [bodyOf?, find?, without, List.find?_filter, decide_eq_true_eq, hsame]

variable {partials partials' : Collection}

theorem partials_eq_of_bodyOf? (h : ∀ name, partials.bodyOf? name = partials'.bodyOf? name) :
    partials.partials = partials'.partials :=
  Index.ext_get? fun name => by rw [get?_partials, get?_partials, h name]

/-- A name that is bound anew hides what it was bound to, and nothing else. -/
theorem insert_partials_eq {hidden : String}
    (h : ∀ name, name ≠ hidden → partials.bodyOf? name = partials'.bodyOf? name) (body : Body) :
    partials.partials.insert hidden body = partials'.partials.insert hidden body := by
  refine Index.ext_get? fun name => ?_
  rw [Index.get?_insert, Index.get?_insert, get?_partials, get?_partials]
  by_cases hn : name = hidden
  · rw [if_pos hn, if_pos hn]
  · rw [if_neg hn, if_neg hn, h name hn]

end Collection

section

variable {page page' layout : Template} {layouts layouts' partials partials' : Collection}
  {globals : Fields}

theorem compose_of_layout (h : resolveLayout page layouts = some layout) :
    compose store page layouts partials globals
      = layout.body.render store layout.name (buildContext globals layout.data)
          (partials.partials.insert contentName page.body) := by
  rw [compose, h]

theorem compose_of_no_layout (h : resolveLayout page layouts = none) :
    compose store page layouts partials globals
      = page.body.render store page.name (buildContext globals page.data) partials.partials := by
  rw [compose, h]

theorem body_eq_of_source (hp : Body.compile store page.body.source = .ok page.body)
    (hp' : Body.compile store page'.body.source = .ok page'.body)
    (h : page.body.source = page'.body.source) : page.body = page'.body := by
  rw [h, hp'] at hp
  exact (Except.ok.inj hp).symm

end

/-- What does not matter for a composition. Inside a layout: of the page everything but the source of
its body, and a partial called `content`, be it there or not. On its own: the layouts among which the
page finds none, if only because there are none. Both times: all of the partials but their bodies by
name, so also their data. -/
theorem compose_congr (globals : Fields) :
    (∀ (layouts layouts' partials partials' : Collection) (page page' layout : Template),
      Body.compile store page.body.source = .ok page.body →
      Body.compile store page'.body.source = .ok page'.body →
      page.body.source = page'.body.source →
      resolveLayout page layouts = some layout →
      resolveLayout page' layouts' = some layout →
      (∀ name, name ≠ contentName → partials.bodyOf? name = partials'.bodyOf? name) →
      compose store page layouts partials globals = compose store page' layouts' partials' globals) ∧
    (∀ (layouts partials : Collection) (page layout content : Template),
      resolveLayout page layouts = some layout →
      content.name = contentName →
      compose store page layouts (partials.insert content) globals
          = compose store page layouts partials globals ∧
        compose store page layouts (partials.without contentName) globals
          = compose store page layouts partials globals) ∧
    (∀ (layouts layouts' partials partials' : Collection) (page : Template),
      resolveLayout page layouts = none →
      resolveLayout page layouts' = none →
      (∀ name, partials.bodyOf? name = partials'.bodyOf? name) →
      compose store page layouts partials globals = compose store page layouts' partials' globals) ∧
    (∀ page, resolveLayout page .empty = none) ∧
    ∀ layouts partials page data,
      compose store page layouts (partials.withData data) globals
        = compose store page layouts partials globals := by
  refine ⟨?_, ?_, ?_, fun page => ?_, ?_⟩
  · intro layouts layouts' partials partials' page page' layout hp hp' hsource hl hl' hb
    rw [compose_of_layout hl, compose_of_layout hl', body_eq_of_source hp hp' hsource,
      Collection.insert_partials_eq hb]
  · intro layouts partials page layout content hl hc
    rw [compose_of_layout hl, compose_of_layout hl, compose_of_layout hl]
    constructor
    · rw [Collection.insert_partials_eq fun name hn => ?_]
      rw [Collection.bodyOf?_insert, if_neg (hc ▸ hn)]
    · rw [Collection.insert_partials_eq fun name hn => partials.bodyOf?_without hn]
  · intro layouts layouts' partials partials' page hl hl' hb
    rw [compose_of_no_layout hl, compose_of_no_layout hl', Collection.partials_eq_of_bodyOf? hb]
  · rw [resolveLayout, Option.bind_eq_none_iff]
    intro name _
    rw [Collection.lookup]
    split <;> rfl
  · intro layouts partials page data
    have hbodies := Collection.partials_eq_of_bodyOf? (partials.bodyOf?_withData data)
    rw [compose, compose, hbodies]

/-- A layout around the page, with a partial after it and data of its own. -/
def framingLayout : Template :=
  ⟨"main", "main.mustache", ⟨"<b>\x7b\x7b> content\x7d\x7d</b>\x7b\x7b> nav\x7d\x7d",
    [.text "<b>", .inclusion contentName "", .text "</b>", .inclusion "nav" ""],
    [(contentName, []), ("nav", [])]⟩,
    some ⟨{}, [("x", .string "l")]⟩⟩

def navPartials : Collection :=
  .ofList [⟨"nav", "nav.mustache", ⟨"n", [.text "n"], []⟩, some ⟨{}, [("x", .string "q")]⟩⟩]

def oldContent : Template :=
  ⟨contentName, "content.mustache", ⟨"old", [.text "old"], []⟩, none⟩

/-- `navPartials` without data, and with one more that is called `content`. -/
def navPartialsAndContent : Collection :=
  (navPartials.insert oldContent).withData fun _ => none

def askingPage (name layout value : String) (body : Body) : Template :=
  ⟨name, name ++ ".mustache", body, some ⟨⟨some layout, none⟩, [("x", .string value)]⟩⟩

theorem compose_congr_framed : ∃ body,
    Body.compile Files.Store.empty "\x7b\x7bx\x7d\x7d" = .ok body ∧
    compose Files.Store.empty (askingPage "a" "main" "y" body) (.ofList [framingLayout]) navPartials []
      = .ok "<b>l</b>n" ∧
    compose Files.Store.empty (askingPage "b" "main" "z" body)
        (.ofList [framingLayout]) navPartialsAndContent []
      = .ok "<b>l</b>n" ∧
    compose Files.Store.empty (askingPage "a" "main" "y" body) (.ofList [framingLayout])
      (navPartials.insert oldContent) [] = .ok "<b>l</b>n" ∧
    compose Files.Store.empty (askingPage "b" "ghost" "z" body) (.ofList [framingLayout])
      (navPartials.withData fun _ => none) [] = .ok "z" := by
  obtain ⟨body, hb, ht⟩ : ∃ body, Body.compile Files.Store.empty "\x7b\x7bx\x7d\x7d" = .ok body ∧
      decide (body.source = "\x7b\x7bx\x7d\x7d" ∧
        (compose Files.Store.empty (askingPage "a" "main" "y" body)
            (.ofList [framingLayout]) navPartials []).toOption
          = some "<b>l</b>n" ∧
        (compose Files.Store.empty (askingPage "b" "ghost" "z" body) .empty navPartials []).toOption
            = some "z")
        = true :=
    exists_ok (by decide +kernel)
  obtain ⟨hsource, hinside, halone⟩ := of_decide_eq_true ht
  have hcompiled : Body.compile Files.Store.empty body.source = .ok body := by rw [hsource, hb]
  have hmain : ∀ name value, resolveLayout (askingPage name "main" value body)
      (.ofList [framingLayout]) = some framingLayout := fun _ _ => rfl
  have hghost : resolveLayout (askingPage "b" "ghost" "z" body) (.ofList [framingLayout]) = none :=
    rfl
  have hcontent : ∀ name, name ≠ contentName →
      navPartials.bodyOf? name = navPartialsAndContent.bodyOf? name := by
    intro name hn
    rw [navPartialsAndContent, Collection.bodyOf?_withData, Collection.bodyOf?_insert]
    exact (if_neg hn).symm
  have hdata : ∀ name, navPartials.bodyOf? name
      = (navPartials.withData fun _ => none).bodyOf? name :=
    fun name => (navPartials.bodyOf?_withData _ name).symm
  obtain ⟨hlayout, hinsert, hnone, hempty, -⟩ := compose_congr []
  refine ⟨body, hb, eq_ok_of_toOption hinside, ?_, ?_, ?_⟩
  · have hsame := hlayout _ _ _ _ (askingPage "a" "main" "y" body) (askingPage "b" "main" "z" body)
      framingLayout hcompiled hcompiled rfl (hmain "a" "y") (hmain "b" "z") hcontent
    exact hsame ▸ eq_ok_of_toOption hinside
  · rw [(hinsert _ _ _ framingLayout oldContent (hmain "a" "y") rfl).1]
    exact eq_ok_of_toOption hinside
  · have hsame := hnone _ _ _ _ _ (hempty _) hghost hdata
    exact hsame ▸ eq_ok_of_toOption halone

end Folio
