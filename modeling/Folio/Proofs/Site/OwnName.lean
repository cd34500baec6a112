import Folio.Proofs.Site.Collecting
import Folio.Proofs.Template.Layout
/-!
# Partials by their own names

A tag with the name of a partial renders what the stage holds where the tag looks, and that is the
partial itself if it is staged there last. The partial on its own is rendered with the shortcut.
-/

namespace Folio

open Markup

variable {host : Host} {store : Files.Store host}

namespace Body

theorem renderLinked_ne_error (linked : Linked) (context : Fields) (error : SiteError) :
    renderLinked linked context ≠ .error (.error error) := by
  rw [renderLinked]
  split <;> simp

variable {partials : Partials} {name : String} {own tag : Body}

theorem render_of_stage_error {error : SiteError} (hb : partials.get? name = some own)
    (hs : partials.stage store = .error error) (body : Body) (title : String) (context : Fields) :
    body.render store title context partials = .error (.error error) ↔ body.references ≠ [] := by
  have hne : partials.isEmpty = false := by
    have hm := Index.get?_eq_some_iff.mp hb
    rw [Index.isEmpty, List.isEmpty_eq_false_iff]
    exact List.ne_nil_of_mem hm
  by_cases hr : body.references = []
  · rw [render_of_references_nil hr]
    exact iff_of_false (renderLinked_ne_error _ context error) (not_not_intro hr)
  · refine iff_of_true ?_ hr
    have hre : body.references.isEmpty = false := by simpa using hr
    rw [render_eq_ite, hne, hre]
    simp [renderStaged, hs]

theorem render_inclusionSource {stage : Stage host} (hs : partials.stage store = .ok stage)
    (hn : name ≠ "") (hx : '}' ∉ name.toList) (ht : Text.trim name.toList = name.toList)
    (hc : compile store (inclusionSource name) = .ok tag) (title : String) (context : Fields) :
    match stage.bodyOf name with
    | .ok found =>
      ¬ Leads stage.find found.nodes name ∨ stage.FailsAlike found.nodes →
        tag.render store title context partials = found.renderStaged store title context partials
    | .error cause =>
      tag.render store title context partials = .error (.error (.render title cause)) := by
  obtain ⟨hsource, ho, -⟩ := compile_eq_ok hc
  have hnodes := nodes_of_inclusionSource hn hx ht hc
  rw [← hsource] at ho
  rw [render_of_references_ne_nil hc (references_of_inclusionSource hn hx ht hc)]
  cases hf : stage.bodyOf name with
  | ok found => exact fun halike => renderStaged_tag hs ho hnodes hf halike title context
  | error cause => exact renderStaged_tag_error hs ho hnodes hf title context

theorem bodyOf_of_stagedLast {stage : Stage host} (hs : partials.stage store = .ok stage)
    (hb : partials.get? name = some own) (hc : compile store own.source = .ok own)
    (hl : Partials.StagedLast host partials name) :
    stage.bodyOf name = .ok ⟨own.source, own.nodes, []⟩ := by
  simp only [Stage.bodyOf, Partials.readText_of_stagedLast hs hb hl, (compile_eq_ok hc).2.1]

/-- A tag for a partial that is staged last where the tag looks. -/
theorem render_inclusionSource_of_stagedLast {stage : Stage host}
    (hs : partials.stage store = .ok stage)
    (hb : partials.get? name = some own) (hown : compile store own.source = .ok own)
    (hn : name ≠ "") (hx : '}' ∉ name.toList) (ht : Text.trim name.toList = name.toList)
    (hc : compile store (inclusionSource name) = .ok tag) (hl : Partials.StagedLast host partials name)
    (halike : ¬ Leads stage.find own.nodes name ∨ stage.FailsAlike own.nodes)
    (title : String) (context : Fields) :
    tag.render store title context partials = own.renderStaged store title context partials := by
  have htag := render_inclusionSource hs hn hx ht hc title context
  rw [bodyOf_of_stagedLast hs hb hown hl] at htag
  exact htag halike

end Body

namespace Collection

/-- A tag with the name of a partial does what the partial does on its own, if there is a stage,
exactly when what the tag finds there does. It finds the partial if no other one is staged over it
and its name is looked up as it is staged; then only the shortcut can make a difference. Among plain
names all partials are found so. A body that comes back to the name has its partials loaded in another
order from the tag, so there it takes that they do not fail for different causes, as they do not if
nothing is looked up outside of the stage. -/
theorem render_inclusion_eq_render {store : Files.Store host} {folder : String} {matcher : Matcher}
    {collection : Collection} {name : String} {own : Body}
    (hp : (populate store folder matcher).outcome = .ok collection)
    (hb : collection.partials.get? name = some own) (hn : name ≠ "") (hx : '}' ∉ name.toList)
    (ht : Text.trim name.toList = name.toList) (title : String) (context : Fields) :
    (∀ tag, Body.compile store (inclusionSource name) = .ok tag →
      (∀ error, collection.partials.stage store = .error error →
        (tag.render store title context collection.partials
            = own.render store title context collection.partials ↔ own.references ≠ [])) ∧
      ∀ stage, collection.partials.stage store = .ok stage →
        (match stage.bodyOf name with
          | .ok found =>
            ¬ Leads stage.find found.nodes name ∨ stage.FailsAlike found.nodes →
              (tag.render store title context collection.partials
                  = own.render store title context collection.partials ↔
                found.renderStaged store title context collection.partials
                  = own.render store title context collection.partials)
          | .error cause =>
            tag.render store title context collection.partials
                = own.render store title context collection.partials ↔
              own.render store title context collection.partials
                = .error (.error (.render title cause))) ∧
        (collection.partials.StagedLast host name →
          stage.bodyOf name = .ok ⟨own.source, own.nodes, []⟩ ∧
          (¬ Leads stage.find own.nodes name ∨ stage.FailsAlike own.nodes →
            (tag.render store title context collection.partials
                = own.render store title context collection.partials ↔
              (own.references = [] → own.renderStaged store title context collection.partials
                = own.renderStaged store title context Index.empty))))) ∧
    ((∀ key ∈ collection.partials.keys, Partials.Plain key ∧ Partials.Fits host.staging key) →
      KeepsDelims own.source →
      ∃ tag stage, Body.compile store (inclusionSource name) = .ok tag ∧
        collection.partials.stage store = .ok stage ∧
        (¬ Leads stage.find own.nodes name ∨ stage.FailsAlike own.nodes →
          tag.render store title context collection.partials
            = own.render store title context collection.partials) ∧
        ((∀ inner, Leads stage.find own.nodes inner → Stage.LooksInside host inner) →
          tag.render store title context collection.partials
            = own.render store title context collection.partials)) := by
  have hown := compiled_of_populate hp name own hb
  refine ⟨fun tag hc => ⟨fun error hs => ?_, fun stage hs => ⟨?_, fun hl => ?_⟩⟩, fun hk hd => ?_⟩
  · have htag := (Body.render_of_stage_error hb hs tag title context).mpr
      (Body.references_of_inclusionSource hn hx ht hc)
    rw [htag, eq_comm]
    exact Body.render_of_stage_error hb hs own title context
  · have htag := Body.render_inclusionSource hs hn hx ht hc title context
    cases hf : stage.bodyOf name with
    | ok found =>
      rw [hf] at htag
      intro halike
      rw [htag halike]
    | error cause =>
      rw [hf] at htag
      simp only [htag]
      exact eq_comm
  · refine ⟨Body.bodyOf_of_stagedLast hs hb hown hl, fun halike => ?_⟩
    rw [Body.render_inclusionSource_of_stagedLast hs hb hown hn hx ht hc hl halike, eq_comm]
    exact Body.render_eq_iff hown title context collection.partials
  · have hkey : name ∈ collection.partials.keys :=
      List.mem_map_of_mem (Index.get?_eq_some_iff.mp hb)
    obtain ⟨hplain, hfits⟩ := hk name hkey
    obtain ⟨tag, hc⟩ := Partials.exists_compile_inclusionSource hplain hfits hn hx ht
    obtain ⟨stage, hs, -⟩ := Partials.exists_stage hk
    have hl : Partials.StagedLast host collection.partials name :=
      Partials.stagedLast_of_plain (fun key hm => (hk key hm).1) hkey
    have hsame : ¬ Leads stage.find own.nodes name ∨ stage.FailsAlike own.nodes →
        tag.render store title context collection.partials
          = own.render store title context collection.partials := by
      intro halike
      rw [Body.render_inclusionSource_of_stagedLast hs hb hown hn hx ht hc hl halike,
        Body.render_eq_of_inclusions hown hs (Body.inclusions_eq_nil hown hd)]
    refine ⟨tag, stage, hc, hs, hsame, fun hin => hsame (.inr ?_)⟩
    exact Stage.failsAlike_of_looksInside (compiled_of_populate hp) hs hin

theorem render_inclusion_eq_render_nav :
    let site : Files.Store .process := .ofTexts [("src/partials/nav.mustache", "x")]
    ∃ collection own tag,
      (populate site "src/partials" ⟨["mustache"]⟩).outcome = .ok collection ∧
      collection.partials.get? "nav" = some own ∧
      Body.compile site (inclusionSource "nav") = .ok tag ∧
      tag.render site "page" [] collection.partials
        = own.render site "page" [] collection.partials := by
  intro site
  obtain ⟨collection, hp, ht⟩ : ∃ collection,
      (populate site "src/partials" ⟨["mustache"]⟩).outcome = .ok collection ∧
      decide ((∀ key ∈ collection.partials.keys,
          Partials.Plain key ∧ Partials.Fits Host.process.staging key) ∧
        (collection.partials.get? "nav").map (fun own => (own.source, Node.inclusions own.nodes))
          = some ("x", [])) = true :=
    exists_ok (by decide +kernel)
  obtain ⟨hk, hg⟩ := of_decide_eq_true ht
  obtain ⟨own, hb, hown⟩ := Option.map_eq_some_iff.mp hg
  obtain ⟨hsource, hnone⟩ := Prod.mk.inj hown
  have hd : KeepsDelims own.source := by
    rw [hsource]
    decide +kernel
  obtain ⟨tag, stage, hc, -, hr, -⟩ := (render_inclusion_eq_render hp hb (by decide) (by decide)
    (by decide) "page" []).2 hk hd
  exact ⟨collection, own, tag, hp, hb, hc, hr (.inl fun h => h.inclusions_ne_nil hnone)⟩

/-- A name with a dot: it is staged without what follows the dot, so the tag finds nothing. -/
theorem render_inclusion_ne_render_dotted :
    let site : Files.Store .process := .ofTexts [("src/partials/a.b.mustache", "x")]
    ∃ collection own tag,
      (populate site "src/partials" ⟨["mustache"]⟩).outcome = .ok collection ∧
      collection.partials.get? "a.b" = some own ∧
      Body.compile site (inclusionSource "a.b") = .ok tag ∧
      tag.render site "page" [] collection.partials = .ok "" ∧
      own.render site "page" [] collection.partials = .ok "x" := by
  intro site
  obtain ⟨tag, hc, htag⟩ : ∃ tag, Body.compile site (inclusionSource "a.b") = .ok tag ∧
      (populate site "src/partials" ⟨["mustache"]⟩).outcome.toOption.any (fun collection => decide
          ((tag.render site "page" [] collection.partials).toOption = some "" ∧
            (collection.partials.get? "a.b").any (fun own => decide
              ((own.render site "page" [] collection.partials).toOption = some "x")) = true)) = true :=
    exists_ok (by decide +kernel)
  obtain ⟨collection, hp, ht⟩ := exists_ok htag
  obtain ⟨hmissed, hown⟩ := of_decide_eq_true ht
  obtain ⟨own, hb, hr⟩ := (Option.any_eq_true _ _).mp hown
  exact ⟨collection, own, tag, hp, hb, hc, eq_ok_of_toOption hmissed,
    eq_ok_of_toOption (of_decide_eq_true hr)⟩

end Collection

end Folio
