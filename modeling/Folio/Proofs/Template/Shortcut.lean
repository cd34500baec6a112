import Folio.Proofs.Markup.References
import Folio.Proofs.Outcome
import Folio.Proofs.Template.Gathering
/-!
# The shortcut of rendering

A body whose source references no partial is rendered as it was compiled, and so is any body when
there are no partials. Both times the result is what the stage without partials gives.
-/

namespace Folio

open Markup

variable {host : Host} {store : Files.Store host}

namespace Body

theorem compile_eq_ok {source : String} {body : Body} (h : compile store source = .ok body) :
    body.source = source ∧ Node.ofSource source.toList = .ok body.nodes ∧
      (Stage.fresh store).compile source = .ok body.linked := by
  unfold compile at h
  cases hl : (Stage.fresh store).compile source with
  | error cause =>
    rw [hl] at h
    cases h
  | ok linked =>
    rw [hl] at h
    cases h
    exact ⟨rfl, (Stage.compile_ok hl).1, rfl⟩

/-- The text of a body with all partials staged, whatever the source references. -/
def renderStaged (store : Files.Store host) (name : String) (body : Body) (context : Fields)
    (partials : Partials) : Except Stop String :=
  match partials.stage store with
  | .error error => .error (.error error)
  | .ok stage =>
    match stage.compile body.source with
    | .error cause => .error (.error (.render name cause))
    | .ok linked => renderLinked linked context

theorem render_eq_ite (store : Files.Store host) (name : String) (body : Body) (context : Fields)
    (partials : Partials) :
    body.render store name context partials =
      if partials.isEmpty || body.references.isEmpty then renderLinked body.linked context
      else body.renderStaged store name context partials :=
  rfl

/-- The tree that a body is rendered from, together with its partials, if it comes to that. -/
def linked? (store : Files.Store host) (body : Body) (partials : Partials) : Option Linked :=
  if partials.isEmpty || body.references.isEmpty then some body.linked
  else (partials.stage store).toOption.bind fun stage => (stage.compile body.source).toOption

/-- A body is rendered from its tree, or there is an error because it has none. -/
theorem render_cases (store : Files.Store host) (name : String) (body : Body) (context : Fields)
    (partials : Partials) :
    (∃ linked, body.linked? store partials = some linked ∧
      body.render store name context partials = renderLinked linked context) ∨
    body.linked? store partials = none ∧
      ∃ error, body.render store name context partials = .error (.error error) := by
  rw [linked?, render]
  split
  · exact .inl ⟨_, rfl, rfl⟩
  · cases partials.stage store with
    | error error => exact .inr ⟨rfl, error, rfl⟩
    | ok stage =>
      cases hc : stage.compile body.source with
      | error cause => exact .inr ⟨congrArg Except.toOption hc, _, by dsimp only; rw [hc]⟩
      | ok linked => exact .inl ⟨linked, congrArg Except.toOption hc, by dsimp only; rw [hc]⟩

theorem linked?_of_render {body : Body} {partials : Partials} {name text : String}
    {context : Fields} (h : body.render store name context partials = .ok text) :
    ∃ linked, body.linked? store partials = some linked ∧ renderLinked linked context = .ok text := by
  rcases render_cases store name body context partials with ⟨linked, hl, hr⟩ | ⟨-, error, hr⟩
  · exact ⟨linked, hl, hr ▸ h⟩
  · rw [hr] at h
    cases h

theorem linked?_eq_some {body : Body} {partials : Partials} {linked : Linked}
    (hb : compile store body.source = .ok body)
    (h : body.linked? store partials = some linked) :
    ∃ (staged : Partials) (stage : Stage host),
      (∀ name found, staged.get? name = some found → partials.get? name = some found) ∧
      staged.stage store = .ok stage ∧ stage.compile body.source = .ok linked := by
  rw [linked?] at h
  split at h
  · cases h
    exact ⟨Index.empty, Stage.fresh store, nofun, rfl, (compile_eq_ok hb).2.2⟩
  · obtain ⟨stage, hs, hc⟩ := Option.bind_eq_some_iff.mp h
    exact ⟨partials, stage, fun _ _ hg => hg, eq_ok_of_toOption hs, eq_ok_of_toOption hc⟩

theorem nodes_of_linked? {body : Body} {partials : Partials} {linked : Linked}
    (hb : compile store body.source = .ok body)
    (h : body.linked? store partials = some linked) : linked.nodes = body.nodes := by
  obtain ⟨-, stage, -, -, hc⟩ := linked?_eq_some hb h
  exact Except.ok.inj ((Stage.compile_ok hc).1.symm.trans (compile_eq_ok hb).2.1)

theorem renderLinked_congr {linked linked' : Linked} {context : Fields}
    (h : linked.render context = linked'.render context) :
    renderLinked linked context = renderLinked linked' context := by
  rw [renderLinked, renderLinked, h]

theorem renderStaged_empty {source : String} {body : Body} (h : compile store source = .ok body)
    (name : String) (context : Fields) :
    body.renderStaged store name context Index.empty = renderLinked body.linked context := by
  obtain ⟨rfl, -, hl⟩ := compile_eq_ok h
  have hstage : Partials.stage store Index.empty = .ok (Stage.fresh store) := rfl
  simp only [renderStaged, hstage, hl]

theorem compile_of_inclusions_nil {source : String} {nodes : List Node} (stage : Stage host)
    (ho : Node.ofSource source.toList = .ok nodes) (hn : Node.inclusions nodes = []) :
    stage.compile source = .ok ⟨nodes, []⟩ := by
  rw [Stage.compile_eq_map_gather ho, hn, Stage.gather_nil]
  rfl

theorem renderStaged_of_inclusions_nil {source : String} {body : Body} {partials : Partials}
    {stage : Stage host} (h : compile store source = .ok body)
    (hs : partials.stage store = .ok stage) (hn : Node.inclusions body.nodes = []) (name : String)
    (context : Fields) :
    body.renderStaged store name context partials = renderLinked body.linked context := by
  obtain ⟨rfl, ho, hl⟩ := compile_eq_ok h
  rw [compile_of_inclusions_nil _ ho hn] at hl
  simp only [renderStaged, hs, compile_of_inclusions_nil stage ho hn, Except.ok.inj hl]

theorem render_of_references_nil {body : Body} (hr : body.references = []) (name : String)
    (context : Fields) (partials : Partials) :
    body.render store name context partials = renderLinked body.linked context := by
  simp [render_eq_ite, hr]

theorem render_of_references_ne_nil {source : String} {body : Body}
    (h : compile store source = .ok body)
    (hr : body.references ≠ []) (name : String) (context : Fields) (partials : Partials) :
    body.render store name context partials = body.renderStaged store name context partials := by
  rw [render_eq_ite]
  have hne : body.references.isEmpty = false := by simpa using hr
  by_cases hp : partials.isEmpty = true
  · have he : partials = Index.empty := by
      apply Index.ext
      exact List.isEmpty_iff.mp hp
    rw [hp, Bool.true_or, if_pos rfl, he, renderStaged_empty h]
  · rw [hne, Bool.or_false, if_neg hp]

/-- The search for references misses no inclusion of a source without delimiter tags. -/
theorem inclusions_eq_nil {source : String} {body : Body} (h : compile store source = .ok body)
    (hd : KeepsDelims source) (hr : body.references = []) : Node.inclusions body.nodes = [] := by
  obtain ⟨rfl, ho, -⟩ := compile_eq_ok h
  have hsub := inclusions_subset_references hd ho
  rw [references] at hr
  rw [hr] at hsub
  exact List.eq_nil_of_subset_nil hsub

theorem render_eq_iff {source : String} {body : Body} (h : compile store source = .ok body)
    (name : String) (context : Fields) (partials : Partials) :
    body.render store name context partials = body.renderStaged store name context partials ↔
      (body.references = [] → body.renderStaged store name context partials
        = body.renderStaged store name context Index.empty) := by
  constructor
  · intro he hr
    rw [← he, render_of_references_nil hr, renderStaged_empty h]
  · intro he
    by_cases hr : body.references = []
    · rw [he hr, render_of_references_nil hr, renderStaged_empty h]
    · exact render_of_references_ne_nil h hr name context partials

theorem render_eq_of_inclusions {source : String} {body : Body} {partials : Partials}
    {stage : Stage host} (h : compile store source = .ok body) (hs : partials.stage store = .ok stage)
    (hn : body.references = [] → Node.inclusions body.nodes = []) (name : String)
    (context : Fields) :
    body.render store name context partials = body.renderStaged store name context partials := by
  by_cases hr : body.references = []
  · rw [render_of_references_nil hr, renderStaged_of_inclusions_nil h hs (hn hr)]
  · exact render_of_references_ne_nil h hr name context partials

theorem nodes_of_inclusionSource {name : String} {tag : Body} (hn : name ≠ "")
    (hx : '}' ∉ name.toList) (ht : Text.trim name.toList = name.toList)
    (hc : compile store (inclusionSource name) = .ok tag) : tag.nodes = [.inclusion name ""] :=
  Except.ok.inj ((compile_eq_ok hc).2.1.symm.trans (Node.ofSource_inclusionSource hn hx ht))

theorem references_of_inclusionSource {name : String} {tag : Body} (hn : name ≠ "")
    (hx : '}' ∉ name.toList)
    (ht : Text.trim name.toList = name.toList) (hc : compile store (inclusionSource name) = .ok tag) :
    tag.references ≠ [] := by
  rw [references, (compile_eq_ok hc).1]
  exact List.ne_nil_of_mem (references_inclusionSource hn hx ht)

/-- When the shortcut gives what staging gives: always, if the source references something, and
else if the partials make no difference. They make none unless a delimiter tag hides an inclusion
from the search for references. -/
theorem render_eq_renderStaged {source : String} {body : Body} {partials : Partials}
    {stage : Stage host} (h : compile store source = .ok body)
    (hs : partials.stage store = .ok stage) (name : String) (context : Fields) :
    (body.render store name context partials = body.renderStaged store name context partials ↔
      (body.references = [] → body.renderStaged store name context partials
        = body.renderStaged store name context Index.empty)) ∧
    ((body.references = [] → Node.inclusions body.nodes = []) →
      body.render store name context partials = body.renderStaged store name context partials) ∧
    (KeepsDelims source →
      body.render store name context partials = body.renderStaged store name context partials) := by
  refine ⟨render_eq_iff h name context partials, fun hn => ?_, fun hd => ?_⟩
  · exact render_eq_of_inclusions h hs hn name context
  · exact render_eq_of_inclusions h hs (inclusions_eq_nil h hd) name context

theorem render_eq_renderStaged_nav : ∃ body stage,
    compile Files.Store.empty "\x7b\x7b> nav\x7d\x7d" = .ok body ∧
    Partials.stage Files.Store.empty (Index.ofList [("nav", ⟨"x", [.text "x"], []⟩)]) = .ok stage ∧
    body.render Files.Store.empty "page" [] (Index.ofList [("nav", ⟨"x", [.text "x"], []⟩)])
      = body.renderStaged Files.Store.empty "page" []
          (Index.ofList [("nav", ⟨"x", [.text "x"], []⟩)]) := by
  obtain ⟨body, hb⟩ : ∃ body, compile Files.Store.empty "\x7b\x7b> nav\x7d\x7d" = .ok body :=
    exists_of_isOk (by decide +kernel)
  obtain ⟨stage, hs⟩ : ∃ stage,
      Partials.stage Files.Store.empty (Index.ofList [("nav", ⟨"x", [.text "x"], []⟩)]) = .ok stage :=
    exists_of_isOk (by decide +kernel)
  exact ⟨body, stage, hb, hs, (render_eq_renderStaged hb hs "page" []).2.2 (by decide +kernel)⟩

/-- An inclusion behind a delimiter tag: the shortcut drops the partial. -/
theorem render_ne_renderStaged : ∃ body stage,
    compile Files.Store.empty "\x7b\x7b=<% %>=\x7d\x7d<%> nav%>" = .ok body ∧
    Partials.stage Files.Store.empty (Index.ofList [("nav", ⟨"x", [.text "x"], []⟩)]) = .ok stage ∧
    body.render Files.Store.empty "page" [] (Index.ofList [("nav", ⟨"x", [.text "x"], []⟩)]) = .ok "" ∧
    body.renderStaged Files.Store.empty "page" [] (Index.ofList [("nav", ⟨"x", [.text "x"], []⟩)])
      = .ok "x" := by
  obtain ⟨body, hb, ht⟩ : ∃ body, compile Files.Store.empty "\x7b\x7b=<% %>=\x7d\x7d<%> nav%>"
      = .ok body ∧
      decide ((body.render Files.Store.empty "page" []
          (Index.ofList [("nav", ⟨"x", [.text "x"], []⟩)])).toOption = some "" ∧
        (body.renderStaged Files.Store.empty "page" []
            (Index.ofList [("nav", ⟨"x", [.text "x"], []⟩)])).toOption
          = some "x") = true :=
    exists_ok (by decide +kernel)
  obtain ⟨stage, hs⟩ : ∃ stage,
      Partials.stage Files.Store.empty (Index.ofList [("nav", ⟨"x", [.text "x"], []⟩)]) = .ok stage :=
    exists_of_isOk (by decide +kernel)
  obtain ⟨hdropped, hkept⟩ := of_decide_eq_true ht
  exact ⟨body, stage, hb, hs, eq_ok_of_toOption hdropped, eq_ok_of_toOption hkept⟩

end Body

end Folio
