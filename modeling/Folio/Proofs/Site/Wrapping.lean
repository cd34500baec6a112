import Folio.Proofs.Markup.Appending
import Folio.Proofs.Site.Collecting
import Folio.Proofs.Template.ByName
import Folio.Site.Composition
/-!
# Pages inside layouts

A layout is rendered with the page as its partial `content`. So a layout that is text around the tag
for `content` puts that text around the page, and the page is rendered as it is on its own, but with
the data of the layout.
-/

namespace Folio

open Files Markup

variable {host : Host} {store : Store host}

def wrapperSource (before after : String) : String :=
  before ++ inclusionSource contentName ++ after

section Wrapper

variable {before after : String}

theorem toList_wrapperSource : (wrapperSource before after).toList
    = before.toList ++ (inclusionSource contentName).toList ++ after.toList := by
  rw [wrapperSource, String.toList_append, String.toList_append]

/-- The nodes of a wrapper, if the tag does not take its line away. -/
def wrapperNodes (before after : String) : List Node :=
  Node.ofText before.toList ++ .inclusion contentName "" :: Node.ofText after.toList

theorem mem_inclusions_wrapperNodes {name : String} :
    name ∈ Node.inclusions (wrapperNodes before after) ↔ name = contentName := by
  rw [wrapperNodes, Node.inclusions_append, Node.inclusions, Node.inclusions_ofText,
    Node.inclusions_ofText]
  simp [Node.ownInclusions]

theorem ofSource_wrapperSource (hbefore : Unopened before.toList)
    (hlast : before.toList.getLast? ≠ some '{') (hafter : Unopened after.toList)
    (hline : SharesLine before.toList after.toList) :
    Node.ofSource (wrapperSource before after).toList = .ok (wrapperNodes before after) := by
  rw [toList_wrapperSource]
  exact Node.ofSource_around (by decide) (by decide) (by decide) hbefore hlast hafter hline

theorem contentName_mem_references (hbefore : Unopened before.toList)
    (hlast : before.toList.getLast? ≠ some '{') (hafter : Unopened after.toList) :
    contentName ∈ references (wrapperSource before after) := by
  have hl : Lexeme.ofSource (before.toList ++ (inclusionSource contentName).toList ++ after.toList)
      = (Lexeme.ofText before.toList ++ .tag (.inclusion contentName) :: Lexeme.ofText after.toList,
        .clean) :=
    Lexeme.ofSource_around (by decide) (by decide) (by decide) hbefore hlast hafter
  apply mem_references_of_mem_lexemes
  · rw [KeepsDelims, toList_wrapperSource, hl]
    intro lexeme hm
    rcases List.mem_append.mp hm with hm | hm
    · exact Lexeme.setsDelims_of_mem_ofText hm
    · rcases List.mem_cons.mp hm with rfl | hm
      · rfl
      · exact Lexeme.setsDelims_of_mem_ofText hm
  · rw [toList_wrapperSource, hl]
    simp

end Wrapper

theorem plain_contentName : Partials.Plain contentName ∧ Partials.Fits host.staging contentName := by
  have hroom := host.room
  refine ⟨by decide, ?_⟩
  show scratchLead host.scratch + 16 ≤ maxPath
  simp only [maxName] at hroom
  omega

/-- A body is the only partial, and it is there as the page of a layout. -/
structure OnlyContent (partials : Partials) (own : Body) : Prop where
  entry : ∀ entry ∈ partials.entries, entry = (contentName, own)
  found : partials.get? contentName = some own

/-- A page put in for `content` is the only partial if there was none of another name. -/
theorem onlyContent_insert {partials : Collection} (own : Body)
    (hp : ∀ template ∈ partials.templates, template.name = contentName) :
    OnlyContent (partials.partials.insert contentName own) own := by
  refine ⟨fun entry hm => (Index.mem_insert.mp hm).resolve_right fun ⟨hne, hm⟩ => ?_, ?_⟩
  · obtain ⟨template, ht, rfl⟩ := List.mem_map.mp (Index.mem_of_mem_ofList hm)
    exact hne (hp template ht)
  · rw [Index.get?_insert, if_pos rfl]

namespace OnlyContent

variable {partials : Partials} {own : Body}

theorem plain (h : OnlyContent partials own) :
    ∀ name ∈ partials.keys, Partials.Plain name ∧ Partials.Fits host.staging name := by
  intro name hm
  obtain ⟨entry, he, rfl⟩ := List.mem_map.mp hm
  rw [h.entry entry he]
  exact plain_contentName

theorem compiled (h : OnlyContent partials own) (ho : Body.compile store own.source = .ok own) :
    partials.Compiled store := by
  intro name body hb
  obtain ⟨-, rfl⟩ := Prod.mk.inj (h.entry _ (Index.get?_eq_some_iff.mp hb))
  exact ho

theorem find_eq (h : OnlyContent partials own) : partials.find contentName = own.nodes := by
  rw [Partials.find, h.found]
  rfl

theorem compile_wrapper (h : OnlyContent partials own) (ho : Body.compile store own.source = .ok own)
    (hn : Node.inclusions own.nodes = []) {before after : String}
    (hw : Node.ofSource (wrapperSource before after).toList = .ok (wrapperNodes before after)) :
    ∃ stage linked, partials.stage store = .ok stage ∧
      stage.compile (wrapperSource before after) = .ok linked ∧
      linked.nodes = wrapperNodes before after ∧ linked.find contentName = own.nodes := by
  have hc := h.compiled ho
  have hk : ∀ name ∈ partials.keys, Partials.Plain name ∧ Partials.Fits host.staging name := h.plain
  obtain ⟨stage, hs, hlayout⟩ : ∃ stage, partials.stage store = .ok stage ∧
      Partials.Layout partials.entries stage := Partials.exists_stage hk
  have hcontent : stage.find contentName = own.nodes := by
    have hname : Partials.Plain contentName ∧ Partials.Fits host.staging contentName :=
      plain_contentName
    rw [Stage.find_of_load (Partials.load_of_layout hlayout hk hc hname.1 hname.2), h.find_eq]
  have hlead : ∀ name, Leads stage.find (wrapperNodes before after) name → name = contentName := by
    intro name hl
    induction hl with
    | here hm => exact mem_inclusions_wrapperNodes.mp hm
    | next _ hi ih =>
      rw [ih, hcontent, hn] at hi
      cases hi
  obtain ⟨linked, hcompile, hl, hfound⟩ := Partials.compile_of_layout hlayout hk hc hw
    fun name hl => hlead name hl ▸ plain_contentName
  refine ⟨stage, linked, hs, hcompile, hl, ?_⟩
  rw [hfound contentName (.here (mem_inclusions_wrapperNodes.mpr rfl)), h.find_eq]

end OnlyContent

theorem Markup.Linked.render_wrapper {linked : Linked} {before after : String} {nodes : List Node}
    (hl : linked.nodes = wrapperNodes before after) (hf : linked.find contentName = nodes)
    (hn : Node.inclusions nodes = []) (context : Fields) : linked.render context
      = ((⟨nodes, []⟩ : Linked).render context).map fun text => before ++ text ++ after := by
  have hnone : Node.inclusions (linked.find contentName) = [] := by rw [hf, hn]
  rw [render, hl, depthBound, wrapperNodes, render_around hnone before.toList after.toList _
    ((⟨nodes, []⟩ : Linked).depthBound context) (⟨nodes, []⟩ : Linked).find, hf,
    String.ofList_toList, String.ofList_toList]
  rfl

/-- A body rendered as the partial `content` between two texts. -/
theorem Body.render_wrapper {before after : String} (hbefore : Unopened before.toList)
    (hlast : before.toList.getLast? ≠ some '{') (hafter : Unopened after.toList)
    (hline : SharesLine before.toList after.toList) {wrapper own : Body} {partials : Partials}
    (hw : compile store (wrapperSource before after) = .ok wrapper)
    (ho : compile store own.source = .ok own) (hn : Node.inclusions own.nodes = [])
    (hp : OnlyContent partials own) (title title' : String) (context : Fields) :
    wrapper.render store title context partials
      = (own.render store title' context Index.empty).map fun text => before ++ text ++ after := by
  have hsource := (compile_eq_ok hw).1
  obtain ⟨stage, linked, hs, hcompile, hl, hf⟩ :=
    hp.compile_wrapper ho hn (ofSource_wrapperSource hbefore hlast hafter hline)
  have hr : wrapper.references ≠ [] := by
    rw [references, hsource]
    exact List.ne_nil_of_mem (contentName_mem_references hbefore hlast hafter)
  obtain ⟨-, hnodes, hlinked⟩ := compile_eq_ok ho
  rw [compile_of_inclusions_nil _ hnodes hn] at hlinked
  have hown : own.render store title' context Index.empty = renderLinked ⟨own.nodes, []⟩ context := by
    rw [Except.ok.inj hlinked]
    rfl
  rw [← hsource] at hcompile
  rw [render_of_references_ne_nil hw hr, renderStaged_of_compile hs hcompile, hown,
    renderLinked_eq_mapError, renderLinked_eq_mapError, Linked.render_wrapper hl hf hn]
  cases (⟨own.nodes, []⟩ : Linked).render context <;> rfl

/-- Composition puts the text of a layout around the page. -/
theorem compose_eq_wrapped {before after : String} (hbefore : Unopened before.toList)
    (hlast : before.toList.getLast? ≠ some '{') (hafter : Unopened after.toList)
    (hline : SharesLine before.toList after.toList) :
    (∃ body, Body.compile store (wrapperSource before after) = .ok body) ∧
    ∀ (page layout : Template) (layouts partials : Collection) (globals : Fields)
      (name title : String),
      Body.compile store page.body.source = .ok page.body → Node.inclusions page.body.nodes = [] →
      page.layout = some name → layouts.lookup name = some layout →
      Body.compile store (wrapperSource before after) = .ok layout.body →
      (∀ template ∈ partials.templates, template.name = contentName) →
      compose store page layouts partials globals
        = (page.body.render store title (buildContext globals layout.data) Index.empty).map
            fun text => before ++ text ++ after := by
  refine ⟨Partials.exists_compile_of_plain (ofSource_wrapperSource hbefore hlast hafter hline)
    fun name hm => mem_inclusions_wrapperNodes.mp hm ▸ plain_contentName, ?_⟩
  intro page layout layouts partials globals name title hpage hn hlayout hlookup hw hp
  have hresolve : resolveLayout page layouts = some layout := by
    rw [resolveLayout, hlayout]
    exact hlookup
  rw [compose, hresolve]
  exact Body.render_wrapper hbefore hlast hafter hline hw hpage hn (onlyContent_insert page.body hp)
    layout.name title _

theorem compose_eq_wrapped_bold : ∃ body wrapper,
    Body.compile Store.empty "\x7b\x7bx\x7d\x7d" = .ok body ∧
    Body.compile Store.empty (wrapperSource "<b>" "</b>") = .ok wrapper ∧
    compose Store.empty
      ⟨"index", "index.mustache", body, some ⟨⟨some "main", none⟩, [("x", .string "z")]⟩⟩
      (Collection.empty.insert
        ⟨"main", "main.mustache", wrapper, some ⟨{}, [("x", .string "y")]⟩⟩)
      (Collection.empty.insert ⟨contentName, "content.mustache", ⟨"old", [], []⟩, none⟩) []
      = .ok "<b>y</b>" := by
  obtain ⟨body, hb, ht⟩ : ∃ body, Body.compile Store.empty "\x7b\x7bx\x7d\x7d" = .ok body ∧
      decide (body.source = "\x7b\x7bx\x7d\x7d" ∧ Node.inclusions body.nodes = [] ∧
        (body.render Store.empty "own" [("x", .string "y")] Index.empty).toOption = some "y") = true :=
    exists_ok (by decide +kernel)
  obtain ⟨hsource, hn, hown⟩ := of_decide_eq_true ht
  have h := @compose_eq_wrapped _ Store.empty "<b>" "</b>" (by decide) (by decide) (by decide)
    (.inr (by decide))
  obtain ⟨wrapper, hw⟩ := h.1
  refine ⟨body, wrapper, hb, hw, ?_⟩
  rw [h.2 _ _ _ _ _ "main" "own" (by rw [hsource]; exact hb) hn rfl rfl hw
    fun template hm => by rw [List.mem_singleton.mp hm]]
  have hrender : body.render Store.empty "own" [("x", .string "y")] Index.empty = .ok "y" :=
    eq_ok_of_toOption hown
  exact congrArg (Except.map _) hrender

end Folio
