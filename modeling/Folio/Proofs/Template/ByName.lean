import Folio.Proofs.Template.Layout
/-!
# Rendering by name

Staging partials with plain names as files and looking them up there gives what taking them from the
map by their names gives.
-/

namespace Folio

open Files Markup

variable {host : Host} {store : Store host}

def stopOf : Halt → Stop
  | .unwritable => .aborted
  | .tooDeep => .endless

namespace Body

theorem renderLinked_eq_mapError (linked : Linked) (context : Fields) :
    renderLinked linked context = (linked.render context).mapError stopOf := by
  rw [renderLinked]
  cases linked.render context with
  | ok text => rfl
  | error halt => cases halt <;> rfl

theorem mapError_stopOf_ne_endless {outcome : Except Halt String}
    (h : outcome ≠ .error .tooDeep) : outcome.mapError stopOf ≠ .error .endless := by
  cases outcome with
  | ok text => exact nofun
  | error halt =>
    cases halt with
    | unwritable => exact nofun
    | tooDeep => exact absurd rfl h

/-- The text of a body with partials taken from the map by their names, nested at most `depth` deep.
A name that is no key gives nothing. -/
def renderByName (depth : Nat) (body : Body) (context : Fields) (partials : Partials) :
    Except Stop String :=
  (Markup.render partials.find depth body.nodes context).mapError stopOf

theorem renderByName_ne_endless {depth : Nat} {body : Body} {context : Fields}
    {partials : Partials}
    (h : Markup.render partials.find depth body.nodes context ≠ .error .tooDeep) :
    body.renderByName depth context partials ≠ .error .endless :=
  mapError_stopOf_ne_endless h

/-- All names that a body leads to can be looked up, if those in each source can. -/
theorem plain_of_leads {source : String} {body : Body} {partials : Partials}
    (hb : compile store source = .ok body)
    (hc : partials.Compiled store)
    (hown : ∀ name ∈ Node.inclusions body.nodes, Partials.Plain name)
    (hinner : ∀ name found, partials.get? name = some found →
      ∀ inner ∈ Node.inclusions found.nodes, Partials.Plain inner)
    {name : String} (hl : Leads partials.find body.nodes name) :
    Partials.Plain name ∧ Partials.Fits host.staging name := by
  induction hl with
  | here hm => exact ⟨hown _ hm, Partials.fits_of_compile hb hm (hown _ hm)⟩
  | @next outer inner _ hi _ =>
    cases hg : partials.get? outer with
    | none => simp [Partials.find, hg, Node.inclusions] at hi
    | some found =>
      have hm : inner ∈ Node.inclusions found.nodes := by simpa [Partials.find, hg] using hi
      have hplain := hinner outer found hg inner hm
      exact ⟨hplain, Partials.fits_of_compile (hc outer found hg) hm hplain⟩

theorem leads_of_find_eq {find find' : String → List Node} {nodes : List Node}
    (h : ∀ name, Leads find nodes name → find' name = find name) {name : String}
    (hl : Leads find' nodes name) : Leads find nodes name := by
  induction hl with
  | here hm => exact .here hm
  | @next outer inner _ hi ih =>
    rw [h outer ih] at hi
    exact .next ih hi

/-- With plain names throughout, no delimiter tags in the body and no endless inclusion, rendering
on a stage gives what rendering by name gives, as soon as the depth is enough. -/
theorem render_eq_renderByName {source : String} {body : Body} {partials : Partials}
    (hb : compile store source = .ok body)
    (hc : partials.Compiled store)
    (hd : KeepsDelims source)
    (hk : ∀ name ∈ partials.keys, Partials.Plain name ∧ Partials.Fits host.staging name)
    (hown : ∀ name ∈ Node.inclusions body.nodes, Partials.Plain name)
    (hinner : ∀ name found, partials.get? name = some found →
      ∀ inner ∈ Node.inclusions found.nodes, Partials.Plain inner)
    (he : ¬ Endless partials.find body.nodes) :
    ∃ bound, ∀ title context depth, bound ≤ depth →
      body.renderByName depth context partials ≠ .error .endless ∧
      body.render store title context partials = body.renderByName depth context partials := by
  obtain ⟨stage, hs, hlayout⟩ := Partials.exists_stage hk
  obtain ⟨rfl, ho, -⟩ := compile_eq_ok hb
  have hload : ∀ name, Leads partials.find body.nodes name →
      stage.load name = .ok (partials.find name) := by
    intro name hl
    obtain ⟨hn, hf⟩ := plain_of_leads hb hc hown hinner hl
    exact Partials.load_of_layout hlayout hk hc hn hf
  have hfind : ∀ name, Leads partials.find body.nodes name → stage.find name = partials.find name :=
    fun name hl => Stage.find_of_load (hload name hl)
  obtain ⟨linked, hlinked⟩ : ∃ linked, stage.compile body.source = .ok linked := by
    cases hcompile : stage.compile body.source with
    | ok linked => exact ⟨linked, rfl⟩
    | error cause =>
      obtain ⟨name, hl, herror⟩ := Stage.compile_error ho hcompile
      rw [hload name (leads_of_find_eq hfind hl)] at herror
      cases herror
  have hnodes : linked.nodes = body.nodes :=
    Except.ok.inj ((Stage.compile_ok hlinked).1.symm.trans ho)
  obtain ⟨bound, hbound⟩ := exists_depth_of_not_endless he
  refine ⟨bound, fun title context depth hle => ?_⟩
  have hdeep : Markup.render partials.find depth body.nodes context ≠ .error .tooDeep := by
    rw [render_mono partials.find hle body.nodes context (hbound context)]
    exact hbound context
  have hsame : Markup.render linked.find depth linked.nodes context
      = Markup.render partials.find depth body.nodes context := by
    rw [Stage.render_compiled hlinked, hnodes]
    exact (render_congr (fun name hl => (hfind name hl).symm) depth context).symm
  refine ⟨renderByName_ne_endless hdeep, ?_⟩
  rw [render_eq_of_inclusions hb hs (inclusions_eq_nil hb hd), renderStaged_of_compile hs hlinked,
    renderLinked_eq_mapError, renderByName, ← hsame]
  rw [Linked.render_eq_of_settles linked context (hsame ▸ hdeep)]

theorem render_eq_renderByName_folder : ∃ body found bound,
    compile Store.empty (inclusionSource "d/x") = .ok body ∧ compile Store.empty "hi" = .ok found ∧
    ∀ title context depth, bound ≤ depth →
      body.render Store.empty title context (Index.ofList [("d/x", found)])
        = body.renderByName depth context (Index.ofList [("d/x", found)]) := by
  obtain ⟨body, hb⟩ : ∃ body, compile Store.empty (inclusionSource "d/x") = .ok body :=
    exists_of_isOk (by decide +kernel)
  obtain ⟨found, hf, ht⟩ : ∃ found, compile Store.empty "hi" = .ok found ∧
      decide (Node.inclusions found.nodes = [] ∧ found.source = "hi") = true :=
    exists_ok (by decide +kernel)
  obtain ⟨hnone, hsource⟩ := of_decide_eq_true ht
  have hnodes := nodes_of_inclusionSource (by decide) (by decide) (by decide) hb
  have hown : ∀ name ∈ Node.inclusions body.nodes, name = "d/x" := by
    simp [hnodes, Node.inclusions, Node.ownInclusions]
  have hentry : ∀ name other, (Index.ofList [("d/x", found)]).get? name = some other →
      other = found := by
    intro name other hg
    have hm := Index.get?_eq_some_iff.mp hg
    exact (Prod.mk.inj (List.mem_singleton.mp hm)).2
  have hc : Partials.Compiled Store.empty (Index.ofList [("d/x", found)]) := by
    intro name other hg
    rw [hentry name other hg, hsource, hf]
  have hk : ∀ name ∈ (Index.ofList [("d/x", found)]).keys,
      Partials.Plain name ∧ Partials.Fits Host.process.staging name := by
    intro name hm
    rw [List.mem_singleton.mp hm]
    show Partials.Plain "d/x" ∧ Partials.Fits Host.process.staging "d/x"
    decide
  have hplain : ∀ name ∈ Node.inclusions body.nodes, Partials.Plain name := by
    intro name hm
    rw [hown name hm]
    decide
  have hinner : ∀ name other, (Index.ofList [("d/x", found)]).get? name = some other →
      ∀ inner ∈ Node.inclusions other.nodes, Partials.Plain inner := by
    intro name other hg inner hi
    rw [hentry name other hg, hnone] at hi
    cases hi
  have hend : ¬ Endless (Partials.find (Index.ofList [("d/x", found)])) body.nodes := by
    rintro ⟨chain, hfirst, hnext⟩
    have hsecond := hnext 0
    rw [hown _ hfirst] at hsecond
    have hfind : Partials.find (Index.ofList [("d/x", found)]) "d/x" = found.nodes := rfl
    rw [hfind, hnone] at hsecond
    cases hsecond
  obtain ⟨bound, h⟩ := render_eq_renderByName hb hc (by decide +kernel) hk hplain hinner hend
  exact ⟨body, found, bound, hb, hf, fun title context depth hle => (h title context depth hle).2⟩

/-- Folders of one letter inside one another, and a last segment of one letter. -/
def deepName (folders : Nat) : String :=
  Path.ofSegments (List.replicate folders "a" ++ ["a"])

theorem utf8ByteSize_deepName (folders : Nat) :
    (deepName folders).utf8ByteSize = 2 * folders + 1 := by
  induction folders with
  | zero => rfl
  | succ folders ih =>
    have hs : deepName (folders + 1) = "a" ++ "/" ++ deepName folders := by
      rw [deepName, List.replicate_succ, List.cons_append, Path.ofSegments,
        String.intercalate_cons_of_ne_nil (by simp)]
      rfl
    rw [hs, String.utf8ByteSize_append, String.utf8ByteSize_append, ih]
    have ha : "a".utf8ByteSize = 1 := by decide
    have hslash : "/".utf8ByteSize = 1 := by decide
    omega

theorem parts_deepName (folders : Nat) :
    Partials.Parts (deepName folders) (List.replicate folders "a") "a" := by
  have hall : ∀ segment ∈ List.replicate folders "a" ++ ["a"], segment = "a" := by
    intro segment hs
    rcases List.mem_append.mp hs with hs | hs
    · exact List.eq_of_mem_replicate hs
    · exact List.mem_singleton.mp hs
  refine ⟨rfl, fun segment hs => ?_, fun segment hs => ?_⟩
  · rw [hall segment hs]
    decide
  · rw [hall segment hs]
    decide

theorem stageOne_deepName {folders : Nat} (h : 2048 ≤ folders) (stage : Stage host) (body : Body) :
    Partials.stageOne stage (deepName (folders + 1)) body
      = .error (.io (.staging (deepName (folders + 1))) .nameTooLong) := by
  have hp := parts_deepName (folders + 1)
  have hparent : Path.ofSegments (List.replicate (folders + 1) "a") = deepName folders := by
    rw [List.replicate_succ']
    rfl
  have hnul := (parts_deepName folders).nul_notMem
  have hlong : maxPath < Route.size host.staging (deepName folders) := by
    rw [Route.size, utf8ByteSize_deepName, maxPath]
    omega
  have hmake : stage.makeFolders (deepName folders) = (.error .nameTooLong, stage) := by
    rw [Store.makeFolders, if_neg hnul, if_pos hlong]
  rw [Partials.stageOne, hp.stagePath?_eq]
  simp only [hp.parent?_eq, hparent, hmake]

theorem render_of_unstaged_key {key : String} {body : Body} (hne : "x" ≠ key)
    (hone : ∀ (stage : Stage host) body, Partials.stageOne stage key body
      = .error (.io (.staging key) .nameTooLong))
    (hb : compile store (inclusionSource "x") = .ok body) :
    ¬ Endless (Partials.find (Index.ofList [(key, ⟨"", [], []⟩)])) body.nodes ∧
    (∀ depth, body.renderByName (depth + 1) [] (Index.ofList [(key, ⟨"", [], []⟩)]) = .ok "") ∧
    body.render store "page" [] (Index.ofList [(key, ⟨"", [], []⟩)])
      = .error (.error (.io (.staging key) .nameTooLong)) := by
  have hnodes := nodes_of_inclusionSource (by decide) (by decide) (by decide) hb
  have hfind : Partials.find (Index.ofList [(key, ⟨"", [], []⟩)]) "x" = [] := by
    have hg : (Index.ofList [(key, (⟨"", [], []⟩ : Body))]).get? "x" = none := by
      show List.lookup "x" [(key, (⟨"", [], []⟩ : Body))] = none
      rw [List.lookup_cons, beq_false_of_ne hne]
      rfl
    rw [Partials.find, hg]
    rfl
  have hstage : Partials.stage store (Index.ofList [(key, ⟨"", [], []⟩)])
      = .error (.io (.staging key) .nameTooLong) := by
    show (Partials.stageOne (Stage.fresh store) key ⟨"", [], []⟩ >>= pure) = _
    rw [hone]
    rfl
  refine ⟨?_, fun depth => ?_, ?_⟩
  · rintro ⟨chain, hfirst, hnext⟩
    have hx : chain 0 = "x" := by
      simpa [hnodes, Node.inclusions, Node.ownInclusions] using hfirst
    have hsecond := hnext 0
    rw [hx, hfind] at hsecond
    cases hsecond
  · rw [renderByName, hnodes, Stage.render_inclusion_succ, hfind]
    rfl
  · rw [render_of_references_ne_nil hb
      (references_of_inclusionSource (by decide) (by decide) (by decide) hb), renderStaged, hstage]

/-- A key longer than paths may be, though its segments are short: it cannot be staged. -/
theorem render_ne_renderByName_deep : ∃ body,
    compile Store.empty (inclusionSource "x") = .ok body ∧ compile Store.empty "" = .ok ⟨"", [], []⟩ ∧
    KeepsDelims (inclusionSource "x") ∧ Partials.Plain (deepName 2100) ∧
    (∀ name ∈ Node.inclusions body.nodes, Partials.Plain name) ∧
    ¬ Endless (Partials.find (Index.ofList [(deepName 2100, ⟨"", [], []⟩)])) body.nodes ∧
    (∀ depth, body.renderByName (depth + 1) [] (Index.ofList [(deepName 2100, ⟨"", [], []⟩)])
      = .ok "") ∧
    body.render Store.empty "page" [] (Index.ofList [(deepName 2100, ⟨"", [], []⟩)])
      = .error (.error (.io (.staging (deepName 2100)) .nameTooLong)) := by
  obtain ⟨body, hb, ht⟩ : ∃ body, compile Store.empty (inclusionSource "x") = .ok body ∧
      decide (Node.inclusions body.nodes = ["x"]) = true := exists_ok (by decide +kernel)
  have hne : "x" ≠ deepName 2100 := by
    intro he
    have hsize := utf8ByteSize_deepName 2100
    rw [← he] at hsize
    exact absurd hsize (by decide)
  refine ⟨body, hb, rfl, by decide +kernel, (parts_deepName 2100).isPlain, fun name hm => ?_,
    render_of_unstaged_key hne (stageOne_deepName (by omega)) hb⟩
  rw [of_decide_eq_true ht] at hm
  rw [List.mem_singleton.mp hm]
  decide

end Body

end Folio
