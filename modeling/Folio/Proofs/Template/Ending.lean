import Folio.Proofs.Markup.Chains
import Folio.Proofs.Markup.Nesting
import Folio.Proofs.Template.ByName
import Folio.Proofs.Template.Staging
/-!
# Renderings that come to an end

Where the files that tags open one after the other never come round to one of them again, there are
at most as many on a chain as there are files; if none lies outside the stage, as many as partials. So
a rendering nests partials no deeper than that, and neither the bound on its depth nor the one on the
loads of compiling has a say in it.
-/

namespace Folio

variable {host : Host}

open Files Markup

/-! ## What tags open -/

theorem Files.Store.read_eq_ok {store : Store host} {path : String} {content : ByteArray} :
    store.read path = .ok content ↔ store.locate path = .ok (Route.location host path) ∧
      store.get? (Route.location host path) = some (.file content) := by
  rw [read]
  cases hl : store.locate path with
  | error fault => simp [bind, Except.bind]
  | ok location =>
    obtain rfl := location_of_locate hl
    cases hg : store.get? (Route.location host path) with
    | none => simp [hg, bind, Except.bind]
    | some entry => cases entry <;> simp [hg, bind, Except.bind, pure, Except.pure]

namespace Stage

/-- The location of the file that a tag opens, if there is one to be read. -/
def opened? (stage : Stage host) (name : String) : Option Location :=
  match stage.read (Partials.lookupPath name) with
  | .ok _ => some (Route.location host.staging (Partials.lookupPath name))
  | .error _ => none

def treeAt (stage : Stage host) (location : Location) : List Node :=
  match stage.get? location with
  | some (.file content) =>
    ((String.fromUTF8? content).bind fun source =>
      (Node.ofSource source.toList).toOption).getD []
  | _ => []

def tree? (stage : Stage host) (name : String) : Option (List Node) :=
  (stage.opened? name).map stage.treeAt

/-- A tag in nodes opens a file. -/
def Opens (stage : Stage host) (nodes : List Node) (location : Location) : Prop :=
  ∃ name ∈ Node.inclusions nodes, stage.opened? name = some location

/-- Files that are opened one after the other, from nodes on. -/
def OpenedInTurn (stage : Stage host) (nodes : List Node) : List Location → Prop :=
  Chained (stage.Opens nodes) fun outer => stage.Opens (stage.treeAt outer)

/-- No file that is opened in turn from nodes on lies outside the stage. -/
def Confined (stage : Stage host) (nodes : List Node) : Prop :=
  ∀ locations, stage.OpenedInTurn nodes locations → ∀ location ∈ locations,
    host.stageFolder <+: location

/-- Of the files that are opened in turn from nodes on none is opened twice. -/
def Untangled (stage : Stage host) (nodes : List Node) : Prop :=
  NeverReturns (stage.Opens nodes) fun outer => stage.Opens (stage.treeAt outer)

variable {stage : Stage host}

theorem isFile_of_opened? {name : String} {location : Location}
    (h : stage.opened? name = some location) :
    ∃ content, stage.get? location = some (.file content) := by
  rw [opened?] at h
  split at h
  · rename_i content hr
    cases h
    exact ⟨content, (Store.read_eq_ok.mp hr).2⟩
  · cases h

theorem find_eq (name : String) : stage.find name = (stage.tree? name).getD [] := by
  have hpath : name ++ "." ++ extension = Partials.lookupPath name := rfl
  rw [find, load, hpath, Store.readText, tree?, opened?]
  cases hr : stage.read (Partials.lookupPath name) with
  | error fault => cases fault <;> rfl
  | ok content =>
    have htree : stage.treeAt (Route.location host.staging (Partials.lookupPath name))
        = ((String.fromUTF8? content).bind fun source =>
          (Node.ofSource source.toList).toOption).getD [] := by
      rw [treeAt, (Store.read_eq_ok.mp hr).2]
    simp only [Option.map_some, Option.getD_some, htree, ok_bind]
    cases hu : String.fromUTF8? content with
    | none => rfl
    | some source =>
      simp only [Option.bind_some]
      cases ho : Node.ofSource source.toList <;>
        simp [ho, pure, Except.pure, Except.mapError, Except.toOption]

theorem openedInTurn_cons {nodes : List Node} {location : Location} {rest : List Location} :
    stage.OpenedInTurn nodes (location :: rest) ↔
      stage.Opens nodes location ∧ stage.OpenedInTurn (stage.treeAt location) rest :=
  chained_cons

/-- If only so many files are opened in turn, no more are nested. -/
theorem nestedWithin_of_length_le {nodes : List Node} {depth : Nat}
    (h : ∀ locations, stage.OpenedInTurn nodes locations → locations.length ≤ depth) :
    NestedWithin stage.tree? depth (Node.inclusions nodes) := by
  induction depth generalizing nodes with
  | zero =>
    intro name hm
    rw [tree?, Option.map_eq_none_iff, Option.eq_none_iff_forall_ne_some]
    intro location ho
    have hone := h [location] (openedInTurn_cons.mpr ⟨⟨name, hm, ho⟩, chained_nil⟩)
    exact absurd hone (by simp)
  | succ depth ih =>
    intro name hm tree ht
    obtain ⟨location, ho, rfl⟩ := Option.map_eq_some_iff.mp ht
    refine ih fun locations hl => ?_
    have hmore := h (location :: locations) (openedInTurn_cons.mpr ⟨⟨name, hm, ho⟩, hl⟩)
    exact Nat.le_of_succ_le_succ hmore

theorem untangled_of_rank (rank : Location → Nat) (h : ∀ item ∈ stage.entries,
    ∀ name ∈ Node.inclusions (stage.treeAt item.1), ∀ inner ∈ stage.opened? name,
      rank inner < rank item.1) (nodes : List Node) : stage.Untangled nodes := by
  refine neverReturns_of_rank rank fun outer inner ⟨name, hm, ho⟩ => ?_
  cases hg : stage.get? outer with
  | none => simp [treeAt, hg, Node.inclusions] at hm
  | some entry => exact h (outer, entry) (Store.get?_eq_some_iff.mp hg) name hm inner ho

theorem render_eq_of_nestedWithin {source : String} {linked : Linked} {depth : Nat}
    (hc : stage.compile source = .ok linked)
    (h : NestedWithin stage.tree? depth (Node.inclusions linked.nodes)) (context : Fields) :
    linked.render context = renderNested stage.tree? depth linked.nodes context ∧
      linked.render context ≠ .error .tooDeep := by
  obtain ⟨heq, hne⟩ := render_eq_renderNested find_eq h context
  rw [← render_compiled hc] at heq
  rw [Linked.render_eq_of_settles linked context (by rw [heq]; exact hne), heq]
  exact ⟨rfl, hne⟩

end Stage

/-! ## Rendering bodies -/

namespace Body

variable {store : Store host}

/-- The stage that a body is rendered with: a new one if there are no partials, or if the source
references none. -/
def stageFor (store : Store host) (body : Body) (partials : Partials) :
    Except SiteError (Stage host) :=
  if partials.isEmpty || body.references.isEmpty then .ok (Stage.fresh store)
  else partials.stage store

/-- The text of a body with what its tags open, gathered in so many loads and nested at most so
deep. -/
def renderNested (store : Store host) (loads depth : Nat) (name : String) (body : Body)
    (context : Fields) (partials : Partials) : Except Stop String :=
  match body.stageFor store partials with
  | .error error => .error (.error error)
  | .ok stage =>
    match stage.gather loads [] (Node.inclusions body.nodes) with
    | .error cause => .error (.error (.render name cause))
    | .ok _ => (Markup.renderNested stage.tree? depth body.nodes context).mapError stopOf

variable {source : String} {body : Body} {partials : Partials} {stage : Stage host}

theorem render_eq_stageFor (hb : compile store source = .ok body) (name : String)
    (context : Fields) :
    body.render store name context partials =
      match body.stageFor store partials with
      | .error error => .error (.error error)
      | .ok stage =>
        match stage.compile body.source with
        | .error cause => .error (.error (.render name cause))
        | .ok linked => renderLinked linked context := by
  rw [render_eq_ite, stageFor]
  split
  · exact (renderStaged_empty hb name context).symm
  · rfl

theorem file_of_opened {nodes : List Node} {locations : List Location} {location : Location}
    (h : stage.OpenedInTurn nodes locations) (hm : location ∈ locations) :
    ∃ content, stage.get? location = some (.file content) :=
  h.forall_mem (fun _ ⟨_, _, ho⟩ => Stage.isFile_of_opened? ho)
    (fun _ _ ⟨_, _, ho⟩ => Stage.isFile_of_opened? ho) location hm

theorem staged_of_file (hs : body.stageFor store partials = .ok stage) {location : Location}
    {content : ByteArray} (hin : host.stageFolder <+: location)
    (hf : stage.get? location = some (.file content)) :
    location ∈ partials.keys.filterMap (Partials.stagedAt? host) := by
  rw [stageFor] at hs
  split at hs
  · cases hs
    rw [Stage.get?_fresh, if_pos hin] at hf
    split at hf <;> cases hf
  · cases Partials.file_of_stage hs hf with
    | inl hstaged =>
      obtain ⟨name, other, hp, hat, -⟩ := hstaged
      exact List.mem_filterMap.mpr ⟨name, List.mem_map_of_mem (Index.get?_eq_some_iff.mp hp), hat⟩
    | inr hout => exact absurd hin hout.1

/-- Files opened in turn are no more than there are, and inside the stage no more than partials. -/
theorem length_openedInTurn_le (hs : body.stageFor store partials = .ok stage)
    (hu : stage.Untangled body.nodes) {locations : List Location}
    (h : stage.OpenedInTurn body.nodes locations) :
    locations.length ≤ stage.entries.length ∧
      (stage.Confined body.nodes → locations.length ≤ partials.size) := by
  have hnodup := hu locations h
  constructor
  · have hthere : locations ⊆ stage.entries.map Prod.fst := by
      intro location hm
      obtain ⟨content, hf⟩ := file_of_opened h hm
      exact List.mem_map_of_mem (Store.get?_eq_some_iff.mp hf)
    have hle := hnodup.length_le_of_subset hthere
    rwa [List.length_map] at hle
  · intro hconfined
    have hstaged : locations ⊆ partials.keys.filterMap (Partials.stagedAt? host) := by
      intro location hm
      obtain ⟨content, hf⟩ := file_of_opened h hm
      exact staged_of_file hs (hconfined locations h location hm) hf
    calc locations.length
        ≤ (partials.keys.filterMap (Partials.stagedAt? host)).length :=
          hnodup.length_le_of_subset hstaged
      _ ≤ partials.keys.length := List.length_filterMap_le _ _
      _ = partials.size := List.length_map ..

theorem render_eq_renderNested (hb : compile store source = .ok body) {loads depth : Nat}
    (hd : ∀ stage, body.stageFor store partials = .ok stage →
      stage.loadBound body.nodes ≤ loads ∧
      ∀ locations, stage.OpenedInTurn body.nodes locations → locations.length ≤ depth)
    (name : String) (context : Fields) :
    body.render store name context partials ≠ .error .endless ∧
      body.render store name context partials
        = body.renderNested store loads depth name context partials := by
  obtain ⟨hsource, ho, -⟩ := compile_eq_ok hb
  rw [render_eq_stageFor hb, renderNested]
  cases hs : body.stageFor store partials with
  | error error => exact ⟨nofun, rfl⟩
  | ok stage =>
    obtain ⟨hloads, hlength⟩ := hd stage hs
    have hcompile := Stage.compile_eq_gather ho hloads
    dsimp only
    rw [hsource, hcompile]
    cases hg : stage.gather loads [] (Node.inclusions body.nodes) with
    | error cause => exact ⟨nofun, rfl⟩
    | ok known =>
      rw [hg] at hcompile
      obtain ⟨heq, hne⟩ := Stage.render_eq_of_nestedWithin hcompile
        (Stage.nestedWithin_of_length_le hlength) context
      simp only [Except.map, renderLinked_eq_mapError]
      exact ⟨mapError_stopOf_ne_endless hne, by rw [heq]⟩

/-- Where the files that tags open in turn never come round to one again, rendering comes to an end:
with a text, an error or a halt at a value that cannot be written. No more files are opened in turn
than there are, and no more than partials if none of them lies outside the stage. Whatever loads and
depth are allowed beyond what the files opened in turn need, the result is the same. -/
theorem render_ends_of_untangled (hb : compile store source = .ok body)
    (hu : ∀ stage, body.stageFor store partials = .ok stage → stage.Untangled body.nodes)
    (name : String) (context : Fields) :
    body.render store name context partials ≠ .error .endless ∧
    (∀ stage, body.stageFor store partials = .ok stage → ∀ locations,
      stage.OpenedInTurn body.nodes locations → locations.length ≤ stage.entries.length ∧
        (stage.Confined body.nodes → locations.length ≤ partials.size)) ∧
    ∀ loads depth,
      (∀ stage, body.stageFor store partials = .ok stage → stage.loadBound body.nodes ≤ loads ∧
        (stage.entries.length ≤ depth ∨ stage.Confined body.nodes ∧ partials.size ≤ depth)) →
      body.render store name context partials
        = body.renderNested store loads depth name context partials := by
  have hlength : ∀ stage, body.stageFor store partials = .ok stage → ∀ locations,
      stage.OpenedInTurn body.nodes locations → locations.length ≤ stage.entries.length ∧
        (stage.Confined body.nodes → locations.length ≤ partials.size) :=
    fun stage hs locations => length_openedInTurn_le hs (hu stage hs)
  have hnested : ∀ loads depth,
      (∀ stage, body.stageFor store partials = .ok stage → stage.loadBound body.nodes ≤ loads ∧
        (stage.entries.length ≤ depth ∨ stage.Confined body.nodes ∧ partials.size ≤ depth)) →
      body.render store name context partials ≠ .error .endless ∧
        body.render store name context partials
          = body.renderNested store loads depth name context partials := by
    intro loads depth h
    apply render_eq_renderNested hb
    intro stage hs
    obtain ⟨hloads, hdepth⟩ := h stage hs
    refine ⟨hloads, fun locations hl => ?_⟩
    obtain ⟨hall, hinside⟩ := hlength stage hs locations hl
    cases hdepth with
    | inl hd => omega
    | inr hd =>
      have hsize := hinside hd.1
      omega
  refine ⟨?_, hlength, fun loads depth h => (hnested loads depth h).2⟩
  cases hs : body.stageFor store partials with
  | error error =>
    exact (hnested 0 0 fun stage h => by rw [hs] at h; cases h).1
  | ok stage =>
    apply (hnested (stage.loadBound body.nodes) stage.entries.length _).1
    intro other ho
    rw [hs] at ho
    cases ho
    exact ⟨Nat.le_refl _, .inl (Nat.le_refl _)⟩

/-- A partial that includes the two others, of which one includes the other. -/
def partialsInTurn : Partials :=
  .ofList ([("a", "\x7b\x7b> b\x7d\x7d\x7b\x7b> ./c\x7d\x7d"), ("b", "\x7b\x7b> c\x7d\x7d"),
    ("c", "x")].filterMap fun item =>
      (compile Store.empty item.2).toOption.map fun body => (item.1, body))

theorem render_ends_of_untangled_inTurn : ∃ body, compile Store.empty "\x7b\x7b> a\x7d\x7d" = .ok body ∧
    (∀ stage, body.stageFor Store.empty partialsInTurn = .ok stage →
      stage.Untangled body.nodes ∧ stage.Confined body.nodes) ∧
    ∀ context, body.render Store.empty "page" context partialsInTurn ≠ .error .endless ∧
      ∀ loads depth, 5 ≤ loads → 3 ≤ depth →
        body.render Store.empty "page" context partialsInTurn
          = body.renderNested Store.empty loads depth "page" context partialsInTurn := by
  obtain ⟨body, hb, ht⟩ : ∃ body, compile Store.empty "\x7b\x7b> a\x7d\x7d" = .ok body ∧
      decide (((partialsInTurn.isEmpty || body.references.isEmpty) = false) ∧
        Node.inclusions body.nodes = ["a"]) = true :=
    exists_ok (by decide +kernel)
  obtain ⟨hreferences, hinclusions⟩ := of_decide_eq_true ht
  obtain ⟨stage, hs, ht⟩ : ∃ stage, partialsInTurn.stage Store.empty = .ok stage ∧
      decide ((∀ item ∈ stage.entries, ∀ name ∈ Node.inclusions (stage.treeAt item.1),
        ∀ inner ∈ stage.opened? name, (["c", "b", "a"].map stage.opened?).idxOf (some inner)
          < (["c", "b", "a"].map stage.opened?).idxOf (some item.1)) ∧
        (∀ item ∈ stage.entries, item.2 = .folder ∨ Host.process.stageFolder <+: item.1) ∧
        stage.loadBound [] = 4) = true :=
    exists_ok (by decide +kernel)
  obtain ⟨hrank, hfiles, hloads⟩ := of_decide_eq_true ht
  have hfor : ∀ found, body.stageFor Store.empty partialsInTurn = .ok found → found = stage := by
    intro found hfound
    rw [stageFor, hreferences, if_neg (by decide), hs] at hfound
    exact (Except.ok.inj hfound).symm
  have hbound : stage.loadBound body.nodes = 5 := by
    rw [Stage.loadBound_eq_add, hinclusions, hloads]
    rfl
  have huntangled : stage.Untangled body.nodes := Stage.untangled_of_rank _ hrank body.nodes
  have hconfined : stage.Confined body.nodes := by
    intro locations hl location hm
    obtain ⟨content, hf⟩ := file_of_opened hl hm
    exact (hfiles _ (Store.get?_eq_some_iff.mp hf)).resolve_left (by simp)
  have hsize : partialsInTurn.size = 3 := by decide +kernel
  have hall : ∀ found, body.stageFor Store.empty partialsInTurn = .ok found →
      found.Untangled body.nodes ∧ found.Confined body.nodes := by
    intro found hfound
    rw [hfor found hfound]
    exact ⟨huntangled, hconfined⟩
  refine ⟨body, hb, hall, fun context => ?_⟩
  obtain ⟨hne, -, hnested⟩ :=
    render_ends_of_untangled hb (fun found hfound => (hall found hfound).1) "page" context
  refine ⟨hne, fun loads depth hl hd => hnested loads depth fun found hfound => ?_⟩
  rw [hfor found hfound, hbound, hsize]
  exact ⟨hl, .inr ⟨hconfined, hd⟩⟩

/-- A file in the working folder, which no partial is. -/
def strayFile : Store .process := .ofTexts [("a.mustache", "x")]

/-- A tag that leads out of the stage opens the file, though there are no partials at all. -/
theorem render_nests_stray : ∃ body stage,
    compile strayFile "\x7b\x7b> /proc/self/cwd/a\x7d\x7d" = .ok body ∧
    body.stageFor strayFile Index.empty = .ok stage ∧ stage.Untangled body.nodes ∧
    stage.OpenedInTurn body.nodes [Route.location .process "a.mustache"] ∧
    Index.size (Index.empty : Partials) = 0 ∧
    body.render strayFile "page" [] Index.empty = .ok "x" := by
  obtain ⟨body, hb, ht⟩ : ∃ body,
      compile strayFile "\x7b\x7b> /proc/self/cwd/a\x7d\x7d" = .ok body ∧
      decide (Node.inclusions body.nodes = ["/proc/self/cwd/a"] ∧
        (body.render strayFile "page" [] Index.empty).toOption = some "x") = true :=
    exists_ok (by decide +kernel)
  obtain ⟨hinclusions, hrender⟩ := of_decide_eq_true ht
  have hopened : (Stage.fresh strayFile).opened? "/proc/self/cwd/a"
      = some (Route.location .process "a.mustache") := by decide +kernel
  have hnone : ∀ item ∈ (Stage.fresh strayFile).entries,
      Node.inclusions ((Stage.fresh strayFile).treeAt item.1) = [] := by decide +kernel
  refine ⟨body, Stage.fresh strayFile, hb, rfl, ?_, ?_, rfl, eq_ok_of_toOption hrender⟩
  · apply Stage.untangled_of_rank fun _ => 0
    intro item hi name hm
    rw [hnone item hi] at hm
    cases hm
  · apply Stage.openedInTurn_cons.mpr
    refine ⟨⟨"/proc/self/cwd/a", ?_, hopened⟩, chained_nil⟩
    rw [hinclusions]
    exact List.mem_singleton_self _

end Body

end Folio
