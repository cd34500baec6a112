import Folio.Proofs.Files.Walking
import Folio.Proofs.Template.Shortcut
/-!
# Staging

Each partial is written to one file, and a later one that leads to the same location is written over
it. What is staged last for the location where a tag looks is what the tag gets.
-/

namespace Folio

open Files Markup

variable {host : Host} {store : Store host}

/-! ## A new stage -/

theorem Stage.get?_fresh (store : Store host) (location : Location) :
    (Stage.fresh store).get? location =
      if location = host.stageFolder then some .folder
      else if host.stageFolder <+: location then none
      else store.get? location := by
  have hkept : ((store.index.filter fun item => ¬ host.stageFolder <+: item.1).get? location)
      = if host.stageFolder <+: location then none else store.get? location := by
    ext entry
    rw [Index.get?_eq_some_iff]
    show (location, entry) ∈ List.filter _ _ ↔ _
    rw [List.mem_filter]
    split
    · simp [*]
    · simp [*, Store.get?_eq_some_iff, Store.entries]
  rw [Store.get?, Stage.fresh, Index.get?_insert, hkept]

theorem Stage.get?_fresh_below (store : Store host) {location : Location} (hne : location ≠ []) :
    (Stage.fresh store).get? (host.staging.here ++ location) = none := by
  have hin : host.stageFolder <+: host.staging.here ++ location := List.prefix_append _ _
  rw [Stage.get?_fresh, if_neg, if_pos hin]
  exact fun he => hne (List.append_right_eq_self.mp he)

namespace Partials

def Compiled (store : Store host) (partials : Partials) : Prop :=
  ∀ name body, partials.get? name = some body → Body.compile store body.source = .ok body

/-- The location that a partial is staged at. -/
def stagedAt? (host : Host) (name : String) : Option Location :=
  (stagePath? name).map (Route.location host.staging)

/-- A partial is staged where tags look it up, and no partial after it is staged there. -/
structure StagedLast (host : Host) (partials : Partials) (name : String) : Prop where
  path : stagePath? name = some (name ++ "." ++ Stage.extension)
  last : ∀ later ∈ partials.keys, name < later → stagedAt? host later ≠ stagedAt? host name

instance (partials : Partials) (name : String) : Decidable (StagedLast host partials name) :=
  decidable_of_iff (stagePath? name = some (name ++ "." ++ Stage.extension) ∧
      ∀ later ∈ partials.keys, name < later → stagedAt? host later ≠ stagedAt? host name)
    ⟨fun h => ⟨h.1, h.2⟩, fun h => ⟨h.path, h.last⟩⟩

/-! ## One partial -/

theorem stageOne_eq_ok {stage stage' : Stage host} {name : String} {body : Body}
    (h : stageOne stage name body = .ok stage') :
    (stagePath? name = none ∧ stage' = stage) ∨
      ∃ path among made, stagePath? name = some path ∧ Store.Makes among stage made ∧
        made.write path body.source.toUTF8 = .ok stage' := by
  rw [stageOne] at h
  split at h
  · rename_i hn
    exact .inl ⟨hn, (Except.ok.inj h).symm⟩
  · rename_i path hp
    right
    cases hf : Path.parent? path with
    | none =>
      rw [hf] at h
      simp only at h
      cases hw : stage.write path body.source.toUTF8 with
      | error fault =>
        rw [hw] at h
        cases h
      | ok written =>
        rw [hw] at h
        cases h
        exact ⟨path, fun _ => True, stage, hp, .refl _ stage, hw⟩
    | some folder =>
      have hm := Store.makes_makeFolders stage folder
      rw [hf] at h
      simp only at h
      cases hk : stage.makeFolders folder with
      | mk made stage'' =>
        rw [hk] at h hm
        simp only at h
        cases made with
        | error fault => cases h
        | ok _ =>
          simp only at h
          cases hw : stage''.write path body.source.toUTF8 with
          | error fault =>
            rw [hw] at h
            cases h
          | ok written =>
            rw [hw] at h
            cases h
            exact ⟨path, _, stage'', hp, hm, hw⟩

theorem grows_stageOne {stage stage' : Stage host} {name : String} {body : Body}
    (h : stageOne stage name body = .ok stage') : Store.Grows stage stage' := by
  rcases stageOne_eq_ok h with ⟨-, rfl⟩ | ⟨path, among, made, -, hm, hw⟩
  · exact .refl stage'
  · obtain ⟨-, -, hw, -⟩ := Store.write_eq_ok hw
    exact hm.grows.trans hw.grows

theorem stageOne_elsewhere {stage stage' : Stage host} {name : String} {body : Body}
    {location : Location} {entry : Entry} (h : stageOne stage name body = .ok stage')
    (hl : stagedAt? host name ≠ some location) (he : stage.get? location = some entry) :
    stage'.get? location = some entry := by
  rcases stageOne_eq_ok h with ⟨-, rfl⟩ | ⟨path, among, made, hp, hm, hw⟩
  · exact he
  · obtain ⟨-, -, hw, -⟩ := Store.write_eq_ok hw
    rw [hw.elsewhere]
    · exact hm.keeps he
    · rintro rfl
      exact hl (by rw [stagedAt?, hp]; rfl)

theorem stageOne_file {stage stage' : Stage host} {name : String} {body : Body}
    {location : Location} {content : ByteArray} (h : stageOne stage name body = .ok stage')
    (hf : stage'.get? location = some (.file content)) :
    stage.get? location = some (.file content) ∨
      stagedAt? host name = some location ∧ content = body.source.toUTF8 := by
  rcases stageOne_eq_ok h with ⟨-, rfl⟩ | ⟨path, among, made, hp, hm, hw⟩
  · exact .inl hf
  · obtain ⟨-, -, hw, -⟩ := Store.write_eq_ok hw
    by_cases hl : location = Route.location host.staging path
    · subst hl
      rw [hw.here] at hf
      cases hf
      exact .inr ⟨by rw [stagedAt?, hp]; rfl, rfl⟩
    · rw [hw.elsewhere location hl] at hf
      rcases hm location with hs | ⟨-, hd, -⟩
      · rw [hs] at hf
        exact .inl hf
      · rw [hd] at hf
        cases hf

/-! ## All partials -/

variable {partials : Partials} {stage : Stage host} {name : String} {body : Body}

/-- Every file on a stage is a partial or lay outside before. -/
theorem file_of_stage (h : partials.stage store = .ok stage) {location : Location}
    {content : ByteArray} (hf : stage.get? location = some (.file content)) :
    (∃ name body, partials.get? name = some body ∧ stagedAt? host name = some location ∧
      content = body.source.toUTF8) ∨
    ¬ host.stageFolder <+: location ∧ store.get? location = some (.file content) := by
  refine foldlM_invariant (fun stage : Stage host => ∀ l content,
    stage.get? l = some (.file content) →
    (∃ name body, partials.get? name = some body ∧ stagedAt? host name = some l ∧
      content = body.source.toUTF8) ∨
    ¬ host.stageFolder <+: l ∧ store.get? l = some (.file content)) h ?_ ?_ location content hf
  · intro l content hl
    rw [Stage.get?_fresh] at hl
    split at hl
    · cases hl
    · split at hl
      · cases hl
      · rename_i hout
        exact .inr ⟨hout, hl⟩
  · intro item hi before after hs hb l content hl
    cases stageOne_file hs hl with
    | inl hl => exact hb l content hl
    | inr hl => exact .inl ⟨item.1, item.2, Index.get?_eq_some_iff.mpr hi, hl⟩

theorem later_of_append {κ α : Type} [LT κ] {index : Index κ α} {before after : List (κ × α)}
    {entry : κ × α} (h : index.entries = before ++ entry :: after) :
    ∀ item ∈ after, entry.1 < item.1 := by
  have hs := index.sorted
  rw [h, List.pairwise_append] at hs
  exact (List.pairwise_cons.mp hs.2.1).1

/-- A partial that is staged last where tags look it up is read back from there. -/
theorem readText_of_stagedLast (hs : partials.stage store = .ok stage)
    (hb : partials.get? name = some body) (hl : StagedLast host partials name) :
    stage.readText (name ++ "." ++ Stage.extension) = .ok body.source := by
  obtain ⟨before, after, he⟩ := List.append_of_mem (Index.get?_eq_some_iff.mp hb)
  rw [Partials.stage, he, List.foldlM_append] at hs
  obtain ⟨first, -, hs⟩ := bind_eq_ok.mp hs
  rw [List.foldlM_cons] at hs
  obtain ⟨second, ho, hs⟩ := bind_eq_ok.mp hs
  rcases stageOne_eq_ok ho with ⟨hn, -⟩ | ⟨path, among, made, hp, -, hw⟩
  · rw [hl.path] at hn
    cases hn
  · rw [hl.path] at hp
    obtain rfl := Option.some.inj hp
    obtain ⟨hc, ht, hw, hk⟩ := Store.write_eq_ok hw
    have hat : stagedAt? host name
        = some (Route.location host.staging (name ++ "." ++ Stage.extension)) := by
      rw [stagedAt?, hl.path]
      rfl
    have hkept := foldlM_invariant (fun stage : Stage host => Store.Grows second stage ∧
        stage.get? (Route.location host.staging (name ++ "." ++ Stage.extension))
          = some (.file body.source.toUTF8)) hs ⟨.refl second, hw.here⟩ <| by
      intro item hi stage stage' hone hkept
      refine ⟨hkept.1.trans (grows_stageOne hone), stageOne_elsewhere hone ?_ hkept.2⟩
      rw [← hat]
      refine hl.last item.1 ?_ (later_of_append he item hi)
      rw [Index.keys, he]
      exact List.mem_map_of_mem (List.mem_append_right _ (List.mem_cons_of_mem _ hi))
    exact Store.readText_of_walk hc ht (hkept.1.walk hk) hkept.2

end Partials

/-! ## What a tag finds -/

namespace Stage

/-- The body that a stage holds for a name; without text if there is no such file. -/
def bodyOf (stage : Stage host) (name : String) : Except TemplateError Body :=
  match stage.readText (name ++ "." ++ extension) with
  | .ok source =>
    match Node.ofSource source.toList with
    | .ok nodes => .ok ⟨source, nodes, []⟩
    | .error fault => .error (.malformed fault)
  | .error .notFound => .ok ⟨"", [], []⟩
  | .error _ => .error .partialUnreadable

theorem load_eq_map_bodyOf (stage : Stage host) (name : String) :
    stage.load name = (stage.bodyOf name).map Body.nodes := by
  rw [load, bodyOf]
  cases hr : stage.readText (name ++ "." ++ extension) with
  | error fault => cases fault <;> rfl
  | ok source =>
    simp only
    cases Node.ofSource source.toList <;> rfl

theorem ofSource_of_bodyOf {stage : Stage host} {name : String} {body : Body}
    (h : stage.bodyOf name = .ok body) : Node.ofSource body.source.toList = .ok body.nodes := by
  rw [bodyOf] at h
  split at h
  · split at h
    · rename_i ho
      cases h
      exact ho
    · cases h
  · cases h
    rfl
  · cases h

/-- Whatever partials of a tree cannot be loaded, it is for one and the same cause. -/
def FailsAlike (stage : Stage host) (nodes : List Node) : Prop :=
  ∀ name other cause cause', Leads stage.find nodes name → Leads stage.find nodes other →
    stage.load name = .error cause → stage.load other = .error cause' → cause = cause'

/-- A tag for a name looks inside the staging folder. -/
def LooksInside (host : Host) (name : String) : Prop :=
  host.stageFolder <+: Route.location host.staging (name ++ "." ++ extension)

theorem eq_partialUnreadable_of_looksInside {partials : Partials} {stage : Stage host} {name : String}
    {cause : TemplateError} (hp : partials.Compiled store) (hs : partials.stage store = .ok stage)
    (hin : LooksInside host name) (h : stage.load name = .error cause) :
    cause = .partialUnreadable := by
  rw [load] at h
  split at h
  · rename_i source hr
    obtain ⟨location, content, hlocate, hfile, htext⟩ := Store.readText_eq_ok.mp hr
    obtain rfl := Store.location_of_locate hlocate
    rcases Partials.file_of_stage hs hfile with ⟨other, found, hg, -, rfl⟩ | ⟨hout, -⟩
    · rw [Store.fromUTF8?_toUTF8] at htext
      obtain rfl := Option.some.inj htext
      rw [(Body.compile_eq_ok (hp other found hg)).2.1] at h
      cases h
    · exact absurd hin hout
  · cases h
  · cases h
    rfl

/-- Inside the staging folder is nothing that has no tree, so one cause is left. -/
theorem failsAlike_of_looksInside {partials : Partials} {stage : Stage host} {nodes : List Node}
    (hp : partials.Compiled store) (hs : partials.stage store = .ok stage)
    (hin : ∀ name, Leads stage.find nodes name → LooksInside host name) : stage.FailsAlike nodes := by
  intro name other cause cause' hl hl' h h'
  rw [eq_partialUnreadable_of_looksInside hp hs (hin name hl) h,
    eq_partialUnreadable_of_looksInside hp hs (hin other hl') h']

theorem leads_inclusion_iff {find : String → List Node} {name inner : String} :
    Leads find [.inclusion name ""] inner ↔ inner = name ∨ Leads find (find name) inner := by
  constructor
  · intro h
    induction h with
    | here hm => exact .inl (by simpa [Node.inclusions, Node.ownInclusions] using hm)
    | next _ hi ih =>
      rcases ih with rfl | hl
      · exact .inr (.here hi)
      · exact .inr (.next hl hi)
  · have hname : Leads find [.inclusion name ""] name :=
      .here (by simp [Node.inclusions, Node.ownInclusions])
    rintro (rfl | h)
    · exact hname
    · induction h with
      | here hm => exact .next hname hm
      | next _ hi ih => exact .next ih hi

theorem render_inclusion_zero (find : String → List Node) (name : String) (context : Fields) :
    Markup.render find 0 [.inclusion name ""] context = .error .tooDeep :=
  rfl

theorem render_inclusion_succ (find : String → List Node) (depth : Nat) (name : String)
    (context : Fields) : Markup.render find (depth + 1) [.inclusion name ""] context
      = Markup.render find depth (find name) context := by
  have hi : ("" : String) ++ "" = "" := rfl
  simp only [Markup.render, renderNodes, renderNode, renderPartial, hi]
  cases renderNodes (renderPartial find depth) "" (find name) [.object context] {} <;> rfl

/-! ## A tag alone -/

variable {stage : Stage host} {name : String} {tag found : Body} {tree : List Node}

theorem load_of_bodyOf (hf : stage.bodyOf name = .ok found) : stage.load name = .ok found.nodes := by
  rw [load_eq_map_bodyOf, hf]
  rfl

theorem compile_tag (ho : Node.ofSource tag.source.toList = .ok tag.nodes)
    (ht : tag.nodes = [.inclusion name ""]) : stage.compile tag.source
      = (stage.load name >>= fun tree =>
        stage.gather (stage.loadBound []) [(name, tree)] (Node.inclusions tree)).map
          (⟨tag.nodes, ·⟩) := by
  have hone : Node.inclusions tag.nodes = [name] := by
    simp [ht, Node.inclusions, Node.ownInclusions]
  have hbound : stage.loadBound tag.nodes = stage.loadBound [] + 1 := by
    rw [loadBound_eq_add, hone, List.length_singleton, Nat.add_comm]
  have hnext : stage.gather (stage.loadBound [] + 1) [] ([] ++ [name])
      = stage.load name >>= fun tree =>
        stage.gather (stage.loadBound []) ([] ++ [(name, tree)]) (Node.inclusions tree ++ []) :=
    gather_of_unknown (List.forall_mem_nil _) List.not_mem_nil _
  simp only [List.nil_append, List.append_nil] at hnext
  rw [compile_eq_map_gather ho, hone, hbound, hnext]

theorem compile_tag_of_error {cause : TemplateError}
    (ho : Node.ofSource tag.source.toList = .ok tag.nodes) (ht : tag.nodes = [.inclusion name ""])
    (hl : stage.load name = .error cause) : stage.compile tag.source = .error cause := by
  rw [compile_tag ho ht, hl]
  rfl

/-- For a partial that is loaded and does not come back to itself, compiling its tag finds what
compiling the partial does, and the partial besides. -/
theorem compile_tag_of_load (ho : Node.ofSource tag.source.toList = .ok tag.nodes)
    (ht : tag.nodes = [.inclusion name ""]) (hf : stage.bodyOf name = .ok found)
    (hn : ¬ Leads stage.find found.nodes name) : stage.compile tag.source
      = (stage.compile found.source).map fun linked =>
        ⟨tag.nodes, (name, found.nodes) :: linked.partials⟩ := by
  have hload := load_of_bodyOf hf
  have hall : ∀ name tree, stage.load name = .ok tree → Node.inclusions tree ⊆ stage.namesIn [] :=
    fun name tree => inclusions_subset_namesIn []
  have hlength := length_namesIn stage []
  have hapart : ∀ other, Leads stage.find found.nodes other → other ∉ names [(name, found.nodes)] := by
    intro other ho hm
    rw [List.mem_singleton.mp hm] at ho
    exact hn ho
  have hbeside : stage.gather (stage.loadBound []) ([(name, found.nodes)] ++ [])
      (Node.inclusions found.nodes) = _ :=
    gather_beside hapart (fun other ho inner hi => .next ho hi) fun other hm => .here hm
  have hloads : stage.loadBound [] ≤ stage.loadBound found.nodes := by
    rw [loadBound_eq_add stage found.nodes]
    exact Nat.le_add_left _ _
  have hmore := gather_of_le hall (gathered_start stage (Node.inclusions found.nodes))
    (List.nil_subset _) (hall name found.nodes hload) (by simp only [List.length_nil]; omega) hloads
  rw [compile_tag ho ht, hload, compile_eq_map_gather (ofSource_of_bodyOf hf), hmore]
  simp only [ok_bind]
  rw [List.append_nil] at hbeside
  rw [hbeside]
  cases stage.gather (stage.loadBound []) [] (Node.inclusions found.nodes) <;> rfl

theorem compile_error_iff {source : String} {cause : TemplateError}
    (ho : Node.ofSource source.toList = .ok tree) (halike : stage.FailsAlike tree) :
    stage.compile source = .error cause ↔
      ∃ inner, Leads stage.find tree inner ∧ stage.load inner = .error cause := by
  constructor
  · exact compile_error ho
  · rintro ⟨inner, hl, he⟩
    cases hc : stage.compile source with
    | error other =>
      obtain ⟨inner', hl', he'⟩ := compile_error ho hc
      rw [halike inner inner' cause other hl hl' he he']
    | ok linked =>
      obtain ⟨ho', hfound⟩ := compile_ok hc
      rw [Except.ok.inj (ho.symm.trans ho')] at hl
      rw [hfound inner hl] at he
      cases he

theorem compile_tag_error_iff {cause : TemplateError}
    (ho : Node.ofSource tag.source.toList = .ok tag.nodes) (ht : tag.nodes = [.inclusion name ""])
    (hf : stage.bodyOf name = .ok found)
    (hn : ¬ Leads stage.find found.nodes name ∨ stage.FailsAlike found.nodes) :
    stage.compile tag.source = .error cause ↔ stage.compile found.source = .error cause := by
  cases hn with
  | inl hn =>
    rw [compile_tag_of_load ho ht hf hn]
    cases stage.compile found.source <;> simp [Except.map]
  | inr halike =>
    have hload := load_of_bodyOf hf
    -- the partial of the tag itself is loaded, so what fails is one that it leads to
    have hfails : ∀ inner cause,
        Leads stage.find tag.nodes inner ∧ stage.load inner = .error cause ↔
          Leads stage.find found.nodes inner ∧ stage.load inner = .error cause := by
      intro inner cause
      rw [ht, leads_inclusion_iff, find_of_load hload]
      constructor
      · rintro ⟨rfl | hl, he⟩
        · rw [hload] at he
          cases he
        · exact ⟨hl, he⟩
      · rintro ⟨hl, he⟩
        exact ⟨.inr hl, he⟩
    have halike' : stage.FailsAlike tag.nodes := by
      intro inner other cause cause' hl hl' he he'
      apply halike inner other cause cause' _ _ he he'
      · exact ((hfails inner cause).mp ⟨hl, he⟩).1
      · exact ((hfails other cause').mp ⟨hl', he'⟩).1
    rw [compile_error_iff ho halike', compile_error_iff (ofSource_of_bodyOf hf) halike]
    exact exists_congr fun inner => hfails inner cause

end Stage

namespace Body

variable {partials : Partials} {stage : Stage host} {name : String} {tag found : Body}

theorem renderStaged_of_compile_error {cause : TemplateError} (hs : partials.stage store = .ok stage)
    (h : stage.compile tag.source = .error cause) (title : String) (context : Fields) :
    tag.renderStaged store title context partials = .error (.error (.render title cause)) := by
  simp only [renderStaged, hs, h]

theorem renderStaged_of_compile {linked : Linked} (hs : partials.stage store = .ok stage)
    (h : stage.compile tag.source = .ok linked) (title : String) (context : Fields) :
    tag.renderStaged store title context partials = renderLinked linked context := by
  simp only [renderStaged, hs, h]

/-- A tag alone renders as the body that the stage holds for its name. If that body comes back to the
name, the search takes its partials in another order, so different causes of failing might change
places. -/
theorem renderStaged_tag (hs : partials.stage store = .ok stage)
    (ho : Node.ofSource tag.source.toList = .ok tag.nodes) (ht : tag.nodes = [.inclusion name ""])
    (hf : stage.bodyOf name = .ok found)
    (hn : ¬ Leads stage.find found.nodes name ∨ stage.FailsAlike found.nodes) (title : String)
    (context : Fields) :
    tag.renderStaged store title context partials
      = found.renderStaged store title context partials := by
  have hfind := Stage.find_of_load (Stage.load_of_bodyOf hf)
  have hfo := Stage.ofSource_of_bodyOf hf
  cases hc : stage.compile tag.source with
  | error cause =>
    have hc' := (Stage.compile_tag_error_iff ho ht hf hn).mp hc
    rw [renderStaged_of_compile_error hs hc, renderStaged_of_compile_error hs hc']
  | ok linked =>
    cases hc' : stage.compile found.source with
    | error cause =>
      rw [(Stage.compile_tag_error_iff ho ht hf hn).mpr hc'] at hc
      cases hc
    | ok linked' =>
      have hnodes : tag.nodes = linked.nodes :=
        Except.ok.inj (ho.symm.trans (Stage.compile_ok hc).1)
      have hnodes' : found.nodes = linked'.nodes :=
        Except.ok.inj (hfo.symm.trans (Stage.compile_ok hc').1)
      have hdepth : ∀ depth, Markup.render linked.find (depth + 1) linked.nodes context
          = Markup.render linked'.find depth linked'.nodes context := by
        intro depth
        rw [Stage.render_compiled hc, Stage.render_compiled hc', ← hnodes, ← hnodes', ht,
          Stage.render_inclusion_succ, hfind]
      rw [renderStaged_of_compile hs hc, renderStaged_of_compile hs hc']
      apply renderLinked_congr
      refine Linked.render_eq_of_follows (fun depth hd => ?_) fun depth _ => ⟨depth + 1, hdepth depth⟩
      cases depth with
      | zero =>
        rw [Stage.render_compiled hc, ← hnodes, ht, Stage.render_inclusion_zero] at hd
        exact absurd rfl hd
      | succ depth => exact ⟨depth, (hdepth depth).symm⟩

theorem renderStaged_tag_error {cause : TemplateError} (hs : partials.stage store = .ok stage)
    (ho : Node.ofSource tag.source.toList = .ok tag.nodes) (ht : tag.nodes = [.inclusion name ""])
    (hf : stage.bodyOf name = .error cause) (title : String) (context : Fields) :
    tag.renderStaged store title context partials = .error (.error (.render title cause)) := by
  have hload : stage.load name = .error cause := by
    rw [Stage.load_eq_map_bodyOf, hf]
    rfl
  exact renderStaged_of_compile_error hs (Stage.compile_tag_of_error ho ht hload) title context

end Body

end Folio
