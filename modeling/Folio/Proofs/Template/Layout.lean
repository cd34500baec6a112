import Folio.Proofs.Template.PlainName
import Folio.Proofs.Template.Staging
/-!
# The layout of a stage

Partials with plain names are all staged: what is on the stage then are their files, each under the
path that tags look up, in folders whose names hold no dot. So a stage is as good as the map of
partials itself.
-/

namespace Folio

variable {host : Host} {store : Files.Store host}

open Files Markup

namespace Partials

/-- What is on a stage below its folder once some partials are on it. -/
structure Layout (staged : List (String × Body)) (stage : Stage host) : Prop where
  folder : ∀ before name, stage.get? (host.staging.here ++ (before ++ [name])) = some .folder →
    Dotless name
  file : ∀ location content, host.stageFolder <+: location →
    stage.get? location = some (.file content) →
      ∃ item ∈ staged, location = Route.location host.staging (lookupPath item.1)
  placed : ∀ item ∈ staged,
    stage.get? (Route.location host.staging (lookupPath item.1)) = some (.file item.2.source.toUTF8)

theorem layout_fresh (store : Store host) : Layout [] (Stage.fresh store) := by
  refine ⟨fun before name h => ?_, fun location content hin h => ?_, by simp⟩
  · rw [Stage.get?_fresh_below store (by simp)] at h
    cases h
  · rw [Stage.get?_fresh, if_pos hin] at h
    split at h <;> cases h

variable {staged : List (String × Body)} {stage : Stage host} {name : String} {body : Body}
  {before : List String} {last : String}

theorem Layout.clear (h : Layout staged stage) (hs : ∀ item ∈ staged, Plain item.1)
    {names : List Name} (hd : ∀ folder ∈ names, Dotless folder) :
    Store.Clear stage host.staging.here names := by
  intro folders hp content hf
  obtain ⟨item, hi, hl⟩ := h.file _ content (List.prefix_append _ _) hf
  obtain ⟨before, last, hparts⟩ := (hs item hi).parts
  rw [hparts.location_eq] at hl
  have hm : Name.ofText (lookupPath last) ∈ folders := by
    rw [List.append_cancel_left hl]
    simp
  exact not_dotless_lookupPath last (hd _ (hp.subset hm))

theorem Layout.ne_folder (h : Layout staged stage) (hp : Parts name before last) :
    stage.get? (Route.location host.staging (lookupPath name)) ≠ some .folder := by
  rw [hp.location_eq]
  intro hf
  exact not_dotless_lookupPath last (h.folder _ _ hf)

/-- The folders of a plain name, the working folder among them. -/
def IsFolderOf (host : Host) (before : List String) (location : Location) : Prop :=
  ∃ folders, folders <+: before.map Name.ofText ∧ location = host.staging.here ++ folders

theorem Layout.makeFolders (h : Layout staged stage) (hs : ∀ item ∈ staged, Plain item.1)
    (hp : Parts name before last) (hf : Fits host.staging name) :
    ∃ made, stage.makeFolders (Path.ofSegments before) = (.ok (), made) ∧
      made.IsFolder (host.staging.here ++ before.map Name.ofText) ∧
      Store.Makes (IsFolderOf host before) stage made := by
  have hroot : stage.IsFolder host.staging.here := Store.isFolder_here stage
  have hclear := h.clear hs fun folder hm => hp.dotless_of_mem hm
  obtain ⟨made, hmade, hfolder⟩ := Store.makeFoldersAt_ok hroot hp.down.of_append hclear
  have hmakes := Store.makes_makeFoldersAt host.staging.here (before.map Name.ofText).reverse stage
  rw [hmade, List.reverse_reverse] at hmakes
  refine ⟨made, by rw [hp.makeFolders_eq hf, hmade], hfolder, hmakes.mono fun l hl => ?_⟩
  exact hl.exists_prefix hp.down.of_append

theorem Layout.makes {made : Stage host} (h : Layout staged stage) (hp : Parts name before last)
    (hm : Store.Makes (IsFolderOf host before) stage made) : Layout staged made := by
  refine ⟨fun folders x hx => ?_, fun location content hin hl => ?_, fun item hi => ?_⟩
  · rcases hm (host.staging.here ++ (folders ++ [x])) with he | ⟨-, -, names, hpre, he⟩
    · rw [he] at hx
      exact h.folder folders x hx
    · rw [← List.append_cancel_left he] at hpre
      exact hp.dotless_of_mem (hpre.subset (by simp))
  · rcases hm location with he | ⟨-, hd, -⟩
    · rw [he] at hl
      exact h.file location content hin hl
    · rw [hd] at hl
      cases hl
  · exact hm.keeps (h.placed item hi)

theorem Layout.written {made : Stage host} (h : Layout staged stage)
    (hs : ∀ item ∈ staged, Plain item.1) (hplain : Plain name) (hnew : ∀ item ∈ staged, item.1 ≠ name)
    (hw : Store.Written (Route.location host.staging (lookupPath name)) body.source.toUTF8 stage made) :
    Layout (staged ++ [(name, body)]) made := by
  refine ⟨fun folders x hx => ?_, fun location content hin hl => ?_, fun item hi => ?_⟩
  · have hne : host.staging.here ++ (folders ++ [x])
        ≠ Route.location host.staging (lookupPath name) := by
      intro he
      rw [he, hw.here] at hx
      cases hx
    rw [hw.elsewhere _ hne] at hx
    exact h.folder folders x hx
  · by_cases hne : location = Route.location host.staging (lookupPath name)
    · exact ⟨(name, body), by simp, hne⟩
    · rw [hw.elsewhere location hne] at hl
      obtain ⟨item, hi, hl⟩ := h.file location content hin hl
      exact ⟨item, List.mem_append_left _ hi, hl⟩
  · rcases List.mem_append.mp hi with hi | hi
    · rw [hw.elsewhere]
      · exact h.placed item hi
      · exact fun he => hnew item hi ((hs item hi).location_injective hplain he)
    · rw [List.mem_singleton.mp hi]
      exact hw.here

/-- One more partial can be staged, and the stage stays in layout. -/
theorem Layout.stageOne (h : Layout staged stage) (hs : ∀ item ∈ staged, Plain item.1)
    (hplain : Plain name) (hf : Fits host.staging name) (hnew : ∀ item ∈ staged, item.1 ≠ name)
    (body : Body) :
    ∃ stage', stageOne stage name body = .ok stage' ∧
      Layout (staged ++ [(name, body)]) stage' := by
  obtain ⟨before, last, hp⟩ := hplain.parts
  obtain ⟨made, hmade, hfolder, hmakes⟩ := h.makeFolders hs hp hf
  have hlayout := h.makes hp hmakes
  have hfree := hlayout.ne_folder hp
  have hthere : before.map Name.ofText = [] ∨
      (made.get? (host.staging.here ++ before.map Name.ofText)).isSome := by
    rcases hfolder with he | he
    · exact .inl (List.append_eq_nil_iff.mp he).2
    · exact .inr (by rw [he]; rfl)
  rw [hp.location_eq, ← List.append_assoc] at hfree
  obtain ⟨stage', hw⟩ := Store.writeAt_ok hp.down hfolder hthere hfree body.source.toUTF8
  have hwrite : made.write (lookupPath name) body.source.toUTF8 = .ok stage' := by
    rw [Store.write, hp.check_file hf, hp.ofPath_file]
    exact hw
  obtain ⟨-, -, hwritten, -⟩ := Store.write_eq_ok hwrite
  refine ⟨stage', ?_, hlayout.written hs hplain hnew hwritten⟩
  rw [Partials.stageOne, hp.stagePath?_eq]
  simp only [hp.parent?_eq, hmade, hwrite]
  rfl

/-- Partials with plain names can all be staged. -/
theorem exists_stage {partials : Partials}
    (hp : ∀ name ∈ partials.keys, Plain name ∧ Fits host.staging name) :
    ∃ stage, partials.stage store = .ok stage ∧ Layout partials.entries stage := by
  have hall : ∀ (rest staged : List (String × Body)) (stage : Stage host), Layout staged stage →
      (∀ item ∈ staged ++ rest, Plain item.1 ∧ Fits host.staging item.1) →
      (staged ++ rest).Pairwise (fun a b => a.1 < b.1) →
      ∃ stage', rest.foldlM (fun stage item => Partials.stageOne stage item.1 item.2) stage
        = .ok stage' ∧ Layout (staged ++ rest) stage' := by
    intro rest
    induction rest with
    | nil =>
      intro staged stage h _ _
      exact ⟨stage, rfl, by rw [List.append_nil]; exact h⟩
    | cons item rest ih =>
      intro staged stage h hplain hsorted
      have hnew : ∀ other ∈ staged, other.1 ≠ item.1 := by
        intro other ho he
        have hlt := (List.pairwise_append.mp hsorted).2.2 other ho item List.mem_cons_self
        exact KeyOrder.irrefl _ (he ▸ hlt)
      have hitem := hplain item (by simp)
      obtain ⟨next, hone, hn⟩ := h.stageOne
        (fun other ho => (hplain other (List.mem_append_left _ ho)).1) hitem.1 hitem.2 hnew item.2
      have he : staged ++ item :: rest = staged ++ [(item.1, item.2)] ++ rest := by simp
      rw [he] at hplain hsorted ⊢
      obtain ⟨stage', hr, hl⟩ := ih _ next hn hplain hsorted
      exact ⟨stage', by rw [List.foldlM_cons, hone]; exact hr, hl⟩
  exact hall partials.entries [] (Stage.fresh store) (layout_fresh store)
    (fun item hi => hp item.1 (List.mem_map_of_mem hi)) partials.sorted

theorem stagedLast_of_plain {partials : Partials} (hp : ∀ name ∈ partials.keys, Plain name)
    (hn : name ∈ partials.keys) : StagedLast host partials name := by
  have hpath : ∀ other ∈ partials.keys, stagePath? other = some (lookupPath other) := by
    intro other ho
    obtain ⟨before, last, hparts⟩ := (hp other ho).parts
    exact hparts.stagePath?_eq
  refine ⟨hpath name hn, fun later hl hlt he => ?_⟩
  rw [stagedAt?, stagedAt?, hpath later hl, hpath name hn] at he
  have hname := (hp later hl).location_injective (hp name hn) (Option.some.inj he)
  exact KeyOrder.irrefl _ (hname ▸ hlt)

/-! ## Looking names up -/

def find (partials : Partials) (name : String) : List Node :=
  ((partials.get? name).map Body.nodes).getD []

theorem Layout.readText_placed (h : Layout staged stage) (hp : Parts name before last)
    (hf : Fits host.staging name) (hi : (name, body) ∈ staged) :
    stage.readText (lookupPath name) = .ok body.source := by
  have hplaced := h.placed (name, body) hi
  have hfile : (Route.ofPath host.staging (lookupPath name)).toFolder = false := by rw [hp.ofPath_file]
  have hwalk : stage.walk (Route.ofPath host.staging (lookupPath name)).start
      (Route.ofPath host.staging (lookupPath name)).names =
          .ok (Route.location host.staging (lookupPath name)) := by
    rw [hp.ofPath_file, hp.location_eq]
    refine Store.walk_of_present hp.down (.inr ?_)
    rw [← hp.location_eq, hplaced]
    rfl
  exact Store.readText_of_walk (hp.check_file hf) hfile hwalk hplaced

theorem Layout.get?_missing (h : Layout staged stage) (hs : ∀ item ∈ staged, Plain item.1)
    (hn : Plain name) (hnew : ∀ item ∈ staged, item.1 ≠ name) :
    stage.get? (Route.location host.staging (lookupPath name)) = none := by
  obtain ⟨before, last, hp⟩ := hn.parts
  cases he : stage.get? (Route.location host.staging (lookupPath name)) with
  | none => rfl
  | some entry =>
    cases entry with
    | folder => exact absurd he (h.ne_folder hp)
    | file content =>
      have hin : host.stageFolder <+: Route.location host.staging (lookupPath name) := by
        rw [hp.location_eq]
        exact List.prefix_append _ _
      obtain ⟨item, hi, hl⟩ := h.file _ content hin he
      exact absurd (hn.location_injective (hs item hi) hl).symm (hnew item hi)

theorem Layout.readText_missing (h : Layout staged stage) (hs : ∀ item ∈ staged, Plain item.1)
    (hn : Plain name) (hf : Fits host.staging name) (hnew : ∀ item ∈ staged, item.1 ≠ name) :
    stage.readText (lookupPath name) = .error .notFound := by
  obtain ⟨before, last, hp⟩ := hn.parts
  have hmissing := h.get?_missing hs hn hnew
  rw [hp.location_eq] at hmissing
  have hclear : Store.Clear stage host.staging.here
      (before.map Name.ofText ++ [Name.ofText (lookupPath last)]) := by
    intro names hpre content he
    rcases List.prefix_concat_iff.mp hpre with rfl | hpre
    · rw [hmissing] at he
      cases he
    · exact h.clear hs (fun folder hm => hp.dotless_of_mem hm) names hpre content he
  have hwalk := Store.walk_of_missing (Store.isFolder_here stage) hp.down (by simp) hclear
    hmissing
  rw [Store.readText, Store.read, Store.locate, hp.check_file hf, hp.ofPath_file]
  simp only [bind, Except.bind, hwalk]

theorem Plain.looksInside (hp : Plain name) : Stage.LooksInside host name := by
  obtain ⟨before, last, hparts⟩ := hp.parts
  show host.stageFolder <+: Route.location host.staging (lookupPath name)
  rw [hparts.location_eq]
  exact List.prefix_append _ _

theorem load_of_layout {partials : Partials} (h : Layout partials.entries stage)
    (hk : ∀ name ∈ partials.keys, Plain name ∧ Fits host.staging name)
    (hc : partials.Compiled store)
    (hn : Plain name) (hf : Fits host.staging name) : stage.load name = .ok (partials.find name) := by
  obtain ⟨before, last, hp⟩ := hn.parts
  have hplain : ∀ item ∈ partials.entries, Plain item.1 :=
    fun item hi => (hk item.1 (List.mem_map_of_mem hi)).1
  cases hg : partials.get? name with
  | some body =>
    have hread : stage.readText (name ++ "." ++ Stage.extension) = .ok body.source :=
      h.readText_placed hp hf (Index.get?_eq_some_iff.mp hg)
    rw [Stage.load, hread]
    simp only [(Body.compile_eq_ok (hc name body hg)).2.1, find, hg]
    rfl
  | none =>
    have hnew : ∀ item ∈ partials.entries, item.1 ≠ name := by
      rintro item hi rfl
      rw [Index.get?_eq_some_iff.mpr hi] at hg
      cases hg
    have hread : stage.readText (name ++ "." ++ Stage.extension) = .error .notFound :=
      h.readText_missing hplain hn hf hnew
    rw [Stage.load, hread]
    simp [find, hg]

theorem load_fresh (hn : Plain name) (hf : Fits host.staging name) :
    (Stage.fresh store).load name = .ok [] := by
  have hcompiled : Partials.Compiled store Index.empty := by
    intro other body hg
    cases hg
  have hload : (Stage.fresh store).load name = .ok (Partials.find Index.empty name) :=
    load_of_layout (layout_fresh store) (List.forall_mem_nil _) hcompiled hn hf
  exact hload

theorem exists_compile_of_plain {source : String} {nodes : List Node}
    (ho : Node.ofSource source.toList = .ok nodes)
    (hn : ∀ name ∈ Node.inclusions nodes, Plain name ∧ Fits host.staging name) :
    ∃ body, Body.compile store source = .ok body := by
  have hload : ∀ name ∈ Node.inclusions nodes, (Stage.fresh store).load name = .ok [] :=
    fun name hm => load_fresh (hn name hm).1 (hn name hm).2
  have hlead : ∀ name, Leads (Stage.fresh store).find nodes name → name ∈ Node.inclusions nodes := by
    intro name hl
    induction hl with
    | here hm => exact hm
    | next _ hi ih =>
      rw [Stage.find_of_load (hload _ ih)] at hi
      cases hi
  cases hs : (Stage.fresh store).compile source with
  | ok linked => exact ⟨⟨source, linked.nodes, linked.partials⟩, by rw [Body.compile, hs]; rfl⟩
  | error cause =>
    obtain ⟨name, hl, he⟩ := Stage.compile_error ho hs
    rw [hload name (hlead name hl)] at he
    cases he

theorem exists_compile_inclusionSource (hn : Plain name) (hf : Fits host.staging name) (hne : name ≠ "")
    (hx : '}' ∉ name.toList) (ht : Text.trim name.toList = name.toList) :
    ∃ tag, Body.compile store (inclusionSource name) = .ok tag := by
  refine exists_compile_of_plain (Node.ofSource_inclusionSource hne hx ht) fun other hm => ?_
  have hother : other = name := by simpa [Node.inclusions, Node.ownInclusions] using hm
  rw [hother]
  exact ⟨hn, hf⟩

/-- A stage in layout compiles every source that leads to names that can be looked up, and finds for
these what the map holds. -/
theorem compile_of_layout {partials : Partials} (h : Layout partials.entries stage)
    (hk : ∀ name ∈ partials.keys, Plain name ∧ Fits host.staging name) (hc : partials.Compiled store)
    {source : String} {nodes : List Node} (ho : Node.ofSource source.toList = .ok nodes)
    (hl : ∀ name, Leads stage.find nodes name → Plain name ∧ Fits host.staging name) :
    ∃ linked, stage.compile source = .ok linked ∧ linked.nodes = nodes ∧
      ∀ name, Leads stage.find nodes name → linked.find name = partials.find name := by
  have hload : ∀ name, Leads stage.find nodes name → stage.load name = .ok (partials.find name) :=
    fun name hn => load_of_layout h hk hc (hl name hn).1 (hl name hn).2
  cases hs : stage.compile source with
  | error cause =>
    obtain ⟨name, hn, he⟩ := Stage.compile_error ho hs
    rw [hload name hn] at he
    cases he
  | ok linked =>
    obtain ⟨ho', hfound⟩ := Stage.compile_ok hs
    have hnodes : linked.nodes = nodes := Except.ok.inj (ho'.symm.trans ho)
    rw [hnodes] at hfound
    exact ⟨linked, rfl, hnodes, fun name hn =>
      Except.ok.inj ((hfound name hn).symm.trans (hload name hn))⟩

theorem fits_of_compile {source : String} (h : Body.compile store source = .ok body)
    (hm : name ∈ Node.inclusions body.nodes) (hn : Plain name) : Fits host.staging name := by
  obtain ⟨before, last, hp⟩ := hn.parts
  obtain ⟨-, -, hl⟩ := Body.compile_eq_ok h
  have hload := (Stage.compile_ok hl).2 name (.here hm)
  by_contra hlong
  have hne : (lookupPath name).isEmpty = false := by
    rw [← Bool.not_eq_true, String.isEmpty_iff, ← String.toList_eq_nil_iff, toList_lookupPath]
    simp
  have hnul : '\x00' ∉ (lookupPath name).toList := by
    rw [toList_lookupPath, List.mem_append]
    exact not_or.mpr ⟨hp.nul_notMem, by decide⟩
  have hread : (Stage.fresh store).readText (name ++ "." ++ Stage.extension)
      = .error .nameTooLong := by
    show (Stage.fresh store).readText (lookupPath name) = _
    rw [Store.readText, Store.read, Store.locate, Route.check, hne, if_neg (by simp), if_neg hnul,
      hp.size_file, if_pos (Nat.not_le.mp hlong)]
    rfl
  rw [Stage.load, hread] at hload
  cases hload

end Partials

end Folio
