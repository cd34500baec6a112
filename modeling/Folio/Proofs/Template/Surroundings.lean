import Folio.Proofs.Files.Confinement
import Folio.Proofs.Files.Parents
import Folio.Proofs.Template.PlainName
import Folio.Proofs.Template.Staging
/-!
# The tree around a stage

Partials are staged inside the staging folder, and tags look them up there unless their names lead out
of it. So a body is compiled and rendered alike in two trees that show the same wherever its tags come
to outside of the folder.
-/

namespace Folio

open Files Markup

variable {host : Host} {store later : Store host}

/-! ## Looking up -/

namespace Stage

/-- The locations outside of the staging folder that one comes to in looking up a name. -/
def around (host : Host) (name : String) : List Location :=
  let route := Route.ofPath host.staging (Partials.lookupPath name)
  (route.names.inits.map (Route.follow route.start)).filter fun location =>
    ¬ host.stageFolder <+: location

/-- Inside the staging folder, or where two trees show the same. -/
def Common (store later : Store host) (location : Location) : Prop :=
  host.stageFolder <+: location ∨ store.get? location = later.get? location

/-- Two trees show the same wherever a name leads to outside of the staging folder. -/
def SameAround (store later : Store host) (name : String) : Prop :=
  ∀ location ∈ around host name, store.get? location = later.get? location

theorem SameAround.sees {name : String} (h : SameAround store later name) :
    Store.Sees (Common store later) (Route.ofPath host.staging (Partials.lookupPath name)).start
      (Route.ofPath host.staging (Partials.lookupPath name)).names := by
  intro before hp
  by_cases hin : host.stageFolder <+:
      Route.follow (Route.ofPath host.staging (Partials.lookupPath name)).start before
  · exact .inl hin
  · right
    apply h
    refine List.mem_filter.mpr ⟨List.mem_map_of_mem ?_, decide_eq_true hin⟩
    exact (List.mem_inits before _).mpr hp

theorem agreeOn_fresh (store later : Store host) :
    Store.AgreeOn (Common store later) (fresh store) (fresh later) := by
  intro location hs
  rw [get?_fresh, get?_fresh]
  cases hs with
  | inl hin => simp only [if_pos hin]
  | inr hsame => rw [hsame]

theorem common_scratch (store later : Store host) : Common store later host.staging.here.dropLast := by
  have hfolder : ∀ store : Store host, store.get? host.scratch
      = if host.scratch = [] then none else some .folder := by
    intro store
    split
    · rename_i hroot
      rw [Option.eq_none_iff_forall_ne_some, hroot]
      intro entry he
      exact (Store.isFolder_dropLast he).1 rfl
    · rename_i hroot
      exact store.isFolder_scratch.resolve_left hroot
  right
  show store.get? (host.scratch ++ [[]]).dropLast = later.get? (host.scratch ++ [[]]).dropLast
  rw [List.dropLast_concat, hfolder store, hfolder later]

variable {stage other : Stage host}

theorem load_eq_of_agreeOn {name : String} (ha : Store.AgreeOn (Common store later) stage other)
    (hn : SameAround store later name) : other.load name = stage.load name := by
  rw [load, load]
  exact ha.readText_eq hn.sees ▸ rfl

/-- What has been gathered is gathered on every stage that holds the same for its names. -/
theorem gather_congr {loads : Nat} {known result : List (String × List Node)} {asking : List String}
    (hsame : ∀ name ∈ names result, other.load name = stage.load name)
    (h : stage.gather loads known asking = .ok result) :
    names known ⊆ names result ∧ other.gather loads known asking = .ok result := by
  induction loads generalizing known asking with
  | zero =>
    obtain rfl := Except.ok.inj h
    exact ⟨List.Subset.refl _, rfl⟩
  | succ loads ih =>
    rcases exists_unknown known asking with hall | ⟨passed, name, rest, rfl, hp, hn⟩
    · rw [gather_of_known hall] at h ⊢
      obtain rfl := Except.ok.inj h
      exact ⟨List.Subset.refl _, rfl⟩
    · rw [gather_of_unknown hp hn] at h ⊢
      obtain ⟨nodes, hl, hg⟩ := bind_eq_ok.mp h
      obtain ⟨hsub, hrest⟩ := ih hg
      rw [names_append] at hsub
      have hname : name ∈ names result := hsub (List.mem_append_right _ (by simp [names]))
      rw [hsame name hname, hl]
      exact ⟨fun _ hm => hsub (List.mem_append_left _ hm), hrest⟩

theorem compile_congr {source : String} {linked : Linked}
    (hsame : ∀ name ∈ names linked.partials, other.load name = stage.load name)
    (h : stage.compile source = .ok linked) : other.compile source = .ok linked := by
  obtain ⟨ho, -⟩ := compile_eq_ok h
  have hle := Nat.le_max_left (stage.loadBound linked.nodes) (other.loadBound linked.nodes)
  have hle' := Nat.le_max_right (stage.loadBound linked.nodes) (other.loadBound linked.nodes)
  rw [compile_eq_gather ho hle] at h
  rw [compile_eq_gather ho hle']
  cases hg : stage.gather (max (stage.loadBound linked.nodes) (other.loadBound linked.nodes)) []
      (Node.inclusions linked.nodes) with
  | error cause =>
    rw [hg] at h
    cases h
  | ok known =>
    rw [hg] at h
    obtain rfl : known = linked.partials := congrArg Linked.partials (Except.ok.inj h)
    rw [(gather_congr hsame hg).2]
    rfl

end Stage

/-! ## Staging -/

namespace Partials

/-- A relative name that leads up at its end at most. -/
structure Grounded (name : String) : Prop where
  relative : name.startsWith "/" = false
  upAtEnd : ".." ∉ (Path.named name).dropLast

theorem Grounded.sees {name path : String} (h : Grounded name) (hp : stagePath? name = some path) :
    Store.Sees (Stage.Common store later) (Route.ofPath host.staging path).start
      (Route.ofPath host.staging path).names := by
  rw [stagePath?] at hp
  split at hp
  · cases hp
  · obtain ⟨hnamed, hstarts⟩ := Path.named_withExtension name
      (by decide : Stage.extension ≠ "") (by decide)
    obtain rfl := Option.some.inj hp
    apply Store.sees_of_relative
    · intro location hin
      exact .inl hin
    · exact Stage.common_scratch store later
    · rw [hstarts, h.relative]
    · rw [hnamed]
      exact h.upAtEnd

variable {stage other : Stage host} {name : String}

theorem stageOne_alike (ha : Store.AgreeOn (Stage.Common store later) stage other)
    (h : Grounded name) (body : Body) :
    Store.Alike (Stage.Common store later) (stageOne stage name body) (stageOne other name body) := by
  rw [stageOne, stageOne]
  cases hp : stagePath? name with
  | none => exact .done ha
  | some path =>
    have hsees : Store.Sees (Stage.Common store later) (Route.ofPath host.staging path).start
        (Route.ofPath host.staging path).names := h.sees hp
    dsimp only
    cases hf : Path.parent? path with
    | none => exact (ha.write hsees _).mapError _
    | some folder =>
      have hfolder : Store.Sees (Stage.Common store later) (Route.ofPath host.staging folder).start
          (Route.ofPath host.staging folder).names := by
        obtain ⟨hstart, hnames⟩ := Route.ofPath_parent hf
        rw [hstart, hnames]
        intro before hb
        exact hsees before (hb.trans (List.dropLast_prefix _))
      obtain ⟨hsame, hagree⟩ := ha.makeFolders hfolder
      dsimp only
      rw [hsame]
      cases (other.makeFolders folder).1 with
      | error fault => exact .failed _
      | ok _ => exact (Store.AgreeOn.write hagree hsees _).mapError _

theorem stage_alike {partials : Partials} (hk : ∀ key ∈ partials.keys, Grounded key) :
    Store.Alike (Stage.Common store later) (partials.stage store) (partials.stage later) := by
  have hall : ∀ (entries : List (String × Body)), (∀ entry ∈ entries, Grounded entry.1) →
      ∀ stage other : Stage host, Store.AgreeOn (Stage.Common store later) stage other →
      Store.Alike (Stage.Common store later)
        (entries.foldlM (fun stage item => stageOne stage item.1 item.2) stage)
        (entries.foldlM (fun stage item => stageOne stage item.1 item.2) other) := by
    intro entries
    induction entries with
    | nil =>
      intro _ stage other ha
      exact .done ha
    | cons entry rest ih =>
      intro hg stage other ha
      obtain ⟨hentry, hrest⟩ := List.forall_mem_cons.mp hg
      have hone := stageOne_alike ha hentry entry.2
      rw [List.foldlM_cons, List.foldlM_cons]
      generalize stageOne stage entry.1 entry.2 = made at hone
      generalize stageOne other entry.1 entry.2 = made' at hone
      cases hone with
      | failed error => exact .failed error
      | done agree => exact ih hrest _ _ agree
  apply hall partials.entries _ _ _ (Stage.agreeOn_fresh store later)
  intro entry hm
  exact hk entry.1 (List.mem_map_of_mem hm)

end Partials

/-! ## Bodies -/

namespace Body

/-- A body is compiled again as before if around the names that were looked up nothing is different. -/
theorem compile_congr {source : String} {body : Body} (h : compile store source = .ok body)
    (hsame : ∀ name ∈ Stage.names body.found, Stage.SameAround store later name) :
    compile later source = .ok body := by
  obtain ⟨rfl, -, hc⟩ := compile_eq_ok h
  have hcompile : (Stage.fresh later).compile body.source = .ok body.linked := by
    refine Stage.compile_congr (fun name hm => ?_) hc
    exact Stage.load_eq_of_agreeOn (Stage.agreeOn_fresh store later) (hsame name hm)
  rw [compile, hcompile]
  rfl

variable {body : Body} {partials : Partials} {linked : Linked}

theorem linked?_congr (hk : ∀ key ∈ partials.keys, Partials.Grounded key)
    (h : body.linked? store partials = some linked)
    (hsame : ∀ name ∈ Stage.names linked.partials, Stage.SameAround store later name) :
    body.linked? later partials = some linked := by
  rw [linked?] at h ⊢
  split at h
  · rename_i hs
    rw [if_pos hs]
    exact h
  · rename_i hs
    have halike : Store.Alike (Stage.Common store later) (partials.stage store)
        (partials.stage later) := Partials.stage_alike hk
    obtain ⟨stage, hstage, hc⟩ := Option.bind_eq_some_iff.mp h
    rw [eq_ok_of_toOption hstage] at halike
    rw [if_neg hs]
    generalize Partials.stage later partials = made at halike
    cases halike with
    | @done _ other agree =>
      refine congrArg Except.toOption (Stage.compile_congr (fun name hm => ?_) (eq_ok_of_toOption hc))
      exact Stage.load_eq_of_agreeOn agree (hsame name hm)

theorem render_congr (hk : ∀ key ∈ partials.keys, Partials.Grounded key)
    (h : body.linked? store partials = some linked)
    (hsame : ∀ name ∈ Stage.names linked.partials, Stage.SameAround store later name)
    (name : String) (context : Fields) :
    body.render later name context partials = body.render store name context partials := by
  have h' := linked?_congr hk h hsame
  rcases render_cases store name body context partials with ⟨found, hf, hr⟩ | ⟨hn, -⟩
  · rcases render_cases later name body context partials with ⟨found', hf', hr'⟩ | ⟨hn', -⟩
    · rw [h] at hf
      rw [h'] at hf'
      cases hf
      cases hf'
      rw [hr, hr']
    · rw [h'] at hn'
      cases hn'
  · rw [h] at hn
    cases hn

end Body

end Folio
