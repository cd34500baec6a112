import Folio.Proofs.Template.Staging
import Folio.Site.Registry
/-!
# Collecting templates

A collection takes in what is come across one file after the other, up to the first that fails. So
each template in it has been loaded, and its body has been compiled.
-/

namespace Folio

variable {host : Host}

namespace Index

variable {κ α : Type} [LT κ] [DecidableEq κ] [KeyOrder κ] [DecidableLT κ]

theorem mem_of_mem_ofList {entries : List (κ × α)} {entry : κ × α}
    (h : entry ∈ (ofList entries).entries) : entry ∈ entries := by
  have hfold : ∀ (entries : List (κ × α)) (index : Index κ α),
      entry ∈ (entries.foldl (fun index entry => index.insert entry.1 entry.2) index).entries →
      entry ∈ index.entries ∨ entry ∈ entries := by
    intro entries
    induction entries with
    | nil => exact fun index h => .inl h
    | cons first rest ih =>
      intro index h
      rw [List.foldl_cons] at h
      rcases ih _ h with h | h
      · rcases mem_insert.mp h with rfl | ⟨-, h⟩
        · exact .inr List.mem_cons_self
        · exact .inl h
      · exact .inr (List.mem_cons_of_mem _ h)
  exact (hfold entries empty h).resolve_left nofun

end Index

namespace Template

theorem outcome_load (store : Files.Store host) (file : TemplateFile) :
    (load store file).outcome =
      match store.readText file.path with
      | .error fault => .error (.error (.io (.reading file.path) fault))
      | .ok source =>
        match Body.compile store source with
        | .error cause => .error (.error (.templateCompile file.path cause))
        | .ok body => (RenderData.load store file.dataPath).outcome >>= fun data =>
          .ok ⟨file.name, file.path, body, data⟩ := by
  rw [load]
  cases hs : store.readText file.path with
  | error fault => simp only [Logged.outcome_bind, Logged.outcome_fail, error_bind]
  | ok source =>
    simp only [Logged.outcome_bind, Logged.outcome_pure, ok_bind]
    cases hc : Body.compile store source with
    | error cause => simp only [Logged.outcome_bind, Logged.outcome_fail, error_bind]
    | ok body => simp only [Logged.outcome_bind, Logged.outcome_pure, ok_bind]

theorem load_eq_ok {store : Files.Store host} {file : TemplateFile} {template : Template}
    (h : (load store file).outcome = .ok template) :
    template.name = file.name ∧ Body.compile store template.body.source = .ok template.body ∧
      (RenderData.load store file.dataPath).outcome = .ok template.data := by
  rw [outcome_load] at h
  split at h
  · cases h
  · split at h
    · cases h
    · rename_i body hc
      obtain ⟨data, hd, h⟩ := bind_eq_ok.mp h
      cases h
      exact ⟨rfl, by rw [(Body.compile_eq_ok hc).1, hc], hd⟩

end Template

namespace Collection

theorem addAll_cons (store : Files.Store host) (collection : Collection) (found : Found)
    (rest : List Found) :
    (addAll store collection (found :: rest)).outcome =
      match found.file? with
      | .error error => .error (.error error)
      | .ok none => (addAll store collection rest).outcome
      | .ok (some file) =>
        (Template.load store file).outcome >>= fun template =>
          (addAll store (collection.insert template) rest).outcome := by
  simp only [addAll, Logged.outcome_bind, Logged.outcome_tell]
  cases hf : found.file? with
  | error error => rfl
  | ok file =>
    cases file with
    | none => rfl
    | some file =>
      simp only [Logged.outcome_bind, Logged.outcome_tell]
      rfl

theorem populate_eq_ok {store : Files.Store host} {folder : String} {matcher : Matcher}
    {collection : Collection} :
    (populate store folder matcher).outcome = .ok collection ↔
      (addAll store .empty (discover store folder matcher)).outcome = .ok collection := by
  simp only [populate, Logged.outcome_bind_eq_ok, Logged.outcome_tell, Logged.outcome_pure,
    Except.ok.injEq]
  constructor
  · rintro ⟨_, h, _, -, rfl⟩
    exact h
  · intro h
    exact ⟨collection, h, (), trivial, rfl⟩

theorem mem_place {template other : Template} {templates : List Template}
    (h : other ∈ place template templates) : other = template ∨ other ∈ templates := by
  induction templates with
  | nil => exact .inl (List.mem_singleton.mp h)
  | cons first rest ih =>
    rw [place] at h
    split at h
    · exact (List.mem_cons.mp h).imp_right (List.mem_cons_of_mem _)
    · rcases List.mem_cons.mp h with rfl | h
      · exact .inr List.mem_cons_self
      · exact (ih h).imp_right (List.mem_cons_of_mem _)

/-- What holds of each template that is come across and loaded, holds of all that are gathered. -/
theorem forall_addAll {store : Files.Store host} {founds : List Found} {collection result : Collection}
    (kept : Template → Prop)
    (hload : ∀ found ∈ founds, ∀ file template, found.file? = .ok (some file) →
      (Template.load store file).outcome = .ok template → kept template)
    (hc : ∀ template ∈ collection.templates, kept template)
    (h : (addAll store collection founds).outcome = .ok result) :
    ∀ template ∈ result.templates, kept template := by
  induction founds generalizing collection with
  | nil =>
    simp only [addAll, Logged.outcome_pure, Except.ok.injEq] at h
    exact h ▸ hc
  | cons found rest ih =>
    have hrest := fun other hm => hload other (List.mem_cons_of_mem found hm)
    rw [addAll_cons] at h
    split at h
    · cases h
    · exact ih hrest hc h
    · rename_i file hf
      obtain ⟨template, hl, h⟩ := bind_eq_ok.mp h
      refine ih hrest (fun other hm => ?_) h
      rcases mem_place hm with rfl | hm
      · exact hload found List.mem_cons_self file _ hf hl
      · exact hc other hm

theorem compile_of_populate {store : Files.Store host} {folder : String} {matcher : Matcher}
    {collection : Collection} (h : (populate store folder matcher).outcome = .ok collection) :
    ∀ template ∈ collection.templates, Body.compile store template.body.source = .ok template.body :=
  forall_addAll (fun template => Body.compile store template.body.source = .ok template.body)
    (fun _ _ _ _ _ hl => (Template.load_eq_ok hl).2.1) (List.forall_mem_nil _) (populate_eq_ok.mp h)

theorem exists_template_of_get? {collection : Collection} {name : String} {body : Body}
    (h : collection.partials.get? name = some body) :
    ∃ template ∈ collection.templates, template.name = name ∧ template.body = body := by
  obtain ⟨template, ht, he⟩ :=
    List.mem_map.mp (Index.mem_of_mem_ofList (Index.get?_eq_some_iff.mp h))
  exact ⟨template, ht, Prod.mk.inj he⟩

theorem compiled_of_populate {store : Files.Store host} {folder : String} {matcher : Matcher}
    {collection : Collection} (h : (populate store folder matcher).outcome = .ok collection) :
    collection.partials.Compiled store := by
  intro name body hb
  obtain ⟨template, ht, -, rfl⟩ := exists_template_of_get? hb
  exact compile_of_populate h template ht

end Collection

end Folio
