import Folio.Files.Access
import Folio.Markup.Rendering
import Folio.SiteError
/-!
# Stages

A stage is a new folder for temporary files, in which a partial tag looks for the file
`<name>.mustache`. A name is joined to the folder's path, so one that starts at the root or leads up
out of the folder finds files of the host.
-/

namespace Folio

namespace Host

/-- Where a stage lies. Its name is drawn at random, so no tag spells it: here it is the name that no
path has. -/
def stageFolder (host : Host) : Files.Location :=
  host.scratch ++ [[]]

theorem not_stageFolder_isPrefix (host : Host) : ¬ host.stageFolder <+: host.scratch := by
  intro h
  have hl := h.length_le
  simp only [stageFolder, List.length_append, List.length_singleton] at hl
  omega

/-- The host for what is done on a stage: relative paths are joined to the stage's. -/
def staging (host : Host) : Host :=
  { host with here := host.stageFolder, lead := scratchLead host.scratch }

end Host

/-- A staging folder in the tree of its host. Files that are put beside the folder, under names as
random, and what partials leave of their own outside it, are no part of any other store. -/
abbrev Stage (host : Host) := Files.Store host.staging

namespace Stage

variable {host : Host}

/-- The file extension of partials. -/
def extension : String := "mustache"

/-- A new stage with nothing in it, beside all that there is. -/
def fresh (store : Files.Store host) : Stage host :=
  have keep : ∀ l, ¬ host.stageFolder <+: l → (l, Files.Entry.folder) ∈ store.index.entries →
      (l, Files.Entry.folder) ∈ ((store.index.filter fun item => ¬ host.stageFolder <+: item.1).insert
        host.stageFolder .folder).entries := by
    intro l hn hl
    refine Index.mem_insert.mpr (.inr ⟨?_, List.mem_filter.mpr ⟨hl, by simpa using hn⟩⟩)
    rintro rfl
    exact hn List.prefix_rfl
  have scratch := (store.standing host.scratch (by simp)).imp_right
      (keep _ host.not_stageFolder_isPrefix)
  { index := (store.index.filter fun item => ¬ host.stageFolder <+: item.1).insert
      host.stageFolder .folder
    rooted := by
      intro item hm
      rcases Index.mem_insert.mp hm with rfl | ⟨-, hm⟩
      · refine ⟨by simp [Host.stageFolder], ?_⟩
        simp only [Host.stageFolder, List.dropLast_concat]
        exact scratch
      · obtain ⟨hm, hn⟩ := List.mem_filter.mp hm
        have ⟨hne, hp⟩ := store.rooted item hm
        refine ⟨hne, hp.imp_right (keep _ fun h => ?_)⟩
        exact absurd (h.trans (List.dropLast_prefix item.1)) (by simpa using hn)
    standing := by
      intro location hl
      simp only [Host.staging, List.mem_cons, List.not_mem_nil, or_false] at hl
      rcases hl with rfl | rfl
      · exact .inr (Index.mem_insert.mpr (.inl rfl))
      · exact scratch }

/-- The tree staged for a partial tag, without nodes if there is no such file. -/
def load (stage : Stage host) (name : String) : Except TemplateError (List Markup.Node) :=
  match stage.readText (name ++ "." ++ extension) with
  | .ok source => (Markup.Node.ofSource source.toList).mapError .malformed
  | .error .notFound => .ok []
  | .error _ => .error .partialUnreadable

/-- Loads partials in order, each as soon as it is included and before those that follow it. One that
is among the known ones is not loaded again. `loads` bounds how many there are. -/
def gather (stage : Stage host) : (loads : Nat) → (known : List (String × List Markup.Node)) →
    (names : List String) → Except TemplateError (List (String × List Markup.Node))
  | 0, known, _ => .ok known
  | loads + 1, known, names =>
    match names.dropWhile fun name => (known.lookup name).isSome with
    | [] => .ok known
    | name :: rest => do
      let nodes ← stage.load name
      gather stage loads (known ++ [(name, nodes)]) (Markup.Node.inclusions nodes ++ rest)

/-- The trees of all files that are there. -/
def trees (stage : Stage host) : List (List Markup.Node) :=
  stage.entries.filterMap fun item => match item.2 with
    | .folder => none
    | .file content => do
      let source ← String.fromUTF8? content
      (Markup.Node.ofSource source.toList).toOption

/-- More than there are names in a tree and in those of all files. -/
def loadBound (stage : Stage host) (nodes : List Markup.Node) : Nat :=
  stage.trees.foldl (fun count tree => count + (Markup.Node.inclusions tree).length)
    ((Markup.Node.inclusions nodes).length + 1)

/-- The tree of a source, with those of its partials. -/
def compile (stage : Stage host) (source : String) : Except TemplateError Markup.Linked :=
  match Markup.Node.ofSource source.toList with
  | .error fault => .error (.malformed fault)
  | .ok nodes => do
    let partials ← stage.gather (stage.loadBound nodes) [] (Markup.Node.inclusions nodes)
    return ⟨nodes, partials⟩

end Stage

end Folio
