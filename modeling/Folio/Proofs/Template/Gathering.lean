import Folio.Proofs.Files.Walking
import Folio.Proofs.Markup.Inclusion
import Folio.Proofs.Outcome
import Folio.Template.Partials
import Mathlib.Data.List.TakeWhile
/-!
# Gathering partials

Compiling for a stage loads every partial that the tree of a source leads to, and nothing else. The
loads are enough because each one is of a name that was not known, and all names come from the tree
and those of the files that are there.
-/

namespace Folio

open Markup

namespace Stage

variable {host : Host} {stage : Stage host}

/-- The tree that a stage holds for a name, empty if there is none that can be loaded. -/
def find (stage : Stage host) (name : String) : List Node :=
  (stage.load name).toOption.getD []

theorem find_of_load {name : String} {tree : List Node} (h : stage.load name = .ok tree) :
    stage.find name = tree := by
  simp [find, h, Except.toOption]

def names (known : List (String × List Node)) : List String :=
  known.map Prod.fst

def asked (known : List (String × List Node)) : List String :=
  known.flatMap fun entry => Node.inclusions entry.2

theorem names_append (known more : List (String × List Node)) :
    names (known ++ more) = names known ++ names more :=
  List.map_append

theorem asked_append (known more : List (String × List Node)) :
    asked (known ++ more) = asked known ++ asked more :=
  List.flatMap_append

theorem lookup_isSome_iff {known : List (String × List Node)} {name : String} :
    (known.lookup name).isSome = true ↔ name ∈ names known := by
  induction known with
  | nil => simp [names]
  | cons entry rest ih =>
    by_cases h : name = entry.1
    · simp [h, names]
    · rw [List.lookup_cons, beq_false_of_ne h, ih]
      simp [names, h]

/-! ## One load after the other -/

theorem gather_of_known {known : List (String × List Node)} {asking : List String}
    (h : ∀ name ∈ asking, name ∈ names known) (loads : Nat) :
    stage.gather loads known asking = .ok known := by
  cases loads with
  | zero => rfl
  | succ loads =>
    have hpassed : asking.dropWhile (fun name => (known.lookup name).isSome) = [] := by
      apply List.dropWhile_eq_nil_iff.mpr
      intro name hm
      exact lookup_isSome_iff.mpr (h name hm)
    rw [gather, hpassed]

theorem gather_nil (stage : Stage host) (loads : Nat) (known : List (String × List Node)) :
    stage.gather loads known [] = .ok known :=
  gather_of_known (List.forall_mem_nil _) loads

theorem gather_of_unknown {known : List (String × List Node)} {passed rest : List String}
    {name : String} (hp : ∀ other ∈ passed, other ∈ names known) (hn : name ∉ names known)
    (loads : Nat) :
    stage.gather (loads + 1) known (passed ++ name :: rest)
      = stage.load name >>= fun nodes =>
        stage.gather loads (known ++ [(name, nodes)]) (Node.inclusions nodes ++ rest) := by
  have hdrop : (passed ++ name :: rest).dropWhile (fun name => (known.lookup name).isSome)
      = name :: rest := by
    rw [List.dropWhile_append_of_pos fun other hm => lookup_isSome_iff.mpr (hp other hm),
      List.dropWhile_cons, if_neg (mt lookup_isSome_iff.mp hn)]
  rw [gather, hdrop]

theorem exists_unknown (known : List (String × List Node)) (asking : List String) :
    (∀ name ∈ asking, name ∈ names known) ∨ ∃ passed name rest, asking = passed ++ name :: rest ∧
      (∀ other ∈ passed, other ∈ names known) ∧ name ∉ names known := by
  induction asking with
  | nil => exact .inl (List.forall_mem_nil _)
  | cons first others ih =>
    by_cases hf : first ∈ names known
    · cases ih with
      | inl hall => exact .inl (List.forall_mem_cons.mpr ⟨hf, hall⟩)
      | inr hnext =>
        obtain ⟨passed, name, rest, rfl, hp, hn⟩ := hnext
        exact .inr ⟨first :: passed, name, rest, rfl, List.forall_mem_cons.mpr ⟨hf, hp⟩, hn⟩
    · exact .inr ⟨[], first, others, rfl, List.forall_mem_nil _, hf⟩

/-- What holds between the loads: known partials are as loaded, each is known once, and what they ask
for is known or to be loaded yet. -/
structure Gathered (stage : Stage host) (known : List (String × List Node))
    (asking : List String) : Prop where
  loaded : ∀ entry ∈ known, stage.load entry.1 = .ok entry.2
  distinct : (names known).Nodup
  pending : ∀ name ∈ asked known, name ∈ names known ∨ name ∈ asking

theorem gathered_start (stage : Stage host) (asking : List String) : Gathered stage [] asking :=
  ⟨List.forall_mem_nil _, List.nodup_nil, List.forall_mem_nil _⟩

theorem Gathered.load {known : List (String × List Node)} {passed rest : List String}
    {name : String} {nodes : List Node} (h : Gathered stage known (passed ++ name :: rest))
    (hp : ∀ other ∈ passed, other ∈ names known) (hn : name ∉ names known)
    (hl : stage.load name = .ok nodes) :
    Gathered stage (known ++ [(name, nodes)]) (Node.inclusions nodes ++ rest) := by
  refine ⟨?_, ?_, ?_⟩
  · rw [List.forall_mem_append, List.forall_mem_singleton]
    exact ⟨h.loaded, hl⟩
  · rw [names_append]
    exact List.concat_eq_append ▸ h.distinct.concat hn
  · intro other ha
    rw [asked_append, List.mem_append] at ha
    have hone : asked [(name, nodes)] = Node.inclusions nodes := by simp [asked]
    have hself : names [(name, nodes)] = [name] := rfl
    rw [names_append, hself]
    rw [hone] at ha
    cases ha with
    | inl hk =>
      have hwhere := h.pending other hk
      simp only [List.mem_append, List.mem_cons] at hwhere ⊢
      have hpassed := hp other
      tauto
    | inr hi => exact .inr (List.mem_append_left rest hi)

theorem load_subset {all passed rest : List String} {known : List (String × List Node)}
    {name : String} {nodes : List Node}
    (hall : ∀ name tree, stage.load name = .ok tree → Node.inclusions tree ⊆ all)
    (hk : names known ⊆ all) (ha : passed ++ name :: rest ⊆ all)
    (hl : stage.load name = .ok nodes) :
    names (known ++ [(name, nodes)]) ⊆ all ∧ Node.inclusions nodes ++ rest ⊆ all := by
  constructor
  · rw [names_append]
    apply List.append_subset.mpr ⟨hk, ?_⟩
    simpa [names] using ha (by simp)
  · apply List.append_subset.mpr ⟨hall name nodes hl, ?_⟩
    intro other hm
    exact ha (by simp [hm])

theorem Gathered.length_le {all asking : List String} {known : List (String × List Node)}
    (h : Gathered stage known asking) (hk : names known ⊆ all) : known.length ≤ all.length := by
  have hle := h.distinct.length_le_of_subset hk
  rwa [names, List.length_map] at hle

/-- With more loads than names are left, nothing that loaded partials ask for is missing. -/
theorem gather_ok {all : List String}
    (hall : ∀ name tree, stage.load name = .ok tree → Node.inclusions tree ⊆ all)
    {loads : Nat} {known result : List (String × List Node)} {asking : List String}
    (hg : Gathered stage known asking) (hk : names known ⊆ all) (ha : asking ⊆ all)
    (hr : all.length < known.length + loads) (h : stage.gather loads known asking = .ok result) :
    Gathered stage result [] ∧ names known ⊆ names result ∧ asking ⊆ names result := by
  -- each load makes one more name known, so `known` cannot stay within `all` for too many
  induction loads generalizing known asking with
  | zero =>
    have hle := hg.length_le hk
    omega
  | succ loads ih =>
    cases exists_unknown known asking with
    | inl hknown =>
      rw [gather_of_known hknown] at h
      cases h
      refine ⟨⟨hg.loaded, hg.distinct, ?_⟩, fun _ hm => hm, hknown⟩
      intro name hm
      exact .inl ((hg.pending name hm).elim id (hknown name))
    | inr hnext =>
      obtain ⟨passed, name, rest, rfl, hp, hn⟩ := hnext
      rw [gather_of_unknown hp hn] at h
      obtain ⟨nodes, hl, h⟩ := bind_eq_ok.mp h
      obtain ⟨hk', ha'⟩ := load_subset hall hk ha hl
      have hlength : all.length < (known ++ [(name, nodes)]).length + loads := by
        simp only [List.length_append, List.length_singleton]
        omega
      obtain ⟨hres, hsub, hasked⟩ := ih (hg.load hp hn hl) hk' ha' hlength h
      rw [names_append, List.append_subset] at hsub
      refine ⟨hres, hsub.1, List.append_subset.mpr ⟨fun other hm => hsub.1 (hp other hm), ?_⟩⟩
      exact List.cons_subset.mpr ⟨hsub.2 (by simp [names]), (List.append_subset.mp hasked).2⟩

/-- More loads than names are left make no difference. -/
theorem gather_of_le {all : List String}
    (hall : ∀ name tree, stage.load name = .ok tree → Node.inclusions tree ⊆ all)
    {loads more : Nat} {known : List (String × List Node)} {asking : List String}
    (hg : Gathered stage known asking) (hk : names known ⊆ all) (ha : asking ⊆ all)
    (hr : all.length < known.length + loads) (hle : loads ≤ more) :
    stage.gather more known asking = stage.gather loads known asking := by
  induction loads generalizing known asking more with
  | zero =>
    have hlength := hg.length_le hk
    omega
  | succ loads ih =>
    obtain ⟨more, rfl⟩ := Nat.exists_eq_add_of_le' (Nat.le_trans (Nat.le_add_left 1 loads) hle)
    cases exists_unknown known asking with
    | inl hknown => rw [gather_of_known hknown, gather_of_known hknown]
    | inr hnext =>
      obtain ⟨passed, name, rest, rfl, hp, hn⟩ := hnext
      rw [gather_of_unknown hp hn, gather_of_unknown hp hn]
      cases hl : stage.load name with
      | error cause => rfl
      | ok nodes =>
        obtain ⟨hk', ha'⟩ := load_subset hall hk ha hl
        apply ih (hg.load hp hn hl) hk' ha' _ (Nat.le_of_succ_le_succ hle)
        simp only [List.length_append, List.length_singleton]
        omega

/-- Gathering fails only with the error of a partial that was asked for. -/
theorem gather_error {nodes : List Node} {loads : Nat} {known : List (String × List Node)}
    {asking : List String} {error : TemplateError}
    (ha : ∀ name ∈ asking, Leads stage.find nodes name)
    (h : stage.gather loads known asking = .error error) :
    ∃ name, Leads stage.find nodes name ∧ stage.load name = .error error := by
  induction loads generalizing known asking with
  | zero => cases h
  | succ loads ih =>
    cases exists_unknown known asking with
    | inl hknown =>
      rw [gather_of_known hknown] at h
      cases h
    | inr hnext =>
      obtain ⟨passed, name, rest, rfl, hp, hn⟩ := hnext
      have hname := ha name (by simp)
      rw [gather_of_unknown hp hn] at h
      cases hl : stage.load name with
      | error cause =>
        rw [hl] at h
        cases h
        exact ⟨name, hname, hl⟩
      | ok tree =>
        rw [hl] at h
        apply ih _ h
        rw [List.forall_mem_append]
        constructor
        · intro inner hi
          exact .next hname (by rwa [find_of_load hl])
        · intro other hm
          exact ha other (by simp [hm])

theorem gather_beside {extra : List (String × List Node)} {among : String → Prop}
    (hextra : ∀ name, among name → name ∉ names extra)
    (hinner : ∀ name, among name → ∀ inner ∈ Node.inclusions (stage.find name), among inner)
    {loads : Nat} {known : List (String × List Node)} {asking : List String}
    (ha : ∀ name ∈ asking, among name) :
    stage.gather loads (extra ++ known) asking
      = (stage.gather loads known asking).map (extra ++ ·) := by
  induction loads generalizing known asking with
  | zero => rfl
  | succ loads ih =>
    have hmem : ∀ {name}, name ∈ names known → name ∈ names (extra ++ known) := by
      intro name hm
      rw [names_append]
      exact List.mem_append_right _ hm
    cases exists_unknown known asking with
    | inl hknown =>
      rw [gather_of_known hknown, gather_of_known fun name hm => hmem (hknown name hm)]
      rfl
    | inr hnext =>
      obtain ⟨passed, name, rest, rfl, hp, hn⟩ := hnext
      have hname := ha name (by simp)
      have hunknown : name ∉ names (extra ++ known) := by
        rw [names_append, List.mem_append]
        exact not_or.mpr ⟨hextra name hname, hn⟩
      rw [gather_of_unknown hp hn, gather_of_unknown (fun other hm => hmem (hp other hm)) hunknown]
      cases hl : stage.load name with
      | error cause => rfl
      | ok nodes =>
        show stage.gather loads (extra ++ known ++ [(name, nodes)]) _ = _
        rw [List.append_assoc]
        apply ih
        rw [List.forall_mem_append]
        constructor
        · intro inner hi
          exact hinner name hname inner (by rwa [find_of_load hl])
        · intro other hm
          exact ha other (by simp [hm])

/-! ## Compiling for a stage -/

theorem mem_trees_of_load {name : String} {tree : List Node}
    (h : stage.load name = .ok tree) : tree = [] ∨ tree ∈ stage.trees := by
  unfold load at h
  split at h
  · rename_i source hs
    right
    obtain ⟨location, content, -, hg, hu⟩ := Files.Store.readText_eq_ok.mp hs
    refine List.mem_filterMap.mpr ⟨(location, .file content), Files.Store.get?_eq_some_iff.mp hg, ?_⟩
    cases ho : Node.ofSource source.toList with
    | error fault =>
      rw [ho] at h
      cases h
    | ok nodes =>
      rw [ho] at h
      cases h
      simp [hu, ho, Except.toOption]
  · exact .inl (Except.ok.inj h).symm
  · cases h

def namesIn (stage : Stage host) (nodes : List Node) : List String :=
  Node.inclusions nodes ++ stage.trees.flatMap Node.inclusions

theorem length_namesIn (stage : Stage host) (nodes : List Node) :
    (stage.namesIn nodes).length + 1 = stage.loadBound nodes := by
  have hfold : ∀ (trees : List (List Node)) (count : Nat),
      trees.foldl (fun count tree => count + (Node.inclusions tree).length) count
        = count + (trees.flatMap Node.inclusions).length := by
    intro trees
    induction trees with
    | nil => simp
    | cons tree rest ih =>
      intro count
      rw [List.foldl_cons, ih, List.flatMap_cons, List.length_append]
      omega
  rw [loadBound, hfold, namesIn, List.length_append]
  omega

theorem loadBound_eq_add (stage : Stage host) (nodes : List Node) :
    stage.loadBound nodes = (Node.inclusions nodes).length + stage.loadBound [] := by
  have hnil : Node.inclusions [] = [] := rfl
  rw [← length_namesIn, ← length_namesIn, namesIn, namesIn, hnil, List.nil_append,
    List.length_append, Nat.add_assoc]

theorem inclusions_subset_namesIn (nodes : List Node) {name : String}
    {tree : List Node} (h : stage.load name = .ok tree) :
    Node.inclusions tree ⊆ stage.namesIn nodes := by
  intro inner hm
  rcases mem_trees_of_load h with rfl | ht
  · cases hm
  · exact List.mem_append_right _ (List.mem_flatMap.mpr ⟨tree, ht, hm⟩)

theorem Gathered.load_eq {known : List (String × List Node)} {asking : List String}
    (h : Gathered stage known asking) (nodes : List Node) {name : String} (hm : name ∈ names known) :
    stage.load name = .ok ((⟨nodes, known⟩ : Linked).find name) ∧
      Node.inclusions ((⟨nodes, known⟩ : Linked).find name) ⊆ asked known := by
  obtain ⟨tree, hl⟩ := Option.isSome_iff_exists.mp (lookup_isSome_iff.mpr hm)
  obtain ⟨before, after, he, -⟩ := List.lookup_eq_some_iff.mp hl
  have hfound : (⟨nodes, known⟩ : Linked).find name = tree := by simp [Linked.find, hl]
  have hentry : (name, tree) ∈ known := by simp [he]
  rw [hfound]
  exact ⟨h.loaded (name, tree) hentry, fun inner hi => List.mem_flatMap.mpr ⟨_, hentry, hi⟩⟩

theorem compile_eq_map_gather {source : String} {nodes : List Node}
    (ho : Node.ofSource source.toList = .ok nodes) : stage.compile source
      = (stage.gather (stage.loadBound nodes) [] (Node.inclusions nodes)).map (⟨nodes, ·⟩) := by
  rw [compile, ho]
  rfl

theorem compile_eq_ok {source : String} {linked : Linked} (h : stage.compile source = .ok linked) :
    Node.ofSource source.toList = .ok linked.nodes ∧
      stage.gather (stage.loadBound linked.nodes) [] (Node.inclusions linked.nodes)
        = .ok linked.partials := by
  cases ho : Node.ofSource source.toList with
  | error fault =>
    rw [compile, ho] at h
    cases h
  | ok nodes =>
    rw [compile_eq_map_gather ho] at h
    cases hg : stage.gather (stage.loadBound nodes) [] (Node.inclusions nodes) with
    | error cause =>
      rw [hg] at h
      cases h
    | ok known =>
      rw [hg] at h
      cases h
      exact ⟨rfl, hg⟩

/-- What a stage compiles a source to: its tree, with every partial that it leads to. -/
theorem compile_ok {source : String} {linked : Linked} (h : stage.compile source = .ok linked) :
    Node.ofSource source.toList = .ok linked.nodes ∧
      ∀ name, Leads stage.find linked.nodes name → stage.load name = .ok (linked.find name) := by
  obtain ⟨ho, hg⟩ := compile_eq_ok h
  have hlen := length_namesIn stage linked.nodes
  obtain ⟨hres, -, hall⟩ := gather_ok (fun name tree => inclusions_subset_namesIn linked.nodes)
    (gathered_start stage _) (List.nil_subset _) (List.subset_append_left _ _)
    (by simp only [List.length_nil]; omega) hg
  refine ⟨ho, fun name hlead => (hres.load_eq linked.nodes ?_).1⟩
  induction hlead with
  | here hm => exact hall hm
  | @next outer inner _ hi ih =>
    obtain ⟨hload, hinner⟩ := hres.load_eq linked.nodes ih
    rw [find_of_load hload] at hi
    exact (hres.pending inner (hinner hi)).resolve_right List.not_mem_nil

theorem compile_eq_gather {source : String} {nodes : List Node} {loads : Nat}
    (ho : Node.ofSource source.toList = .ok nodes) (hle : stage.loadBound nodes ≤ loads) :
    stage.compile source
      = (stage.gather loads [] (Node.inclusions nodes)).map fun known => ⟨nodes, known⟩ := by
  have hlength := length_namesIn stage nodes
  have hmore := gather_of_le (fun name tree => inclusions_subset_namesIn nodes)
    (gathered_start stage _) (List.nil_subset _) (List.subset_append_left _ _)
    (by simp only [List.length_nil]; omega) hle
  rw [compile_eq_map_gather ho, hmore]

theorem compile_error {source : String} {nodes : List Node}
    {error : TemplateError} (ho : Node.ofSource source.toList = .ok nodes)
    (h : stage.compile source = .error error) :
    ∃ name, Leads stage.find nodes name ∧ stage.load name = .error error := by
  rw [compile_eq_map_gather ho] at h
  cases hg : stage.gather (stage.loadBound nodes) [] (Node.inclusions nodes) with
  | error cause =>
    rw [hg] at h
    cases h
    exact gather_error (fun name hm => .here hm) hg
  | ok known =>
    rw [hg] at h
    cases h

theorem render_compiled {source : String} {linked : Linked}
    (h : stage.compile source = .ok linked) (depth : Nat) (context : Fields) :
    Markup.render linked.find depth linked.nodes context
      = Markup.render stage.find depth linked.nodes context :=
  (render_congr (fun name hl => find_of_load ((compile_ok h).2 name hl)) depth context).symm

end Stage

end Folio
