import Folio.Proofs.Markup.Depth
import Mathlib.Order.WellFounded
/-!
# Inclusion

A rendering asks for no other partials than those the tree leads to, and it comes to an end unless
partials include one another without end.
-/

namespace Folio.Markup

/-- The names that nodes lead to: those that they include, and those that partials they lead to
include. -/
inductive Leads (find : String → List Node) (nodes : List Node) : String → Prop
  | here {name : String} : name ∈ Node.inclusions nodes → Leads find nodes name
  | next {name inner : String} : Leads find nodes name → inner ∈ Node.inclusions (find name) →
      Leads find nodes inner

/-- Partials that nodes lead to include one another in a chain without end. -/
def Endless (find : String → List Node) (nodes : List Node) : Prop :=
  ∃ chain : Nat → String, chain 0 ∈ Node.inclusions nodes ∧
    ∀ i, chain (i + 1) ∈ Node.inclusions (find (chain i))

theorem Leads.inclusions_ne_nil {find : String → List Node} {nodes : List Node} {name : String}
    (h : Leads find nodes name) : Node.inclusions nodes ≠ [] := by
  induction h with
  | here hm => exact List.ne_nil_of_mem hm
  | next _ _ ih => exact ih

/-! ## Partials that are asked for -/

mutual

theorem renderNode_congr {insert insert' : Inclusion} (indent : String) :
    ∀ (node : Node) (scope : Scope) (sheet : Sheet),
    (∀ name ∈ node.ownInclusions, insert name = insert' name) →
      renderNode insert indent node scope sheet = renderNode insert' indent node scope sheet
  | .text _, _, _, _ => rfl
  | .value _ _, _, _, _ => rfl
  | .block path inverted body, scope, sheet, h => by
    simp only [renderNode]
    congr 1
    funext next inner
    exact renderNodes_congr indent body inner next h
  | .inclusion name extra, scope, sheet, h => by
    simp only [renderNode]
    rw [h name (by simp [Node.ownInclusions])]

theorem renderNodes_congr {insert insert' : Inclusion} (indent : String) :
    ∀ (nodes : List Node) (scope : Scope) (sheet : Sheet),
    (∀ name ∈ Node.inclusions nodes, insert name = insert' name) →
      renderNodes insert indent nodes scope sheet = renderNodes insert' indent nodes scope sheet
  | [], _, _, _ => rfl
  | node :: rest, scope, sheet, h => by
    simp only [renderNodes]
    rw [renderNode_congr indent node scope sheet fun name hm => h name (List.mem_append_left _ hm)]
    congr 1
    funext next
    exact renderNodes_congr indent rest scope next fun name hm => h name (List.mem_append_right _ hm)

end

theorem renderPartial_congr {find find' : String → List Node} {nodes : List Node}
    (h : ∀ name, Leads find nodes name → find name = find' name) (depth : Nat) {name : String}
    (hn : Leads find nodes name) : renderPartial find depth name = renderPartial find' depth name := by
  induction depth generalizing name with
  | zero => rfl
  | succ depth ih =>
    funext indent scope sheet
    simp only [renderPartial]
    rw [← h name hn]
    exact renderNodes_congr indent _ scope sheet fun inner hi => ih (.next hn hi)

/-- Ways of finding partials that agree on all names that nodes lead to render the nodes alike. -/
theorem render_congr {find find' : String → List Node} {nodes : List Node}
    (h : ∀ name, Leads find nodes name → find name = find' name) (depth : Nat)
    (context : Fields) : render find depth nodes context = render find' depth nodes context := by
  rw [render, render, renderNodes_congr "" nodes _ _ fun name hm =>
    renderPartial_congr h depth (.here hm)]

/-! ## Coming to an end -/

theorem bind_ne_tooDeep {α β : Type} {x : Except Halt α} {f : α → Except Halt β}
    (hx : x ≠ .error .tooDeep) (hf : ∀ a, f a ≠ .error .tooDeep) : (x >>= f) ≠ .error .tooDeep := by
  cases x with
  | error halt =>
    intro h
    exact hx (by cases h; rfl)
  | ok a => exact hf a

theorem foldlM_ne_tooDeep {f : Sheet → Scope → Except Halt Sheet}
    (hf : ∀ sheet scope, f sheet scope ≠ .error .tooDeep) (scopes : List Scope) (sheet : Sheet) :
    scopes.foldlM f sheet ≠ .error .tooDeep := by
  induction scopes generalizing sheet with
  | nil => exact nofun
  | cons scope rest ih =>
    rw [List.foldlM_cons]
    exact bind_ne_tooDeep (hf sheet scope) ih

theorem writeValue_ne_tooDeep (indent : String) (escaped : Bool) (value : Option Json)
    (sheet : Sheet) : writeValue indent escaped value sheet ≠ .error .tooDeep := by
  unfold writeValue
  split
  · exact nofun
  · split <;> exact nofun

mutual

theorem renderNode_ne_tooDeep {insert : Inclusion} (indent : String) :
    ∀ (node : Node) (scope : Scope) (sheet : Sheet),
    (∀ name ∈ node.ownInclusions, ∀ indent scope sheet,
      insert name indent scope sheet ≠ .error .tooDeep) →
      renderNode insert indent node scope sheet ≠ .error .tooDeep
  | .text _, _, _, _ => nofun
  | .value path escaped, scope, sheet, _ =>
    writeValue_ne_tooDeep indent escaped (scope.resolve path) sheet
  | .block path inverted body, scope, sheet, h => by
    simp only [renderNode]
    exact foldlM_ne_tooDeep (fun next inner => renderNodes_ne_tooDeep indent body inner next h) _ sheet
  | .inclusion name extra, scope, sheet, h =>
    h name (by simp [Node.ownInclusions]) (indent ++ extra) scope sheet

theorem renderNodes_ne_tooDeep {insert : Inclusion} (indent : String) :
    ∀ (nodes : List Node) (scope : Scope) (sheet : Sheet),
    (∀ name ∈ Node.inclusions nodes, ∀ indent scope sheet,
      insert name indent scope sheet ≠ .error .tooDeep) →
      renderNodes insert indent nodes scope sheet ≠ .error .tooDeep
  | [], _, _, _ => nofun
  | node :: rest, scope, sheet, h => by
    simp only [renderNodes]
    exact bind_ne_tooDeep
      (renderNode_ne_tooDeep indent node scope sheet fun name hm => h name (List.mem_append_left _ hm))
      fun next => renderNodes_ne_tooDeep indent rest scope next fun name hm =>
        h name (List.mem_append_right _ hm)

end

/-- A partial is written within a depth, whatever the scope. -/
def Finishes (find : String → List Node) (depth : Nat) (name : String) : Prop :=
  ∀ indent scope sheet, renderPartial find depth name indent scope sheet ≠ .error .tooDeep

theorem Finishes.mono {find : String → List Node} {depth depth' : Nat} {name : String}
    (h : Finishes find depth name) (hle : depth ≤ depth') : Finishes find depth' name := by
  intro indent scope sheet
  rw [renderPartial_refines find hle name indent scope sheet (h indent scope sheet)]
  exact h indent scope sheet

theorem exists_finishes_all {find : String → List Node} {names : List String}
    (h : ∀ name ∈ names, ∃ depth, Finishes find depth name) :
    ∃ depth, ∀ name ∈ names, Finishes find depth name := by
  induction names with
  | nil => exact ⟨0, nofun⟩
  | cons first rest ih =>
    obtain ⟨d, hd⟩ := h first List.mem_cons_self
    obtain ⟨d', hd'⟩ := ih fun name hm => h name (List.mem_cons_of_mem _ hm)
    refine ⟨max d d', fun name hm => ?_⟩
    rcases List.mem_cons.mp hm with rfl | hm
    · exact hd.mono (Nat.le_max_left d d')
    · exact (hd' name hm).mono (Nat.le_max_right d d')

theorem exists_finishes_of_acc {find : String → List Node} {name : String}
    (h : Acc (fun inner outer => inner ∈ Node.inclusions (find outer)) name) :
    ∃ depth, Finishes find depth name := by
  induction h with
  | intro name _ ih =>
    obtain ⟨depth, hd⟩ := exists_finishes_all ih
    exact ⟨depth + 1, fun indent scope sheet =>
      renderNodes_ne_tooDeep indent (find name) scope sheet hd⟩

/-- Without an endless chain of partials there is a depth that is enough for every context. -/
theorem exists_depth_of_not_endless {find : String → List Node} {nodes : List Node}
    (h : ¬ Endless find nodes) :
    ∃ depth, ∀ context, render find depth nodes context ≠ .error .tooDeep := by
  have hacc : ∀ name ∈ Node.inclusions nodes,
      Acc (fun inner outer => inner ∈ Node.inclusions (find outer)) name := by
    intro name hm
    by_contra hn
    obtain ⟨chain, hc, hs⟩ := not_acc_iff_exists_descending_chain.mp hn
    exact h ⟨chain, hc ▸ hm, hs⟩
  obtain ⟨depth, hd⟩ := exists_finishes_all fun name hm => exists_finishes_of_acc (hacc name hm)
  refine ⟨depth, fun context he => ?_⟩
  have hne := renderNodes_ne_tooDeep "" nodes [.object context] {} hd
  revert he hne
  rw [render]
  cases renderNodes (renderPartial find depth) "" nodes [.object context] {} <;>
    simp [Except.map]

end Folio.Markup
