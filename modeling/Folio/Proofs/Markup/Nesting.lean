import Folio.Proofs.Markup.Inclusion
/-!
# Nesting of partials

A tag that opens nothing writes nothing and nests nothing. Where the tags in a tree open trees that
are nested only so deep, one level of depth more is enough to write it.
-/

namespace Folio.Markup

/-- What names open is nested at most so deep, by tags in what they open. -/
def NestedWithin (open? : String → Option (List Node)) : (depth : Nat) → List String → Prop
  | 0, names => ∀ name ∈ names, open? name = none
  | depth + 1, names => ∀ name ∈ names, ∀ tree, open? name = some tree →
      NestedWithin open? depth (Node.inclusions tree)

/-- Writes what a tag opens, where what is opened from there is nested at most `depth` deep. -/
def renderOpened (open? : String → Option (List Node)) : (depth : Nat) → Inclusion
  | 0, name, _, _, sheet => if open? name = none then .ok sheet else .error .tooDeep
  | depth + 1, name, indent, scope, sheet =>
    match open? name with
    | none => .ok sheet
    | some tree => renderNodes (renderOpened open? depth) indent tree scope sheet

/-- The text of a tree with what its tags open, nested at most `depth` deep. -/
def renderNested (open? : String → Option (List Node)) (depth : Nat) (nodes : List Node)
    (context : Fields) : Except Halt String :=
  (renderNodes (renderOpened open? depth) "" nodes [.object context] {}).map Sheet.text

variable {open? : String → Option (List Node)} {find : String → List Node}

theorem renderOpened_ne_tooDeep {depth : Nat} {names : List String}
    (h : NestedWithin open? depth names) {name : String} (hm : name ∈ names) (indent : String)
    (scope : Scope) (sheet : Sheet) :
    renderOpened open? depth name indent scope sheet ≠ .error .tooDeep := by
  induction depth generalizing names name indent scope sheet with
  | zero =>
    rw [renderOpened, if_pos (h name hm)]
    exact nofun
  | succ depth ih =>
    rw [renderOpened]
    split
    · exact nofun
    · rename_i tree ho
      exact renderNodes_ne_tooDeep indent tree scope sheet
        fun inner hi indent scope sheet => ih (h name hm tree ho) hi indent scope sheet

/-- With one level of depth more, looking partials up writes what opening them writes. -/
theorem renderOpened_refines (hf : ∀ name, find name = (open? name).getD []) (depth : Nat) :
    Inclusion.Refines (renderOpened open? depth) (renderPartial find (depth + 1)) := by
  induction depth with
  | zero =>
    intro name indent scope sheet h
    rw [renderOpened] at h ⊢
    split at h
    · rename_i ho
      rw [if_pos ho, renderPartial, hf, ho]
      rfl
    · exact absurd rfl h
  | succ depth ih =>
    intro name indent scope sheet h
    rw [renderOpened] at h ⊢
    rw [renderPartial, hf]
    cases ho : open? name with
    | none => rfl
    | some tree =>
      rw [ho] at h
      exact renderNodes_refines ih indent tree scope sheet h

/-- What is nested only so deep is rendered within that depth, and any more makes no difference. -/
theorem render_eq_renderNested (hf : ∀ name, find name = (open? name).getD []) {depth : Nat}
    {nodes : List Node} (h : NestedWithin open? depth (Node.inclusions nodes)) (context : Fields) :
    render find (depth + 1) nodes context = renderNested open? depth nodes context ∧
      renderNested open? depth nodes context ≠ .error .tooDeep := by
  have hne := renderNodes_ne_tooDeep "" nodes [.object context] {}
    fun name hm indent scope sheet => renderOpened_ne_tooDeep h hm indent scope sheet
  constructor
  · rw [render, renderNested, renderNodes_refines (renderOpened_refines hf depth) "" nodes _ _ hne]
  · rw [renderNested]
    revert hne
    cases renderNodes (renderOpened open? depth) "" nodes [.object context] {} <;>
      simp [Except.map]

end Folio.Markup
