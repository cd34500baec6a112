import Folio.Markup.Rendering
import Mathlib.Data.Fintype.BigOperators
import Mathlib.Order.Monotone.Basic
/-!
# Depth of inclusion

More depth never changes a rendering that did not run out of it. What a partial does depends on the
scope only through the innermost value and the values found for the keys in use, and there are
finitely many of these choices. So once one more level of depth makes no difference for any of
them, no further level does, and `Linked.depthBound` is reached after that.
-/

namespace Folio.Markup

/-! ## More depth -/

/-- The second way of writing partials does what the first one does wherever that does not run out
of depth. -/
def Inclusion.Refines (insert insert' : Inclusion) : Prop :=
  ∀ name indent scope sheet, insert name indent scope sheet ≠ .error .tooDeep →
    insert' name indent scope sheet = insert name indent scope sheet

theorem bind_refines {α β : Type} {x x' : Except Halt α} {f f' : α → Except Halt β}
    (hx : x ≠ .error .tooDeep → x' = x) (hf : ∀ a, f a ≠ .error .tooDeep → f' a = f a)
    (h : (x >>= f) ≠ .error .tooDeep) : (x' >>= f') = (x >>= f) := by
  have hne : x ≠ .error .tooDeep := by
    rintro rfl
    exact h rfl
  rw [hx hne]
  cases x with
  | error halt => rfl
  | ok a => exact hf a h

theorem foldlM_refines {f f' : Sheet → Scope → Except Halt Sheet}
    (hf : ∀ sheet scope, f sheet scope ≠ .error .tooDeep → f' sheet scope = f sheet scope)
    (scopes : List Scope) (sheet : Sheet) (h : scopes.foldlM f sheet ≠ .error .tooDeep) :
    scopes.foldlM f' sheet = scopes.foldlM f sheet := by
  induction scopes generalizing sheet with
  | nil => rfl
  | cons scope rest ih =>
    rw [List.foldlM_cons] at h
    rw [List.foldlM_cons, List.foldlM_cons]
    exact bind_refines (hf sheet scope) (fun next => ih next) h

mutual

theorem renderNode_refines {insert insert' : Inclusion} (hi : insert.Refines insert')
    (indent : String) : ∀ (node : Node) (scope : Scope) (sheet : Sheet),
    renderNode insert indent node scope sheet ≠ .error .tooDeep →
      renderNode insert' indent node scope sheet = renderNode insert indent node scope sheet
  | .text _, _, _, _ => rfl
  | .value _ _, _, _, _ => rfl
  | .block path inverted body, scope, sheet, h => by
    simp only [renderNode] at h ⊢
    exact foldlM_refines (fun next inner => renderNodes_refines hi indent body inner next) _ sheet h
  | .inclusion name extra, scope, sheet, h => hi name (indent ++ extra) scope sheet h

theorem renderNodes_refines {insert insert' : Inclusion} (hi : insert.Refines insert')
    (indent : String) : ∀ (nodes : List Node) (scope : Scope) (sheet : Sheet),
    renderNodes insert indent nodes scope sheet ≠ .error .tooDeep →
      renderNodes insert' indent nodes scope sheet = renderNodes insert indent nodes scope sheet
  | [], _, _, _ => rfl
  | node :: rest, scope, sheet, h => by
    simp only [renderNodes] at h ⊢
    exact bind_refines (renderNode_refines hi indent node scope sheet)
      (fun next => renderNodes_refines hi indent rest scope next) h

end

theorem renderPartial_refines_succ (find : String → List Node) (depth : Nat) :
    Inclusion.Refines (renderPartial find depth) (renderPartial find (depth + 1)) := by
  induction depth with
  | zero =>
    intro name indent scope sheet h
    exact absurd rfl h
  | succ depth ih =>
    intro name indent scope sheet h
    exact renderNodes_refines ih indent (find name) scope sheet h

theorem renderPartial_refines (find : String → List Node) {depth depth' : Nat}
    (hle : depth ≤ depth') :
    Inclusion.Refines (renderPartial find depth) (renderPartial find depth') := by
  induction hle with
  | refl => exact fun _ _ _ _ _ => rfl
  | step _ ih =>
    intro name indent scope sheet h
    have heq := ih name indent scope sheet h
    rw [renderPartial_refines_succ find _ name indent scope sheet (heq ▸ h), heq]

theorem render_mono (find : String → List Node) {depth depth' : Nat} (hle : depth ≤ depth')
    (nodes : List Node) (context : Fields)
    (h : render find depth nodes context ≠ .error .tooDeep) :
    render find depth' nodes context = render find depth nodes context := by
  have hne : renderNodes (renderPartial find depth) "" nodes [.object context] {}
      ≠ .error .tooDeep := by
    intro he
    exact h (by rw [render, he]; rfl)
  rw [render, render, renderNodes_refines (renderPartial_refines find hle) "" nodes _ _ hne]

/-! ## What a rendering depends on -/

/-- How a rendering ends, leaving out what it writes. -/
def ending {α : Type} : Except Halt α → Option Halt
  | .ok _ => none
  | .error halt => some halt

theorem ending_eq_tooDeep {α : Type} {x : Except Halt α} :
    ending x = some .tooDeep ↔ x = .error .tooDeep := by
  cases x <;> simp [ending]

theorem ending_bind {α β α' β' : Type} {x : Except Halt α} {x' : Except Halt α'}
    {f : α → Except Halt β} {f' : α' → Except Halt β'} (hx : ending x = ending x')
    (hf : ∀ a a', ending (f a) = ending (f' a')) : ending (x >>= f) = ending (x' >>= f') := by
  cases x with
  | error halt =>
    cases x' with
    | error halt' => exact hx
    | ok a' => cases hx
  | ok a =>
    cases x' with
    | error halt' => cases hx
    | ok a' => exact hf a a'

theorem ending_foldlM {f f' : Sheet → Scope → Except Halt Sheet} {R : Scope → Scope → Prop}
    (hf : ∀ sheet sheet' scope scope', R scope scope' →
      ending (f sheet scope) = ending (f' sheet' scope'))
    {scopes scopes' : List Scope} (h : List.Forall₂ R scopes scopes') (sheet sheet' : Sheet) :
    ending (scopes.foldlM f sheet) = ending (scopes'.foldlM f' sheet') := by
  induction h generalizing sheet sheet' with
  | nil => rfl
  | cons hr _ ih =>
    rw [List.foldlM_cons, List.foldlM_cons]
    exact ending_bind (hf sheet sheet' _ _ hr) ih

theorem ending_writeValue (indent indent' : String) (escaped : Bool) (value : Option Json)
    (sheet sheet' : Sheet) :
    ending (writeValue indent escaped value sheet)
      = ending (writeValue indent' escaped value sheet') := by
  cases value with
  | none => rfl
  | some value =>
    simp only [writeValue]
    cases written? value with
    | none => rfl
    | some text => rfl

/-- Values with all that is in them. -/
def Complete (values : List Json) : Prop :=
  (∀ items, .array items ∈ values → ∀ item ∈ items, item ∈ values) ∧
    ∀ fields, .object fields ∈ values → ∀ field ∈ fields, field.2 ∈ values

/-- Two scopes with the same innermost value and the same value found for each of some keys. -/
structure Alike (values : List Json) (keys : List String) (scope scope' : Scope) : Prop where
  head : scope.head? = scope'.head?
  find : ∀ key ∈ keys, scope.find? key = scope'.find? key
  within : ∀ value ∈ scope, value ∈ values
  within' : ∀ value ∈ scope', value ∈ values

namespace Alike

variable {values : List Json} {keys : List String} {scope scope' : Scope}

theorem refl (h : ∀ value ∈ scope, value ∈ values) : Alike values keys scope scope :=
  ⟨rfl, fun _ _ => rfl, h, h⟩

theorem push (h : Alike values keys scope scope') {value : Json} (hv : value ∈ values) :
    Alike values keys (value :: scope) (value :: scope') where
  head := rfl
  find key hk := by
    have hf := h.find key hk
    simp only [Scope.find?, List.findSome?_cons] at hf ⊢
    rw [hf]
  within := by
    intro v hm
    rcases List.mem_cons.mp hm with rfl | hm
    · exact hv
    · exact h.within v hm
  within' := by
    intro v hm
    rcases List.mem_cons.mp hm with rfl | hm
    · exact hv
    · exact h.within' v hm

theorem resolve (h : Alike values keys scope scope') {path : Path}
    (hp : ∀ key ∈ path.head?, key ∈ keys) : scope.resolve path = scope'.resolve path := by
  cases path with
  | nil => exact h.head
  | cons first rest =>
    have hf := h.find first (hp first (by simp))
    simp only [Scope.resolve, hf]

end Alike

theorem mem_of_field? {values : List Json} (hc : Complete values) {value inner : Json}
    {key : String} (hv : value ∈ values) (h : value.field? key = some inner) : inner ∈ values := by
  cases value with
  | object fields =>
    obtain ⟨before, after, rfl, -⟩ := List.lookup_eq_some_iff.mp h
    exact hc.2 _ hv (key, inner) (by simp)
  | _ => cases h

theorem mem_of_foldlM_field? {values : List Json} (hc : Complete values) {path : Path}
    {value inner : Json} (hv : value ∈ values)
    (h : path.foldlM (fun value key => value.field? key) value = some inner) : inner ∈ values := by
  induction path generalizing value with
  | nil =>
    rw [List.foldlM_nil] at h
    cases h
    exact hv
  | cons key rest ih =>
    rw [List.foldlM_cons] at h
    obtain ⟨next, hn, h⟩ := Option.bind_eq_some_iff.mp h
    exact ih (mem_of_field? hc hv hn) h

theorem mem_of_resolve {values : List Json} (hc : Complete values) {scope : Scope}
    (hs : ∀ value ∈ scope, value ∈ values) {path : Path} {value : Json}
    (h : scope.resolve path = some value) : value ∈ values := by
  cases path with
  | nil => exact hs value (List.mem_of_mem_head? h)
  | cons first rest =>
    obtain ⟨found, hf, h⟩ := Option.bind_eq_some_iff.mp h
    obtain ⟨outer, ho, hf⟩ := List.exists_of_findSome?_eq_some hf
    exact mem_of_foldlM_field? hc (mem_of_field? hc (hs outer ho) hf) h

theorem Alike.sectionScopes {values : List Json} {keys : List String} (hc : Complete values)
    {scope scope' : Scope} (h : Alike values keys scope scope') {value : Option Json}
    (hv : ∀ v ∈ value, v ∈ values) :
    List.Forall₂ (Alike values keys) (sectionScopes scope value) (sectionScopes scope' value) := by
  cases value with
  | none => exact .nil
  | some value =>
    have hm : value ∈ values := hv value rfl
    have one : List.Forall₂ (Alike values keys) [value :: scope] [value :: scope'] :=
      .cons (h.push hm) .nil
    cases value with
    | null => exact .nil
    | bool b =>
      cases b with
      | true => exact .cons h .nil
      | false => exact .nil
    | string text =>
      simp only [Markup.sectionScopes]
      split
      · exact .nil
      · exact one
    | int number => exact one
    | float number => exact one
    | object fields => exact one
    | array items =>
      simp only [Markup.sectionScopes, List.forall₂_map_left_iff, List.forall₂_map_right_iff,
        List.forall₂_same]
      exact fun item hi => h.push (hc.1 items hm item hi)

theorem Alike.blockScopes {values : List Json} {keys : List String} (hc : Complete values)
    {scope scope' : Scope} (h : Alike values keys scope scope') {path : Path}
    (hp : ∀ key ∈ path.head?, key ∈ keys) (inverted : Bool) :
    List.Forall₂ (Alike values keys) (blockScopes scope path inverted)
      (blockScopes scope' path inverted) := by
  simp only [Markup.blockScopes, ← h.resolve hp]
  cases inverted with
  | true =>
    simp only [if_true]
    split
    · exact .cons h .nil
    · exact .nil
  | false =>
    simp only [Bool.false_eq_true, if_false]
    exact h.sectionScopes hc fun v hv => mem_of_resolve hc h.within hv

/-- Two ways of writing partials end alike for alike scopes. -/
def Inclusion.EndsAlike (values : List Json) (keys : List String) (insert insert' : Inclusion) :
    Prop :=
  ∀ name indent indent' scope scope' sheet sheet', Alike values keys scope scope' →
    ending (insert name indent scope sheet) = ending (insert' name indent' scope' sheet')

mutual

theorem ending_renderNode {values : List Json} {keys : List String} (hc : Complete values)
    {insert insert' : Inclusion} (hi : insert.EndsAlike values keys insert')
    (indent indent' : String) : ∀ (node : Node) (scope scope' : Scope) (sheet sheet' : Sheet),
    node.ownKeys ⊆ keys → Alike values keys scope scope' →
      ending (renderNode insert indent node scope sheet)
        = ending (renderNode insert' indent' node scope' sheet')
  | .text _, _, _, _, _, _, _ => rfl
  | .value path escaped, scope, scope', sheet, sheet', hk, ha => by
    have hp : ∀ key ∈ path.head?, key ∈ keys := fun key hm => hk (by simpa [Node.ownKeys] using hm)
    simp only [renderNode, ha.resolve hp]
    exact ending_writeValue indent indent' escaped _ sheet sheet'
  | .block path inverted body, scope, scope', sheet, sheet', hk, ha => by
    have hp : ∀ key ∈ path.head?, key ∈ keys :=
      fun key hm => hk (List.mem_append_left _ (by simpa using hm))
    have hb : Node.keys body ⊆ keys := fun key hm => hk (List.mem_append_right _ hm)
    simp only [renderNode]
    exact ending_foldlM (fun next next' inner inner' =>
      ending_renderNodes hc hi indent indent' body inner inner' next next' hb)
      (ha.blockScopes hc hp inverted) sheet sheet'
  | .inclusion name extra, scope, scope', sheet, sheet', _, ha =>
    hi name (indent ++ extra) (indent' ++ extra) scope scope' sheet sheet' ha

theorem ending_renderNodes {values : List Json} {keys : List String} (hc : Complete values)
    {insert insert' : Inclusion} (hi : insert.EndsAlike values keys insert')
    (indent indent' : String) : ∀ (nodes : List Node) (scope scope' : Scope) (sheet sheet' : Sheet),
    Node.keys nodes ⊆ keys → Alike values keys scope scope' →
      ending (renderNodes insert indent nodes scope sheet)
        = ending (renderNodes insert' indent' nodes scope' sheet')
  | [], _, _, _, _, _, _ => rfl
  | node :: rest, scope, scope', sheet, sheet', hk, ha => by
    have hn : node.ownKeys ⊆ keys := fun key hm => hk (List.mem_append_left _ hm)
    have hr : Node.keys rest ⊆ keys := fun key hm => hk (List.mem_append_right _ hm)
    simp only [renderNodes]
    exact ending_bind (ending_renderNode hc hi indent indent' node scope scope' sheet sheet' hn ha)
      fun next next' => ending_renderNodes hc hi indent indent' rest scope scope' next next' hr ha

end

/-! ## When more depth makes no difference -/

/-- A partial is written for a scope within a depth. -/
def Settles (find : String → List Node) (depth : Nat) (name : String) (scope : Scope) : Prop :=
  renderPartial find depth name "" scope {} ≠ .error .tooDeep

/-- One level more makes no difference for any partial and any scope of some values. The first level
is left out, on which partials without nodes do not settle. -/
def Stable (find : String → List Node) (values : List Json) (depth : Nat) : Prop :=
  ∀ name scope, (∀ value ∈ scope, value ∈ values) →
    Settles find (depth + 2) name scope → Settles find (depth + 1) name scope

section

variable {find : String → List Node} {names keys : List String} {values : List Json}

theorem Settles.succ {depth : Nat} {name : String} {scope : Scope}
    (h : Settles find depth name scope) : Settles find (depth + 1) name scope := by
  rw [Settles, renderPartial_refines_succ find depth name "" scope {} h]
  exact h

theorem endsAlike_renderPartial (hc : Complete values) (hk : ∀ name, Node.keys (find name) ⊆ keys)
    (depth : Nat) :
    Inclusion.EndsAlike values keys (renderPartial find depth) (renderPartial find depth) := by
  induction depth with
  | zero => exact fun _ _ _ _ _ _ _ _ => rfl
  | succ depth ih =>
    intro name indent indent' scope scope' sheet sheet' ha
    exact ending_renderNodes hc ih indent indent' (find name) scope scope' sheet sheet' (hk name) ha

theorem Settles.of_alike (hc : Complete values) (hk : ∀ name, Node.keys (find name) ⊆ keys)
    {depth : Nat} {name : String} {scope scope' : Scope} (h : Settles find depth name scope)
    (ha : Alike values keys scope scope') : Settles find depth name scope' := by
  intro hd
  apply h
  rw [← ending_eq_tooDeep] at hd ⊢
  rw [endsAlike_renderPartial hc hk depth name "" "" scope scope' {} {} ha]
  exact hd

theorem Stable.endsAlike (hc : Complete values) (hk : ∀ name, Node.keys (find name) ⊆ keys)
    {depth : Nat} (h : Stable find values depth) :
    Inclusion.EndsAlike values keys (renderPartial find (depth + 1))
      (renderPartial find (depth + 2)) := by
  intro name indent indent' scope scope' sheet sheet' ha
  have hself : Alike values keys scope scope := .refl ha.within
  rw [endsAlike_renderPartial hc hk (depth + 1) name indent "" scope scope sheet {} hself,
    ← endsAlike_renderPartial hc hk (depth + 2) name "" indent' scope scope' {} sheet' ha]
  by_cases hs : Settles find (depth + 1) name scope
  · rw [renderPartial_refines_succ find (depth + 1) name "" scope {} hs]
  · have hn : ¬ Settles find (depth + 2) name scope := fun hs' => hs (h name scope ha.within hs')
    rw [Settles, not_not] at hs hn
    rw [hs, hn]

theorem Stable.succ (hc : Complete values) (hk : ∀ name, Node.keys (find name) ⊆ keys)
    {depth : Nat} (h : Stable find values depth) : Stable find values (depth + 1) := by
  intro name scope hw hs hd
  apply hs
  rw [← ending_eq_tooDeep] at hd ⊢
  rw [← hd]
  exact (ending_renderNodes hc (h.endsAlike hc hk) "" "" (find name) scope scope {} {} (hk name)
    (.refl hw)).symm

/-- What decides how a partial ends: its name, the innermost value and the value found for each
key. -/
def stateOf (keys : List String) (name : String) (scope : Scope) :
    String × Option Json × (Fin keys.length → Option Json) :=
  (name, scope.head?, fun i => scope.find? keys[i])

theorem alike_of_stateOf_eq {name : String} {scope scope' : Scope}
    (h : stateOf keys name scope = stateOf keys name scope')
    (hs : ∀ value ∈ scope, value ∈ values) (hs' : ∀ value ∈ scope', value ∈ values) :
    Alike values keys scope scope' := by
  simp only [stateOf, Prod.mk.injEq, true_and] at h
  refine ⟨h.1, fun key hm => ?_, hs, hs'⟩
  obtain ⟨i, hi, rfl⟩ := List.getElem_of_mem hm
  exact congrFun h.2 ⟨i, hi⟩

open Classical in
noncomputable def states (names keys : List String) (values : List Json) :
    Finset (String × Option Json × (Fin keys.length → Option Json)) :=
  names.toFinset ×ˢ (none :: values.map some).toFinset ×ˢ
    Fintype.piFinset fun _ => (none :: values.map some).toFinset

open Classical in
theorem card_states_le (names keys : List String) (values : List Json) :
    (states names keys values).card ≤ names.length * (values.length + 1) ^ (keys.length + 1) := by
  have hv : (none :: values.map some).toFinset.card ≤ values.length + 1 := by
    simpa using (none :: values.map some).toFinset_card_le
  simp only [states, Finset.card_product, Fintype.card_piFinset_const]
  calc _ ≤ names.length * ((values.length + 1) * (values.length + 1) ^ keys.length) :=
        Nat.mul_le_mul names.toFinset_card_le (Nat.mul_le_mul hv (Nat.pow_le_pow_left hv _))
    _ = names.length * (values.length + 1) ^ (keys.length + 1) := by
        rw [Nat.pow_succ, Nat.mul_comm (values.length + 1)]

theorem mem_of_find? (hc : Complete values) {scope : Scope} (hs : ∀ value ∈ scope, value ∈ values)
    {key : String} {value : Json} (h : scope.find? key = some value) : value ∈ values := by
  obtain ⟨outer, ho, hf⟩ := List.exists_of_findSome?_eq_some h
  exact mem_of_field? hc (hs outer ho) hf

theorem stateOf_mem_states (hc : Complete values) {name : String} (hn : name ∈ names)
    {scope : Scope} (hs : ∀ value ∈ scope, value ∈ values) :
    stateOf keys name scope ∈ states names keys values := by
  have hm : ∀ found : Option Json, (∀ value ∈ found, value ∈ values) →
      found ∈ none :: values.map some := by
    rintro (_ | value) h
    · simp
    · simpa using h value rfl
  simp only [states, stateOf, Finset.mem_product, List.mem_toFinset, Fintype.mem_piFinset]
  exact ⟨hn, hm _ fun value h => hs value (List.mem_of_mem_head? h),
    fun i => hm _ fun value h => mem_of_find? hc hs h⟩

open Classical in
/-- The states for which a partial settles within a depth, the first level left out. -/
noncomputable def settled (find : String → List Node) (names keys : List String)
    (values : List Json) (depth : Nat) :
    Finset (String × Option Json × (Fin keys.length → Option Json)) :=
  (states names keys values).filter fun state => ∃ scope : Scope,
    (∀ value ∈ scope, value ∈ values) ∧ stateOf keys state.1 scope = state ∧
      Settles find (depth + 1) state.1 scope

theorem mem_settled {depth : Nat} {state : String × Option Json × (Fin keys.length → Option Json)} :
    state ∈ settled find names keys values depth ↔ state ∈ states names keys values ∧
      ∃ scope : Scope, (∀ value ∈ scope, value ∈ values) ∧ stateOf keys state.1 scope = state ∧
        Settles find (depth + 1) state.1 scope := by
  classical
  rw [settled, Finset.mem_filter]

theorem settled_subset_succ (depth : Nat) :
    settled find names keys values depth ⊆ settled find names keys values (depth + 1) := by
  intro state hm
  obtain ⟨hm, scope, hs, he, h⟩ := mem_settled.mp hm
  exact mem_settled.mpr ⟨hm, scope, hs, he, h.succ⟩

theorem stable_of_settled_eq (hc : Complete values) (hk : ∀ name, Node.keys (find name) ⊆ keys)
    (hf : ∀ name, name ∉ names → find name = []) {depth : Nat}
    (h : settled find names keys values depth = settled find names keys values (depth + 1)) :
    Stable find values depth := by
  intro name scope hw hs
  by_cases hn : name ∈ names
  · have hm : stateOf keys name scope ∈ settled find names keys values depth := by
      rw [h]
      exact mem_settled.mpr ⟨stateOf_mem_states hc hn hw, scope, hw, rfl, hs⟩
    obtain ⟨-, scope', hw', he, hs'⟩ := mem_settled.mp hm
    exact hs'.of_alike hc hk (alike_of_stateOf_eq he hw' hw)
  · simp [Settles, renderPartial, hf name hn, renderNodes]

theorem settled_eq_of_stable {depth : Nat} (h : Stable find values depth) :
    settled find names keys values (depth + 1) ⊆ settled find names keys values depth := by
  intro state hm
  obtain ⟨hm, scope, hs, he, hd⟩ := mem_settled.mp hm
  exact mem_settled.mpr ⟨hm, scope, hs, he, h _ scope hs hd⟩

/-- From as many levels on as there are states, more depth makes no difference. -/
theorem stable_of_le (hc : Complete values) (hk : ∀ name, Node.keys (find name) ⊆ keys)
    (hf : ∀ name, name ∉ names → find name = []) {depth : Nat}
    (hle : names.length * (values.length + 1) ^ (keys.length + 1) ≤ depth) :
    Stable find values depth := by
  have hmono : Monotone fun d => (settled find names keys values d).card :=
    monotone_nat_of_le_succ fun d => Finset.card_le_card (settled_subset_succ d)
  have hbound : ∀ d, (settled find names keys values d).card
      ≤ names.length * (values.length + 1) ^ (keys.length + 1) := fun d =>
    (Finset.card_le_card fun _ hm => (mem_settled.mp hm).1).trans (card_states_le names keys values)
  have heq : ∀ d, (settled find names keys values d).card
      = (settled find names keys values (d + 1)).card → Stable find values d := fun d hd =>
    stable_of_settled_eq hc hk hf
      (Finset.eq_of_subset_of_card_le (settled_subset_succ d) hd.ge)
  have hstop : ∀ d, (settled find names keys values d).card
      = (settled find names keys values (d + 1)).card →
      (settled find names keys values (d + 1)).card
        = (settled find names keys values (d + 2)).card := fun d hd =>
    (Finset.card_le_card (settled_subset_succ (d + 1))).antisymm
      (Finset.card_le_card (settled_eq_of_stable ((heq d hd).succ hc hk)))
  apply heq
  rw [Nat.stabilises_of_monotone hmono hbound hstop hle,
    Nat.stabilises_of_monotone hmono hbound hstop (Nat.le_succ_of_le hle)]

end

/-! ## The bound of linked trees -/

mutual

def valuesOf : Json → List Json
  | .array items => .array items :: valuesOfItems items
  | .object fields => .object fields :: valuesOfFields fields
  | .null => [.null]
  | .bool value => [.bool value]
  | .int value => [.int value]
  | .float value => [.float value]
  | .string value => [.string value]

def valuesOfItems : List Json → List Json
  | [] => []
  | value :: rest => valuesOf value ++ valuesOfItems rest

def valuesOfFields : List (String × Json) → List Json
  | [] => []
  | (_, value) :: rest => valuesOf value ++ valuesOfFields rest

end

mutual

theorem length_valuesOf : ∀ value : Json, (valuesOf value).length = value.size
  | .array items => by simp [valuesOf, Json.size, length_valuesOfItems items, Nat.add_comm]
  | .object fields => by simp [valuesOf, Json.size, length_valuesOfFields fields, Nat.add_comm]
  | .null | .bool _ | .int _ | .float _ | .string _ => rfl

theorem length_valuesOfItems : ∀ items, (valuesOfItems items).length = Json.itemsSize items
  | [] => rfl
  | value :: rest => by
    simp [valuesOfItems, Json.itemsSize, length_valuesOf value, length_valuesOfItems rest]

theorem length_valuesOfFields : ∀ fields, (valuesOfFields fields).length = Json.fieldsSize fields
  | [] => rfl
  | (_, value) :: rest => by
    simp [valuesOfFields, Json.fieldsSize, length_valuesOf value, length_valuesOfFields rest]

end

theorem mem_valuesOf_self (value : Json) : value ∈ valuesOf value := by
  cases value <;> simp [valuesOf]

theorem mem_valuesOfItems {items : List Json} {value item : Json} (hi : item ∈ items)
    (hv : value ∈ valuesOf item) : value ∈ valuesOfItems items := by
  induction items with
  | nil => cases hi
  | cons first rest ih =>
    rcases List.mem_cons.mp hi with rfl | hi
    · exact List.mem_append_left _ hv
    · exact List.mem_append_right _ (ih hi)

theorem mem_valuesOfFields {fields : List (String × Json)} {value : Json} {field : String × Json}
    (hf : field ∈ fields) (hv : value ∈ valuesOf field.2) : value ∈ valuesOfFields fields := by
  induction fields with
  | nil => cases hf
  | cons first rest ih =>
    rcases List.mem_cons.mp hf with rfl | hf
    · exact List.mem_append_left _ hv
    · exact List.mem_append_right _ (ih hf)

mutual

theorem valuesOf_trans {value inner : Json} (hi : inner ∈ valuesOf value) :
    ∀ outer, value ∈ valuesOf outer → inner ∈ valuesOf outer
  | .array items, h => by
    rcases List.mem_cons.mp h with rfl | h
    · exact hi
    · exact List.mem_cons_of_mem _ (valuesOfItems_trans hi items h)
  | .object fields, h => by
    rcases List.mem_cons.mp h with rfl | h
    · exact hi
    · exact List.mem_cons_of_mem _ (valuesOfFields_trans hi fields h)
  | .null, h | .bool _, h | .int _, h | .float _, h | .string _, h => by
    obtain rfl := List.mem_singleton.mp h
    exact hi

theorem valuesOfItems_trans {value inner : Json} (hi : inner ∈ valuesOf value) :
    ∀ items, value ∈ valuesOfItems items → inner ∈ valuesOfItems items
  | first :: rest, h => by
    rcases List.mem_append.mp h with h | h
    · exact List.mem_append_left _ (valuesOf_trans hi first h)
    · exact List.mem_append_right _ (valuesOfItems_trans hi rest h)

theorem valuesOfFields_trans {value inner : Json} (hi : inner ∈ valuesOf value) :
    ∀ fields, value ∈ valuesOfFields fields → inner ∈ valuesOfFields fields
  | (_, first) :: rest, h => by
    rcases List.mem_append.mp h with h | h
    · exact List.mem_append_left _ (valuesOf_trans hi first h)
    · exact List.mem_append_right _ (valuesOfFields_trans hi rest h)

end

theorem complete_valuesOf (root : Json) : Complete (valuesOf root) := by
  constructor
  · intro items h item hi
    exact valuesOf_trans (List.mem_cons_of_mem _ (mem_valuesOfItems hi (mem_valuesOf_self item)))
      root h
  · intro fields h field hf
    exact valuesOf_trans
      (List.mem_cons_of_mem _ (mem_valuesOfFields hf (mem_valuesOf_self field.2))) root h

namespace Linked

theorem find_eq_nil {linked : Linked} {name : String} (h : name ∉ linked.partials.map Prod.fst) :
    linked.find name = [] := by
  have hn : linked.partials.lookup name = none := by
    rw [List.lookup_eq_none_iff]
    intro entry hm
    have hne : name ≠ entry.1 := fun he => h (he ▸ List.mem_map_of_mem hm)
    simpa using hne
  simp [find, hn]

theorem keys_nodes_subset (linked : Linked) : Node.keys linked.nodes ⊆ linked.keys := by
  intro key hm
  simp only [keys, List.mem_eraseDups, List.flatMap_cons, List.mem_append]
  exact .inl hm

theorem keys_find_subset (linked : Linked) (name : String) :
    Node.keys (linked.find name) ⊆ linked.keys := by
  intro key hm
  cases hl : linked.partials.lookup name with
  | none => simp [find, hl, Node.keys] at hm
  | some tree =>
    obtain ⟨before, after, he, -⟩ := List.lookup_eq_some_iff.mp hl
    simp only [find, hl, Option.getD_some] at hm
    simp only [keys, List.mem_eraseDups, List.flatMap_cons, List.mem_append, List.mem_flatMap]
    exact .inr ⟨tree, List.mem_map.mpr ⟨(name, tree), by simp [he], rfl⟩, hm⟩

theorem ending_render_of_le (linked : Linked) (context : Fields) {depth : Nat}
    (hle : linked.depthBound context ≤ depth) :
    ending (Markup.render linked.find depth linked.nodes context)
      = ending (linked.render context) := by
  have hc := complete_valuesOf (.object context)
  have hs : ∀ value ∈ ([.object context] : Scope), value ∈ valuesOf (.object context) := by
    intro value hm
    rw [List.mem_singleton.mp hm]
    exact mem_valuesOf_self _
  induction hle with
  | refl => rfl
  | @step depth hle ih =>
    have hpos : 1 ≤ depth := Nat.le_trans (Nat.succ_le_succ (Nat.zero_le _)) hle
    obtain ⟨n, rfl⟩ := Nat.exists_eq_add_of_le' hpos
    have hn : (linked.partials.map Prod.fst).length
        * ((valuesOf (.object context)).length + 1) ^ (linked.keys.length + 1) ≤ n := by
      rw [List.length_map, length_valuesOf]
      exact Nat.le_of_succ_le_succ hle
    have hstable := stable_of_le hc linked.keys_find_subset (fun _ => linked.find_eq_nil) hn
    rw [← ih, Markup.render, Markup.render]
    have he := ending_renderNodes hc (hstable.endsAlike hc linked.keys_find_subset) "" ""
      linked.nodes _ _ {} {} linked.keys_nodes_subset (.refl hs)
    revert he
    cases renderNodes (renderPartial linked.find (n + 1)) "" linked.nodes [.object context] {} <;>
      cases renderNodes (renderPartial linked.find (n + 2)) "" linked.nodes [.object context] {} <;>
      simp [ending, Except.map, eq_comm]

/-- The bound never decides: a depth that is enough gives what the bound gives. -/
theorem render_eq_of_settles (linked : Linked) (context : Fields) {depth : Nat}
    (h : Markup.render linked.find depth linked.nodes context ≠ .error .tooDeep) :
    linked.render context = Markup.render linked.find depth linked.nodes context := by
  rcases Nat.le_total depth (linked.depthBound context) with hle | hle
  · exact render_mono linked.find hle linked.nodes context h
  · refine (render_mono linked.find hle linked.nodes context fun hd => h ?_).symm
    rw [← ending_eq_tooDeep, ending_render_of_le linked context hle, ending_eq_tooDeep]
    exact hd

/-- What one linked tree does within some depth the other one does within some depth too. -/
def Follows (linked : Linked) (context : Fields) (linked' : Linked) : Prop :=
  ∀ depth, Markup.render linked.find depth linked.nodes context ≠ .error .tooDeep →
    ∃ depth', Markup.render linked'.find depth' linked'.nodes context
      = Markup.render linked.find depth linked.nodes context

theorem render_eq_of_follows {context : Fields} {linked linked' : Linked}
    (h : linked.Follows context linked') (h' : linked'.Follows context linked) :
    linked.render context = linked'.render context := by
  by_cases hd : linked.render context = .error .tooDeep
  · by_cases hd' : linked'.render context = .error .tooDeep
    · rw [hd, hd']
    · obtain ⟨depth, he⟩ := h' _ hd'
      have hs : Markup.render linked.find depth linked.nodes context ≠ .error .tooDeep := by
        rw [he]
        exact hd'
      rw [render_eq_of_settles linked context hs, he, render]
  · obtain ⟨depth, he⟩ := h _ hd
    have hs : Markup.render linked'.find depth linked'.nodes context ≠ .error .tooDeep := by
      rw [he]
      exact hd
    rw [render_eq_of_settles linked' context hs, he, render]

end Linked

end Folio.Markup
