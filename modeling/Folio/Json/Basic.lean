import Folio.Decimal.Binary64
/-!
# JSON values

Values of data files, render variables and configuration. An object is a list of fields in order
of first appearance; setting a key that is there replaces its value in place, so keys stay
distinct.
-/

namespace Folio

inductive Json where
  | null
  | bool (value : Bool)
  | int (value : Int)
  | float (value : Binary64)
  | string (value : String)
  | array (items : List Json)
  | object (fields : List (String × Json))
deriving Repr, BEq, Inhabited

/-- Values by key, keys distinct; those of an object if nothing else is said. -/
abbrev Fields (α : Type := Json) := List (String × α)

namespace Fields

variable {α : Type}

def get? (fields : Fields α) (key : String) : Option α :=
  fields.lookup key

/-- Binds `key` to `value`, in place if the key is there and at the end if not. -/
def set (key : String) (value : α) : Fields α → Fields α
  | [] => [(key, value)]
  | (k, v) :: rest => if k = key then (key, value) :: rest else (k, v) :: set key value rest

@[simp] theorem get?_nil (key : String) : get? ([] : Fields α) key = none := rfl

theorem get?_cons (k : String) (v : α) (rest : Fields α) (key : String) :
    get? ((k, v) :: rest) key = if key = k then some v else get? rest key := by
  simp only [get?, List.lookup_cons]
  by_cases h : key = k
  · simp [h]
  · simp [h, beq_false_of_ne h]

theorem get?_set (fields : Fields α) (key : String) (value : α) (k : String) :
    (fields.set key value).get? k = if k = key then some value else fields.get? k := by
  induction fields with
  | nil => simp [set, get?_cons]
  | cons field rest ih =>
    obtain ⟨k', v'⟩ := field
    simp only [set]
    split
    · rename_i h
      subst h
      simp only [get?_cons]
      split <;> rfl
    · rename_i h
      simp only [get?_cons, ih]
      by_cases hk : k = k'
      · subst hk
        simp [h]
      · simp [hk]

/-- The fields of `upper` laid over those of `lower`, key by key. -/
def overlay (lower upper : Fields) : Fields :=
  lower.filter (fun field => (upper.get? field.1).isNone) ++ upper

theorem get?_overlay (lower upper : Fields) (key : String) :
    (lower.overlay upper).get? key = (upper.get? key).or (lower.get? key) := by
  induction lower with
  | nil => simp [overlay]
  | cons field rest ih =>
    obtain ⟨k, v⟩ := field
    simp only [overlay] at ih
    simp only [overlay, List.filter_cons, get?_cons]
    by_cases h : key = k
    · subst h
      cases hu : upper.get? key <;> simp [hu, get?_cons, ih]
    · split <;> simp [get?_cons, h, ih]

/-- Fields read one after the other; of equal keys the last one counts. -/
def ofList (pairs : List (String × Json)) : Fields :=
  pairs.foldl (fun fields field => fields.set field.1 field.2) []

end Fields

namespace Json

def field? (key : String) : Json → Option Json
  | .object fields => Fields.get? fields key
  | _ => none

mutual

/-- The number of values in a value, itself included. -/
def size : Json → Nat
  | .array items => 1 + itemsSize items
  | .object fields => 1 + fieldsSize fields
  | _ => 1

def itemsSize : List Json → Nat
  | [] => 0
  | value :: rest => value.size + itemsSize rest

def fieldsSize : List (String × Json) → Nat
  | [] => 0
  | (_, value) :: rest => value.size + fieldsSize rest

end

def string? : Json → Option String
  | .string value => some value
  | _ => none

end Json

end Folio
