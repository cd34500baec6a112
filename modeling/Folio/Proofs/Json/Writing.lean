import Folio.Proofs.Json.Reading
import Mathlib.Data.List.Induction
/-!
# What is written for a value

The compact text of a value without doubles is one of its texts by the grammar, so the value is read
from it again.
-/

namespace Folio

namespace Fields

theorem set_of_notMem {fields : Fields} {key : String} (h : key ∉ fields.map Prod.fst)
    (value : Json) : fields.set key value = fields ++ [(key, value)] := by
  induction fields with
  | nil => rfl
  | cons field rest ih =>
    obtain ⟨hne, hrest⟩ := not_or.mp (mt List.mem_cons.mpr h)
    rw [set, if_neg (Ne.symm hne), ih hrest, List.cons_append]

theorem ofList_of_nodup {fields : List (String × Json)} (h : (fields.map Prod.fst).Nodup) :
    ofList fields = fields := by
  induction fields using List.reverseRecOn with
  | nil => rfl
  | append_singleton before last ih =>
    rw [List.map_append, List.map_singleton, List.nodup_append] at h
    obtain ⟨hbefore, -, hlast⟩ := h
    have hkey : last.1 ∉ before.map Prod.fst :=
      fun hm => hlast last.1 hm last.1 List.mem_cons_self rfl
    have hfold : ofList (before ++ [last]) = (ofList before).set last.1 last.2 := by
      rw [ofList, List.foldl_append]
      rfl
    rw [hfold, ih hbefore, set_of_notMem hkey]

end Fields

namespace Json

/-- Values that are written so that nothing is lost: no doubles, integers of 64 bits with or without a
sign, keys of their own in each object, and at most `depth` arrays and objects inside one another. -/
inductive Exact : (depth : Nat) → Json → Prop
  | null {depth : Nat} : Exact depth .null
  | bool {depth : Nat} (value : Bool) : Exact depth (.bool value)
  | int {depth : Nat} {value : Int} : -(2 ^ 63) ≤ value → value < 2 ^ 64 → Exact depth (.int value)
  | string {depth : Nat} (value : String) : Exact depth (.string value)
  | array {depth : Nat} {items : List Json} : (∀ item ∈ items, Exact depth item) →
      Exact (depth + 1) (.array items)
  | object {depth : Nat} {fields : List (String × Json)} : (fields.map Prod.fst).Nodup →
      (∀ field ∈ fields, Exact depth field.2) → Exact (depth + 1) (.object fields)

theorem printItems_eq_map (items : List Json) : printItems items = items.map print := by
  induction items with
  | nil => rfl
  | cons item rest ih => rw [printItems, ih, List.map_cons]

theorem printFields_eq_map (fields : List (String × Json)) : printFields fields
    = fields.map fun field => quote field.1.toList ++ ':' :: print field.2 := by
  induction fields with
  | nil => rfl
  | cons field rest ih => rw [printFields, ih, List.map_cons]

theorem listed_separate {α : Type} {spells : α → List Char → Prop} {write : α → List Char}
    {values : List α} (h : ∀ value ∈ values, spells value (write value)) :
    Listed spells values (separate (values.map write)) := by
  cases values with
  | nil => exact space_nil
  | cons value rest =>
    refine ⟨_, ?_, rfl⟩
    rw [List.forall₂_map_right_iff]
    exact List.forall₂_same.mpr fun value hm =>
      ⟨[], _, [], space_nil, space_nil, h value hm, (List.append_nil _).symm⟩

theorem spells_print {depth : Nat} {value : Json} (h : Exact depth value) :
    Spells depth value value.print := by
  induction h with
  | null => exact .scalar .null
  | bool value =>
    cases value with
    | true => exact .scalar .true
    | false => exact .scalar .false
  | int hlow hhigh => exact .scalar (scalarText_int hlow hhigh)
  | string value => exact .scalar (.string (quotedText_quote value.toList))
  | array _ ih =>
    rw [print, printItems_eq_map]
    exact .inr (.array (listed_separate ih))
  | @object depth fields hkeys _ ih =>
    have hlisted : Listed (FieldText (Spells depth)) fields (separate (printFields fields)) := by
      rw [printFields_eq_map]
      exact listed_separate fun field hm =>
        ⟨_, [], [], _, quotedText_quote _, space_nil, space_nil, ih field hm, rfl⟩
    have hobject := CompoundText.object hlisted
    rw [Fields.ofList_of_nodup hkeys] at hobject
    exact .inr hobject

theorem isDocument_text {value : Json} (h : Exact maxDepth value) : IsDocument value value.text :=
  ⟨[], _, [], space_nil, space_nil, spells_print h, by simp [text]⟩

end Json

end Folio
