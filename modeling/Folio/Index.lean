/-!
# Indices

Values by key, in the order of the keys. Each key occurs once, so an index is determined by its
entries and these by what the keys are bound to.
-/

namespace Folio

/-- Keys in a strict linear order. -/
class KeyOrder (κ : Type) [LT κ] : Prop where
  irrefl (a : κ) : ¬ a < a
  trans {a b c : κ} : a < b → b < c → a < c
  eq_of_not_lt {a b : κ} : ¬ a < b → ¬ b < a → a = b

instance : KeyOrder String where
  irrefl := String.lt_irrefl
  trans := String.lt_trans
  eq_of_not_lt hab hba := String.le_antisymm (String.not_lt.mp hba) (String.not_lt.mp hab)

structure Index (κ α : Type) [LT κ] where
  entries : List (κ × α) := []
  sorted : entries.Pairwise (fun a b => a.1 < b.1) := by exact List.Pairwise.nil

namespace Index

variable {κ α : Type} [LT κ]

def empty : Index κ α := {}

instance : Inhabited (Index κ α) := ⟨empty⟩

@[ext] theorem ext {a b : Index κ α} (h : a.entries = b.entries) : a = b := by
  cases a
  cases b
  simp_all

def keys (index : Index κ α) : List κ :=
  index.entries.map Prod.fst

def isEmpty (index : Index κ α) : Bool :=
  index.entries.isEmpty

def size (index : Index κ α) : Nat :=
  index.entries.length

def filter (p : κ × α → Bool) (index : Index κ α) : Index κ α where
  entries := index.entries.filter p
  sorted := index.sorted.sublist List.filter_sublist

variable [DecidableEq κ]

def get? (index : Index κ α) (key : κ) : Option α :=
  index.entries.lookup key

variable [KeyOrder κ]

theorem get?_eq_some_iff {index : Index κ α} {key : κ} {value : α} :
    index.get? key = some value ↔ (key, value) ∈ index.entries := by
  obtain ⟨entries, hs⟩ := index
  induction entries with
  | nil => simp [get?]
  | cons entry rest ih =>
    obtain ⟨k, v⟩ := entry
    have ⟨hk, hr⟩ := List.pairwise_cons.mp hs
    have ih := ih hr
    simp only [get?] at ih
    simp only [get?, List.lookup_cons]
    by_cases h : key = k
    · subst h
      have hn : ∀ v, (key, v) ∉ rest := fun v hv => KeyOrder.irrefl key (hk (key, v) hv)
      simp [hn, eq_comm]
    · simp [beq_false_of_ne h, h, ih]

variable [DecidableLT κ]

def insertEntry (key : κ) (value : α) : List (κ × α) → List (κ × α)
  | [] => [(key, value)]
  | (k, v) :: rest =>
    if key < k then (key, value) :: (k, v) :: rest
    else if key = k then (key, value) :: rest
    else (k, v) :: insertEntry key value rest

theorem mem_insertEntry {entries : List (κ × α)} (hs : entries.Pairwise (fun a b => a.1 < b.1))
    {key : κ} {value : α} {entry : κ × α} :
    entry ∈ insertEntry key value entries ↔
      entry = (key, value) ∨ entry.1 ≠ key ∧ entry ∈ entries := by
  induction entries with
  | nil => simp [insertEntry]
  | cons first rest ih =>
    obtain ⟨k, v⟩ := first
    have ⟨hk, hr⟩ := List.pairwise_cons.mp hs
    simp only [insertEntry]
    split
    · rename_i hlt
      have hall : ∀ x ∈ (k, v) :: rest, x.1 ≠ key := by
        intro x hx heq
        rcases List.mem_cons.mp hx with rfl | hx
        · exact KeyOrder.irrefl _ (heq ▸ hlt)
        · exact KeyOrder.irrefl _ (KeyOrder.trans hlt (heq ▸ hk x hx))
      rw [List.mem_cons]
      exact or_congr_right ⟨fun h => ⟨hall _ h, h⟩, And.right⟩
    · split
      · rename_i heq
        subst heq
        have hall : ∀ x ∈ rest, x.1 ≠ key := fun x hx h => KeyOrder.irrefl key (h ▸ hk x hx)
        simp only [List.mem_cons]
        refine or_congr_right ⟨fun h => ⟨hall _ h, .inr h⟩, ?_⟩
        rintro ⟨hne, rfl | h⟩
        · exact absurd rfl hne
        · exact h
      · rename_i hne
        simp only [List.mem_cons, ih hr]
        constructor
        · rintro (rfl | rfl | ⟨h, hm⟩)
          · exact .inr ⟨fun h => hne h.symm, .inl rfl⟩
          · exact .inl rfl
          · exact .inr ⟨h, .inr hm⟩
        · rintro (rfl | ⟨h, rfl | hm⟩)
          · exact .inr (.inl rfl)
          · exact .inl rfl
          · exact .inr (.inr ⟨h, hm⟩)

theorem sorted_insertEntry {entries : List (κ × α)} (hs : entries.Pairwise (fun a b => a.1 < b.1))
    (key : κ) (value : α) : (insertEntry key value entries).Pairwise (fun a b => a.1 < b.1) := by
  induction entries with
  | nil => simp [insertEntry]
  | cons first rest ih =>
    obtain ⟨k, v⟩ := first
    have ⟨hk, hr⟩ := List.pairwise_cons.mp hs
    simp only [insertEntry]
    split
    · rename_i hlt
      refine List.pairwise_cons.mpr ⟨fun x hx => ?_, hs⟩
      rcases List.mem_cons.mp hx with rfl | hx
      · exact hlt
      · exact KeyOrder.trans hlt (hk x hx)
    · split
      · rename_i heq
        subst heq
        exact List.pairwise_cons.mpr ⟨hk, hr⟩
      · rename_i hnlt hne
        refine List.pairwise_cons.mpr ⟨fun x hx => ?_, ih hr⟩
        rcases (mem_insertEntry hr).mp hx with rfl | ⟨-, hx⟩
        · exact Decidable.byContradiction fun h => hne (KeyOrder.eq_of_not_lt hnlt h)
        · exact hk x hx

/-- Binds a key, over what it is bound to if it is there. -/
def insert (index : Index κ α) (key : κ) (value : α) : Index κ α where
  entries := insertEntry key value index.entries
  sorted := sorted_insertEntry index.sorted key value

theorem mem_insert {index : Index κ α} {key : κ} {value : α} {entry : κ × α} :
    entry ∈ (index.insert key value).entries ↔
      entry = (key, value) ∨ entry.1 ≠ key ∧ entry ∈ index.entries :=
  mem_insertEntry index.sorted

theorem get?_insert (index : Index κ α) (key : κ) (value : α) (k : κ) :
    (index.insert key value).get? k = if k = key then some value else index.get? k := by
  ext v
  rw [get?_eq_some_iff, mem_insert]
  split
  · rename_i h
    subst h
    simp [eq_comm]
  · rename_i h
    simp [h, get?_eq_some_iff]

/-- Entries bound one after the other; of equal keys the last one counts. -/
def ofList (entries : List (κ × α)) : Index κ α :=
  entries.foldl (fun index entry => index.insert entry.1 entry.2) empty

end Index

end Folio
