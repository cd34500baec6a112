import Folio.Template.Basic
import Folio.Template.Partials
/-!
# Collections

Templates of one kind, in the order in which their names came first. One that comes under a name
already taken replaces the other in its place, with a warning.
-/

namespace Folio

structure Collection where
  templates : List Template := []
  /-- What each replacement was reported with, in order. -/
  warnings : List String := []
  distinct : (templates.map Template.name).Nodup := by exact List.nodup_nil

namespace Collection

def empty : Collection := {}

instance : Inhabited Collection := ⟨empty⟩

def find? (collection : Collection) (name : String) : Option Template :=
  collection.templates.find? (·.name = name)

/-- The template with a name, which must not be empty. -/
def lookup (collection : Collection) (name : String) : Option Template :=
  if name.isEmpty then none else collection.find? name

def size (collection : Collection) : Nat := collection.templates.length

def isEmpty (collection : Collection) : Bool := collection.templates.isEmpty

def replacement (old new : Template) : String :=
  "duplicate template name '" ++ new.name ++ "': " ++ new.path ++ " replaces " ++ old.path

def notice (collection : Collection) (template : Template) : List String :=
  ((collection.find? template.name).map (replacement · template)).toList

/-- Puts a template in the place of the one with its name, or at the end. -/
def place (template : Template) : List Template → List Template
  | [] => [template]
  | first :: rest =>
    if first.name = template.name then template :: rest else
      first :: place template rest

theorem names_place (template : Template) (templates : List Template) :
    (place template templates).map Template.name =
      if template.name ∈ templates.map Template.name then templates.map Template.name
      else templates.map Template.name ++ [template.name] := by
  induction templates with
  | nil => simp [place]
  | cons first rest ih =>
    simp only [place]
    split
    · rename_i h
      simp [h]
    · rename_i h
      simp only [List.map_cons, ih, List.mem_cons, Ne.symm h, false_or]
      split <;> simp

def insert (collection : Collection) (template : Template) : Collection where
  templates := place template collection.templates
  warnings := collection.warnings ++ collection.notice template
  distinct := by
    rw [names_place]
    split
    · exact collection.distinct
    · rename_i h
      refine List.nodup_append.mpr ⟨collection.distinct, by simp, ?_⟩
      simp only [List.mem_singleton]
      rintro a ha b rfl rfl
      exact h ha

def insertJournal (collection : Collection) (template : Template) : Journal :=
  (collection.notice template).flatMap Journal.warn

def partials (collection : Collection) : Partials :=
  .ofList (collection.templates.map fun template => (template.name, template.body))

end Collection

end Folio
