import Folio.Files.Name
/-!
# Hosts

What the program runs on: where it stands in the one tree of files, where it may put temporary
folders, and what its pattern engine takes.
-/

namespace Folio

open Files

/-- The length of the path of a new folder for temporary files, with the slash at its end: the folders
around it, then `.tmp` and six characters. -/
def scratchLead (scratch : Location) : Nat :=
  scratch.foldl (fun size name => size + name.length + 1) 12

structure Host where
  /-- The working folder, from which relative paths start. -/
  here : Location
  /-- The folder that temporary folders lie in. -/
  scratch : Location
  /-- In a temporary folder there is room for a file of any name. -/
  room : scratchLead scratch + maxName ≤ maxPath
  /-- How many bytes stand in front of a relative path when the system is asked for it. -/
  lead : Nat := 0
  /-- Why the pattern engine refuses the pattern of some extensions, if it does. -/
  refusal? : List String → Option String := fun _ => none

namespace Host

/-- A process of its own: its working folder goes by the name that the system has for it. -/
def process : Host where
  here := ["proc", "self", "cwd"].map Name.ofText
  scratch := [Name.ofText "tmp"]
  room := by decide

instance : Inhabited Host := ⟨process⟩

end Host

end Folio
