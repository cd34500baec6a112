import Folio.Proofs.Files.Making
import Folio.Proofs.Files.Naming
import Folio.Template.Partials
/-!
# Plain names

A plain name has segments without dots. Its partial is staged where tags look it up, the file of one
is never the folder of another, and different names have different files.
-/

namespace Folio

variable {host : Host}

open Files

namespace Partials

/-- A segment that can name a folder and, with the extension of partials, a file. -/
def PlainSegment (segment : String) : Prop :=
  segment ≠ "" ∧ '.' ∉ segment.toList ∧ '\x00' ∉ segment.toList ∧ segment.utf8ByteSize ≤ 246

instance (segment : String) : Decidable (PlainSegment segment) :=
  inferInstanceAs (Decidable (_ ∧ _ ∧ _ ∧ _))

def Plain (name : String) : Prop :=
  name ≠ "" ∧ ∀ segment ∈ Path.segments name, PlainSegment segment

instance (name : String) : Decidable (Plain name) :=
  inferInstanceAs (Decidable (_ ∧ _))

/-- The path that a tag looks up for a name. -/
def lookupPath (name : String) : String :=
  name ++ "." ++ Stage.extension

theorem toList_lookupPath (text : String) :
    (lookupPath text).toList = text.toList ++ '.' :: Stage.extension.toList := by
  simp [lookupPath, String.toList_append]

theorem utf8ByteSize_lookupPath (text : String) :
    (lookupPath text).utf8ByteSize = text.utf8ByteSize + 9 := by
  rw [lookupPath, String.utf8ByteSize_append, String.utf8ByteSize_append]
  rfl

theorem lookupPath_injective {name name' : String} (h : lookupPath name = lookupPath name') :
    name = name' := by
  have hl := congrArg String.toList h
  rw [toList_lookupPath, toList_lookupPath] at hl
  exact String.toList_injective (List.append_cancel_right hl)

/-- The path that a tag looks up is not too long, with what stands in front of it. -/
def Fits (host : Host) (name : String) : Prop :=
  host.lead + (lookupPath name).utf8ByteSize ≤ maxPath

instance (name : String) : Decidable (Fits host name) :=
  inferInstanceAs (Decidable (_ ≤ _))

def Dotless (name : Name) : Prop :=
  ∃ text : String, '.' ∉ text.toList ∧ name = Name.ofText text

theorem not_dotless_lookupPath (text : String) : ¬ Dotless (Name.ofText (lookupPath text)) := by
  rintro ⟨other, hd, he⟩
  rw [← Name.ofText_injective he, toList_lookupPath] at hd
  exact hd (by simp)

theorem not_dotless_above : ¬ Dotless above := by
  rintro ⟨other, hd, he⟩
  rw [← Name.ofText_injective he] at hd
  exact hd (by decide)

/-- The folders and the last segment of a plain name. -/
structure Parts (name : String) (before : List String) (last : String) : Prop where
  name_eq : name = Path.ofSegments (before ++ [last])
  plain : ∀ segment ∈ before ++ [last], PlainSegment segment
  noSlash : ∀ segment ∈ before ++ [last], '/' ∉ segment.toList

theorem Plain.parts {name : String} (h : Plain name) : ∃ before last, Parts name before last := by
  have hn := Path.ofSegments_segments name
  rcases List.eq_nil_or_concat (Path.segments name) with he | ⟨before, last, he⟩
  · rw [he] at hn
    exact absurd hn.symm h.1
  · rw [List.concat_eq_append] at he
    refine ⟨before, last, by rw [← he, hn], ?_, ?_⟩
    · rw [← he]
      exact h.2
    · intro segment hs
      rw [← he] at hs
      exact Path.slash_notMem_segments hs

namespace Parts

variable {name : String} {before : List String} {last : String}

theorem last_plain (h : Parts name before last) : PlainSegment last :=
  h.plain last (by simp)

theorem proper (h : Parts name before last) : Path.Proper (before ++ [last]) := by
  refine ⟨fun segment hs => ?_, h.noSlash⟩
  obtain ⟨hne, hd, -⟩ := h.plain segment hs
  rw [Path.isIdle_eq_false_iff]
  refine ⟨hne, ?_⟩
  rintro rfl
  exact hd (by decide)

theorem isPlain (h : Parts name before last) : Plain name := by
  have hs : Path.segments name = before ++ [last] := by rw [h.name_eq, h.proper.segments]
  refine ⟨?_, by rw [hs]; exact h.plain⟩
  rintro rfl
  exact List.append_ne_nil_of_right_ne_nil before (List.cons_ne_nil last []) hs.symm

theorem proper_file (h : Parts name before last) : Path.Proper (before ++ [lookupPath last]) := by
  have hp := h.proper.of_append
  have htail : '/' ∉ '.' :: Stage.extension.toList := by decide
  constructor
  · intro segment hs
    rcases List.mem_append.mp hs with hs | hs
    · exact hp.notIdle segment hs
    · obtain rfl := List.mem_singleton.mp hs
      rw [Path.isIdle_eq_false_iff]
      constructor
      · intro he
        have hl := congrArg String.toList he
        simp [toList_lookupPath] at hl
      · intro he
        have hl := congrArg (fun text => text.toList.length) he
        simp [toList_lookupPath, Stage.extension] at hl
  · intro segment hs
    rcases List.mem_append.mp hs with hs | hs
    · exact hp.noSlash segment hs
    · obtain rfl := List.mem_singleton.mp hs
      rw [toList_lookupPath, List.mem_append]
      exact not_or.mpr ⟨h.noSlash last (by simp), htail⟩

theorem lookupPath_eq (h : Parts name before last) :
    lookupPath name = Path.ofSegments (before ++ [lookupPath last]) := by
  rw [lookupPath, lookupPath, String.append_assoc, String.append_assoc, Path.ofSegments_append,
    ← h.name_eq]

theorem stagePath?_eq (h : Parts name before last) : stagePath? name = some (lookupPath name) := by
  have hidle : (Path.segments name).all Path.isIdle = false := by
    rw [h.name_eq, h.proper.segments, List.all_eq_false]
    exact ⟨last, by simp, by simp [h.proper.notIdle last (by simp)]⟩
  rw [stagePath?, hidle, Bool.and_false, if_neg (by simp)]
  rw [h.name_eq, h.proper.withExtension h.last_plain.2.1, lookupPath]

theorem parent?_eq (h : Parts name before last) :
    Path.parent? (lookupPath name) = some (Path.ofSegments before) := by
  rw [h.lookupPath_eq]
  exact h.proper_file.parent?

theorem ofPath_file (h : Parts name before last) : Route.ofPath host (lookupPath name)
    = ⟨host.here, before.map Name.ofText ++ [Name.ofText (lookupPath last)], false⟩ := by
  rw [h.lookupPath_eq, h.proper_file.ofPath, List.map_append]
  rfl

theorem ofPath_folder (h : Parts name before last) :
    Route.ofPath host (Path.ofSegments before) = ⟨host.here, before.map Name.ofText, false⟩ :=
  h.proper.of_append.ofPath

/-! ## Following the paths -/

theorem dotless_of_mem (h : Parts name before last) {folder : Name}
    (hf : folder ∈ before.map Name.ofText) : Dotless folder := by
  obtain ⟨segment, hs, rfl⟩ := List.mem_map.mp hf
  exact ⟨segment, (h.plain segment (List.mem_append_left _ hs)).2.1, rfl⟩

theorem down (h : Parts name before last) :
    Store.Down (before.map Name.ofText ++ [Name.ofText (lookupPath last)]) := by
  constructor
  · intro hm
    rcases List.mem_append.mp hm with hm | hm
    · exact not_dotless_above (h.dotless_of_mem hm)
    · have hl := congrArg String.toList (Name.ofText_injective (List.mem_singleton.mp hm))
      have hlen := congrArg List.length hl
      simp [toList_lookupPath, Stage.extension] at hlen
  · intro found hm
    rcases List.mem_append.mp hm with hm | hm
    · obtain ⟨segment, hs, rfl⟩ := List.mem_map.mp hm
      have hsize := (h.plain segment (List.mem_append_left _ hs)).2.2.2
      rw [Name.length_ofText, maxName]
      omega
    · have hsize := h.last_plain.2.2.2
      rw [List.mem_singleton.mp hm, Name.length_ofText, utf8ByteSize_lookupPath, maxName]
      omega

theorem location_eq (h : Parts name before last) : Route.location host (lookupPath name)
    = host.here ++ (before.map Name.ofText ++ [Name.ofText (lookupPath last)]) := by
  rw [Route.location, h.ofPath_file]
  exact Route.follow_of_notMem h.down.notAbove host.here

theorem nul_notMem (h : Parts name before last) : '\x00' ∉ name.toList := by
  intro hm
  obtain ⟨segment, hs, hc⟩ := Path.exists_mem_segments hm (by decide)
  rw [h.name_eq, h.proper.segments] at hs
  exact (h.plain segment hs).2.2.1 hc

theorem size_file (h : Parts name before last) :
    Route.size host (lookupPath name) = host.lead + (lookupPath name).utf8ByteSize := by
  rw [Route.size, h.lookupPath_eq, h.proper_file.startsWith]
  rfl

theorem size_folder (h : Parts name before last) : Route.size host (Path.ofSegments before)
    = host.lead + (Path.ofSegments before).utf8ByteSize := by
  rw [Route.size, h.proper.of_append.startsWith]
  rfl

theorem check_file (h : Parts name before last) (hf : Fits host name) :
    Route.check host (lookupPath name) = .ok () := by
  have hne : (lookupPath name).isEmpty = false := by
    rw [← Bool.not_eq_true, String.isEmpty_iff, ← String.toList_eq_nil_iff, toList_lookupPath]
    simp
  have hnul : '\x00' ∉ (lookupPath name).toList := by
    rw [toList_lookupPath, List.mem_append]
    exact not_or.mpr ⟨h.nul_notMem, by decide⟩
  rw [Route.check, hne, if_neg (by simp), if_neg hnul, h.size_file, if_neg (Nat.not_lt.mpr hf)]

theorem makeFolders_eq (h : Parts name before last) (hf : Fits host name) (store : Store host) :
    store.makeFolders (Path.ofSegments before)
      = store.makeFoldersAt host.here (before.map Name.ofText).reverse := by
  obtain ⟨rest, hr⟩ := Path.ofSegments_prefix before last
  rw [← h.name_eq] at hr
  have hnul : '\x00' ∉ (Path.ofSegments before).toList := by
    intro hm
    apply h.nul_notMem
    rw [hr, String.toList_append]
    exact List.mem_append_left _ hm
  have hsize : ¬ maxPath < Route.size host (Path.ofSegments before) := by
    have hname := congrArg String.utf8ByteSize hr
    rw [Fits, utf8ByteSize_lookupPath] at hf
    rw [String.utf8ByteSize_append] at hname
    rw [h.size_folder]
    omega
  rw [Store.makeFolders, if_neg hnul, if_neg hsize, h.ofPath_folder]

end Parts

/-- Different plain names have different files. -/
theorem Plain.location_injective {name name' : String} (h : Plain name) (h' : Plain name')
    (he : Route.location host (lookupPath name) = Route.location host (lookupPath name')) :
    name = name' := by
  obtain ⟨before, last, hp⟩ := h.parts
  obtain ⟨before', last', hp'⟩ := h'.parts
  rw [hp.location_eq, hp'.location_eq] at he
  have hn := List.append_cancel_left he
  obtain ⟨hb, hl⟩ := List.append_inj' hn rfl
  have hbefore : before = before' :=
    (List.map_inj_right fun _ _ => Name.ofText_injective).mp hb
  have hlast := lookupPath_injective (Name.ofText_injective (List.singleton_inj.mp hl))
  rw [hp.name_eq, hp'.name_eq, hbefore, hlast]

end Partials

end Folio
