import Folio.Proofs.Files.Naming
import Folio.Proofs.Files.Walking
/-!
# Paths inside folders

A path that is joined to a folder is followed from where the folder's own path leads.
-/

namespace Folio.Files

variable {host : Host}

namespace Path

theorem segments_slash {before after : String} :
    segments (before ++ "/" ++ after) = ((Text.splitOn '/' before.toList)
      ++ Text.splitOn '/' after.toList).map String.ofList := by
  have hne : (before ++ "/" ++ after).isEmpty = false := by
    rw [← Bool.not_eq_true, String.isEmpty_iff, ← String.toList_eq_nil_iff]
    simp
  have hlist : (before ++ "/" ++ after).toList = before.toList ++ '/' :: after.toList := by simp
  rw [segments, hne, hlist, Text.splitOn_eq, List.splitOn_append_cons_self, ← Text.splitOn_eq,
    ← Text.splitOn_eq]
  rfl

/-- The segments of a path that name something. -/
def named (path : String) : List String :=
  (segments path).filter (!isIdle ·)

theorem named_eq (path : String) :
    named path = ((Text.splitOn '/' path.toList).map String.ofList).filter (!isIdle ·) := by
  rw [named, segments]
  split
  · rename_i he
    rw [String.isEmpty_iff.mp he]
    rfl
  · rfl

theorem named_slash (before after : String) :
    named (before ++ "/" ++ after) = named before ++ named after := by
  rw [named, segments_slash, List.map_append, List.filter_append, ← named_eq, ← named_eq]

theorem getLast?_segments_slash {after : String} (hne : after ≠ "") (before : String) :
    (segments (before ++ "/" ++ after)).getLast? = (segments after).getLast? := by
  have hs : segments after = (Text.splitOn '/' after.toList).map String.ofList := by
    rw [segments, if_neg (by simpa using hne)]
  have hp : (Text.splitOn '/' after.toList).map String.ofList ≠ [] := by
    simp [Text.splitOn_ne_nil]
  obtain ⟨last, hl⟩ := Option.isSome_iff_exists.mp (List.getLast?_isSome.mpr hp)
  rw [segments_slash, List.map_append, List.getLast?_append, hs, hl]
  rfl

theorem join_eq {folder path : String} (hf : folder ≠ "") (hp : path.startsWith "/" = false) :
    ∃ before, join folder path = before ++ "/" ++ path ∧
      (folder = before ∨ folder = before ++ "/") := by
  have hempty : folder.isEmpty = false := by simpa using hf
  rw [join, if_neg (by simp [hp]), hempty, Bool.false_or]
  split
  · rename_i he
    obtain ⟨before, hb⟩ : "/".toList <:+ folder.toList := by
      rw [String.endsWith_eq_endsWith_toSlice, String.Slice.endsWith_string_iff,
        String.copy_toSlice] at he
      exact he
    refine ⟨String.ofList before, ?_, .inr ?_⟩
    · apply String.toList_injective
      simp [← hb]
    · apply String.toList_injective
      simp [← hb]
  · exact ⟨folder, rfl, .inl rfl⟩

theorem named_join {folder path : String} (hp : path.startsWith "/" = false) :
    named (join folder path) = named folder ++ named path := by
  by_cases hf : folder = ""
  · subst hf
    rw [join, if_neg (by simp [hp])]
    simp [named, segments]
  · obtain ⟨before, hj, rfl | rfl⟩ := join_eq hf hp
    · rw [hj, named_slash]
    · have hb : named (before ++ "/") = named before := by
        have h := named_slash before ""
        rw [String.append_empty] at h
        rw [h, named_eq ""]
        exact List.append_nil _
      rw [hj, named_slash, hb]

theorem startsWith_append {folder : String} (hf : folder ≠ "") (rest : String) :
    (folder ++ rest).startsWith "/" = folder.startsWith "/" := by
  rw [Bool.eq_iff_iff, String.startsWith_string_iff, String.startsWith_string_iff,
    String.toList_append]
  cases hl : folder.toList with
  | nil => exact absurd (String.toList_eq_nil_iff.mp hl) hf
  | cons c chars => simp

theorem startsWith_join {folder path : String} (hp : path.startsWith "/" = false) :
    (join folder path).startsWith "/" = folder.startsWith "/" := by
  by_cases hf : folder = ""
  · subst hf
    have hj : join "" path = path := by
      rw [join, if_neg (by simp [hp])]
      simp
    rw [hj, hp]
    rfl
  · obtain ⟨before, hj, rfl | rfl⟩ := join_eq hf hp
    · rw [hj, String.append_assoc, startsWith_append hf]
    · rw [hj, startsWith_append hf]

end Path

namespace Route

theorem names_ofPath (host : Host) (path : String) :
    (ofPath host path).names = (Path.named path).map Name.ofText :=
  rfl

/-- The route of a joined path goes on where that of the folder ends. -/
theorem ofPath_join {folder path : String} (hne : path ≠ "")
    (hp : path.startsWith "/" = false) :
    ofPath host (Path.join folder path) = ⟨(ofPath host folder).start,
      (ofPath host folder).names ++ (ofPath host path).names, (ofPath host path).toFolder⟩ := by
  have hnames : (ofPath host (Path.join folder path)).names
      = (ofPath host folder).names ++ (ofPath host path).names := by
    rw [names_ofPath, Path.named_join hp, List.map_append, ← names_ofPath, ← names_ofPath]
  have hrest : (ofPath host (Path.join folder path)).start = (ofPath host folder).start ∧
      (ofPath host (Path.join folder path)).toFolder = (ofPath host path).toFolder := by
    by_cases hf : folder = ""
    · subst hf
      have hj : Path.join "" path = path := by
        rw [Path.join, if_neg (by simp [hp])]
        simp
      rw [hj]
      refine ⟨?_, rfl⟩
      rw [ofPath, ofPath, hp]
      rfl
    · obtain ⟨before, hj, hb⟩ := Path.join_eq hf hp
      constructor
      · rw [ofPath, ofPath, Path.startsWith_join hp]
      · rw [ofPath, ofPath, hj]
        dsimp only
        rw [Path.getLast?_segments_slash hne]
  rw [← hnames, ← hrest.1, ← hrest.2]

theorem location_join {folder path : String} (hne : path ≠ "")
    (hp : path.startsWith "/" = false) :
    location host (Path.join folder path) = follow (location host folder) (ofPath host path).names := by
  rw [location, ofPath_join hne hp, follow_append]
  rfl

end Route

def Location.Inside (folder location : Location) : Prop :=
  ∃ name rest, location = folder ++ name :: rest

namespace Path

/-- Segments that each lead one folder down. -/
structure Descending (pieces : List String) : Prop extends Proper pieces where
  noAbove : ".." ∉ pieces

theorem Descending.ne_empty {pieces : List String} (h : Descending pieces) (hne : pieces ≠ []) :
    ofSegments pieces ≠ "" := by
  intro he
  have hs := h.toProper.segments
  rw [he] at hs
  exact hne hs.symm

/-- A path of descending segments leads straight down from the folder it is joined to. -/
theorem Descending.location_join {pieces : List String} (h : Descending pieces) (hne : pieces ≠ [])
    (folder : String) : Route.location host (join folder (ofSegments pieces))
      = Route.location host folder ++ pieces.map Name.ofText := by
  have ha : above ∉ pieces.map Name.ofText := by
    intro hm
    obtain ⟨piece, hp, he⟩ := List.mem_map.mp hm
    exact h.noAbove (Name.ofText_injective he ▸ hp)
  rw [Route.location_join (h.ne_empty hne) h.toProper.startsWith, h.toProper.ofPath,
    Route.follow_of_notMem ha]

/-- Where a path of descending segments leads is inside the folder it is joined to. -/
theorem Descending.inside {pieces : List String} (h : Descending pieces)
    (hne : pieces ≠ []) (folder : String) :
    (Route.location host folder).Inside (Route.location host (join folder (ofSegments pieces))) := by
  obtain ⟨first, rest, rfl⟩ := List.exists_cons_of_ne_nil hne
  exact ⟨_, _, h.location_join hne folder⟩

end Path

/-! ## Lengths -/

namespace Path

def slashed (path : String) : Nat → String
  | 0 => path
  | count + 1 => slashed path count ++ "/"

theorem named_slashed (path : String) (count : Nat) : named (slashed path count) = named path := by
  induction count with
  | zero => rfl
  | succ count ih =>
    have h := named_slash (slashed path count) ""
    rw [String.append_empty, ih] at h
    rw [slashed, h]
    exact List.append_nil _

theorem toList_slashed (path : String) (count : Nat) :
    (slashed path count).toList = path.toList ++ List.replicate count '/' := by
  induction count with
  | zero => simp [slashed]
  | succ count ih =>
    rw [slashed, String.toList_append, ih, List.replicate_succ', List.append_assoc]
    rfl

theorem notMem_slashed {path : String} {c : Char} (h : c ∉ path.toList) (hc : c ≠ '/')
    (count : Nat) : c ∉ (slashed path count).toList := by
  rw [toList_slashed]
  simp [h, hc]

theorem size_slashed (path : String) (count : Nat) :
    (slashed path count).utf8ByteSize = path.utf8ByteSize + count := by
  have hslash : "/".utf8ByteSize = 1 := by decide
  induction count with
  | zero => rfl
  | succ count ih => rw [slashed, String.utf8ByteSize_append, ih, hslash, Nat.add_assoc]

theorem startsWith_slashed {path : String} (hne : path ≠ "") (count : Nat) :
    (slashed path count).startsWith "/" = path.startsWith "/" := by
  have h : slashed path count = path ++ String.ofList (List.replicate count '/') := by
    apply String.toList_injective
    rw [toList_slashed, String.toList_append, String.toList_ofList]
  rw [h, startsWith_append hne]

theorem size_join (folder : String) {path : String} (hp : path.startsWith "/" = false) :
    folder.utf8ByteSize + path.utf8ByteSize ≤ (join folder path).utf8ByteSize ∧
      (join folder path).utf8ByteSize ≤ folder.utf8ByteSize + 1 + path.utf8ByteSize := by
  have hslash : "/".utf8ByteSize = 1 := by decide
  rw [join, if_neg (by simp [hp])]
  split <;> simp only [String.utf8ByteSize_append, hslash] <;> omega

theorem notMem_join {folder path : String} {c : Char} (hf : c ∉ folder.toList)
    (hp : c ∉ path.toList) (hc : c ≠ '/') : c ∉ (join folder path).toList := by
  rw [join]
  split
  · exact hp
  · split <;> simp [hf, hp, hc]

end Path

theorem Route.check_eq_ok_iff {path : String} : check host path = .ok () ↔
    path ≠ "" ∧ '\x00' ∉ path.toList ∧ size host path ≤ maxPath := by
  rw [check]
  by_cases he : path = ""
  · simp [he]
  · by_cases hn : '\x00' ∈ path.toList
    · simp [he, hn]
    · by_cases hl : maxPath < size host path
      · simp [he, hn, hl]
      · simp [he, hn, hl, Nat.le_of_not_lt hl]

theorem Route.size_process (path : String) : size .process path = path.utf8ByteSize := by
  have hlead : (if path.startsWith "/" = true then 0 else Host.process.lead) = 0 := by
    split <;> rfl
  rw [size, hlead, Nat.zero_add]

theorem Route.size_join {folder path : String} (hp : path.startsWith "/" = false) :
    size host (Path.join folder path) ≤ size host folder + 1 + path.utf8ByteSize := by
  have hsize := (Path.size_join folder hp).2
  rw [size, size, Path.startsWith_join hp]
  omega

theorem Route.check_join {folder path : String} (hc : check host folder = .ok ())
    (hp : path.startsWith "/" = false) (hn : '\x00' ∉ path.toList)
    (hs : size host folder + 1 + path.utf8ByteSize ≤ maxPath) :
    check host (Path.join folder path) = .ok () := by
  obtain ⟨hne, hnul, -⟩ := check_eq_ok_iff.mp hc
  have hlow := (Path.size_join folder hp).1
  refine check_eq_ok_iff.mpr
    ⟨?_, Path.notMem_join hnul hn (by decide), (size_join hp).trans hs⟩
  intro he
  have hempty : "".utf8ByteSize = 0 := rfl
  rw [he, hempty] at hlow
  exact hne (String.utf8ByteSize_eq_zero_iff.mp (by omega))

theorem Route.ofPath_slashed {path : String} (hne : path ≠ "") (count : Nat) :
    (ofPath host (Path.slashed path count)).start = (ofPath host path).start ∧
      (ofPath host (Path.slashed path count)).names = (ofPath host path).names := by
  constructor
  · rw [ofPath, ofPath, Path.startsWith_slashed hne]
  · rw [names_ofPath, Path.named_slashed, names_ofPath]

theorem Route.location_slashed {path : String} (hne : path ≠ "") (count : Nat) :
    location host (Path.slashed path count) = location host path := by
  obtain ⟨hstart, hnames⟩ := ofPath_slashed hne count
  rw [location, hstart, hnames, location]

theorem Route.check_slashed {path : String} {count : Nat} (hc : check host path = .ok ())
    (hs : size host path + count ≤ maxPath) :
    check host (Path.slashed path count) = .ok () := by
  obtain ⟨hne, hnul, -⟩ := check_eq_ok_iff.mp hc
  refine check_eq_ok_iff.mpr ⟨fun he => ?_, Path.notMem_slashed hnul (by decide) count, ?_⟩
  · have hlist := Path.toList_slashed path count
    rw [he] at hlist
    exact hne (String.toList_eq_nil_iff.mp (List.append_eq_nil_iff.mp hlist.symm).1)
  · rw [size, Path.startsWith_slashed hne, Path.size_slashed]
    rwa [size, Nat.add_assoc] at hs

theorem Store.hasFolder_slashed {store : Store host} {path : String} {count : Nat}
    (h : store.hasFolder path = true) (hs : Route.size host path + count ≤ maxPath) :
    store.hasFolder (Path.slashed path count) = true := by
  obtain ⟨hl, hf⟩ := hasFolder_iff.mp h
  obtain ⟨_, hc, hfollow⟩ := bind_eq_ok.mp hl
  obtain ⟨found, hw, he⟩ := bind_eq_ok.mp hfollow
  obtain rfl : found = Route.location host path := by
    split at he
    · cases he
    · exact Except.ok.inj he
  have hne := (Route.check_eq_ok_iff.mp hc).1
  obtain ⟨hstart, hnames⟩ := Route.ofPath_slashed hne count
  rw [hasFolder_iff, Route.location_slashed hne]
  refine ⟨?_, hf⟩
  rw [locate, Route.check_slashed hc hs, ok_bind]
  dsimp only
  rw [hstart, hnames, hw, ok_bind, if_neg fun hn => hn.2 hf]
  rfl

end Folio.Files
