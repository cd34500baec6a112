import Folio.Proofs.Files.Joining
/-!
# Folders around a path

The parent of a path has all its names but the last. So the folders that are made for a file are
those that its own path leads through. A relative path that never leads up goes down by its names:
two such paths lead to one place just if they have the same names.
-/

namespace Folio.Files

variable {host : Host}

namespace Path

theorem named_ofSegments {pieces : List String} (hs : ∀ piece ∈ pieces, '/' ∉ piece.toList) :
    named (ofSegments pieces) = pieces.filter (!isIdle ·) := by
  cases pieces with
  | nil => rfl
  | cons first rest =>
    rw [named_eq, splitOn_ofSegments (List.cons_ne_nil first rest) hs, List.map_map]
    simp [Function.comp_def]

theorem startsWith_ofSegments {pieces : List String} (hs : ∀ piece ∈ pieces, '/' ∉ piece.toList) :
    (ofSegments pieces).startsWith "/" = true ↔ ∃ second more, pieces = "" :: second :: more := by
  rw [String.startsWith_string_iff]
  constructor
  · intro hp
    rcases pieces with _ | ⟨first, rest⟩
    · exact absurd hp (by decide)
    · obtain ⟨tail, ht⟩ := ofSegments_cons first rest
      rw [ht, String.toList_append] at hp
      cases hf : first.toList with
      | cons c chars =>
        have hn := hs first List.mem_cons_self
        rw [hf] at hp hn
        obtain ⟨more, hm⟩ := hp
        have hc : '/' = c := (List.cons.inj hm).1
        exact absurd (hc ▸ List.mem_cons_self) hn
      | nil =>
        obtain rfl := String.toList_eq_nil_iff.mp hf
        cases rest with
        | nil =>
          rw [← String.toList_append, ← ht] at hp
          exact absurd hp (by decide)
        | cons second more => exact ⟨second, more, rfl⟩
  · rintro ⟨second, more, rfl⟩
    refine ⟨(ofSegments (second :: more)).toList, ?_⟩
    simp [ofSegments, String.intercalate_cons_cons]

/-- The idle segments at the end go, all but the first one of a path that names nothing. -/
theorem dropIdle_cases (pieces : List String) :
    (∃ before last idle, pieces = before ++ last :: idle ∧ isIdle last = false ∧
      (∀ piece ∈ idle, isIdle piece = true) ∧ dropIdle pieces = before ++ [last]) ∨
    (∀ piece ∈ pieces, isIdle piece = true) ∧ dropIdle pieces = pieces.take 1 := by
  have hsplit := List.takeWhile_append_dropWhile (p := isIdle) (l := pieces.reverse)
  unfold dropIdle
  cases hd : pieces.reverse.dropWhile isIdle with
  | nil =>
    have hall : ∀ piece ∈ pieces, isIdle piece = true := by simpa using hd
    refine .inr ⟨hall, ?_⟩
    cases pieces with
    | nil => rfl
    | cons first rest =>
      have hfirst := hall first List.mem_cons_self
      simp only [isIdle, Bool.or_eq_true, String.isEmpty_iff, decide_eq_true_eq] at hfirst
      rcases hfirst with rfl | rfl <;> rfl
  | cons last before =>
    have hlast : isIdle last = false := by
      have h := List.head?_dropWhile_not isIdle pieces.reverse
      simpa [hd] using h
    rw [hd] at hsplit
    refine .inl ⟨before.reverse, last, (pieces.reverse.takeWhile isIdle).reverse, ?_, hlast, ?_, ?_⟩
    · have hr := congrArg List.reverse hsplit
      rw [List.reverse_reverse, List.reverse_append, List.reverse_cons] at hr
      rw [← List.singleton_append, ← List.append_assoc]
      exact hr.symm
    · intro piece hp
      exact List.mem_takeWhile_imp (List.mem_reverse.mp hp)
    · simp

theorem filter_of_idle {pieces : List String} (h : ∀ piece ∈ pieces, isIdle piece = true) :
    pieces.filter (!isIdle ·) = [] := by
  simpa [List.filter_eq_nil_iff] using h

theorem filter_append_last {last : String} {idle : List String} (before : List String)
    (hl : isIdle last = false) (hidle : ∀ piece ∈ idle, isIdle piece = true) :
    (before ++ last :: idle).filter (!isIdle ·) = before.filter (!isIdle ·) ++ [last] := by
  rw [List.filter_append, List.filter_cons_of_pos (by simp [hl]), filter_of_idle hidle]

/-- Whether a path starts at the root is decided before its last name. -/
theorem rooted_append_last {last : String} (before idle : List String)
    (hl : isIdle last = false) :
    (∃ second more, before ++ last :: idle = "" :: second :: more) ↔
      ∃ more, before = "" :: more := by
  have hlast := (isIdle_eq_false_iff.mp hl).1
  cases before with
  | nil => simp [hlast]
  | cons first rest => cases rest <;> simp

theorem named_folder {before : List String} (hs : ∀ piece ∈ before, '/' ∉ piece.toList)
    {folder : String} (h : (match dropIdle before with
      | [""] => some "/"
      | kept => some (ofSegments kept)) = some folder) :
    named folder = before.filter (!isIdle ·) ∧
      (folder.startsWith "/" = true ↔ ∃ more, before = "" :: more) := by
  rcases dropIdle_cases before with ⟨outer, last, idle, rfl, hl, hidle, hd⟩ | ⟨hidle, hd⟩
  · have hkept : ∀ piece ∈ outer ++ [last], '/' ∉ piece.toList := by
      intro piece hp
      refine hs piece ?_
      rw [List.append_cons]
      exact List.mem_append_left idle hp
    have hlast := (isIdle_eq_false_iff.mp hl).1
    have hfolder : folder = ofSegments (outer ++ [last]) := by
      rw [hd] at h
      split at h
      · rename_i hc
        have he : last = "" := by simpa using congrArg List.getLast? hc
        exact absurd he hlast
      · exact (Option.some.inj h).symm
    rw [hfolder, named_ofSegments hkept, startsWith_ofSegments hkept,
      filter_append_last outer hl hidle, filter_append_last outer hl (List.forall_mem_nil _),
      rooted_append_last outer [] hl]
    refine ⟨rfl, ?_⟩
    cases outer <;> simp [hlast]
  · rw [hd] at h
    rw [filter_of_idle hidle]
    split at h
    · rename_i hc
      cases h
      refine ⟨by decide, iff_of_true (String.startsWith_string_iff.mpr List.prefix_rfl) ?_⟩
      cases before with
      | nil => cases hc
      | cons first rest => exact ⟨rest, by rw [(List.cons.inj hc).1]⟩
    · rename_i hc
      cases h
      have hkept : ∀ piece ∈ before.take 1, '/' ∉ piece.toList :=
        fun piece hp => hs piece (List.mem_of_mem_take hp)
      rw [named_ofSegments hkept, startsWith_ofSegments hkept,
        filter_of_idle fun piece hp => hidle piece (List.mem_of_mem_take hp)]
      refine ⟨rfl, iff_of_false ?_ ?_⟩
      · rintro ⟨second, more, ht⟩
        have hlen := congrArg List.length ht
        simp at hlen
        omega
      · rintro ⟨more, rfl⟩
        exact hc rfl

theorem startsWith_iff {path : String} :
    path.startsWith "/" = true ↔ ∃ second more, segments path = "" :: second :: more := by
  rw [← startsWith_ofSegments fun piece => slash_notMem_segments, ofSegments_segments]

/-- A path leads through its parent and one name further. -/
theorem named_parent? {path folder : String} (h : parent? path = some folder) :
    named folder = (named path).dropLast ∧ folder.startsWith "/" = path.startsWith "/" := by
  have hslash : ∀ piece ∈ segments path, '/' ∉ piece.toList := fun piece => slash_notMem_segments
  have hstart : path.startsWith "/" = true ↔ _ := startsWith_iff
  rw [Bool.eq_iff_iff, hstart]
  rcases dropIdle_cases (segments path) with ⟨before, last, idle, he, hl, hidle, hd⟩ | ⟨hidle, hd⟩
  · have hlast := (isIdle_eq_false_iff.mp hl).1
    rw [parent?, hd, List.reverse_append, List.reverse_singleton, List.singleton_append] at h
    have hbefore : ∀ piece ∈ before, '/' ∉ piece.toList := fun piece hp =>
      hslash piece (by simp [he, hp])
    have hfolder : named folder = before.filter (!isIdle ·) ∧
        (folder.startsWith "/" = true ↔ ∃ more, before = "" :: more) := by
      split at h
      · rename_i hc
        cases hc
      · rename_i hc
        exact absurd (List.cons.inj hc).1 hlast
      · rename_i hc
        obtain ⟨rfl, rfl⟩ := List.cons.inj hc
        rw [List.reverse_reverse] at h
        exact named_folder hbefore h
    rw [hfolder.1, hfolder.2, named, he, filter_append_last before hl hidle, List.dropLast_concat,
      rooted_append_last before idle hl]
    exact ⟨rfl, Iff.rfl⟩
  · rw [named.eq_def path, filter_of_idle hidle]
    cases hp : segments path with
    | nil =>
      rw [parent?, hd, hp] at h
      cases h
    | cons first rest =>
      have hfirst := hidle first (by simp [hp])
      simp only [isIdle, Bool.or_eq_true, String.isEmpty_iff, decide_eq_true_eq] at hfirst
      rw [parent?, hd, hp] at h
      rcases hfirst with rfl | rfl <;> cases h
      exact ⟨rfl, (startsWith_ofSegments (List.forall_mem_nil _)).trans (by simp)⟩

theorem mem_of_mem_stem {name : String} {c : Char} (h : c ∈ (stem name).toList) :
    c ∈ name.toList := by
  have hsub := List.dropWhile_sublist (· != '.') (l := name.toList.reverse)
  rw [stem] at h
  split at h
  · exact h
  · exact h
  · rename_i dot before _ hd
    rw [hd] at hsub
    rw [String.toList_ofList, List.mem_reverse] at h
    exact List.mem_reverse.mp (hsub.subset (List.mem_cons_of_mem dot h))

theorem isIdle_extended (name : String) {extension : String} (hne : extension ≠ "") :
    isIdle (name ++ "." ++ extension) = false := by
  rw [isIdle_eq_false_iff]
  have hpos := List.length_pos_iff.mpr (mt String.toList_eq_nil_iff.mp hne)
  constructor
  · intro hc
    simpa using congrArg String.toList hc
  · intro hc
    have hlength := congrArg (List.length ∘ String.toList) hc
    simp at hlength hpos
    omega

/-- With another extension a path leads through the same names up to the last. -/
theorem named_withExtension (path : String) {extension : String} (hne : extension ≠ "")
    (hs : '/' ∉ extension.toList) :
    (named (withExtension path extension)).dropLast = (named path).dropLast ∧
      (withExtension path extension).startsWith "/" = path.startsWith "/" := by
  rw [withExtension]
  split
  · exact ⟨rfl, rfl⟩
  · rename_i name hname
    have hslash : ∀ piece ∈ segments path, '/' ∉ piece.toList := fun piece => slash_notMem_segments
    have hstart : path.startsWith "/" = true ↔ _ := startsWith_iff
    rw [Bool.eq_iff_iff, hstart]
    rcases dropIdle_cases (segments path) with ⟨before, last, idle, he, hl, hidle, hd⟩ | ⟨hidle, hd⟩
    · have hlast : last = name := by
        rw [fileName?, hd, List.getLast?_concat] at hname
        dsimp only at hname
        split at hname
        · cases hname
        · exact Option.some.inj hname
      subst hlast
      have hpieces : ∀ piece ∈ before ++ [stem last ++ "." ++ extension], '/' ∉ piece.toList := by
        intro piece hp
        rcases List.mem_append.mp hp with hp | hp
        · exact hslash piece (by simp [he, hp])
        · rw [List.mem_singleton.mp hp]
          intro hc
          simp only [String.toList_append, List.mem_append] at hc
          rcases hc with (hc | hc) | hc
          · exact hslash last (by simp [he]) (mem_of_mem_stem hc)
          · exact absurd hc (by decide)
          · exact hs hc
      have hnew := isIdle_extended (stem last) hne
      rw [hd, List.dropLast_concat]
      dsimp only
      rw [named_ofSegments hpieces, startsWith_ofSegments hpieces, named, he,
        filter_append_last before hnew (List.forall_mem_nil _), filter_append_last before hl hidle,
        List.dropLast_concat, List.dropLast_concat, rooted_append_last before [] hnew,
        rooted_append_last before idle hl]
      exact ⟨rfl, Iff.rfl⟩
    · rw [fileName?, hd] at hname
      cases hp : segments path with
      | nil => simp [hp] at hname
      | cons first rest =>
        have hfirst := hidle first (by simp [hp])
        simp only [isIdle, Bool.or_eq_true, String.isEmpty_iff, decide_eq_true_eq] at hfirst
        rcases hfirst with rfl | rfl <;> simp [hp] at hname

end Path

namespace Route

theorem ofPath_parent {path folder : String} (h : Path.parent? path = some folder) :
    (ofPath host folder).start = (ofPath host path).start ∧
      (ofPath host folder).names = (ofPath host path).names.dropLast := by
  obtain ⟨hn, hs⟩ := Path.named_parent? h
  refine ⟨by rw [ofPath, ofPath, hs], ?_⟩
  rw [names_ofPath, names_ofPath, hn, List.map_dropLast]

end Route

/-- The folders around what a path leads to: where the first names of the path lead. -/
def Ancestor (host : Host) (path : String) (location : Location) : Prop :=
  ∃ before last more, (Route.ofPath host path).names = before ++ last :: more ∧
    location = Route.follow (Route.ofPath host path).start before

theorem Ancestor.of_parent? {path folder : String} {location : Location}
    (h : Path.parent? path = some folder) (hne : Path.named path ≠ [])
    (hl : Store.OnTheWay (Route.ofPath host folder).start (Route.ofPath host folder).names location) :
    Ancestor host path location := by
  obtain ⟨before, ⟨rest, hr⟩, rfl⟩ := hl
  obtain ⟨hs, hn⟩ := Route.ofPath_parent h
  rcases List.eq_nil_or_concat (Route.ofPath host path).names with he | ⟨names, last, he⟩
  · rw [Route.names_ofPath] at he
    exact absurd (List.map_eq_nil_iff.mp he) hne
  · rw [List.concat_eq_append] at he
    rw [he, List.dropLast_concat] at hn
    rw [← hn, ← hr, List.append_assoc] at he
    obtain ⟨first, more, hm⟩ := List.exists_cons_of_ne_nil
      (List.append_ne_nil_of_right_ne_nil rest (List.cons_ne_nil last []))
    rw [hm] at he
    exact ⟨before, first, more, he, by rw [hs]⟩

namespace Path

/-- A relative path that names something. -/
structure Relative (path : String) : Prop where
  notAbsolute : path.startsWith "/" = false
  names : named path ≠ []

instance (path : String) : Decidable (Relative path) :=
  decidable_of_iff (path.startsWith "/" = false ∧ named path ≠ [])
    ⟨fun ⟨hs, hn⟩ => ⟨hs, hn⟩, fun ⟨hs, hn⟩ => ⟨hs, hn⟩⟩

variable {path other : String}

theorem Descending.relative {pieces : List String} (h : Descending pieces) (hne : pieces ≠ []) :
    Relative (ofSegments pieces) := by
  refine ⟨h.toProper.startsWith, fun hnil => hne ?_⟩
  have hnames := Route.names_ofPath .process (ofSegments pieces)
  rw [hnil, h.toProper.ofPath] at hnames
  exact List.map_eq_nil_iff.mp hnames

theorem Relative.ne_empty (h : Relative path) : path ≠ "" := by
  rintro rfl
  exact h.names rfl

theorem Relative.named_join_ne_nil (h : Relative path) (folder : String) :
    named (join folder path) ≠ [] := by
  rw [named_join h.notAbsolute]
  exact List.append_ne_nil_of_right_ne_nil _ h.names

theorem above_notMem_names (h : ".." ∉ segments path) : above ∉ (Route.ofPath host path).names := by
  rw [Route.names_ofPath]
  intro hm
  obtain ⟨segment, hs, he⟩ := List.mem_map.mp hm
  rw [Name.ofText_injective he] at hs
  exact h (List.mem_filter.mp hs).1

theorem Relative.location_join (h : Relative path) (hup : ".." ∉ segments path) (folder : String) :
    Route.location host (join folder path)
      = Route.location host folder ++ (named path).map Name.ofText := by
  rw [Route.location_join h.ne_empty h.notAbsolute,
    Route.follow_of_notMem (above_notMem_names hup), Route.names_ofPath]

theorem Relative.location_join_eq_iff (h : Relative path) (ho : Relative other)
    (hup : ".." ∉ segments path) (houp : ".." ∉ segments other) {folder : String} :
    Route.location host (join folder path) = Route.location host (join folder other) ↔
      named path = named other := by
  rw [h.location_join hup, ho.location_join houp, List.append_cancel_left_eq,
    List.map_inj_right fun _ _ => Name.ofText_injective]

end Path

end Folio.Files
