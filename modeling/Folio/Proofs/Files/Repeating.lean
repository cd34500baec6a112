import Folio.Proofs.Files.Walking
/-!
# Repeating

A folder that is there is not made anew, and a file that is there is written over. So what has been
done once can be done again, also when more has been added to the store since.
-/

namespace Folio.Files.Store

variable {host : Host}

variable {store later : Store host} {start location : Location} {names : List Name}

theorem isFolder_start (store : Store host) (path : String) :
    store.IsFolder (Route.ofPath host path).start := by
  rw [Route.ofPath]
  dsimp only
  split
  · exact .inl rfl
  · exact store.isFolder_here

theorem spot_of_walk (h : store.walk start names = .ok location) :
    store.spot start names = .ok (.taken location) := by
  rcases List.eq_nil_or_concat names with rfl | ⟨before, last, rfl⟩
  · cases h
    rfl
  · rw [List.concat_eq_append] at h ⊢
    rw [walk_append] at h
    obtain ⟨folder, hw, h⟩ := bind_eq_ok.mp h
    rw [spot, List.getLast?_concat, List.dropLast_concat, hw]
    dsimp only
    rw [ok_bind]
    rw [walk] at h
    split at h
    · cases h
    rename_i hf
    rw [dif_pos (Decidable.not_not.mp hf)]
    split at h
    · rename_i ha
      cases h
      rw [if_pos ha]
      rfl
    rename_i ha
    rw [if_neg ha]
    split at h
    · cases h
    rename_i hl
    rw [if_neg hl]
    split at h
    · rename_i hp
      cases h
      rw [dif_neg (Option.isSome_iff_ne_none.mp hp)]
      rfl
    · cases h

/-! ## Folders -/

theorem leadsToFolder_iff : store.leadsToFolder start names = true ↔
    ∃ location, store.walk start names = .ok location ∧ store.IsFolder location := by
  rw [leadsToFolder]
  cases store.walk start names <;> simp

theorem Grows.leadsToFolder (hg : Grows store later)
    (h : store.leadsToFolder start names = true) : later.leadsToFolder start names = true := by
  obtain ⟨location, hw, hf⟩ := leadsToFolder_iff.mp h
  exact leadsToFolder_iff.mpr ⟨location, hg.walk hw, hg.isFolder hf⟩

theorem makeFoldersAt_of_leadsToFolder (h : store.leadsToFolder start names.reverse = true) :
    store.makeFoldersAt start names = (.ok (), store) := by
  cases names with
  | nil => rfl
  | cons last before =>
    obtain ⟨location, hw, -⟩ := leadsToFolder_iff.mp h
    have hthere : store.makeFolder start (last :: before).reverse = .error .exists := by
      rw [makeFolder, spot_of_walk hw, ok_bind]
    rw [makeFoldersAt, hthere]
    dsimp only
    rw [if_pos h]

theorem leadsToFolder_of_makeFolder (h : store.makeFolder start names = .ok later) :
    later.leadsToFolder start names = true := by
  obtain ⟨hmakes, hfolder⟩ := makeFolder_eq_ok h
  obtain ⟨found, hs, -⟩ := bind_eq_ok.mp h
  have hthere : (later.get? found.location).isSome := by
    rw [location_of_spot hs, hfolder]
    rfl
  exact leadsToFolder_iff.mpr ⟨_, walk_of_spot hs hmakes.grows hthere, .inr hfolder⟩

theorem leadsToFolder_of_makeFoldersAt (hs : store.IsFolder start)
    (h : store.makeFoldersAt start names = (.ok (), later)) :
    later.leadsToFolder start names.reverse = true := by
  cases names with
  | nil =>
    cases h
    exact leadsToFolder_iff.mpr ⟨start, rfl, hs⟩
  | cons last before =>
    rw [makeFoldersAt] at h
    split at h
    · rename_i made hm
      cases h
      exact leadsToFolder_of_makeFolder hm
    · split at h
      · cases h
      · split at h
        · rename_i made hm
          cases h
          exact leadsToFolder_of_makeFolder hm
        · split at h
          · rename_i hl
            cases h
            exact hl
          · cases h
    · split at h
      · rename_i hl
        cases h
        exact hl
      · cases h

/-- Folders that have been made once are found to be there. -/
theorem makeFolders_again {path : String} {made : Store host}
    (h : store.makeFolders path = (.ok (), made)) (hg : Grows made later) :
    later.makeFolders path = (.ok (), later) := by
  rw [makeFolders] at h ⊢
  split at h
  · cases h
  rename_i hnul
  rw [if_neg hnul]
  split at h
  · cases h
  rename_i hlong
  rw [if_neg hlong]
  have hleads := leadsToFolder_of_makeFoldersAt (store.isFolder_start path) h
  exact makeFoldersAt_of_leadsToFolder (hg.leadsToFolder hleads)

/-! ## Files -/

theorem writeAt_over (h : store.walk start names = .ok location)
    (hf : ∃ old, store.get? location = some (.file old)) (content : ByteArray) :
    ∃ written, store.writeAt start names content = .ok written := by
  obtain ⟨old, hold⟩ := hf
  rw [writeAt, spot_of_walk h, ok_bind]
  dsimp only
  split
  · exact ⟨_, rfl⟩
  · rename_i hother
    exact absurd hold (hother old)

theorem write_over {path : String} (hc : Route.check host path = .ok ())
    (ht : (Route.ofPath host path).toFolder = false)
    (hw : store.walk (Route.ofPath host path).start (Route.ofPath host path).names =
        .ok (Route.location host path))
    (hf : ∃ old, store.get? (Route.location host path) = some (.file old)) (content : ByteArray) :
    ∃ written, store.write path content = .ok written ∧
      Written (Route.location host path) content store written := by
  obtain ⟨written, hwritten⟩ := writeAt_over hw hf content
  have h : store.write path content = .ok written := by
    rw [write, hc, ok_bind]
    dsimp only
    rw [ht]
    exact hwritten
  exact ⟨written, h, (write_eq_ok h).2.2.1⟩

end Folio.Files.Store
