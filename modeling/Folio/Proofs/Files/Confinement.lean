import Folio.Proofs.Files.Parents
import Folio.Proofs.Files.Walking
/-!
# Confinement

What is done in a store depends on the locations that one comes to, and changes nothing elsewhere. So
on two stores that agree there it fails alike, or leaves them in agreement.
-/

namespace Folio.Files.Store

variable {host : Host} {seen : Location → Prop} {here : Location} {names : List Name}

/-- Following names from a location, one comes to seen locations only. -/
def Sees (seen : Location → Prop) (here : Location) (names : List Name) : Prop :=
  ∀ before, before <+: names → seen (Route.follow here before)

theorem Sees.start (h : Sees seen here names) : seen here :=
  h [] (List.nil_prefix)

theorem Sees.end (h : Sees seen here names) : seen (Route.follow here names) :=
  h names List.prefix_rfl

theorem Sees.rest {name : Name} (h : Sees seen here (name :: names)) :
    Sees seen (if name = above then here.dropLast else here ++ [name]) names := by
  intro before hp
  exact h (name :: before) ((List.prefix_cons_inj name).mpr hp)

theorem Sees.of_append {more : List Name} (h : Sees seen here (names ++ more)) :
    Sees seen here names := by
  intro before hp
  exact h before (hp.trans (List.prefix_append names more))

/-- Two stores show the same at seen locations. -/
def AgreeOn (seen : Location → Prop) (store other : Store host) : Prop :=
  ∀ location, seen location → store.get? location = other.get? location

variable {store other : Store host}

/-! ## Reading -/

theorem AgreeOn.isFolder_iff {location : Location} (h : AgreeOn seen store other) (hl : seen location) :
    store.IsFolder location ↔ other.IsFolder location := by
  rw [IsFolder, IsFolder, h location hl]

theorem AgreeOn.walk_eq (h : AgreeOn seen store other) (hs : Sees seen here names) :
    store.walk here names = other.walk here names := by
  induction names generalizing here with
  | nil => rfl
  | cons name rest ih =>
    have hrest := hs.rest
    simp only [walk, h.isFolder_iff hs.start]
    by_cases ha : name = above
    · rw [if_pos ha] at hrest
      simp only [if_pos ha, ih hrest]
    · rw [if_neg ha] at hrest
      simp only [if_neg ha, ih hrest, h _ hrest.start]

theorem AgreeOn.readText_eq {path : String} (h : AgreeOn seen store other)
    (hs : Sees seen (Route.ofPath host path).start (Route.ofPath host path).names) :
    store.readText path = other.readText path := by
  have hlocate : store.locate path = other.locate path := by
    simp only [locate, h.walk_eq hs]
    cases hw : other.walk (Route.ofPath host path).start (Route.ofPath host path).names with
    | error fault => rfl
    | ok found =>
      have hfound : seen found := by
        rw [follow_of_walk hw]
        exact hs.end
      simp only [ok_bind, h.isFolder_iff hfound]
  rw [readText, readText, read, read, hlocate]
  cases hl : other.locate path with
  | error fault => rfl
  | ok found =>
    have hfound : seen found := by
      rw [location_of_locate hl]
      exact hs.end
    simp only [ok_bind, h found hfound]

/-! ## Writing and making folders -/

/-- What one step does to two stores: it fails alike, or it leaves them in agreement. -/
inductive Alike {ε : Type} (seen : Location → Prop) :
    Except ε (Store host) → Except ε (Store host) → Prop
  | failed (error : ε) : Alike seen (.error error) (.error error)
  | done {later later' : Store host} (agree : AgreeOn seen later later') :
      Alike seen (.ok later) (.ok later')

theorem Alike.mapError {ε ε' : Type} {made made' : Except ε (Store host)} (f : ε → ε')
    (h : Alike seen made made') : Alike seen (made.mapError f) (made'.mapError f) := by
  cases h with
  | failed error => exact .failed (f error)
  | done agree => exact .done agree

theorem AgreeOn.put {ε : Type} {location : Location} (h : AgreeOn seen store other) (entry : Entry)
    (hne hp hk hne' hp' hk') :
    Alike seen (.ok (store.put location entry hne hp hk) : Except ε (Store host))
      (.ok (other.put location entry hne' hp' hk')) := by
  apply Alike.done
  intro l hs
  rw [get?_put, get?_put, h l hs]

inductive Spot.Same (seen : Location → Prop) {store other : Store host} :
    Except Fault (Spot store) → Except Fault (Spot other) → Prop
  | failed (fault : Fault) : Same seen (.error fault) (.error fault)
  | taken {location : Location} (hl : seen location) :
      Same seen (.ok (.taken location)) (.ok (.taken location))
  | free {folder : Location} {name : Name} (hl : seen (folder ++ [name])) {hf hf' hn hn'} :
      Same seen (.ok (.free folder name hf hn)) (.ok (.free folder name hf' hn'))

theorem AgreeOn.spot_same (h : AgreeOn seen store other) (hs : Sees seen here names) :
    Spot.Same seen (store.spot here names) (other.spot here names) := by
  rcases List.eq_nil_or_concat names with rfl | ⟨before, last, rfl⟩
  · exact .taken hs.start
  rw [List.concat_eq_append] at hs ⊢
  have hbefore := hs.of_append
  have hend := hs.end
  rw [Route.follow_append] at hend
  simp only [spot, List.getLast?_concat, List.dropLast_concat, h.walk_eq hbefore]
  cases hw : other.walk here before with
  | error fault => exact .failed fault
  | ok folder =>
    rw [← follow_of_walk hw] at hend
    have hfolder : seen folder := by
      rw [follow_of_walk hw]
      exact hbefore.end
    simp only [ok_bind]
    by_cases hf : other.IsFolder folder
    · have hf' := (h.isFolder_iff hfolder).mpr hf
      rw [dif_pos hf, dif_pos hf']
      by_cases ha : last = above
      · simp only [if_pos ha]
        simp only [Route.follow, if_pos ha] at hend
        exact .taken hend
      · simp only [Route.follow, if_neg ha] at hend
        simp only [if_neg ha]
        by_cases hlong : maxName < last.length
        · simp only [if_pos hlong]
          exact .failed .nameTooLong
        · simp only [if_neg hlong]
          by_cases hn : other.get? (folder ++ [last]) = none
          · have hn' : store.get? (folder ++ [last]) = none := by rw [h _ hend, hn]
            rw [dif_pos hn, dif_pos hn']
            exact .free hend
          · have hn' : ¬ store.get? (folder ++ [last]) = none := by rwa [h _ hend]
            rw [dif_neg hn, dif_neg hn']
            exact .taken hend
    · have hf' := mt (h.isFolder_iff hfolder).mp hf
      rw [dif_neg hf, dif_neg hf']
      exact .failed .notFolder

theorem AgreeOn.writeAt (h : AgreeOn seen store other) (hs : Sees seen here names)
    (content : ByteArray) :
    Alike seen (store.writeAt here names content) (other.writeAt here names content) := by
  have hspot := h.spot_same hs
  rw [Store.writeAt, Store.writeAt]
  generalize store.spot here names = found at hspot
  generalize other.spot here names = found' at hspot
  cases hspot with
  | failed fault => exact .failed fault
  | free hl => exact h.put ..
  | @taken location hl =>
    simp only [ok_bind]
    split
    · rename_i old hf
      split
      · exact h.put ..
      · rename_i hf'
        exact absurd (h location hl ▸ hf) (hf' old)
    · rename_i hf
      split
      · rename_i old hf'
        exact absurd ((h location hl).trans hf') (hf old)
      · exact .failed Fault.isFolder

theorem AgreeOn.makeFolder (h : AgreeOn seen store other) (hs : Sees seen here names) :
    Alike seen (store.makeFolder here names) (other.makeFolder here names) := by
  have hspot := h.spot_same hs
  rw [Store.makeFolder, Store.makeFolder]
  generalize store.spot here names = found at hspot
  generalize other.spot here names = found' at hspot
  cases hspot with
  | failed fault => exact .failed fault
  | free hl => exact h.put ..
  | taken hl => exact .failed Fault.exists

theorem AgreeOn.leadsToFolder_eq (h : AgreeOn seen store other) (hs : Sees seen here names) :
    store.leadsToFolder here names = other.leadsToFolder here names := by
  rw [leadsToFolder, leadsToFolder, h.walk_eq hs]
  cases hw : other.walk here names with
  | error fault => rfl
  | ok found =>
    have hfound : seen found := by
      rw [follow_of_walk hw]
      exact hs.end
    simp only [h.isFolder_iff hfound]

/-- What is done to two stores even if it ends in a fault. -/
structure AlikeMade (seen : Location → Prop) (made made' : Except Fault Unit × Store host) : Prop where
  same : made.1 = made'.1
  agree : AgreeOn seen made.2 made'.2

theorem AgreeOn.makeFoldersAt (h : AgreeOn seen store other) (hs : Sees seen here names.reverse) :
    AlikeMade seen (store.makeFoldersAt here names) (other.makeFoldersAt here names) := by
  induction names with
  | nil => exact ⟨rfl, h⟩
  | cons last before ih =>
    have hbefore : Sees seen here before.reverse := by
      rw [List.reverse_cons] at hs
      exact hs.of_append
    have hfirst := h.makeFolder hs
    have haround := ih hbefore
    rw [Store.makeFoldersAt, Store.makeFoldersAt]
    generalize store.makeFolder here (last :: before).reverse = made at hfirst
    generalize other.makeFolder here (last :: before).reverse = made' at hfirst
    cases hfirst with
    | done agree => exact ⟨rfl, agree⟩
    | failed fault =>
      rw [h.leadsToFolder_eq hs]
      cases fault with
      | notFound =>
        dsimp only
        generalize store.makeFoldersAt here before = around at haround
        generalize other.makeFoldersAt here before = around' at haround
        obtain ⟨result, store'⟩ := around
        obtain ⟨result', other'⟩ := around'
        obtain ⟨rfl, hagree⟩ := haround
        cases result with
        | error fault => exact ⟨rfl, hagree⟩
        | ok _ =>
          have hsecond := AgreeOn.makeFolder hagree hs
          have hleads := AgreeOn.leadsToFolder_eq hagree hs
          dsimp only at hsecond hleads ⊢
          rw [hleads]
          generalize store'.makeFolder here (last :: before).reverse = made at hsecond
          generalize other'.makeFolder here (last :: before).reverse = made' at hsecond
          cases hsecond with
          | done agree => exact ⟨rfl, agree⟩
          | failed fault =>
            dsimp only
            split <;> exact ⟨rfl, hagree⟩
      | _ =>
        dsimp only
        split <;> exact ⟨rfl, h⟩

variable {path : String}

theorem AgreeOn.makeFolders (h : AgreeOn seen store other)
    (hs : Sees seen (Route.ofPath host path).start (Route.ofPath host path).names) :
    AlikeMade seen (store.makeFolders path) (other.makeFolders path) := by
  have hmade := h.makeFoldersAt (List.reverse_reverse (Route.ofPath host path).names ▸ hs)
  rw [Store.makeFolders, Store.makeFolders]
  split
  · exact ⟨rfl, h⟩
  · split
    · exact ⟨rfl, h⟩
    · exact hmade

theorem AgreeOn.write (h : AgreeOn seen store other)
    (hs : Sees seen (Route.ofPath host path).start (Route.ofPath host path).names)
    (content : ByteArray) :
    Alike seen (store.write path content) (other.write path content) := by
  rw [Store.write, Store.write]
  cases Route.check host path with
  | error fault => exact .failed fault
  | ok _ =>
    dsimp only [ok_bind]
    split
    · rw [h.walk_eq hs]
      cases hw : other.walk (Route.ofPath host path).start (Route.ofPath host path).names with
      | error fault => exact .failed fault
      | ok found =>
        have hfound : seen found := by
          rw [follow_of_walk hw]
          exact hs.end
        simp only [ok_bind, h.isFolder_iff hfound]
        exact .failed _
    · exact h.writeAt hs content

/-- A relative path that leads up at its end at most comes to nothing but what lies in the working
folder, and to the folder around that. -/
theorem sees_of_relative (hin : ∀ location, host.here <+: location → seen location)
    (hup : seen host.here.dropLast) (hs : path.startsWith "/" = false)
    (hu : ".." ∉ (Path.named path).dropLast) :
    Sees seen (Route.ofPath host path).start (Route.ofPath host path).names := by
  have hstart : (Route.ofPath host path).start = host.here := by
    rw [Route.ofPath, hs]
    rfl
  have habove : above ∉ (Route.ofPath host path).names.dropLast := by
    rw [Route.names_ofPath, ← List.map_dropLast]
    intro hm
    obtain ⟨piece, hp, he⟩ := List.mem_map.mp hm
    exact hu (Name.ofText_injective he ▸ hp)
  rw [hstart]
  intro before hp
  rcases List.eq_nil_or_concat before with rfl | ⟨init, last, rfl⟩
  · exact hin _ List.prefix_rfl
  rw [List.concat_eq_append] at hp ⊢
  have hinit : above ∉ init := by
    intro hm
    apply habove
    obtain ⟨more, hmore⟩ := hp
    rw [← hmore, List.append_assoc, List.dropLast_append_of_ne_nil (by simp)]
    exact List.mem_append_left _ hm
  rw [Route.follow_append, Route.follow_of_notMem hinit, Route.follow]
  split
  · rcases List.eq_nil_or_concat init with rfl | ⟨more, name, rfl⟩
    · simpa [Route.follow] using hup
    · apply hin
      rw [List.concat_eq_append, ← List.append_assoc, List.dropLast_concat]
      exact List.prefix_append _ _
  · apply hin
    rw [Route.follow, List.append_assoc]
    exact List.prefix_append _ _

end Folio.Files.Store
