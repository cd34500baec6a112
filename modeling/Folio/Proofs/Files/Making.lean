import Folio.Proofs.Files.Walking
import Mathlib.Data.List.Induction
/-!
# Making room

When following, making and writing succeed: names that only go down and are not too long meet no
fault but a missing entry or a file where a folder should be.
-/

namespace Folio.Files.Store

variable {host : Host}

/-- Names that go down and are not too long. -/
structure Down (names : List Name) : Prop where
  notAbove : above ∉ names
  short : ∀ name ∈ names, name.length ≤ maxName

theorem Down.of_append {before after : List Name} (h : Down (before ++ after)) : Down before :=
  ⟨fun hm => h.notAbove (List.mem_append_left _ hm),
    fun name hm => h.short name (List.mem_append_left _ hm)⟩

theorem Down.of_cons {name : Name} {rest : List Name} (h : Down (name :: rest)) : Down rest :=
  ⟨fun hm => h.notAbove (List.mem_cons_of_mem _ hm),
    fun other hm => h.short other (List.mem_cons_of_mem _ hm)⟩

/-- No file is where names lead or on the way there. -/
def Clear (store : Store host) (start : Location) (names : List Name) : Prop :=
  ∀ before, before <+: names → ∀ content, store.get? (start ++ before) ≠ some (.file content)

theorem Clear.of_append {store : Store host} {start : Location} {before after : List Name}
    (h : Clear store start (before ++ after)) : Clear store start before :=
  fun names hp => h names (hp.trans (List.prefix_append before after))

theorem Clear.makes {store made : Store host} {among : Location → Prop} {start : Location}
    {names : List Name} (h : Clear store start names) (hm : Makes among store made) :
    Clear made start names := by
  intro before hp content hf
  rcases hm (start ++ before) with he | ⟨-, hd, -⟩
  · exact h before hp content (he ▸ hf)
  · rw [hd] at hf
    cases hf

theorem Clear.isFolder {store : Store host} {start : Location} {names : List Name}
    (h : Clear store start names) (hp : (store.get? (start ++ names)).isSome) :
    store.IsFolder (start ++ names) := by
  obtain ⟨entry, he⟩ := Option.isSome_iff_exists.mp hp
  cases entry with
  | folder => exact .inr he
  | file content => exact absurd he (h names List.prefix_rfl content)

variable {store : Store host} {start : Location} {names : List Name} {last : Name}

/-! ## Following -/

theorem walk_concat (hd : Down (names ++ [last])) (hw : store.walk start names = .ok (start ++ names))
    (hf : store.IsFolder (start ++ names)) (hp : (store.get? (start ++ names ++ [last])).isSome) :
    store.walk start (names ++ [last]) = .ok (start ++ names ++ [last]) := by
  have ha : last ≠ above := fun he => hd.notAbove (by simp [he])
  have hl : ¬ maxName < last.length := Nat.not_lt.mpr (hd.short last (by simp))
  rw [walk_append, hw]
  show store.walk (start ++ names) [last] = _
  rw [walk, if_neg (not_not_intro hf), if_neg ha, if_neg hl, if_pos hp]
  rfl

theorem walk_of_present (hd : Down names)
    (hp : names = [] ∨ (store.get? (start ++ names)).isSome) :
    store.walk start names = .ok (start ++ names) := by
  induction names using List.reverseRecOn with
  | nil => rw [List.append_nil, walk]
  | append_singleton before last ih =>
    have hp := hp.resolve_left (by simp)
    rw [← List.append_assoc] at hp ⊢
    obtain ⟨entry, he⟩ := Option.isSome_iff_exists.mp hp
    have hf := (isFolder_dropLast he).2
    rw [List.dropLast_concat] at hf
    refine walk_concat hd (ih hd.of_append ?_) hf hp
    by_cases hb : before = []
    · exact .inl hb
    · refine .inr ?_
      rcases hf with hn | hf
      · exact absurd (List.append_eq_nil_iff.mp hn).2 hb
      · rw [hf]
        rfl

theorem walk_of_missing (hs : store.IsFolder start) (hd : Down names) (hne : names ≠ [])
    (hc : Clear store start names) (hm : store.get? (start ++ names) = none) :
    store.walk start names = .error .notFound := by
  induction names generalizing start with
  | nil => exact absurd rfl hne
  | cons name rest ih =>
    have ha : name ≠ above := fun he => hd.notAbove (by simp [he])
    have hl : ¬ maxName < name.length := Nat.not_lt.mpr (hd.short name List.mem_cons_self)
    rw [walk, if_neg (not_not_intro hs), if_neg ha, if_neg hl]
    split
    · rename_i hp
      have hfirst : Clear store start [name] := fun before hb => hc before (hb.trans (by simp))
      have hrest : Clear store (start ++ [name]) rest := by
        intro before hb
        rw [List.append_assoc]
        exact hc (name :: before) (List.prefix_cons_inj name |>.mpr hb)
      refine ih (hfirst.isFolder hp) hd.of_cons ?_ hrest (by rw [List.append_assoc]; exact hm)
      rintro rfl
      rw [hm] at hp
      cases hp
    · rfl

/-! ## Making folders -/

theorem spot_concat (hd : Down (names ++ [last]))
    (hw : store.walk start names = .ok (start ++ names)) (hf : store.IsFolder (start ++ names)) :
    (∃ hn, store.spot start (names ++ [last]) = .ok (.free (start ++ names) last hf hn)) ∨
      (store.get? (start ++ names ++ [last])).isSome ∧
        store.spot start (names ++ [last]) = .ok (.taken (start ++ names ++ [last])) := by
  have ha : last ≠ above := fun he => hd.notAbove (by simp [he])
  have hl : ¬ maxName < last.length := Nat.not_lt.mpr (hd.short last (by simp))
  rw [spot, List.getLast?_concat, List.dropLast_concat, hw]
  simp only [bind, Except.bind, dif_pos hf, if_neg ha, if_neg hl]
  by_cases hn : store.get? (start ++ names ++ [last]) = none
  · exact .inl ⟨hn, by rw [dif_pos hn]; rfl⟩
  · exact .inr ⟨Option.isSome_iff_ne_none.mpr hn, by rw [dif_neg hn]; rfl⟩

theorem leadsToFolder_of_present (hd : Down names)
    (hc : Clear store start names) (hp : (store.get? (start ++ names)).isSome) :
    store.leadsToFolder start names = true := by
  rw [leadsToFolder, walk_of_present hd (.inr hp)]
  simpa using hc.isFolder hp

theorem makeFolder_concat (hd : Down (names ++ [last]))
    (hw : store.walk start names = .ok (start ++ names)) (hf : store.IsFolder (start ++ names)) :
    (∃ made, store.makeFolder start (names ++ [last]) = .ok made ∧
        made.IsFolder (start ++ (names ++ [last]))) ∨
      (store.get? (start ++ (names ++ [last]))).isSome ∧
        store.makeFolder start (names ++ [last]) = .error .exists := by
  rw [← List.append_assoc]
  rcases spot_concat hd hw hf with ⟨hn, hs⟩ | ⟨hp, hs⟩
  · refine .inl ⟨store.add (start ++ names) last .folder hf hn, by rw [makeFolder, hs]; rfl, .inr ?_⟩
    rw [add, get?_put, if_pos rfl]
  · exact .inr ⟨hp, by rw [makeFolder, hs]; rfl⟩

/-- Folders can be made where no file is in the way. -/
theorem makeFoldersAt_ok (hs : store.IsFolder start) (hd : Down names)
    (hc : Clear store start names) :
    ∃ made, store.makeFoldersAt start names.reverse = (.ok (), made) ∧
      made.IsFolder (start ++ names) := by
  induction names using List.reverseRecOn with
  | nil => exact ⟨store, rfl, by rw [List.append_nil]; exact hs⟩
  | append_singleton before last ih =>
    rw [List.reverse_append, List.reverse_singleton, List.singleton_append, makeFoldersAt,
      List.reverse_cons, List.reverse_reverse]
    by_cases hp : before = [] ∨ (store.get? (start ++ before)).isSome
    · have hf : store.IsFolder (start ++ before) := by
        rcases hp with rfl | hp
        · rw [List.append_nil]
          exact hs
        · exact hc.of_append.isFolder hp
      rcases makeFolder_concat hd (walk_of_present hd.of_append hp) hf with ⟨made, hm, hf⟩ | ⟨hp, hm⟩
      · exact ⟨made, by rw [hm], hf⟩
      · refine ⟨store, ?_, hc.isFolder hp⟩
        rw [hm]
        simp [leadsToFolder_of_present hd hc hp]
    · obtain ⟨hne, hn⟩ := not_or.mp hp
      have hmissing : store.makeFolder start (before ++ [last]) = .error .notFound := by
        rw [makeFolder, spot, List.getLast?_concat, List.dropLast_concat,
          walk_of_missing hs hd.of_append hne hc.of_append (by simpa using hn)]
        rfl
      obtain ⟨made, hm, hf⟩ := ih hd.of_append hc.of_append
      have hmakes := makes_makeFoldersAt start before.reverse store
      rw [hm] at hmakes
      have hcm : Clear made start (before ++ [last]) := hc.makes hmakes
      have hpm : (made.get? (start ++ before)).isSome := by
        rcases hf with he | hf
        · exact absurd (List.append_eq_nil_iff.mp he).2 hne
        · rw [hf]
          rfl
      rw [hmissing, hm]
      rcases makeFolder_concat hd (walk_of_present hd.of_append (.inr hpm)) hf with
        ⟨made', hm', hf'⟩ | ⟨hp', hm'⟩
      · exact ⟨made', by simp [hm'], hf'⟩
      · exact ⟨made, by simp [hm', leadsToFolder_of_present hd hcm hp'], hcm.isFolder hp'⟩

theorem OnTheWay.exists_prefix {l : Location} (h : OnTheWay start names l) (hd : Down names) :
    ∃ before, before <+: names ∧ l = start ++ before := by
  obtain ⟨before, hp, rfl⟩ := h
  exact ⟨before, hp, Route.follow_of_notMem (fun hm => hd.notAbove (hp.subset hm)) start⟩

/-! ## Writing files -/

/-- A file can be written into a folder unless a folder has its name. -/
theorem writeAt_ok (hd : Down (names ++ [last])) (hf : store.IsFolder (start ++ names))
    (hp : names = [] ∨ (store.get? (start ++ names)).isSome)
    (hn : store.get? (start ++ names ++ [last]) ≠ some .folder) (content : ByteArray) :
    ∃ store', store.writeAt start (names ++ [last]) content = .ok store' := by
  rcases spot_concat hd (walk_of_present hd.of_append hp) hf with ⟨hfree, hs⟩ | ⟨hthere, hs⟩
  · exact ⟨_, by rw [writeAt, hs]; rfl⟩
  · obtain ⟨entry, he⟩ := Option.isSome_iff_exists.mp hthere
    rw [writeAt, hs]
    cases entry with
    | folder => exact absurd he hn
    | file old =>
      simp only [bind, Except.bind]
      split
      · exact ⟨_, rfl⟩
      · rename_i hfile
        exact absurd he (hfile old)

end Folio.Files.Store
