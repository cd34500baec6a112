import Folio.Proofs.Site.SharedNames
/-!
# The warnings of a collection

A template that comes under a name already taken replaces the one that came last under it, and a
warning says so. The warnings of a collection are those of its insertions in order, and the journal
has the same texts.
-/

namespace Folio

variable {host : Host}

open Files

namespace Collection

/-! ## Insertions that replace -/

/-- The insertions that met a name already taken, by their numbers. -/
def repeats (inserted : List Template) : List Nat :=
  (List.range inserted.length).filter fun number =>
    inserted[number]?.any fun template => (inserted.take number).any (·.name = template.name)

/-- What a template of a number replaces: the one of its name that was put in last before it. -/
structure Replaces (inserted : List Template) (number : Nat) (old new : Template) : Prop where
  sameName : old.name = new.name
  latest : ∃ before between after, inserted = before ++ old :: between ++ new :: after ∧
    number = (before ++ old :: between).length ∧ ∀ other ∈ between, other.name ≠ new.name

theorem repeats_concat (before : List Template) (last : Template) :
    repeats (before ++ [last])
      = repeats before ++ if last.name ∈ before.map Template.name then [before.length] else [] := by
  have hlast : (List.range 1).map (before.length + ·) = [before.length] := rfl
  rw [repeats, List.length_append, List.length_singleton, List.range_add, List.filter_append, hlast]
  congr 1
  · refine List.filter_congr fun number hm => ?_
    have hlt := List.mem_range.mp hm
    rw [List.getElem?_append_left hlt, List.take_append_of_le_length (by omega)]
  · rw [List.filter_singleton, List.getElem?_append_right (by omega), Nat.sub_self,
      List.take_append_of_le_length (by omega), List.take_length]
    simp only [List.getElem?_cons_zero, Option.any_some, cond_eq_ite, List.any_eq_true,
      decide_eq_true_eq, List.mem_map]

theorem Replaces.append {inserted : List Template} {number : Nat} {old new : Template}
    (h : Replaces inserted number old new) (more : List Template) :
    Replaces (inserted ++ more) number old new := by
  obtain ⟨before, between, after, rfl, hn, hb⟩ := h.latest
  exact ⟨h.sameName, before, between, after ++ more, by simp, hn, hb⟩

theorem replaces_of_latest? {before : List Template} {old new : Template}
    (h : latest? before new.name = some old) :
    Replaces (before ++ [new]) before.length old new := by
  obtain ⟨hname, between, earlier, hsplit, hb⟩ := List.find?_eq_some_iff_append.mp h
  have hbefore : before = earlier.reverse ++ old :: between.reverse := by
    rw [← before.reverse_reverse, hsplit]
    simp
  refine ⟨by simpa using hname, earlier.reverse, between.reverse, [], by rw [hbefore],
    by rw [hbefore], fun other hm => ?_⟩
  simpa using hb other (List.mem_reverse.mp hm)

theorem Replaces.settled {inserted : List Template} {number : Nat} {old new : Template}
    (h : Replaces inserted number old new) :
    inserted[number]? = some new ∧ latest? (inserted.take number) new.name = some old := by
  obtain ⟨before, between, after, rfl, rfl, hb⟩ := h.latest
  have hnone : between.reverse.find? (·.name = new.name) = none := by
    rw [List.find?_eq_none]
    intro other hm
    simpa using hb other (List.mem_reverse.mp hm)
  refine ⟨by rw [List.getElem?_append_right (Nat.le_refl _), Nat.sub_self]; rfl, ?_⟩
  rw [List.take_left, latest?, List.reverse_append, List.reverse_cons, List.append_assoc,
    List.find?_append, hnone, Option.none_or, List.singleton_append,
    List.find?_cons_of_pos (by simpa using h.sameName)]

/-! ## Warnings -/

theorem notice_ofList (before : List Template) (new : Template) :
    (ofList before).notice new = ((latest? before new.name).map (replacement · new)).toList := by
  rw [notice, find?_ofList]

theorem length_warnings_ofList (inserted : List Template) :
    (ofList inserted).warnings.length = (repeats inserted).length := by
  induction inserted using List.reverseRecOn with
  | nil => rfl
  | append_singleton before last ih =>
    rw [ofList_concat, insert, List.length_append, ih, length_notice, names_ofList, repeats_concat,
      List.length_append]
    simp only [List.mem_eraseDups]
    split <;> rfl

/-- The warning of each insertion that replaces names what it replaces. -/
theorem exists_replaces {inserted : List Template} {i number : Nat}
    (h : (repeats inserted)[i]? = some number) :
    ∃ old new, Replaces inserted number old new ∧
      (ofList inserted).warnings[i]? = some (replacement old new) := by
  induction inserted using List.reverseRecOn with
  | nil => cases h
  | append_singleton before last ih =>
    rw [repeats_concat] at h
    rw [ofList_concat, insert]
    have hlength := length_warnings_ofList before
    by_cases hi : i < (repeats before).length
    · rw [List.getElem?_append_left hi] at h
      obtain ⟨old, new, hr, hw⟩ := ih h
      exact ⟨old, new, hr.append [last], by rw [List.getElem?_append_left (by omega), hw]⟩
    · rw [List.getElem?_append_right (by omega)] at h
      split at h
      · rename_i hm
        obtain ⟨hzero, rfl⟩ : i - (repeats before).length = 0 ∧ before.length = number := by
          simpa [List.getElem?_singleton] using h
        obtain ⟨old, hold⟩ := Option.isSome_iff_exists.mp (isSome_latest?.mpr hm)
        refine ⟨old, last, replaces_of_latest? hold, ?_⟩
        rw [List.getElem?_append_right (by omega), hlength, hzero, notice_ofList, hold]
        rfl
      · cases h

/-! ## The journal -/

def insertionJournal (collection : Collection) : List Template → Journal
  | [] => []
  | template :: rest =>
    collection.insertJournal template ++ (collection.insert template).insertionJournal rest

def told (warnings : List String) : Journal :=
  warnings.flatMap Journal.warn

theorem told_foldl_insert (collection : Collection) (inserted : List Template) :
    told (inserted.foldl insert collection).warnings
      = told collection.warnings ++ collection.insertionJournal inserted := by
  induction inserted generalizing collection with
  | nil => rw [insertionJournal, List.append_nil, List.foldl_nil]
  | cons template rest ih =>
    have hstep : told (collection.insert template).warnings
        = told collection.warnings ++ collection.insertJournal template := by
      rw [told, insert, List.flatMap_append]
      rfl
    rw [List.foldl_cons, ih, hstep, insertionJournal, List.append_assoc]

end Collection

theorem Logged.journal_bind_of_ok {α β : Type} {first : Logged α} {next : α → Logged β} {value : α}
    (h : first.outcome = .ok value) :
    (first >>= next).journal = first.journal ++ (next value).journal := by
  show (Logged.bind first next).journal = _
  rw [Logged.bind, h]

instance (line : String) : Decidable (IsReplacement line) :=
  decidable_of_iff ("duplicate template name '".toList <+: line.toList) <| by
    constructor
    · rintro ⟨rest, hr⟩
      exact ⟨String.ofList rest, String.toList_injective (by simp [← hr])⟩
    · rintro ⟨rest, rfl⟩
      exact ⟨rest.toList, by simp⟩

namespace Journal

def replacements (journal : Journal) : List String :=
  (journal.filter fun entry => entry.severity = .warn ∧ IsReplacement entry.message).map
    JournalEntry.message

@[simp] theorem replacements_nil : replacements [] = [] := rfl

@[simp] theorem replacements_append (before after : Journal) :
    replacements (before ++ after) = replacements before ++ replacements after := by
  simp only [replacements, List.filter_append, List.map_append]

@[simp] theorem replacements_debug (message : String) : replacements (debug message) = [] := by
  simp [replacements, debug]

@[simp] theorem replacements_info (message : String) : replacements (info message) = [] := by
  simp [replacements, info]

theorem replacements_bind {α β : Type} {first : Logged α} {next : α → Logged β} {value : α}
    (h : first.outcome = .ok value) : (first >>= next).journal.replacements
      = first.journal.replacements ++ (next value).journal.replacements := by
  rw [Logged.journal_bind_of_ok h, replacements_append]

theorem replacements_warn_other {message : String} (h : ¬ IsReplacement message) :
    replacements (warn message) = [] := by
  simp [replacements, warn, h]

theorem replacements_told {warnings : List String} (h : ∀ line ∈ warnings, IsReplacement line) :
    replacements (Collection.told warnings) = warnings := by
  induction warnings with
  | nil => rfl
  | cons line rest ih =>
    have hline : replacements (warn line) = [line] := by
      simp [replacements, warn, h line List.mem_cons_self]
    have htold : Collection.told (line :: rest) = warn line ++ Collection.told rest := rfl
    rw [htold, replacements_append, hline, ih fun other hm => h other (List.mem_cons_of_mem line hm)]
    rfl

end Journal

/-! ## Filling a collection from a folder -/

theorem RenderData.replacements_load (store : Store host) (path : String) :
    (load store path).journal.replacements = [] := by
  unfold load
  split
  · split
    · rfl
    · split
      · rfl
      · rename_i vars _
        rw [RenderSettings.journal]
        split
        · split
          · rfl
          · simp only [String.append_assoc]
            exact Journal.replacements_warn_other (not_isReplacement _ (by simp))
        · rfl
      · rfl
  · rfl

theorem Template.replacements_load {store : Store host} {file : TemplateFile} {template : Template}
    (h : (load store file).outcome = .ok template) :
    (load store file).journal.replacements = [] := by
  have hdata : (load store file).journal = (RenderData.load store file.dataPath).journal := by
    rw [outcome_load] at h
    unfold load
    cases hs : store.readText file.path with
    | error fault => simp [hs] at h
    | ok source =>
      cases hc : Body.compile store source with
      | error cause => simp [hs, hc] at h
      | ok body =>
        simp only [hs, hc] at h
        obtain ⟨data, hd, -⟩ := bind_eq_ok.mp h
        simp only
        rw [Logged.journal_bind_of_ok (Logged.outcome_pure source), hc]
        simp only
        rw [Logged.journal_bind_of_ok (Logged.outcome_pure body), Logged.journal_bind_of_ok hd]
        exact List.append_nil _
  rw [hdata, RenderData.replacements_load]

namespace Collection

variable {store : Store host} {collection result : Collection} {founds : List Found}

theorem replacements_insertJournal (collection : Collection) (template : Template) :
    (collection.insertJournal template).replacements = collection.notice template := by
  refine Journal.replacements_told fun line hm => ?_
  obtain ⟨old, -, rfl⟩ := Option.map_eq_some_iff.mp (Option.mem_toList.mp hm)
  exact isReplacement_replacement old template

theorem replacements_found (found : Found) : found.journal.replacements = [] := by
  cases found with
  | unopened path => rfl
  | _ => exact Journal.replacements_debug _

theorem replacements_addAll (h : (addAll store collection founds).outcome = .ok result) :
    result.warnings
      = collection.warnings ++ (addAll store collection founds).journal.replacements := by
  induction founds generalizing collection with
  | nil =>
    cases h
    exact (List.append_nil _).symm
  | cons found rest ih =>
    rw [addAll_cons] at h
    unfold addAll
    rw [Journal.replacements_bind (Logged.outcome_tell found.journal)]
    have hfound : (Logged.tell found.journal).journal.replacements = [] := replacements_found found
    rw [hfound, List.nil_append]
    cases hf : found.file? with
    | error error => simp [hf] at h
    | ok file =>
      cases file with
      | none =>
        simp only [hf] at h
        exact ih h
      | some file =>
        simp only [hf] at h
        obtain ⟨template, hl, h⟩ := bind_eq_ok.mp h
        have htell := Logged.outcome_tell (collection.insertJournal template)
        simp only
        rw [Journal.replacements_bind hl, Journal.replacements_bind htell,
          Template.replacements_load hl, ih h, insert, List.append_assoc, List.nil_append,
          Logged.tell, replacements_insertJournal]

theorem warnings_of_populate {folder : String} {matcher : Matcher}
    (h : (populate store folder matcher).outcome = .ok result) :
    result.warnings = (ofList (gathered store matcher folder)).warnings ∧
      (populate store folder matcher).journal.replacements = result.warnings := by
  have hadd := populate_eq_ok.mp h
  refine ⟨by rw [← (gathered_of_populate h).1], ?_⟩
  rw [replacements_addAll hadd, populate, Journal.replacements_bind hadd,
    Journal.replacements_bind (Logged.outcome_tell _)]
  simp [Logged.tell, pure, empty]

end Collection

/-- The warnings of a registry are those of its folders in order, and the journal of its discovery
has them too. -/
theorem Registry.warnings_of_discover {store : Store host} {src : String} {matcher : Matcher}
    {registry : Registry} (h : (discover store src matcher).outcome = .ok registry) :
    registry.warnings = (folders src).flatMap (fun folder =>
        (Collection.ofList (gathered store matcher folder)).warnings) ∧
      (discover store src matcher).journal.replacements = registry.warnings := by
  obtain ⟨hl, hp, hg⟩ := discover_eq_ok.mp h
  obtain ⟨hlw, hlj⟩ := Collection.warnings_of_populate hl
  obtain ⟨hpw, hpj⟩ := Collection.warnings_of_populate hp
  obtain ⟨hgw, hgj⟩ := Collection.warnings_of_populate hg
  constructor
  · simp [warnings, folders, hlw, hpw, hgw]
  · have hinfo : ∀ message, (Logged.tell (.info message)).journal.replacements = [] :=
      fun message => Journal.replacements_info message
    rw [discover, Journal.replacements_bind hl, Journal.replacements_bind (Logged.outcome_tell _),
      Journal.replacements_bind hp, Journal.replacements_bind (Logged.outcome_tell _),
      Journal.replacements_bind hg, Journal.replacements_bind (Logged.outcome_tell _)]
    simp [warnings, hlj, hpj, hgj, hinfo, pure]

namespace Collection

/-- What the warnings of a collection say, after any insertions into an empty one. Insertions are as
many as warnings and different names together. There is a warning for each insertion that met a name
already taken, in order, and it names the path that was put in last under that name. The journal of
the insertions has the same lines. In a registry the warnings of layouts come first, then those of
partials, then those of pages, each from what was put in for the files of its folder. -/
theorem warnings_tell_replacements (inserted : List Template) :
    (ofList inserted).warnings.length + (inserted.map Template.name).toFinset.card
      = inserted.length ∧
    (ofList inserted).warnings.length = (repeats inserted).length ∧
    (∀ i number : Nat, (repeats inserted)[i]? = some number → ∃ old new,
      Replaces inserted number old new ∧
      (ofList inserted).warnings[i]? = some ("duplicate template name '" ++ new.name ++ "': "
        ++ new.path ++ " replaces " ++ old.path)) ∧
    empty.insertionJournal inserted = (ofList inserted).warnings.map (JournalEntry.mk .warn) ∧
    (empty.insertionJournal inserted).lines (some .warn)
      = (ofList inserted).warnings.map ("WARN " ++ ·) ∧
    (∀ registry : Registry, registry.warnings
      = registry.layouts.warnings ++ registry.partials.warnings ++ registry.pages.warnings) ∧
    ∀ (host : Host) (store : Store host) (src : String) (matcher : Matcher) (registry : Registry),
      (Registry.discover store src matcher).outcome = .ok registry →
      registry.warnings = (Registry.folders src).flatMap (fun folder =>
        (ofList (gathered store matcher folder)).warnings) ∧
      (Registry.discover store src matcher).journal.replacements = registry.warnings := by
  have hjournal : empty.insertionJournal inserted
      = (ofList inserted).warnings.map (JournalEntry.mk .warn) := by
    have htold := told_foldl_insert empty inserted
    have hnone : told empty.warnings = [] := rfl
    rw [hnone, List.nil_append] at htold
    rw [← htold, told, List.map_eq_flatMap]
    rfl
  refine ⟨?_, length_warnings_ofList inserted, fun i number h => exists_replaces h, hjournal, ?_,
    fun _ => rfl, fun _ store src matcher registry h => Registry.warnings_of_discover h⟩
  · rw [← size_ofList, Nat.add_comm, size_add_warnings_ofList]
  · rw [hjournal, Journal.lines, List.filter_map, List.map_map,
      List.filter_eq_self.mpr fun line _ => by simp [Severity.rank]]
    rfl

/-- Three templates of one name and two of another, in turn. -/
def replacedTwice : List Template :=
  [⟨"a", "a.1", ⟨"", [], []⟩, none⟩, ⟨"b", "b.1", ⟨"", [], []⟩, none⟩, ⟨"a", "a.2", ⟨"", [], []⟩, none⟩,
    ⟨"c", "c.1", ⟨"", [], []⟩, none⟩, ⟨"a", "a.3", ⟨"", [], []⟩, none⟩,
        ⟨"b", "b.2", ⟨"", [], []⟩, none⟩]

/-- A layout that replaces another and a page that does. -/
def doubledSite : Store .process :=
  .ofTexts [("src/layouts/main.hbs", ""), ("src/layouts/main.mustache", ""),
    ("src/pages/a.hbs", ""), ("src/pages/a.mustache", "")]

theorem warnings_tell_replacements_twice :
    (ofList replacedTwice).warnings.length + 3 = 6 ∧
    (repeats replacedTwice)[1]? = some 4 ∧
    (∃ old new, Replaces replacedTwice 4 old new ∧ old.path = "a.2" ∧ new.path = "a.3" ∧
      (ofList replacedTwice).warnings[1]?
        = some "duplicate template name 'a': a.3 replaces a.2") ∧
    (empty.insertionJournal replacedTwice).lines (some .warn)
      = ["WARN duplicate template name 'a': a.2 replaces a.1",
        "WARN duplicate template name 'a': a.3 replaces a.2",
        "WARN duplicate template name 'b': b.2 replaces b.1"] ∧
    ∃ registry, (Registry.discover doubledSite "src" ⟨["mustache", "hbs"]⟩).outcome = .ok registry ∧
      registry.warnings
        = ["duplicate template name 'main': src/layouts/main.mustache replaces src/layouts/main.hbs",
          "duplicate template name 'a': src/pages/a.mustache replaces src/pages/a.hbs"] ∧
      (Registry.discover doubledSite "src" ⟨["mustache", "hbs"]⟩).journal.replacements
        = registry.warnings := by
  obtain ⟨hcount, -, htold, -, hlines, -, hregistry⟩ := warnings_tell_replacements replacedTwice
  have hsecond : (repeats replacedTwice)[1]? = some 4 := by decide
  obtain ⟨old, new, hreplaces, hline⟩ := htold 1 4 hsecond
  obtain ⟨hnew, hold⟩ := hreplaces.settled
  obtain rfl : ⟨"a", "a.3", ⟨"", [], []⟩, none⟩ = new := Option.some.inj hnew
  obtain rfl : ⟨"a", "a.2", ⟨"", [], []⟩, none⟩ = old := Option.some.inj hold
  obtain ⟨registry, hr, hw⟩ : ∃ registry,
      (Registry.discover doubledSite "src" ⟨["mustache", "hbs"]⟩).outcome = .ok registry ∧
      decide (registry.warnings
        = ["duplicate template name 'main': src/layouts/main.mustache replaces src/layouts/main.hbs",
          "duplicate template name 'a': src/pages/a.mustache replaces src/pages/a.hbs"]) = true :=
    exists_ok (by decide +kernel)
  refine ⟨hcount, hsecond, ⟨_, _, hreplaces, rfl, rfl, hline.trans (by decide)⟩,
    hlines.trans (by decide),
    registry, hr, of_decide_eq_true hw, (hregistry _ _ _ _ _ hr).2⟩

end Collection

end Folio
