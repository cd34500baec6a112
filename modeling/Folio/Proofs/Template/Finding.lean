import Folio.Proofs.Template.Shortcut
import Mathlib.Data.List.DropRight
/-!
# What a search for references finds

The search goes on behind the closing braces of what it has found, so that it comes to an end on
every source. Each name it returns is there once and has been trimmed, and stands in the source
between an opening and the next closing braces.
-/

namespace Folio

namespace Text

theorem trimEnd_eq_rdropWhile (text : List Char) : trimEnd text = text.rdropWhile isBlank :=
  rfl

theorem trimStart_of_isPrefix {text start : List Char} (h : start <+: trimStart text) :
    trimStart start = start := by
  cases start with
  | nil => rfl
  | cons c start =>
    obtain ⟨rest, hr⟩ := h
    have hb : isBlank c = false := by
      have hhead := List.head?_dropWhile_not isBlank text
      rw [show text.dropWhile isBlank = _ from hr.symm] at hhead
      simpa using hhead
    rw [trimStart, List.dropWhile_cons_of_neg (by simp [hb])]

theorem trim_prefix_trimStart (text : List Char) : trim text <+: trimStart text :=
  List.rdropWhile_prefix isBlank _

theorem trim_infix (text : List Char) : trim text <:+: text :=
  (trim_prefix_trimStart text).isInfix.trans (List.dropWhile_suffix isBlank).isInfix

theorem trim_trim (text : List Char) : trim (trim text) = trim text := by
  rw [trim, trimStart_of_isPrefix (trim_prefix_trimStart text), trim, trimEnd_eq_rdropWhile,
    trimEnd_eq_rdropWhile, List.rdropWhile_idempotent]

theorem not_infix_of_cutAt? {mark text before after : List Char} (hm : mark ≠ [])
    (h : cutAt? mark text = some (before, after)) : ¬ mark <:+: before := by
  induction text generalizing before with
  | nil =>
    rw [cutAt?, if_neg hm] at h
    cases h
  | cons c rest ih =>
    rw [cutAt?] at h
    split at h
    · cases h
      exact mt List.infix_nil.mp hm
    · rename_i hp
      obtain ⟨⟨first, left⟩, hc, he⟩ := Option.map_eq_some_iff.mp h
      cases he
      rw [List.infix_cons_iff, not_or]
      refine ⟨fun hpre => hp ?_, ih hc⟩
      have hrest : c :: first <+: c :: rest :=
        ⟨mark ++ after, by rw [← append_of_cutAt? hc]; simp⟩
      exact List.isPrefixOf_iff_prefix.mpr (hpre.trans hrest)

end Text

namespace Markup

/-- A name stands in a source if it is what is left, when trimmed, of the text between an opening and
the closing braces that come next. -/
def Stands (source : List Char) (name : String) : Prop :=
  ∃ before raw after, source = before ++ ['{', '{', '>'] ++ raw ++ ['}', '}'] ++ after ∧
    ¬ ['}', '}'] <:+: raw ∧ Text.trim raw ≠ [] ∧ name = String.ofList (Text.trim raw)

theorem Stands.append {source : List Char} {name : String} (h : Stands source name)
    (passed : List Char) : Stands (passed ++ source) name := by
  obtain ⟨before, raw, after, rfl, hraw⟩ := h
  exact ⟨passed ++ before, raw, after, by simp, hraw⟩

theorem Stands.ne_empty {source : List Char} {name : String} (h : Stands source name) :
    name ≠ "" := by
  obtain ⟨-, raw, -, -, -, hn, rfl⟩ := h
  simpa using hn

theorem Stands.trim_eq {source : List Char} {name : String} (h : Stands source name) :
    Text.trim name.toList = name.toList := by
  obtain ⟨-, raw, -, -, -, -, rfl⟩ := h
  rw [String.toList_ofList, Text.trim_trim]

theorem Stands.not_infix {source : List Char} {name : String} (h : Stands source name) :
    ¬ ['}', '}'] <:+: name.toList := by
  obtain ⟨-, raw, -, -, hraw, -, rfl⟩ := h
  rw [String.toList_ofList]
  exact fun hi => hraw (hi.trans (Text.trim_infix raw))

/-- The search keeps what every new name that stands in the source keeps. -/
theorem findReferences_induction {P : List String → Prop} {known : List String}
    {source : List Char} (h : P known)
    (hstep : ∀ known name, P known → name ∉ known → Stands source name → P (known ++ [name])) :
    P (findReferences known source) := by
  fun_induction findReferences known source with
  | case1 known source ho => exact h
  | case2 known source before tag ho hc => exact h
  | case3 known source before tag ho raw rest hc name ih =>
    have hsource : source = before ++ ['{', '{', '>'] ++ raw ++ ['}', '}'] ++ rest := by
      rw [← Text.append_of_cutAt? ho, ← Text.append_of_cutAt? hc]
      simp
    refine ih ?_ fun known name hk hn hs => hstep known name hk hn ?_
    · split
      · exact h
      · rename_i hnew
        obtain ⟨hne, hnew⟩ : Text.trim raw ≠ [] ∧ name ∉ known := by simpa [name] using hnew
        exact hstep known name h hnew
          ⟨before, raw, rest, hsource, Text.not_infix_of_cutAt? (by decide) hc, hne, rfl⟩
    · rw [hsource]
      exact hs.append _

theorem nodup_references (source : String) : (references source).Nodup :=
  findReferences_induction (P := List.Nodup) List.nodup_nil fun _ _ hk hn _ =>
    List.concat_eq_append ▸ hk.concat hn

theorem stands_of_mem_references (source : String) :
    ∀ name ∈ references source, Stands source.toList name := by
  have hempty : ∀ name ∈ ([] : List String), Stands source.toList name := List.forall_mem_nil _
  refine findReferences_induction (P := fun known => ∀ name ∈ known, Stands source.toList name)
    hempty fun known name hk _ hs => ?_
  rw [List.forall_mem_append, List.forall_mem_singleton]
  exact ⟨hk, hs⟩

end Markup

/-- The references of a source hold every partial that the reader sees, as long as no tag changes the
delimiters: each tag that includes one, at any depth of sections, and so each one that the tree of the
body includes. Whatever the source is, the search ends with names each of which is there once, is
neither empty nor has blanks around it, holds no closing braces and stands in the source between an
opening and the closing braces that come next. -/
theorem Body.references_hold_inclusions {host : Host} (store : Files.Store host) (source : String) :
    (∀ body, Body.compile store source = .ok body → Markup.KeepsDelims source →
      (∀ name, .tag (.inclusion name) ∈ (Markup.Lexeme.ofSource source.toList).1 →
        name ∈ body.references) ∧
      Markup.Node.inclusions body.nodes ⊆ body.references) ∧
    (Markup.references source).Nodup ∧
    ∀ name ∈ Markup.references source, name ≠ "" ∧ Text.trim name.toList = name.toList ∧
      ¬ ['}', '}'] <:+: name.toList ∧ Markup.Stands source.toList name := by
  refine ⟨fun body h hd => ?_, Markup.nodup_references source, fun name hm => ?_⟩
  · obtain ⟨hs, hn, -⟩ := Body.compile_eq_ok h
    rw [references, hs]
    exact ⟨fun name hm => Markup.mem_references_of_mem_lexemes hd hm,
      Markup.inclusions_subset_references hd hn⟩
  · have hs := Markup.stands_of_mem_references source name hm
    exact ⟨hs.ne_empty, hs.trim_eq, hs.not_infix, hs⟩

/-- Triple braces, a comment with an opening in it and tags in nested sections, in front of a brace that
opens nothing. -/
def crossedSource : String :=
  "\x7b\x7b\x7bx\x7d\x7d\x7d\x7b\x7b! \x7b\x7b> note \x7d\x7d\x7b\x7b#a\x7d\x7d\x7b\x7b^b\x7d\x7d"
    ++ "\x7b\x7b>  one\x7d\x7d\x7b\x7b/b\x7d\x7d\x7b\x7b> \x7btwo \x7d\x7d\x7b\x7b/a\x7d\x7d\x7b"

theorem Body.references_hold_inclusions_crossed : ∃ body,
    Body.compile Files.Store.empty crossedSource = .ok body ∧
    Markup.Node.inclusions body.nodes ⊆ body.references ∧
    Markup.references crossedSource = ["note", "one", "\x7btwo"] ∧
    ¬ Markup.references crossedSource ⊆ Markup.Node.inclusions body.nodes ∧
    ∀ name ∈ Markup.references crossedSource, Markup.Stands crossedSource.toList name := by
  obtain ⟨hcompile, -, hnames⟩ := Body.references_hold_inclusions Files.Store.empty crossedSource
  obtain ⟨body, h, ht⟩ : ∃ body, Body.compile Files.Store.empty crossedSource = .ok body ∧
      decide (Markup.Node.inclusions body.nodes = ["one", "\x7btwo"]) = true :=
    exists_ok (by decide +kernel)
  have hreferences : Markup.references crossedSource = ["note", "one", "\x7btwo"] := by
    decide +kernel
  obtain ⟨-, hincluded⟩ := hcompile body h (by decide +kernel)
  refine ⟨body, h, hincluded, hreferences, ?_, fun name hm => (hnames name hm).2.2.2⟩
  rw [of_decide_eq_true ht, hreferences]
  decide

end Folio
