import Folio.Proofs.Markup.References
/-!
# Text around tags

Text in which no tag opens goes through the reader as it is, single braces and all. So a tag between
two such texts is read as if it stood there alone, and the texts are kept unless the tag takes its
line with it.
-/

namespace Folio.Markup

/-- No tag opens in the text. -/
def Unopened (text : List Char) : Prop :=
  ¬ ['{', '{'] <:+: text

instance (text : List Char) : Decidable (Unopened text) :=
  inferInstanceAs (Decidable (¬ _))

theorem Unopened.of_append (before : List Char) {text : List Char}
    (h : Unopened (before ++ text)) : Unopened text :=
  fun hi => h (hi.trans (List.suffix_append before text).isInfix)

theorem Unopened.second_ne {c : Char} {text : List Char} (h : Unopened ('{' :: c :: text)) :
    c ≠ '{' := by
  rintro rfl
  exact h (List.prefix_append ['{', '{'] text).isInfix

namespace Lexeme

def ofText (text : List Char) : List Lexeme :=
  if text = [] then [] else [.text text]

theorem prepend_reverse (text : List Char) (rest : List Lexeme × Ending) :
    prepend text.reverse rest = (ofText text ++ rest.1, rest.2) := by
  rw [prepend, ofText]
  by_cases ht : text = []
  · rw [if_pos ht, if_pos (by rw [ht]; rfl)]
    rfl
  · rw [if_neg ht, if_neg (mt List.reverse_eq_nil_iff.mp ht), List.reverse_reverse]
    rfl

theorem setsDelims_of_mem_ofText {lexeme : Lexeme} {text : List Char} (h : lexeme ∈ ofText text) :
    lexeme.setsDelims = false := by
  rw [ofText] at h
  split at h
  · cases h
  · rw [List.mem_singleton.mp h]
    rfl

/-- The reader takes text in, as long as it is not left in the middle of an opening delimiter. -/
theorem scan_text : ∀ {text : List Char}, Unopened text → text.getLast? ≠ some '{' →
    ∀ seen rest : List Char, scan .standard (.text seen) (text ++ rest)
      = scan .standard (.text (text.reverse ++ seen)) rest
  | [], _, _, _, _ => rfl
  | [c], _, hl, seen, rest => scan_text_other (by simpa using hl) seen rest
  | c :: d :: more, hu, hl, seen, rest => by
    by_cases hc : c = '{'
    · subst hc
      have hmore : more.getLast? ≠ some '{' := fun h =>
        hl (getLast?_cons_of_getLast? (getLast?_cons_of_getLast? h))
      have hopening : scan .standard (.text seen) ('{' :: d :: (more ++ rest))
          = scan .standard (.opening seen ['{'] ['{']) (d :: (more ++ rest)) := rfl
      rw [List.cons_append, List.cons_append, hopening, scan_opening_other hu.second_ne,
        scan_text (Unopened.of_append ['{', d] hu) hmore]
      simp
    · have hnext : (d :: more).getLast? ≠ some '{' := fun h => hl (getLast?_cons_of_getLast? h)
      rw [List.cons_append, scan_text_other hc,
        scan_text (Unopened.of_append [c] hu) hnext]
      simp

theorem scan_text_end {text : List Char} (hu : Unopened text) (seen : List Char) :
    scan .standard (.text seen) text = prepend (text.reverse ++ seen) ([], .clean) := by
  by_cases hl : text.getLast? = some '{'
  · obtain ⟨init, rfl⟩ := List.getLast?_eq_some_iff.mp hl
    have hinit : init.getLast? ≠ some '{' := by
      intro h
      obtain ⟨before, rfl⟩ := List.getLast?_eq_some_iff.mp h
      exact hu ⟨before, [], by simp⟩
    have hu' : Unopened init := fun hi => hu (hi.trans (List.prefix_append init ['{']).isInfix)
    rw [scan_text hu' hinit, List.reverse_append]
    rfl
  · have h := scan_text hu hl seen []
    rw [List.append_nil] at h
    rw [h]
    rfl

theorem scan_inclusionSource {name : String} (hn : name ≠ "") (hb : '}' ∉ name.toList)
    (ht : Text.trim name.toList = name.toList) (seen rest : List Char) :
    scan .standard (.text seen) ((inclusionSource name).toList ++ rest)
      = prepend seen (.tag (.inclusion name) :: (scan .standard (.text []) rest).1,
          (scan .standard (.text []) rest).2) := by
  have hs : scan .standard (.text seen) ((inclusionSource name).toList ++ rest)
      = prepend seen (scan .standard (.tag [' ', '>'] false)
          (name.toList ++ ['}', '}'] ++ rest)) := by
    rw [toList_inclusionSource, List.append_assoc]
    rfl
  have hc : (name.toList.reverse ++ [' ', '>']).reverse = '>' :: ' ' :: name.toList := by simp
  rw [hs, scan_content (by simp) hb, finish, hc, Tag.read_inclusion hn ht]
  rfl

theorem ofSource_of_unopened {text : List Char} (hu : Unopened text) :
    ofSource text = (ofText text, .clean) := by
  rw [ofSource, scan_text_end hu, List.append_nil, prepend_reverse]
  simp

theorem ofSource_around {name : String} (hn : name ≠ "") (hb : '}' ∉ name.toList)
    (ht : Text.trim name.toList = name.toList) {before after : List Char} (hbefore : Unopened before)
    (hlast : before.getLast? ≠ some '{') (hafter : Unopened after) :
    ofSource (before ++ (inclusionSource name).toList ++ after)
      = (ofText before ++ .tag (.inclusion name) :: ofText after, .clean) := by
  have hrest : scan .standard (.text []) after = (ofText after, .clean) :=
    ofSource_of_unopened hafter
  rw [ofSource, List.append_assoc, scan_text hbefore hlast, List.append_nil,
    scan_inclusionSource hn hb ht, prepend_reverse, hrest]

end Lexeme

namespace Node

def ofText (text : List Char) : List Node :=
  if text = [] then [] else [.text (String.ofList text)]

theorem reverse_ofText (text : List Char) : (ofText text).reverse = ofText text := by
  rw [ofText]
  split <;> rfl

theorem inclusions_ofText (text : List Char) : inclusions (ofText text) = [] := by
  rw [ofText]
  split <;> rfl

theorem build_ofText (opened : List OpenBlock) (done : List Node) (text : List Char)
    (rest : List Lexeme) (ending : Ending) :
    build opened done false (Lexeme.ofText text ++ rest) ending
      = build opened (ofText text ++ done) false rest ending := by
  rw [Lexeme.ofText, ofText]
  split
  · rfl
  · rename_i ht
    rw [List.singleton_append, build, if_neg Bool.false_ne_true, if_neg ht]
    rfl

end Node

/-- A tag between two texts shares its line with something. -/
def SharesLine (before after : List Char) : Prop :=
  (∃ start c rest, before = start ++ c :: rest ∧ Text.isBlank c = false ∧ '\n' ∉ rest) ∨
    after ≠ [] ∧ ¬ ['\n'] <+: after ∧ ¬ ['\r', '\n'] <+: after

theorem exists_dropWhile_eq_cons (p : Char → Bool) {c : Char} (hc : p c = false)
    (before after : List Char) :
    ∃ d rest, (before ++ c :: after).dropWhile p = d :: rest ∧ (d ∈ before ∨ d = c) := by
  induction before with
  | nil => exact ⟨c, after, by rw [List.nil_append, List.dropWhile_cons_of_neg (by simp [hc])],
      .inr rfl⟩
  | cons d before ih =>
    rw [List.cons_append]
    by_cases hd : p d = true
    · obtain ⟨e, rest, he, hm⟩ := ih
      rw [List.dropWhile_cons_of_pos hd]
      exact ⟨e, rest, he, hm.imp_left (List.mem_cons_of_mem d)⟩
    · rw [List.dropWhile_cons_of_neg hd]
      exact ⟨d, _, rfl, .inl List.mem_cons_self⟩

theorem margin_of_not_blank {start rest : List Char} {c : Char} (hc : Text.isBlank c = false)
    (hr : '\n' ∉ rest) (opened : List OpenBlock) (done : List Node) :
    margin opened (.text (String.ofList (start ++ c :: rest)) :: done) = .busy := by
  obtain ⟨d, more, hd, hm⟩ := exists_dropWhile_eq_cons (fun c => c != '\n' && Text.isBlank c)
    (show (c != '\n' && Text.isBlank c) = false by rw [hc, Bool.and_false]) rest.reverse start.reverse
  have hne : d ≠ '\n' := by
    rcases hm with hm | rfl
    · rintro rfl
      exact hr (List.mem_reverse.mp hm)
    · rintro rfl
      exact absurd hc (by decide)
  have hreverse : (start ++ c :: rest).reverse = rest.reverse ++ c :: start.reverse := by simp
  rw [margin]
  simp only [String.toList_ofList, hreverse, hd, if_neg hne]

theorem lineEnds_ofText {after : List Char} (hne : after ≠ []) (hn : ¬ ['\n'] <+: after)
    (hr : ¬ ['\r', '\n'] <+: after) (ending : Ending) :
    lineEnds (Lexeme.ofText after) ending = false := by
  rw [Lexeme.ofText, if_neg hne, lineEnds]
  · exact nofun
  · rintro text more he
    cases he
    exact hn ⟨text, rfl⟩
  · rintro text more he
    cases he
    exact hr ⟨text, rfl⟩

theorem standAlone_of_sharesLine {before after : List Char} (h : SharesLine before after) :
    standAlone [] (Node.ofText before) (lineEnds (Lexeme.ofText after) .clean)
      = (Node.ofText before, [], false) := by
  rcases h with ⟨start, c, rest, rfl, hc, hr⟩ | ⟨hne, hn, hr⟩
  · have hnodes : Node.ofText (start ++ c :: rest) = [.text (String.ofList (start ++ c :: rest))] :=
      if_neg (by simp)
    rw [hnodes, standAlone, margin_of_not_blank hc hr]
    split <;> rfl
  · rw [standAlone, lineEnds_ofText hne hn hr, if_neg Bool.false_ne_true]

theorem Node.ofSource_around {name : String} (hn : name ≠ "") (hb : '}' ∉ name.toList)
    (ht : Text.trim name.toList = name.toList) {before after : List Char} (hbefore : Unopened before)
    (hlast : before.getLast? ≠ some '{') (hafter : Unopened after) (hline : SharesLine before after) :
    Node.ofSource (before ++ (inclusionSource name).toList ++ after)
      = .ok (ofText before ++ .inclusion name "" :: ofText after) := by
  have hend := build_ofText [] (.inclusion name "" :: ofText before) after [] .clean
  have hclose : ∀ done, build [] done false [] .clean = .ok done.reverse := fun done => rfl
  have hempty : String.ofList [] = "" := rfl
  rw [List.append_nil] at hend
  rw [ofSource, Lexeme.ofSource_around hn hb ht hbefore hlast hafter]
  simp only [build_ofText, List.append_nil, build, standAlone_of_sharesLine hline]
  rw [hempty, hend, hclose, List.reverse_append, List.reverse_cons, reverse_ofText, reverse_ofText,
    List.append_assoc]
  rfl

end Folio.Markup
