import Folio.Markup.Node
import Folio.Markup.References
import Mathlib.Data.List.TakeWhile
/-!
# References and tags

As long as the delimiters are double braces, the search of a source finds the name of every
inclusion tag that the reader finds. The search may lose its way only at a pair of opening braces
that no tag closes, and there the reader stops.
-/

namespace Folio.Markup

/-! ## Searching -/

theorem exists_cutAt? (mark before after : List Char) :
    ∃ first rest, Text.cutAt? mark (before ++ mark ++ after) = some (first, rest) ∧
      first.length ≤ before.length := by
  induction before with
  | nil =>
    cases ht : mark ++ after with
    | nil =>
      rw [List.append_eq_nil_iff] at ht
      exact ⟨[], [], by simp [Text.cutAt?, ht.1, ht.2], Nat.le_refl _⟩
    | cons c text =>
      have hp : mark.isPrefixOf (c :: text) = true := by
        rw [List.isPrefixOf_iff_prefix, ← ht]
        exact List.prefix_append _ _
      exact ⟨[], _, by rw [List.nil_append, ht, Text.cutAt?, if_pos hp], Nat.le_refl _⟩
  | cons c text ih =>
    obtain ⟨first, rest, hc, hle⟩ := ih
    rw [List.cons_append, List.cons_append, Text.cutAt?]
    by_cases hp : mark.isPrefixOf (c :: (text ++ mark ++ after)) = true
    · exact ⟨[], _, if_pos hp, Nat.zero_le _⟩
    · exact ⟨c :: first, rest, by rw [if_neg hp, hc]; rfl, Nat.succ_le_succ hle⟩

/-- One step of the search: over the next opening and the closing braces after it. -/
theorem findReferences_step {source before tag raw rest : List Char} (known : List String)
    (ho : Text.cutAt? ['{', '{', '>'] source = some (before, tag))
    (hc : Text.cutAt? ['}', '}'] tag = some (raw, rest)) :
    findReferences known source =
      findReferences (if (String.ofList (Text.trim raw)).isEmpty ||
        known.contains (String.ofList (Text.trim raw)) then known
        else known ++ [String.ofList (Text.trim raw)]) rest := by
  rw [findReferences]
  split
  · simp_all
  · rename_i before' tag' ho'
    obtain ⟨rfl, rfl⟩ : before = before' ∧ tag = tag' := by simpa [ho] using ho'
    split
    · simp_all
    · rename_i raw' rest' hc'
      obtain ⟨rfl, rfl⟩ : raw = raw' ∧ rest = rest' := by simpa [hc] using hc'
      rfl

theorem subset_findReferences (known : List String) (source : List Char) :
    known ⊆ findReferences known source := by
  induction h : source.length using Nat.strongRecOn generalizing known source with
  | ind n ih =>
    subst h
    intro name hm
    rw [findReferences]
    split
    · exact hm
    · rename_i _ tag h
      split
      · exact hm
      · rename_i raw rest h'
        have hl := Text.length_of_cutAt? h
        have hl' := Text.length_of_cutAt? h'
        simp only [List.length_cons, List.length_nil] at hl hl'
        refine ih rest.length (by omega) _ rest rfl ?_
        split
        · exact hm
        · exact List.mem_append_left _ hm

/-- Every opening of an inclusion tag in a text is followed by closing braces in the text. -/
def Closed (text : List Char) : Prop :=
  ∀ before after, text = before ++ ['{', '{', '>'] ++ after → ['}', '}'] <:+: after

theorem closed_nil : Closed [] := by
  intro before after h
  have hl := congrArg List.length h
  simp at hl

theorem Closed.of_append {before text : List Char} (h : Closed (before ++ text)) : Closed text := by
  intro first after he
  exact h (before ++ first) after (by rw [he]; simp)

theorem closed_append_braces (text : List Char) : Closed (text ++ ['}', '}']) := by
  intro before after h
  rcases List.eq_nil_or_concat after with rfl | ⟨init, last, rfl⟩
  · have hl := congrArg List.getLast? h
    simp at hl
  · rcases List.eq_nil_or_concat init with rfl | ⟨init, second, rfl⟩
    · have hl := congrArg (fun text => text.dropLast.getLast?) h
      simp at hl
    · refine ⟨init, [], ?_⟩
      have hs : before ++ ['{', '{', '>'] ++ init ++ [second, last] = text ++ ['}', '}'] := by
        rw [h]
        simp
      have hb := (List.append_inj' hs rfl).2
      simp [hb]

theorem Closed.concat {text : List Char} {c : Char} (h : Closed text)
    (hc : c = '>' → ¬ ['{', '{'] <:+ text) : Closed (text ++ [c]) := by
  intro before after he
  rcases List.eq_nil_or_concat after with rfl | ⟨init, last, rfl⟩
  · have hs : text ++ [c] = (before ++ ['{', '{']) ++ ['>'] := by
      rw [he]
      simp
    obtain ⟨ht, hl⟩ := List.append_inj' hs rfl
    exact absurd ⟨before, ht.symm⟩ (hc (List.singleton_inj.mp hl))
  · have hs : text ++ [c] = (before ++ ['{', '{', '>'] ++ init) ++ [last] := by
      rw [he]
      simp
    rw [List.concat_eq_append]
    exact (h before init (List.append_inj' hs rfl).1).trans (List.prefix_append init [last]).isInfix

theorem cutAt?_of_notMem {c : Char} {before : List Char} (h : c ∉ before) (mark after : List Char) :
    Text.cutAt? (c :: mark) (before ++ c :: mark ++ after) = some (before, after) := by
  induction before with
  | nil =>
    have hp : (c :: mark).isPrefixOf (c :: (mark ++ after)) = true := by
      rw [List.isPrefixOf_iff_prefix]
      exact List.prefix_append (c :: mark) after
    rw [List.nil_append, List.cons_append, Text.cutAt?, if_pos hp]
    simp
  | cons d text ih =>
    obtain ⟨hd, ht⟩ := not_or.mp (mt List.mem_cons.mpr h)
    have hp : ¬ (c :: mark).isPrefixOf (d :: (text ++ c :: mark ++ after)) = true := by
      simp [hd]
    rw [List.cons_append, List.cons_append, Text.cutAt?, if_neg hp, ih ht]
    rfl

theorem append_eq_of_length_le {a b c d : List Char} (h : a ++ b = c ++ d)
    (hle : a.length ≤ c.length) : ∃ middle, c = a ++ middle ∧ b = middle ++ d := by
  have hp : a <+: c := List.prefix_of_prefix_length_le ⟨b, h⟩ (List.prefix_append c d) hle
  obtain ⟨middle, rfl⟩ := hp
  rw [List.append_assoc] at h
  exact ⟨middle, rfl, List.append_cancel_left h⟩

/-- Past a closed text the search still meets the inclusion tag that comes next. -/
theorem mem_findReferences {before raw : List Char} (hc : Closed before) (hr : '}' ∉ raw)
    (hn : Text.trim raw ≠ []) (known : List String) (rest : List Char) :
    String.ofList (Text.trim raw) ∈
      findReferences known (before ++ ['{', '{', '>'] ++ (raw ++ ['}', '}'] ++ rest)) := by
  induction h : before.length using Nat.strongRecOn generalizing known before with
  | ind n ih =>
    subst h
    obtain ⟨first, tag, hf, hle⟩ :=
      exists_cutAt? ['{', '{', '>'] before (raw ++ ['}', '}'] ++ rest)
    have hs := Text.append_of_cutAt? hf
    rw [List.append_assoc, List.append_assoc] at hs
    obtain ⟨middle, rfl, hm⟩ := append_eq_of_length_le hs hle
    match middle, hm with
    | [], hm =>
      obtain rfl : tag = raw ++ ['}', '}'] ++ rest := by simpa using hm
      rw [findReferences_step known hf (cutAt?_of_notMem hr ['}'] rest)]
      apply subset_findReferences
      have hne : (String.ofList (Text.trim raw)).isEmpty = false := by
        simpa using hn
      split
      · rename_i hk
        rw [hne, Bool.false_or] at hk
        exact List.contains_iff_mem.mp hk
      · exact List.mem_append_right _ List.mem_cons_self
    | [_], hm => simp at hm
    | [_, _], hm => simp at hm
    | x :: y :: z :: more, hm =>
      obtain ⟨rfl, rfl, rfl, rfl⟩ : '{' = x ∧ '{' = y ∧ '>' = z ∧
          tag = more ++ (['{', '{', '>'] ++ (raw ++ ['}', '}'] ++ rest)) := by simpa using hm
      obtain ⟨inner, last, rfl⟩ := hc first more (by simp)
      obtain ⟨skipped, left, hcut, hle'⟩ := exists_cutAt? ['}', '}'] inner
        (last ++ (['{', '{', '>'] ++ (raw ++ ['}', '}'] ++ rest)))
      have hs' := Text.append_of_cutAt? hcut
      have hlen : (skipped ++ ['}', '}']).length ≤ (inner ++ ['}', '}'] ++ last).length := by
        simp
        omega
      rw [← List.append_assoc (inner ++ ['}', '}'])] at hs'
      obtain ⟨kept, hk, rfl⟩ := append_eq_of_length_le hs' hlen
      rw [List.append_assoc (inner ++ ['}', '}'])] at hf
      rw [findReferences_step known hf hcut]
      rw [← List.append_assoc kept]
      refine ih kept.length ?_ ?_ _ rfl
      · rw [hk]
        simp
        omega
      · have he : first ++ '{' :: '{' :: '>' :: (inner ++ ['}', '}'] ++ last)
            = first ++ ['{', '{', '>'] ++ (skipped ++ ['}', '}']) ++ kept := by
          rw [hk]
          simp
        rw [he] at hc
        exact hc.of_append

/-! ## Reading -/

theorem Tag.read_eq_inclusion {content : List Char} {name : String}
    (h : Tag.read content = .ok (.inclusion name)) :
    ∃ raw, content = '>' :: raw ∧ Text.trim raw ≠ [] ∧ name = String.ofList (Text.trim raw) := by
  unfold Tag.read at h
  split at h
  · cases h
  · split at h
    case h_8 raw _ =>
      by_cases hn : Text.trim raw = []
      · simp [readName, hn, Except.map] at h
      · simp only [readName, if_neg hn, Except.map, Except.ok.injEq, Tag.inclusion.injEq] at h
        exact ⟨raw, rfl, hn, h.symm⟩
    case h_4 =>
      split at h
      · simp [Except.map] at h
        split at h <;> cases h
      · cases h
    all_goals first
      | cases h
      | (simp [Except.map] at h; split at h <;> cases h)

namespace Lexeme

def setsDelims : Lexeme → Bool
  | .tag (.delims _) => true
  | _ => false

/-- What a tag holds so far: no closing brace, unless a brace opened it. -/
def Content (content : List Char) (braced : Bool) : Prop :=
  content.getLast? = some '{' ∨ braced = false ∧ '}' ∉ content

/-- What has been read of a source when the reader is at a place, under double braces. -/
inductive Reads : List Char → Place → Prop
  | text {before seen : List Char} : Closed before → before.getLast? ≠ some '{' →
      Reads before (.text seen)
  | opening {before seen : List Char} : Closed before → before.getLast? ≠ some '{' →
      Reads (before ++ ['{']) (.opening seen ['{'] ['{'])
  | tag {before content : List Char} {braced : Bool} : Closed before → Content content braced →
      Reads (before ++ ['{', '{'] ++ content.reverse) (.tag content braced)
  | closing {before content : List Char} {braced : Bool} : Closed before → Content content braced →
      Reads (before ++ ['{', '{'] ++ content.reverse ++ ['}']) (.closing content braced)

theorem getLast?_cons_of_getLast? {c d : Char} {content : List Char} (h : content.getLast? = some d) :
    (c :: content).getLast? = some d := by
  cases content with
  | nil => cases h
  | cons first rest => rw [List.getLast?_cons_cons, h]

theorem Content.cons {content : List Char} {braced : Bool} {c : Char} (h : Content content braced)
    (hc : c ≠ '}') : Content (c :: content) braced := by
  rcases h with h | ⟨hb, h⟩
  · exact .inl (getLast?_cons_of_getLast? h)
  · exact .inr ⟨hb, by simp [h, hc.symm]⟩

theorem Content.unbrace {content : List Char} (h : Content content true) (c : Char) :
    Content (c :: content) false := by
  rcases h with h | ⟨hb, -⟩
  · exact .inl (getLast?_cons_of_getLast? h)
  · cases hb

theorem Content.raw {content : List Char} {braced : Bool} {name : String} (h : Content content braced)
    (ht : Tag.read content.reverse = .ok (.inclusion name)) :
    ∃ raw, content.reverse = '>' :: raw ∧ '}' ∉ raw ∧ Text.trim raw ≠ [] ∧
      name = String.ofList (Text.trim raw) := by
  obtain ⟨raw, he, hn, rfl⟩ := Tag.read_eq_inclusion ht
  have hc : content = ('>' :: raw).reverse := by rw [← he, List.reverse_reverse]
  refine ⟨raw, he, ?_, hn, rfl⟩
  subst hc
  rcases h with h | ⟨-, h⟩
  · simp at h
  · intro hm
    exact h (by simp [hm])

/-- The lexemes include a partial, and none of them sets delimiters. -/
structure HoldsTag (name : String) (lexemes : List Lexeme × Ending) : Prop where
  keeps : ∀ lexeme ∈ lexemes.1, lexeme.setsDelims = false
  mem : .tag (.inclusion name) ∈ lexemes.1

theorem HoldsTag.of_finish {delims : Delims} {content : List Char} {name : String}
    {follow : Delims → List Lexeme × Ending} (h : HoldsTag name (finish delims content follow)) :
    Tag.read content.reverse = .ok (.inclusion name) ∨ HoldsTag name (follow delims) := by
  obtain ⟨hd, hm⟩ := h
  unfold finish at hm hd
  revert hd hm
  split
  · intro _ hm
    cases hm
  · intro hd
    cases hd _ List.mem_cons_self
  · rename_i found hne hr
    intro hd hm
    rcases List.mem_cons.mp hm with hm | hm
    · cases hm
      exact .inl hr
    · exact .inr ⟨fun lexeme hl => hd lexeme (List.mem_cons_of_mem _ hl), hm⟩

theorem HoldsTag.of_prepend {seen : List Char} {name : String} {rest : List Lexeme × Ending}
    (h : HoldsTag name (prepend seen rest)) : HoldsTag name rest := by
  unfold prepend at h
  split at h
  · exact h
  · exact ⟨fun lexeme hl => h.keeps lexeme (List.mem_cons_of_mem _ hl),
      (List.mem_cons.mp h.mem).resolve_left nofun⟩

theorem not_holdsTag_scan_nil (name : String) (place : Place) :
    ¬ HoldsTag name (scan .standard place []) := by
  intro h
  cases place with
  | text seen => cases h.of_prepend.mem
  | opening seen matched expected => cases h.of_prepend.mem
  | tag content braced => cases h.mem
  | closing content braced => cases h.mem

theorem scan_text_other {c : Char} (h : c ≠ '{') (seen rest : List Char) :
    scan .standard (.text seen) (c :: rest) = scan .standard (.text (c :: seen)) rest := by
  rw [scan, if_neg (show ¬ c = Delims.standard.opening.head _ from h)]

theorem scan_opening_other {c : Char} (h : c ≠ '{') (seen rest : List Char) :
    scan .standard (.opening seen ['{'] ['{']) (c :: rest) =
      scan .standard (.text (c :: (['{'] ++ seen))) rest := by
  rw [scan, if_neg]
  simpa using Ne.symm h

variable {name : String} {before content seen rest : List Char} {braced : Bool} {c : Char}

/-- The reader goes on behind a text that has been read, and the tag is still to come. -/
def GoesOn (name : String) (before rest : List Char) : Prop :=
  ∃ place, Reads before place ∧ HoldsTag name (scan .standard place rest)

theorem goesOn_of_text (hc : Closed before) (hl : before.getLast? ≠ some '{')
    (h : HoldsTag name (scan .standard (.text seen) (c :: rest))) :
    GoesOn name (before ++ [c]) rest := by
  by_cases hb : c = '{'
  · subst hb
    exact ⟨_, .opening hc hl, h⟩
  · rw [scan_text_other hb] at h
    refine ⟨_, .text (hc.concat ?_) ?_, h⟩
    · rintro - ⟨start, he⟩
      exact hl (by simp [← he])
    · simpa using hb

theorem goesOn_of_opening (hc : Closed before) (hl : before.getLast? ≠ some '{')
    (h : HoldsTag name (scan .standard (.opening seen ['{'] ['{']) (c :: rest))) :
    GoesOn name (before ++ ['{'] ++ [c]) rest := by
  by_cases hb : c = '{'
  · subst hb
    have hread : Reads (before ++ ['{', '{'] ++ [].reverse) (.tag [] false) :=
      .tag hc (.inr ⟨rfl, List.not_mem_nil⟩)
    have hscan : HoldsTag name (scan .standard (.tag [] false) rest) := HoldsTag.of_prepend h
    exact ⟨_, by simpa using hread, hscan⟩
  · rw [scan_opening_other hb] at h
    refine ⟨_, .text ((hc.concat fun h => absurd h (by decide)).concat ?_) ?_, h⟩
    · rintro - ⟨first, he⟩
      have hf : (first ++ ['{']) ++ ['{'] = before ++ ['{'] := by simpa using he
      exact hl (by simp [← (List.append_inj' hf rfl).1])
    · simpa using hb

theorem goesOn_of_tag (hc : Closed before) (ht : Content content braced)
    (h : HoldsTag name (scan .standard (.tag content braced) (c :: rest))) :
    GoesOn name (before ++ ['{', '{'] ++ content.reverse ++ [c]) rest := by
  have hread : before ++ ['{', '{'] ++ content.reverse ++ [c] =
      before ++ ['{', '{'] ++ (c :: content).reverse := by simp
  rw [scan] at h
  rw [hread]
  split at h
  · rename_i hb
    obtain ⟨rfl, rfl⟩ := hb
    exact ⟨_, .tag hc (.inl rfl), h⟩
  split at h
  · rename_i hb
    obtain ⟨rfl, rfl⟩ := hb
    exact ⟨_, .tag hc (ht.unbrace _), h⟩
  split at h
  · rename_i hb
    obtain rfl : c = '}' := hb
    rw [← hread]
    exact ⟨_, .closing hc ht, h⟩
  · rename_i hb
    exact ⟨_, .tag hc (ht.cons hb), h⟩

theorem named_or_goesOn_of_closing (ht : Content content braced)
    (h : HoldsTag name (scan .standard (.closing content braced) (c :: rest))) :
    (c = '}' ∧ ∃ raw, content.reverse = '>' :: raw ∧ '}' ∉ raw ∧ Text.trim raw ≠ [] ∧
      name = String.ofList (Text.trim raw)) ∨
    GoesOn name (before ++ ['{', '{'] ++ content.reverse ++ ['}'] ++ [c]) rest := by
  rw [scan] at h
  split at h
  · rename_i hb
    obtain rfl : '}' = c := by simpa [Delims.standard] using hb
    rcases h.of_finish with hr | h
    · exact .inl ⟨rfl, ht.raw hr⟩
    · refine .inr ⟨_, .text ?_ ?_, h⟩
      · rw [List.append_assoc]
        exact closed_append_braces _
      · rw [List.getLast?_concat]
        decide
  · cases h.mem

/-- What follows a place names no partial that the search of the whole source misses. -/
theorem mem_findReferences_of_scan (source : List Char) {place : Place} (hp : Reads before place)
    (hs : before ++ rest = source) (h : HoldsTag name (scan .standard place rest)) :
    name ∈ findReferences [] source := by
  -- on the characters to come; `Reads` says what the place means for those before
  induction rest generalizing before place with
  | nil => exact absurd h (not_holdsTag_scan_nil name place)
  | cons c rest ih =>
    have hon : GoesOn name (before ++ [c]) rest → name ∈ findReferences [] source := by
      rintro ⟨place', hp', h'⟩
      exact ih hp' (by simpa using hs) h'
    cases hp with
    | text hc hl => exact hon (goesOn_of_text hc hl h)
    | opening hc hl => exact hon (goesOn_of_opening hc hl h)
    | tag hc ht => exact hon (goesOn_of_tag hc ht h)
    | @closing start content braced hc ht =>
      rcases named_or_goesOn_of_closing ht h with ⟨rfl, raw, he, hr, hn, rfl⟩ | h
      · have hsource : source = start ++ ['{', '{', '>'] ++ (raw ++ ['}', '}'] ++ rest) := by
          rw [← hs, he]
          simp
        rw [hsource]
        exact mem_findReferences hc hr hn [] rest
      · exact hon h

end Lexeme

/-- No tag of the source sets delimiters. -/
def KeepsDelims (source : String) : Prop :=
  ∀ lexeme ∈ (Lexeme.ofSource source.toList).1, lexeme.setsDelims = false

instance (source : String) : Decidable (KeepsDelims source) :=
  inferInstanceAs (Decidable (∀ lexeme ∈ _, _))

theorem mem_references_of_mem_lexemes {source name : String} (hd : KeepsDelims source)
    (h : .tag (.inclusion name) ∈ (Lexeme.ofSource source.toList).1) : name ∈ references source :=
  Lexeme.mem_findReferences_of_scan source.toList (.text closed_nil (by simp)) rfl ⟨hd, h⟩

/-! ## Trees -/

namespace Node

theorem mem_inclusions {nodes : List Node} {name : String} :
    name ∈ inclusions nodes ↔ ∃ node ∈ nodes, name ∈ node.ownInclusions := by
  induction nodes with
  | nil => simp [inclusions]
  | cons node rest ih => simp [inclusions, ih]

theorem inclusions_append (nodes more : List Node) :
    inclusions (nodes ++ more) = inclusions nodes ++ inclusions more := by
  induction nodes with
  | nil => rfl
  | cons node rest ih => rw [List.cons_append, inclusions, inclusions, ih, List.append_assoc]

theorem mem_inclusions_reverse {nodes : List Node} {name : String} :
    name ∈ inclusions nodes.reverse ↔ name ∈ inclusions nodes := by
  simp only [mem_inclusions, List.mem_reverse]

theorem exists_text_of_margin {opened : List OpenBlock} {done : List Node} {kept indent : List Char}
    (h : margin opened done = .blank kept indent) : ∃ text before, done = .text text :: before := by
  unfold margin at h
  split at h
  · split at h
    · cases h
    · split at h <;> cases h
  · exact ⟨_, _, rfl⟩
  · cases h

theorem inclusions_standAlone (opened : List OpenBlock) (done : List Node) (ends : Bool) :
    inclusions (standAlone opened done ends).1 = inclusions done := by
  unfold standAlone
  split
  · split
    · rfl
    · rfl
    · rename_i hm
      obtain ⟨text, before, rfl⟩ := exists_text_of_margin hm
      rfl
  · rfl

/-- The partials of the nodes around the innermost open section. -/
def heldInclusions (opened : List OpenBlock) : List String :=
  opened.flatMap fun frame => inclusions frame.before

theorem mem_of_mem_inclusions_build {lexemes : List Lexeme} {ending : Ending}
    {opened : List OpenBlock} {done nodes : List Node} {skip : Bool} {name : String}
    (h : build opened done skip lexemes ending = .ok nodes) (hm : name ∈ inclusions nodes) :
    name ∈ inclusions done ∨ name ∈ heldInclusions opened ∨ .tag (.inclusion name) ∈ lexemes := by
  induction lexemes generalizing opened done skip with
  | nil =>
    have hclose : ∀ done', build.close opened done' = .ok nodes → nodes = done'.reverse := by
      intro done' hc
      cases opened with
      | nil => exact (Except.ok.inj hc).symm
      | cons frame outer => cases hc
    left
    cases ending with
    | fault fault => cases h
    | clean =>
      rw [hclose _ h, mem_inclusions_reverse] at hm
      exact hm
    | torn chars =>
      rw [hclose _ h, mem_inclusions_reverse] at hm
      exact hm
  | cons lexeme rest ih =>
    cases lexeme with
    | text chars =>
      have hdone : ∀ chars : List Char,
          inclusions (if chars = [] then done else .text (String.ofList chars) :: done)
            = inclusions done := by
        intro chars
        split <;> rfl
      rw [build] at h
      rcases ih h with hd | ho | hr
      · rw [hdone] at hd
        exact .inl hd
      · exact .inr (.inl ho)
      · exact .inr (.inr (List.mem_cons_of_mem _ hr))
    | tag tag =>
      have hcut := inclusions_standAlone opened done (lineEnds rest ending)
      have hrest : Lexeme.tag (.inclusion name) ∈ rest →
          Lexeme.tag (.inclusion name) ∈ .tag tag :: rest :=
        List.mem_cons_of_mem _
      rw [build] at h
      revert h hcut
      generalize standAlone opened done (lineEnds rest ending) = line
      obtain ⟨cut, indent, skip⟩ := line
      intro h hcut
      simp only at h hcut
      cases tag with
      | value path escaped => exact (ih h).imp id (Or.imp id hrest)
      | comment => exact (ih h).imp (hcut ▸ id) (Or.imp id hrest)
      | delims next => exact (ih h).imp (hcut ▸ id) (Or.imp id hrest)
      | inclusion found =>
        rcases ih h with hd | ho | hr
        · rcases List.mem_cons.mp hd with rfl | hd
          · exact .inr (.inr List.mem_cons_self)
          · exact .inl (hcut ▸ hd)
        · exact .inr (.inl ho)
        · exact .inr (.inr (hrest hr))
      | opening path inverted =>
        rcases ih h with hd | ho | hr
        · cases hd
        · rcases List.mem_append.mp ho with ho | ho
          · exact .inl (hcut ▸ ho)
          · exact .inr (.inl ho)
        · exact .inr (.inr (hrest hr))
      | closing path =>
        cases opened with
        | nil => cases h
        | cons frame outer =>
          simp only at h
          split at h
          · rcases ih h with hd | ho | hr
            · rcases List.mem_append.mp hd with hd | hd
              · exact .inl (hcut ▸ mem_inclusions_reverse.mp hd)
              · exact .inr (.inl (List.mem_append_left _ hd))
            · exact .inr (.inl (List.mem_append_right _ ho))
            · exact .inr (.inr (hrest hr))
          · cases h

end Node

/-- A source without delimiter tags references every partial that its tree includes. -/
theorem inclusions_subset_references {source : String} {nodes : List Node} (hd : KeepsDelims source)
    (h : Node.ofSource source.toList = .ok nodes) : Node.inclusions nodes ⊆ references source := by
  intro name hm
  rcases Node.mem_of_mem_inclusions_build h hm with hn | hn | hl
  · cases hn
  · cases hn
  · exact mem_references_of_mem_lexemes hd hl

/-! ## A tag alone -/

def inclusionSource (name : String) : String :=
  "\x7b\x7b> " ++ name ++ "\x7d\x7d"

theorem toList_inclusionSource (name : String) :
    (inclusionSource name).toList = ['{', '{', '>', ' '] ++ (name.toList ++ ['}', '}']) := by
  simp [inclusionSource, String.toList_append]

theorem trim_cons_ne_nil {c : Char} (h : Text.isBlank c = false) (rest : List Char) :
    Text.trim (c :: rest) ≠ [] := by
  have hs : Text.trimStart (c :: rest) = c :: rest := by
    rw [Text.trimStart, List.dropWhile_cons_of_neg (by simp [h])]
  rw [Text.trim, hs, Text.trimEnd, Text.trimStart]
  intro he
  have hb := List.dropWhile_eq_nil_iff.mp (List.reverse_eq_nil_iff.mp he) c (by simp)
  rw [h] at hb
  cases hb

theorem trim_space_cons (text : List Char) : Text.trim (' ' :: text) = Text.trim text := by
  have hs : Text.trimStart (' ' :: text) = Text.trimStart text := rfl
  rw [Text.trim, hs, Text.trim]

theorem Tag.read_inclusion {name : String} (hn : name ≠ "")
    (ht : Text.trim name.toList = name.toList) :
    Tag.read ('>' :: ' ' :: name.toList) = .ok (.inclusion name) := by
  have hne : name.toList ≠ [] := mt String.toList_eq_nil_iff.mp hn
  have hname : readName (' ' :: name.toList) = .ok name.toList := by
    rw [readName, trim_space_cons, ht, if_neg hne]
  rw [Tag.read, if_neg (trim_cons_ne_nil (by decide) _)]
  simp [hname, Except.map]

namespace Lexeme

theorem scan_content {content text : List Char} (hc : content ≠ []) (ht : '}' ∉ text)
    (rest : List Char) :
    scan .standard (.tag content false) (text ++ ['}', '}'] ++ rest) =
      finish .standard (text.reverse ++ content) fun next => scan next (.text []) rest := by
  induction text generalizing content with
  | nil => simp [scan, Delims.standard, hc]
  | cons c text ih =>
    obtain ⟨hn, ht⟩ := not_or.mp (mt List.mem_cons.mpr ht)
    have hs : scan .standard (.tag content false) (c :: (text ++ ['}', '}'] ++ rest)) =
        scan .standard (.tag (c :: content) false) (text ++ ['}', '}'] ++ rest) := by
      rw [scan]
      simp [Delims.standard, hc, Ne.symm hn]
    rw [List.cons_append, List.cons_append, hs, ih (by simp) ht]
    simp

theorem ofSource_inclusionSource {name : String} (hn : name ≠ "") (hb : '}' ∉ name.toList)
    (ht : Text.trim name.toList = name.toList) :
    ofSource (inclusionSource name).toList = ([.tag (.inclusion name)], .clean) := by
  have hs : ofSource (inclusionSource name).toList =
      scan .standard (.tag [' ', '>'] false) (name.toList ++ ['}', '}'] ++ []) := by
    rw [toList_inclusionSource, List.append_nil]
    rfl
  rw [hs, scan_content (by simp) hb]
  have hc : (name.toList.reverse ++ [' ', '>']).reverse = '>' :: ' ' :: name.toList := by simp
  rw [finish, hc, Tag.read_inclusion hn ht]
  rfl

end Lexeme

theorem Node.ofSource_inclusionSource {name : String} (hn : name ≠ "") (hb : '}' ∉ name.toList)
    (ht : Text.trim name.toList = name.toList) :
    Node.ofSource (inclusionSource name).toList = .ok [.inclusion name ""] := by
  rw [Node.ofSource, Lexeme.ofSource_inclusionSource hn hb ht]
  rfl

theorem references_inclusionSource {name : String} (hn : name ≠ "") (hb : '}' ∉ name.toList)
    (ht : Text.trim name.toList = name.toList) : name ∈ references (inclusionSource name) := by
  apply mem_references_of_mem_lexemes
  · rw [KeepsDelims, Lexeme.ofSource_inclusionSource hn hb ht]
    simp [Lexeme.setsDelims]
  · rw [Lexeme.ofSource_inclusionSource hn hb ht]
    exact List.mem_singleton_self _

end Folio.Markup
