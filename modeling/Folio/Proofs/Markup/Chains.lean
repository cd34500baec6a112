import Folio.Proofs.Markup.Inclusion
import Mathlib.Data.List.Chain
/-!
# Chains

Items that come one after the other, such as the tags of partials that include one another. No chain
comes back to an item that is on it already just if no item on a chain is reached from itself.
-/

namespace Folio

section

variable {α : Type} {first : α → Prop} {next : α → α → Prop}

def Chained (first : α → Prop) (next : α → α → Prop) (items : List α) : Prop :=
  (∀ item ∈ items.head?, first item) ∧ items.IsChain next

/-- No chain comes back to an item that is on it already. -/
def NeverReturns (first : α → Prop) (next : α → α → Prop) : Prop :=
  ∀ items, Chained first next items → items.Nodup

@[simp] theorem chained_nil : Chained first next [] :=
  ⟨nofun, .nil⟩

theorem chained_cons {item : α} {rest : List α} :
    Chained first next (item :: rest) ↔ first item ∧ Chained (next item) next rest := by
  simp [Chained, List.isChain_cons]

theorem Chained.forall_mem {kept : α → Prop} {items : List α} (h : Chained first next items)
    (hf : ∀ item, first item → kept item) (hn : ∀ outer inner, next outer inner → kept inner) :
    ∀ item ∈ items, kept item := by
  induction items generalizing first with
  | nil => exact List.forall_mem_nil kept
  | cons item rest ih =>
    obtain ⟨hi, hr⟩ := chained_cons.mp h
    exact List.forall_mem_cons.mpr ⟨hf item hi, ih hr (hn item)⟩

/-- A chain whose items go down in rank never comes back. -/
theorem neverReturns_of_rank (rank : α → Nat) (h : ∀ outer inner, next outer inner →
    rank inner < rank outer) : NeverReturns first next := by
  rintro items ⟨-, hc⟩
  have hpairs : (items.map rank).Pairwise (· > ·) :=
    ((List.isChain_map rank).mpr (hc.imp h)).pairwise
  exact ((List.pairwise_map.mp hpairs).imp fun hgt he => by rw [he] at hgt; omega)

theorem neverReturns_iff : NeverReturns first next ↔ ∀ start item, first start →
    Relation.ReflTransGen next start item → ¬ Relation.TransGen next item item := by
  constructor
  · -- a way to the item and a way back make one chain, which has the item twice
    intro hn start item hf hr ht
    obtain ⟨after, ha, hback⟩ := Relation.TransGen.head'_iff.mp ht
    obtain ⟨way, hway, hlast⟩ := List.exists_isChain_cons_of_relationReflTransGen hr
    obtain ⟨round, hround, hend⟩ := List.exists_isChain_cons_of_relationReflTransGen hback
    have hchain : (start :: way ++ after :: round).IsChain next := by
      refine hway.append hround fun x hx y hy => ?_
      rw [List.getLast?_eq_getLast_of_ne_nil (List.cons_ne_nil _ _), hlast] at hx
      cases hx
      cases hy
      exact ha
    have hnodup := hn _ ⟨fun x hx => by cases hx; exact hf, hchain⟩
    exact (List.nodup_append.mp hnodup).2.2 item (hlast ▸ List.getLast_mem _) item
      (hend ▸ List.getLast_mem _) rfl
  · rintro h items ⟨hf, hc⟩
    have hpairs : items.Pairwise (Relation.TransGen next) :=
      (hc.imp fun _ _ hnext => Relation.TransGen.single hnext).pairwise
    have hreached : ∀ item ∈ items, ∃ start, first start ∧
        Relation.ReflTransGen next start item := by
      refine hc.induction _ _ (fun _ _ hnext ⟨start, hs, hr⟩ => ⟨start, hs, hr.tail hnext⟩) ?_
      exact fun hne => ⟨_, hf _ (List.head?_eq_some_head hne), .refl⟩
    refine hpairs.imp_of_mem fun {item other} hm _ ht he => ?_
    obtain ⟨start, hs, hr⟩ := hreached item hm
    exact h start item hs hr (he ▸ ht)

end

namespace Markup

variable {find find' : String → List Node} {nodes : List Node}

/-- A partial has a tag for another. -/
def Includes (find : String → List Node) (outer inner : String) : Prop :=
  inner ∈ Node.inclusions (find outer)

/-- No chain of tags from nodes comes back to a name that is on it already. -/
def Untangled (find : String → List Node) (nodes : List Node) : Prop :=
  NeverReturns (· ∈ Node.inclusions nodes) (Includes find)

theorem leads_iff {name : String} : Leads find nodes name ↔
    ∃ start ∈ Node.inclusions nodes, Relation.ReflTransGen (Includes find) start name := by
  constructor
  · intro h
    induction h with
    | here hm => exact ⟨_, hm, .refl⟩
    | next _ hi ih =>
      obtain ⟨start, hs, hr⟩ := ih
      exact ⟨start, hs, hr.tail hi⟩
  · rintro ⟨start, hs, hr⟩
    induction hr with
    | refl => exact .here hs
    | tail _ hi ih => exact .next ih hi

theorem leads_find_iff {outer inner : String} :
    Leads find (find outer) inner ↔ Relation.TransGen (Includes find) outer inner := by
  rw [leads_iff, Relation.TransGen.head'_iff]
  rfl

theorem Leads.trans {outer inner : String} (h : Leads find nodes outer)
    (hi : Leads find (find outer) inner) : Leads find nodes inner := by
  induction hi with
  | here hm => exact .next h hm
  | next _ hm ih => exact .next ih hm

theorem untangled_iff :
    Untangled find nodes ↔ ∀ name, Leads find nodes name → ¬ Leads find (find name) name := by
  simp only [Untangled, neverReturns_iff, leads_find_iff, leads_iff]
  exact ⟨fun h name ⟨start, hs, hr⟩ => h start name hs hr,
    fun h start name hs hr => h name ⟨start, hs, hr⟩⟩

/-- Two ways of finding partials that agree on all names but one: what is led to in the first is led
to in the second as well, or else that name stands on the way there and is led to in both. -/
theorem Leads.agree_or_through {changed : String}
    (h : ∀ name, name ≠ changed → find name = find' name) {name : String}
    (hl : Leads find nodes name) : Leads find' nodes name ∨
      (Leads find nodes changed ∧ Leads find' nodes changed ∧ Leads find (find changed) name) := by
  induction hl with
  | here hm => exact .inl (.here hm)
  | @next outer inner houter hm ih =>
    rcases ih with ih | ⟨ha, hb, hc⟩
    · by_cases he : outer = changed
      · subst he
        exact .inr ⟨houter, ih, .here hm⟩
      · exact .inl (.next ih (h outer he ▸ hm))
    · exact .inr ⟨ha, hb, hc.next hm⟩

theorem leads_changed_iff {changed : String}
    (h : ∀ name, name ≠ changed → find name = find' name) :
    Leads find nodes changed ↔ Leads find' nodes changed := by
  constructor
  · exact fun hl => (hl.agree_or_through h).elim id fun ⟨_, hb, _⟩ => hb
  · exact fun hl => (hl.agree_or_through fun name hne => (h name hne).symm).elim id
      fun ⟨_, hb, _⟩ => hb

end Markup

end Folio
