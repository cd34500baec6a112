/-!
# Outcomes

Sequences of steps that may fail, and what an outcome that is there can be computed to be.
-/

namespace Folio

variable {ε α β : Type}

theorem ok_bind (value : α) (next : α → Except ε β) : (.ok value >>= next) = next value :=
  rfl

theorem error_bind (fault : ε) (next : α → Except ε β) :
    ((.error fault : Except ε α) >>= next) = .error fault :=
  rfl

theorem bind_eq_ok {first : Except ε α} {next : α → Except ε β} {result : β} :
    (first >>= next) = .ok result ↔ ∃ value, first = .ok value ∧ next value = .ok result := by
  cases first with
  | error fault => exact ⟨nofun, nofun⟩
  | ok value => exact ⟨fun h => ⟨value, rfl, h⟩, fun ⟨_, hv, h⟩ => by cases hv; exact h⟩

theorem bind_eq_error {first : Except ε α} {next : α → Except ε β} {fault : ε} :
    (first >>= next) = .error fault ↔
      first = .error fault ∨ ∃ value, first = .ok value ∧ next value = .error fault := by
  cases first with
  | error other =>
    constructor
    · intro h
      cases h
      exact .inl rfl
    · rintro (h | ⟨_, hv, -⟩)
      · cases h
        rfl
      · cases hv
  | ok value => exact ⟨fun h => .inr ⟨value, rfl, h⟩, fun h => by
      obtain ⟨_, hv, h⟩ := h.resolve_left nofun
      cases hv
      exact h⟩

/-- What each step of a sequence keeps, the whole sequence keeps. -/
theorem foldlM_invariant {items : List α} {step : β → α → Except ε β} {start result : β}
    (kept : β → Prop) (h : items.foldlM step start = .ok result) (hs : kept start)
    (hstep : ∀ item ∈ items, ∀ before after, step before item = .ok after → kept before →
      kept after) : kept result := by
  induction items generalizing start with
  | nil =>
    cases h
    exact hs
  | cons item rest ih =>
    rw [List.foldlM_cons] at h
    obtain ⟨middle, hm, h⟩ := bind_eq_ok.mp h
    exact ih h (hstep item List.mem_cons_self start middle hm hs)
      fun next hn => hstep next (List.mem_cons_of_mem _ hn)

theorem exists_of_isOk {outcome : Except ε α} (h : outcome.isOk = true) :
    ∃ value, outcome = .ok value := by
  cases outcome with
  | error fault => cases h
  | ok value => exact ⟨value, rfl⟩

theorem exists_ok {outcome : Except ε α} {test : α → Bool} (h : outcome.toOption.any test = true) :
    ∃ value, outcome = .ok value ∧ test value = true := by
  cases outcome with
  | error fault => cases h
  | ok value => exact ⟨value, rfl, h⟩

theorem eq_ok_of_toOption {outcome : Except ε α} {value : α} (h : outcome.toOption = some value) :
    outcome = .ok value := by
  cases outcome with
  | error fault => cases h
  | ok found =>
    cases h
    rfl

/-- What a sequence failed with, if it did. -/
def faultOf? : Except ε α → Option ε
  | .ok _ => none
  | .error fault => some fault

theorem eq_error_of_faultOf? {outcome : Except ε α} {fault : ε} (h : faultOf? outcome = some fault) :
    outcome = .error fault := by
  cases outcome with
  | ok value => cases h
  | error found =>
    cases h
    rfl

theorem faultOf?_eq_some_iff {outcome : Except ε α} {fault : ε} :
    faultOf? outcome = some fault ↔ outcome = .error fault := by
  cases outcome <;> simp [faultOf?]

theorem faultOf?_eq_none_iff {outcome : Except ε α} :
    faultOf? outcome = none ↔ ∃ value, outcome = .ok value := by
  cases outcome <;> simp [faultOf?]

theorem faultOf?_bind (first : Except ε α) (next : α → Except ε β) :
    faultOf? (first >>= next)
      = (faultOf? first).or (first.toOption.bind fun value => faultOf? (next value)) := by
  cases first <;> rfl

end Folio
