import Folio.Journal
import Folio.SiteError
/-!
# Logged results

A result, or the reason why there is none, with the journal of how it came about. In a sequence the
outcome is the one that the outcomes alone would have, and the journals follow one another up to the
first failure.
-/

namespace Folio

structure Logged (α : Type) where
  outcome : Except Stop α
  journal : Journal := []

namespace Logged

variable {α β : Type}

def bind (first : Logged α) (next : α → Logged β) : Logged β :=
  match first.outcome with
  | .error stop => ⟨.error stop, first.journal⟩
  | .ok value => ⟨(next value).outcome, first.journal ++ (next value).journal⟩

instance : Monad Logged where
  pure value := ⟨.ok value, []⟩
  bind := bind

def lift (outcome : Except Stop α) : Logged α := ⟨outcome, []⟩

def tell (journal : Journal) : Logged Unit := ⟨.ok (), journal⟩

def fail (error : SiteError) : Logged α := ⟨.error (.error error), []⟩

@[simp] theorem outcome_pure (value : α) : (pure value : Logged α).outcome = .ok value := rfl

@[simp] theorem outcome_bind (first : Logged α) (next : α → Logged β) :
    (first >>= next).outcome = first.outcome >>= fun value => (next value).outcome := by
  show (bind first next).outcome = _
  unfold bind
  cases first.outcome <;> rfl

@[simp] theorem outcome_lift (outcome : Except Stop α) : (lift outcome).outcome = outcome := rfl

@[simp] theorem outcome_tell (journal : Journal) : (tell journal).outcome = .ok () := rfl

@[simp] theorem outcome_fail (error : SiteError) :
    (fail error : Logged α).outcome = .error (.error error) := rfl

theorem outcome_bind_eq_ok {first : Logged α} {next : α → Logged β} {result : β} :
    (first >>= next).outcome = .ok result ↔
      ∃ value, first.outcome = .ok value ∧ (next value).outcome = .ok result := by
  rw [outcome_bind]
  cases first.outcome with
  | error stop => exact ⟨nofun, nofun⟩
  | ok value => exact ⟨fun h => ⟨value, rfl, h⟩, fun ⟨_, hv, h⟩ => by cases hv; exact h⟩

end Logged

end Folio
