import DesignProcess.Progress

namespace DesignProcess

inductive Event.Nested : List Event → Prop
  | nil : Nested []
  | step {rest : List Event} (h : Nested rest) : Nested (.taskStep :: rest)
  | message {text : String} {rest : List Event} (h : Nested rest) : Nested (.message text :: rest)
  | phase {name : String} {inner rest : List Event} (hinner : Nested inner) (h : Nested rest) :
      Nested (.phaseStart name :: (inner ++ .phaseEnd :: rest))
  | task {steps : Nat} {inner rest : List Event} (hinner : Nested inner) (h : Nested rest) :
      Nested (.taskStart steps :: (inner ++ .taskEnd :: rest))

theorem Event.Nested.append {es fs : List Event} (he : Nested es) (hf : Nested fs) :
    Nested (es ++ fs) := by
  induction he with
  | nil => exact hf
  | step _ ih => exact .step ih
  | message _ ih => exact .message ih
  | phase hinner _ _ ih =>
    rw [List.cons_append, List.append_assoc, List.cons_append]
    exact .phase hinner ih
  | task hinner _ _ ih =>
    rw [List.cons_append, List.append_assoc, List.cons_append]
    exact .task hinner ih

namespace Progress

open Event (Nested)

variable {ε α β : Type} {p : Progress ε α}

theorem nested_phase (name : String) (h : Nested p.events) : Nested (phase name p).events :=
  .phase h .nil

theorem nested_task (steps : Nat) (h : Nested p.events) : Nested (task steps p).events :=
  .task h .nil

theorem nested_bind {f : α → Progress ε β} (h : Nested p.events)
    (hf : ∀ a, Nested (f a).events) : Nested (p >>= f).events := by
  cases hp : p.result with
  | error e =>
    rw [events_bind_of_error hp]
    exact h
  | ok a =>
    rw [events_bind_of_ok hp]
    exact h.append (hf a)

end Progress

end DesignProcess
