namespace DesignProcess

inductive Event
  | phaseStart (name : String)
  | phaseEnd
  | taskStart (steps : Nat)
  | taskStep
  | taskEnd
  | message (text : String)
deriving DecidableEq, Repr

structure Progress (ε α : Type) where
  events : List Event
  result : Except ε α

namespace Progress

variable {ε α β : Type}

def ofExcept (r : Except ε α) : Progress ε α := ⟨[], r⟩

def bind (p : Progress ε α) (f : α → Progress ε β) : Progress ε β :=
  match p.result with
  | .error e => ⟨p.events, .error e⟩
  | .ok a => ⟨p.events ++ (f a).events, (f a).result⟩

instance : Monad (Progress ε) where
  pure a := ofExcept (.ok a)
  bind := bind

def report (e : Event) : Progress ε Unit := ⟨[e], .ok ()⟩

def between (first last : Event) (p : Progress ε α) : Progress ε α :=
  ⟨first :: (p.events ++ [last]), p.result⟩

def phase (name : String) (p : Progress ε α) : Progress ε α :=
  between (.phaseStart name) .phaseEnd p

def task (steps : Nat) (p : Progress ε α) : Progress ε α :=
  between (.taskStart steps) .taskEnd p

@[simp] theorem result_pure (a : α) : (pure a : Progress ε α).result = .ok a := rfl

@[simp] theorem result_ofExcept (r : Except ε α) : (ofExcept r).result = r := rfl

@[simp] theorem result_bind (p : Progress ε α) (f : α → Progress ε β) :
    (p >>= f).result = p.result >>= fun a => (f a).result := by
  change (p.bind f).result = _
  unfold bind
  cases h : p.result with
  | error e => rfl
  | ok a => rfl

theorem bind_of_ok {p : Progress ε α} {f : α → Progress ε β} {a : α} (h : p.result = .ok a) :
    p >>= f = ⟨p.events ++ (f a).events, (f a).result⟩ := by
  change p.bind f = _
  rw [bind, h]

theorem bind_of_error {p : Progress ε α} {f : α → Progress ε β} {e : ε} (h : p.result = .error e) :
    p >>= f = ⟨p.events, .error e⟩ := by
  change p.bind f = _
  rw [bind, h]

theorem events_bind_of_ok {p : Progress ε α} {f : α → Progress ε β} {a : α}
    (h : p.result = .ok a) : (p >>= f).events = p.events ++ (f a).events := by
  rw [bind_of_ok h]

theorem events_bind_of_error {p : Progress ε α} {f : α → Progress ε β} {e : ε}
    (h : p.result = .error e) : (p >>= f).events = p.events := by
  rw [bind_of_error h]

@[simp] theorem events_pure (a : α) : (pure a : Progress ε α).events = [] := rfl

@[simp] theorem result_report (e : Event) : (report e : Progress ε Unit).result = .ok () := rfl

end Progress

end DesignProcess
