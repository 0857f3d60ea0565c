import DesignProcess.Proofs.Discovery.Staging

/-!
Calls that change a registry. One that succeeds adds registrations and touches none that is there;
one that fails adds none.
-/

namespace DesignProcess.Registry

inductive Call
  | register (id : String) (factory : Factory) (origin : Origin)
  | discover (fs : FileSystem) (base : Option Path) (folders : List Path)

inductive Outcome
  | registered
  | discovered (count : Nat)
  | failed (e : AssemblyError)

def perform (r : Registry) : Call → Outcome × Registry
  | .register id factory origin =>
    match r.register id factory origin with
    | .ok after => (.registered, after)
    | .error e => (.failed e, r)
  | .discover fs base folders =>
    match r.discoverInPlace fs base folders with
    | (.ok n, after) => (.discovered n, after)
    | (.error e, after) => (.failed e, after)

def Outcome.gain : Outcome → Nat
  | registered => 1
  | discovered count => count
  | failed _ => 0

variable {r r' r'' : Registry} {m n : Nat}

def Grows (r r' : Registry) (n : Nat) : Prop :=
  ∃ added, r'.registrations.entries.Perm (r.registrations.entries ++ added) ∧
    (∀ e ∈ added, e.1 = e.2.identifier) ∧ added.length = n

theorem grows_refl (r : Registry) : r.Grows r 0 :=
  ⟨[], by rw [List.append_nil], List.forall_mem_nil _, rfl⟩

theorem Grows.trans (h : r.Grows r' m) (h' : r'.Grows r'' n) : r.Grows r'' (m + n) := by
  obtain ⟨first, hfirst, hkeyed, rfl⟩ := h
  obtain ⟨second, hsecond, hkeyed', rfl⟩ := h'
  refine ⟨first ++ second, ?_, ?_, List.length_append⟩
  · rw [← List.append_assoc]
    exact hsecond.trans (hfirst.append_right _)
  · intro e he
    exact (List.mem_append.mp he).elim (hkeyed e) (hkeyed' e)

theorem Grows.get? (h : r.Grows r' n) {id : String} {reg : Registration}
    (hget : r.get? id = some reg) : r'.get? id = some reg := by
  obtain ⟨added, hperm, -, -⟩ := h
  have hmem := Dictionary.get?_eq_some_iff.mp hget
  exact Dictionary.get?_eq_some_iff.mpr (hperm.mem_iff.mpr (List.mem_append_left _ hmem))

theorem Grows.size_eq (h : r.Grows r' n) : r'.size = r.size + n := by
  obtain ⟨added, hperm, -, rfl⟩ := h
  exact hperm.length_eq.trans List.length_append

def Keyed (r : Registry) : Prop := ∀ e ∈ r.registrations.entries, e.1 = e.2.identifier

theorem Grows.keyed (h : r.Grows r' n) (hr : r.Keyed) : r'.Keyed := by
  obtain ⟨added, hperm, hadded, -⟩ := h
  intro e he
  exact (List.mem_append.mp (hperm.mem_iff.mp he)).elim (hr e) (hadded e)

theorem register_perm {id : String} {factory : Factory} {origin : Origin}
    (h : r.register id factory origin = .ok r') :
    r'.registrations.entries.Perm ((id, ⟨id, factory, origin⟩) :: r.registrations.entries) := by
  obtain ⟨hnew, rfl⟩ := register_eq_ok_iff.mp h
  exact Dictionary.place_perm _ (Dictionary.get?_eq_none_iff.mp hnew)

theorem register_grows {id : String} {factory : Factory} {origin : Origin}
    (h : r.register id factory origin = .ok r') : r.Grows r' 1 :=
  ⟨[(id, ⟨id, factory, origin⟩)], (register_perm h).trans (List.perm_append_singleton _ _).symm,
    by simp, rfl⟩

theorem Gains.grows {found : List (Path × ComponentType)} (h : r.Gains r' found) :
    r.Grows r' found.length := by
  refine ⟨found.map entryOf, h, fun e he => ?_, List.length_map _⟩
  obtain ⟨d, -, rfl⟩ := List.mem_map.mp he
  rfl

theorem discover_grows {fs : FileSystem} {base : Option Path} {folders : List Path}
    (h : r.discover fs base folders = .ok (r', n)) : r.Grows r' n := by
  obtain ⟨-, -, hgains, rfl⟩ := discover_sound h
  exact hgains.grows

theorem perform_grows (r : Registry) (call : Call) :
    r.Grows (r.perform call).2 (r.perform call).1.gain := by
  cases call with
  | register id factory origin =>
    cases h : r.register id factory origin with
    | ok after => simpa only [perform, h, Outcome.gain] using register_grows h
    | error e => simpa only [perform, h, Outcome.gain] using grows_refl r
  | discover fs base folders =>
    cases h : r.discover fs base folders with
    | ok staged =>
      obtain ⟨after, n⟩ := staged
      simpa only [perform, discoverInPlace, h, Outcome.gain] using discover_grows h
    | error e => simpa only [perform, discoverInPlace, h, Outcome.gain] using grows_refl r

theorem perform_failed {call : Call} {e : AssemblyError} (h : (r.perform call).1 = .failed e) :
    (r.perform call).2 = r := by
  cases call with
  | register id factory origin =>
    cases hcall : r.register id factory origin with
    | ok after => simp [perform, hcall] at h
    | error e => simp only [perform, hcall]
  | discover fs base folders =>
    cases hcall : r.discover fs base folders with
    | ok staged => simp [perform, discoverInPlace, hcall] at h
    | error e => simp only [perform, discoverInPlace, hcall]

inductive ReadBefore (fs : FileSystem) (base : Option Path) :
    List Path → List (Path × ComponentType) → Path × ComponentType → Prop
  | here {folder : Path} {rest : List Path} {before after : List (Path × ComponentType)}
      {d : Path × ComponentType}
      (listed : Manifest.ofFolder fs (folder.resolve base) = .ok (before ++ d :: after)) :
      ReadBefore fs base (folder :: rest) before d
  | later {folder : Path} {rest : List Path} {found before : List (Path × ComponentType)}
      {d : Path × ComponentType} (listed : Manifest.ofFolder fs (folder.resolve base) = .ok found)
      (tail : ReadBefore fs base rest before d) :
      ReadBefore fs base (folder :: rest) (found ++ before) d

/-- What a call has in hand when it comes to register an identifier: the registry itself, and in a
discovery also all that it has staged until then. -/
inductive InHand (r : Registry) : Call → Registry → String → Origin → Prop
  | register {id : String} {factory : Factory} {origin : Origin} :
      InHand r (.register id factory origin) r id origin
  | discover {fs : FileSystem} {base : Option Path} {folders : List Path}
      {before : List (Path × ComponentType)} {d : Path × ComponentType} {staged : Registry}
      (read : ReadBefore fs base folders before d) (stage : r.registerAll before = .ok staged) :
      InHand r (.discover fs base folders) staged d.2.identifier (.discovered d.1)

theorem register_duplicate {id id' : String} {factory : Factory} {origin existing incoming : Origin}
    (h : r.register id factory origin = .error (.duplicateIdentifier id' existing incoming)) :
    id' = id ∧ incoming = origin ∧ ∃ reg, r.get? id = some reg ∧ reg.origin = existing := by
  unfold register at h
  cases hget : r.get? id with
  | none =>
    rw [hget] at h
    cases h
  | some reg =>
    rw [hget] at h
    cases h
    exact ⟨rfl, rfl, reg, rfl, rfl⟩

theorem registerAll_append {found more : List (Path × ComponentType)} :
    r.registerAll (found ++ more) = r.registerAll found >>= fun r => r.registerAll more :=
  List.foldlM_append

theorem registerAll_error {found : List (Path × ComponentType)} {e : AssemblyError}
    (h : r.registerAll found = .error e) :
    ∃ before d after staged, found = before ++ d :: after ∧ r.registerAll before = .ok staged ∧
      staged.registerType (.discovered d.1) d.2 = .error e := by
  induction found generalizing r with
  | nil => cases h
  | cons d rest ih =>
    rw [registerAll, List.foldlM_cons, Except.bind_eq_error_iff] at h
    rcases h with hhead | ⟨next, hhead, htail⟩
    · exact ⟨[], d, rest, r, rfl, rfl, hhead⟩
    · obtain ⟨before, d', after, staged, rfl, hbefore, hd⟩ := ih htail
      refine ⟨d :: before, d', after, staged, rfl, ?_, hd⟩
      rw [registerAll, List.foldlM_cons, Except.bind_eq_ok_iff]
      exact ⟨next, hhead, hbefore⟩

theorem discover_duplicate {fs : FileSystem} {base : Option Path} {folders : List Path}
    {id : String} {existing incoming : Origin}
    (h : r.discover fs base folders = .error (.duplicateIdentifier id existing incoming)) :
    ∃ before d staged reg, ReadBefore fs base folders before d ∧ r.registerAll before = .ok staged ∧
      d.2.identifier = id ∧ incoming = .discovered d.1 ∧ staged.get? id = some reg ∧
      reg.origin = existing := by
  induction folders generalizing r with
  | nil => cases h
  | cons folder rest ih =>
    rw [discover] at h
    rcases Except.bind_eq_error_iff.mp h with hhere | ⟨⟨middle, n⟩, hhere, hthere⟩
    · unfold discoverFolder at hhere
      split at hhere
      · cases hhere
      · rename_i found hfound
        obtain ⟨before, d, after, staged, rfl, hstage, hd⟩ :=
          registerAll_error (Except.map_eq_error_iff.mp hhere)
        obtain ⟨rfl, rfl, reg, hget, horigin⟩ := register_duplicate hd
        exact ⟨before, d, staged, reg, .here hfound, hstage, rfl, rfl, hget, horigin⟩
    · unfold discoverFolder at hhere
      split at hhere
      · cases hhere
      · rename_i found hfound
        obtain ⟨after, hafter, heq⟩ := Except.map_eq_ok_iff.mp hhere
        cases heq
        rcases Except.bind_eq_error_iff.mp hthere with hrest | ⟨_, -, hdone⟩
        · obtain ⟨before, d, staged, reg, hread, hstage, hd⟩ := ih hrest
          refine ⟨found ++ before, d, staged, reg, .later hfound hread, ?_, hd⟩
          rw [registerAll_append, hafter]
          exact hstage
        · cases hdone

theorem perform_duplicate {call : Call} {id : String} {existing incoming : Origin}
    (h : (r.perform call).1 = .failed (.duplicateIdentifier id existing incoming)) :
    ∃ held reg, r.InHand call held id incoming ∧ held.get? id = some reg ∧
      reg.origin = existing := by
  cases call with
  | register id' factory origin =>
    cases hcall : r.register id' factory origin with
    | ok after => simp [perform, hcall] at h
    | error e =>
      obtain rfl : e = .duplicateIdentifier id existing incoming := by
        simpa [perform, hcall] using h
      obtain ⟨rfl, rfl, reg, hget, horigin⟩ := register_duplicate hcall
      exact ⟨r, reg, .register, hget, horigin⟩
  | discover fs base folders =>
    cases hcall : r.discover fs base folders with
    | ok staged => simp [perform, discoverInPlace, hcall] at h
    | error e =>
      obtain rfl : e = .duplicateIdentifier id existing incoming := by
        simpa [perform, discoverInPlace, hcall] using h
      obtain ⟨before, d, staged, reg, hread, hstage, rfl, rfl, hget, horigin⟩ :=
        discover_duplicate hcall
      exact ⟨staged, reg, .discover hread hstage, hget, horigin⟩

end DesignProcess.Registry
