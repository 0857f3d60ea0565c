import DesignProcess.Optimization
import DesignProcess.Proofs.Model.Declared
import DesignProcess.Proofs.Outcome

namespace DesignProcess

def VariableEntry.Ordered (e : VariableEntry) : Prop :=
  ∀ l u, e.lower = some l → e.upper = some u → ¬u < l

def OptimizationSpec.bindings (spec : OptimizationSpec) : List Binding :=
  spec.designVariables.map (Binding.mk .designVariable) ++
    (spec.constraints.map (Binding.mk .constraint) ++ spec.objectives.map (Binding.mk .objective))

structure Binding.Sound (m : Model) (b : Binding) : Prop where
  ordered : b.entry.Ordered
  declared : m.Declares b.entry.name

inductive Binding.Fault (m : Model) (b : Binding) : AssemblyError → Prop
  | crossed {l u : Float} (hl : b.entry.lower = some l) (hu : b.entry.upper = some u)
      (h : u < l) : Fault m b (.invalidBounds b.entry.name b.role l u)
  | unknown (ordered : b.entry.Ordered) (absent : ¬m.Declares b.entry.name) :
      Fault m b (.unknownVariable b.entry.name b.role)

namespace Optimization

variable {m : Model} {spec : OptimizationSpec} {b : Binding}

theorem bindEntry_of_sound (h : b.Sound m) :
    bindEntry m.variableTable b.role b.entry = .ok b := by
  simp only [bindEntry, crossedBounds?_eq_none_iff.mpr h.ordered,
    if_pos (Model.contains_variableTable_iff.mpr h.declared)]

theorem bindEntry_of_fault {e : AssemblyError} (h : b.Fault m e) :
    bindEntry m.variableTable b.role b.entry = .error e := by
  unfold bindEntry
  cases h with
  | crossed hl hu h => simp only [crossedBounds?_eq_some_iff.mpr ⟨hl, hu, h⟩]
  | unknown ordered absent =>
    simp only [crossedBounds?_eq_none_iff.mpr ordered,
      if_neg (mt Model.contains_variableTable_iff.mp absent)]

theorem sound_or_fault (m : Model) (b : Binding) : b.Sound m ∨ ∃ e, b.Fault m e := by
  by_cases hordered : b.entry.Ordered
  · by_cases hdeclared : m.Declares b.entry.name
    · exact .inl ⟨hordered, hdeclared⟩
    · exact .inr ⟨_, .unknown hordered hdeclared⟩
  · simp only [VariableEntry.Ordered, Classical.not_forall, Classical.not_not] at hordered
    obtain ⟨l, u, hl, hu, h⟩ := hordered
    exact .inr ⟨_, .crossed hl hu h⟩

theorem bindEntry_eq_ok_iff (b c : Binding) :
    bindEntry m.variableTable b.role b.entry = .ok c ↔ b.Sound m ∧ c = b :=
  (Except.ends_iff bindEntry_of_sound (fun _ => bindEntry_of_fault) (sound_or_fault m b)).1 c

theorem bindEntry_eq_error_iff (b : Binding) (e : AssemblyError) :
    bindEntry m.variableTable b.role b.entry = .error e ↔ b.Fault m e :=
  (Except.ends_iff bindEntry_of_sound (fun _ => bindEntry_of_fault) (sound_or_fault m b)).2 e

def bindAll (m : Model) (bindings : List Binding) : Except AssemblyError (List Binding) :=
  bindings.mapM fun b => bindEntry m.variableTable b.role b.entry

theorem bindAll_role (role : Role) (entries : List VariableEntry) :
    bindAll m (entries.map (Binding.mk role)) = entries.mapM (bindEntry m.variableTable role) := by
  rw [bindAll, List.mapM_map]
  rfl

theorem bindAll_append (bs cs : List Binding) :
    bindAll m (bs ++ cs) = do return (← bindAll m bs) ++ (← bindAll m cs) :=
  List.mapM_append

theorem bindAll_eq_ok_iff {bs cs : List Binding} :
    bindAll m bs = .ok cs ↔ (∀ b ∈ bs, b.Sound m) ∧ cs = bs := by
  have h : bindAll m bs = .ok cs ↔ (∀ b ∈ bs, b.Sound m) ∧ cs = bs.map id :=
    Except.mapM_eq_ok_iff_of bindEntry_eq_ok_iff
  rwa [List.map_id] at h

theorem bindAll_eq_error_iff {bs : List Binding} {e : AssemblyError} :
    bindAll m bs = .error e ↔ ∃ before b after, bs = before ++ b :: after ∧
      (∀ c ∈ before, c.Sound m) ∧ b.Fault m e :=
  Except.mapM_eq_error_iff_of bindEntry_eq_ok_iff bindEntry_eq_error_iff

theorem bind_eq_of_single {objective : VariableEntry} (h : spec.objectives = [objective]) :
    bind m spec = (bindAll m spec.bindings).map fun _ =>
      ⟨spec.designVariables.map (Binding.mk .designVariable),
        spec.constraints.map (Binding.mk .constraint), ⟨.objective, objective⟩⟩ := by
  unfold bind
  rw [OptimizationSpec.bindings, h, bindAll_append, bindAll_append]
  simp only [← bindAll_role]
  cases hd : bindAll m (spec.designVariables.map (Binding.mk .designVariable)) with
  | error e => rfl
  | ok ds =>
    cases hc : bindAll m (spec.constraints.map (Binding.mk .constraint)) with
    | error e => rfl
    | ok cs =>
      obtain ⟨-, rfl⟩ := bindAll_eq_ok_iff.mp hd
      obtain ⟨-, rfl⟩ := bindAll_eq_ok_iff.mp hc
      have hobjective : bindAll m [⟨.objective, objective⟩] =
          (bindEntry m.variableTable .objective objective).map fun o => [o] := by
        rw [bindAll, List.mapM_cons, List.mapM_nil]
        cases bindEntry m.variableTable .objective objective <;> rfl
      rw [List.map_singleton, hobjective]
      cases ho : bindEntry m.variableTable .objective objective with
      | error e => rfl
      | ok o =>
        obtain ⟨-, rfl⟩ := (bindEntry_eq_ok_iff ⟨.objective, objective⟩ o).mp ho
        rfl

theorem bind_of_other (h : spec.objectives.length ≠ 1) :
    bind m spec = .error (.malformed ⟨(KeyPath.root.key "optimization").key "objective",
      .oneObjective spec.objectives.length⟩) := by
  unfold bind
  split
  · rename_i objective hsingle
    rw [hsingle] at h
    exact absurd rfl h
  · rfl

theorem bind_eq_ok_iff {o : Optimization} :
    bind m spec = .ok o ↔ spec.objectives = [o.objective.entry] ∧ o.objective.role = .objective ∧
      o.designVariables = spec.designVariables.map (Binding.mk .designVariable) ∧
      o.constraints = spec.constraints.map (Binding.mk .constraint) ∧
      ∀ b ∈ spec.bindings, b.Sound m := by
  by_cases hone : spec.objectives.length = 1
  · obtain ⟨objective, hsingle⟩ := List.length_eq_one_iff.mp hone
    rw [bind_eq_of_single hsingle, Except.map_eq_ok_iff, hsingle]
    constructor
    · rintro ⟨bs, hbs, rfl⟩
      exact ⟨rfl, rfl, rfl, rfl, (bindAll_eq_ok_iff.mp hbs).1⟩
    · obtain ⟨ds, cs, role, entry⟩ := o
      rintro ⟨hentry, rfl, rfl, rfl, hsound⟩
      cases hentry
      exact ⟨_, bindAll_eq_ok_iff.mpr ⟨hsound, rfl⟩, rfl⟩
  · rw [bind_of_other hone]
    constructor
    · intro h
      cases h
    · rintro ⟨hsingle, -⟩
      rw [hsingle] at hone
      exact absurd rfl hone

theorem declared_of_bind {o : Optimization} (h : bind m spec = .ok o)
    (hb : b ∈ o.designVariables ++ o.constraints ++ [o.objective]) : m.Declares b.entry.name := by
  obtain ⟨ds, cs, role, entry⟩ := o
  obtain ⟨hsingle, rfl, rfl, rfl, hsound⟩ := bind_eq_ok_iff.mp h
  apply Binding.Sound.declared
  apply hsound
  rw [OptimizationSpec.bindings, hsingle, ← List.append_assoc]
  exact hb

theorem bound_or_first_fault (m : Model) (spec : OptimizationSpec) :
    ((∃ o, bind m spec = .ok o) ↔
      spec.objectives.length = 1 ∧ ∀ b ∈ spec.bindings, b.Sound m) ∧
    (∀ o, bind m spec = .ok o →
      o.designVariables = spec.designVariables.map (Binding.mk .designVariable) ∧
        o.constraints = spec.constraints.map (Binding.mk .constraint) ∧
        o.objective.role = .objective ∧ spec.objectives = [o.objective.entry]) ∧
    ∀ e, bind m spec = .error e ↔
      (spec.objectives.length ≠ 1 ∧
        e = .malformed ⟨(KeyPath.root.key "optimization").key "objective",
          .oneObjective spec.objectives.length⟩) ∨
      (spec.objectives.length = 1 ∧ ∃ before b after, spec.bindings = before ++ b :: after ∧
        (∀ c ∈ before, c.Sound m) ∧ b.Fault m e) := by
  refine ⟨⟨?_, ?_⟩, ?_, fun e => ?_⟩
  · rintro ⟨o, ho⟩
    obtain ⟨hsingle, -, -, -, hsound⟩ := bind_eq_ok_iff.mp ho
    exact ⟨by rw [hsingle]; rfl, hsound⟩
  · rintro ⟨hone, hsound⟩
    obtain ⟨objective, hsingle⟩ := List.length_eq_one_iff.mp hone
    exact ⟨⟨_, _, ⟨.objective, objective⟩⟩, bind_eq_ok_iff.mpr ⟨hsingle, rfl, rfl, rfl, hsound⟩⟩
  · intro o ho
    obtain ⟨hsingle, hrole, hdesign, hconstraints, -⟩ := bind_eq_ok_iff.mp ho
    exact ⟨hdesign, hconstraints, hrole, hsingle⟩
  · by_cases hone : spec.objectives.length = 1
    · obtain ⟨objective, hsingle⟩ := List.length_eq_one_iff.mp hone
      rw [bind_eq_of_single hsingle, Except.map_eq_error_iff, bindAll_eq_error_iff]
      simp [hone]
    · rw [bind_of_other hone]
      simp [hone, eq_comm]

end Optimization

end DesignProcess
