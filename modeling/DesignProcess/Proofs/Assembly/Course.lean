import DesignProcess.Assembly
import DesignProcess.Proofs.Model.Steps
import Mathlib.Logic.ExistsUnique

namespace DesignProcess.Problem

open ModelSpec (finished)

inductive Stage
  | discovery
  | building
  | binding
  | done

inductive BindingFault (m : Model) (d : Document) : AssemblyError → Prop
  | driver {text : String} {fault : CallSpec.Error} (htext : d.driver = some text)
      (h : CallSpec.ofText text = .error fault) :
      BindingFault m d (.malformed ⟨KeyPath.root.key "driver", .driver fault⟩)
  | optimization {spec : OptimizationSpec} {e : AssemblyError}
      (hdriver : ∀ text, d.driver = some text → ∃ call, CallSpec.ofText text = .ok call)
      (hspec : d.optimization = some spec) (h : Optimization.bind m spec = .error e) :
      BindingFault m d e

def inPhase (name : String) (es : List Event) : List Event :=
  .phaseStart name :: (es ++ [.phaseEnd])

def discovering : List Event := inPhase "Discovering components" []

def building (total done : Nat) : List Event := inPhase "Building model" (Model.steps total done)

def binding : List Event := inPhase "Binding optimization" []

def remarks (d : Document) : List Event :=
  if d.optimization.isSome ∧ d.driver.isNone then [undriven] else []

inductive Course (fs : FileSystem) (base : Registry) (d : Document) :
    Stage → Progress AssemblyError Problem → Prop
  | discovery {e : AssemblyError} (h : registry fs base d = .error e) :
      Course fs base d .discovery ⟨discovering, .error e⟩
  | building {r : Registry} {e : AssemblyError} {before : List (KeyPath × ModelSpec)}
      (hr : registry fs base d = .ok r) (h : (Model.build fs r d.model).result = .error e)
      (hfirst : Model.Interrupted fs r (d.model.nodes (KeyPath.root.key "model")) before e)
      (hdone : finished before < d.model.nodeCount) :
      Course fs base d .building
        ⟨discovering ++ building d.model.nodeCount (finished before), .error e⟩
  | binding {r : Registry} {m : Model} {e : AssemblyError} (hr : registry fs base d = .ok r)
      (hm : (Model.build fs r d.model).result = .ok m) (h : BindingFault m d e) :
      Course fs base d .binding
        ⟨discovering ++ (building d.model.nodeCount d.model.nodeCount ++ binding), .error e⟩
  | done {r : Registry} {m : Model} {driver : Option CallSpec} {optimization : Option Optimization}
      (hr : registry fs base d = .ok r) (hm : (Model.build fs r d.model).result = .ok m)
      (h : bind m d = .ok (driver, optimization)) :
      Course fs base d .done
        ⟨discovering ++ (building d.model.nodeCount d.model.nodeCount ++ (binding ++ remarks d)),
          .ok ⟨d.title, m, optimization, driver, d.inputFile.map d.resolve,
            d.outputFile.map d.resolve⟩⟩

def stage (fs : FileSystem) (base : Registry) (d : Document) : Stage :=
  match registry fs base d with
  | .error _ => .discovery
  | .ok r =>
    match (Model.build fs r d.model).result with
    | .error _ => .building
    | .ok m =>
      match bind m d with
      | .error _ => .binding
      | .ok _ => .done

variable {fs : FileSystem} {base : Registry} {d : Document} {m : Model}

theorem orMalformed_driver_eq_error_iff {text : String} {e : AssemblyError} :
    orMalformed (Optimization.driver text) = .error e ↔ ∃ fault, CallSpec.ofText text =
      .error fault ∧ .malformed ⟨KeyPath.root.key "driver", .driver fault⟩ = e := by
  unfold Optimization.driver
  cases CallSpec.ofText text with
  | ok call => simp [orMalformed]
  | error fault => simp [orMalformed]

theorem orMalformed_driver_succeeds_iff {text : String} :
    (∃ call, orMalformed (Optimization.driver text) = .ok call) ↔
      ∃ call, CallSpec.ofText text = .ok call := by
  unfold Optimization.driver
  cases CallSpec.ofText text with
  | ok call => simp [orMalformed]
  | error fault => simp [orMalformed]

theorem bind_eq_error_iff {e : AssemblyError} : bind m d = .error e ↔ BindingFault m d e := by
  unfold bind
  rw [Except.bind_eq_error_iff, Except.option_mapM_eq_error_iff]
  constructor
  · rintro (⟨text, htext, h⟩ | ⟨driver, hdriver, h⟩)
    · obtain ⟨fault, hfault, rfl⟩ := orMalformed_driver_eq_error_iff.mp h
      exact .driver htext hfault
    · rcases Except.bind_eq_error_iff.mp h with h | ⟨optimization, -, h⟩
      · obtain ⟨spec, hspec, h⟩ := Except.option_mapM_eq_error_iff.mp h
        refine .optimization ?_ hspec h
        intro text htext
        apply orMalformed_driver_succeeds_iff.mp
        exact Except.option_mapM_succeeds_iff.mp ⟨driver, hdriver⟩ text htext
      · cases h
  · intro h
    cases h with
    | driver htext h => exact .inl ⟨_, htext, orMalformed_driver_eq_error_iff.mpr ⟨_, h, rfl⟩⟩
    | optimization hdriver hspec h =>
      obtain ⟨driver, hparsed⟩ : ∃ driver, d.driver.mapM
          (fun text => orMalformed (Optimization.driver text)) = .ok driver := by
        apply Except.option_mapM_succeeds_iff.mpr
        intro text htext
        exact orMalformed_driver_succeeds_iff.mpr (hdriver text htext)
      refine .inr ⟨driver, hparsed, ?_⟩
      apply Except.bind_eq_error_iff.mpr
      exact .inl (Except.option_mapM_eq_error_iff.mpr ⟨_, hspec, h⟩)

theorem remarks_of_bind {driver : Option CallSpec} {optimization : Option Optimization}
    (h : bind m d = .ok (driver, optimization)) :
    (if (optimization.isSome && driver.isNone) = true then [undriven] else []) = remarks d := by
  obtain ⟨driver', hdriver, h⟩ := Except.bind_eq_ok_iff.mp h
  obtain ⟨optimization', hoptimization, h⟩ := Except.bind_eq_ok_iff.mp h
  cases h
  have hsome := Except.option_mapM_isSome hoptimization
  have hnone := Except.option_mapM_isSome hdriver
  simp only [remarks, ← Option.not_isSome, hsome, hnone, Bool.and_eq_true]

theorem Course.stage_eq {s : Stage} {p : Progress AssemblyError Problem}
    (h : Course fs base d s p) : s = stage fs base d := by
  cases h with
  | discovery h => rw [stage, h]
  | building hr h => simp only [stage, hr, h]
  | binding hr hm h => simp only [stage, hr, hm, bind_eq_error_iff.mpr h]
  | done hr hm h => simp only [stage, hr, hm, h]

theorem course_of_undiscovered {e : AssemblyError} (h : registry fs base d = .error e) :
    Course fs base d .discovery (assembleWith fs base d) := by
  have hfound : (Progress.phase "Discovering components"
      (.ofExcept (registry fs base d))).result = .error e := h
  rw [assembleWith, Progress.bind_of_error hfound]
  exact .discovery h

section Found

variable {r : Registry} (hr : registry fs base d = .ok r)

include hr

theorem course_of_unbuilt {e : AssemblyError} (h : (Model.build fs r d.model).result = .error e) :
    Course fs base d .building (assembleWith fs base d) := by
  obtain ⟨before, hfirst, hevents⟩ := Model.build_events_of_error h
  obtain ⟨node, after, hsplit, -⟩ := hfirst.fault
  have hfound : (Progress.phase "Discovering components"
      (.ofExcept (registry fs base d))).result = .ok r := hr
  have hbuilt : (Progress.phase "Building model" (Model.build fs r d.model)).result = .error e := h
  have hbuilding : (Progress.phase "Building model" (Model.build fs r d.model)).events =
      building d.model.nodeCount (finished before) := by
    rw [building, ← hevents]
    rfl
  rw [assembleWith, Progress.bind_of_ok hfound, Progress.bind_of_error hbuilt, hbuilding]
  exact .building hr h hfirst (ModelSpec.finished_lt_nodeCount hsplit)

variable (hm : (Model.build fs r d.model).result = .ok m)

include hm

theorem assembleWith_of_built {q : Progress AssemblyError Problem}
    (hq : (do
      let (driver, optimization) ← Progress.phase "Binding optimization" (.ofExcept (bind m d))
      if optimization.isSome && driver.isNone then
        .report undriven
      return ⟨d.title, m, optimization, driver, d.inputFile.map d.resolve,
        d.outputFile.map d.resolve⟩) = q) :
    assembleWith fs base d =
      ⟨discovering ++ (building d.model.nodeCount d.model.nodeCount ++ q.events), q.result⟩ := by
  have hfound : (Progress.phase "Discovering components"
      (.ofExcept (registry fs base d))).result = .ok r := hr
  have hbuilt : (Progress.phase "Building model" (Model.build fs r d.model)).result = .ok m := hm
  have hbuilding : (Progress.phase "Building model" (Model.build fs r d.model)).events =
      building d.model.nodeCount d.model.nodeCount := by
    rw [building, ← Model.build_events_of_ok hm]
    rfl
  rw [assembleWith, Progress.bind_of_ok hfound, Progress.bind_of_ok hbuilt, hbuilding, ← hq]
  rfl

theorem course_of_unbound {e : AssemblyError} (h : bind m d = .error e) :
    Course fs base d .binding (assembleWith fs base d) := by
  have hbound : (Progress.phase "Binding optimization"
      (.ofExcept (bind m d))).result = .error e := h
  rw [assembleWith_of_built hr hm (Progress.bind_of_error hbound)]
  exact .binding hr hm (bind_eq_error_iff.mp h)

theorem course_of_bound {driver : Option CallSpec} {optimization : Option Optimization}
    (h : bind m d = .ok (driver, optimization)) :
    Course fs base d .done (assembleWith fs base d) := by
  have hbound : (Progress.phase "Binding optimization"
      (.ofExcept (bind m d))).result = .ok (driver, optimization) := h
  rw [assembleWith_of_built hr hm (Progress.bind_of_ok hbound)]
  have hdone := Course.done hr hm h
  rw [← remarks_of_bind h] at hdone
  by_cases hundriven : (optimization.isSome && driver.isNone) = true
  · simp only [if_pos hundriven] at hdone ⊢
    exact hdone
  · simp only [if_neg hundriven] at hdone ⊢
    exact hdone

end Found

theorem assembleWith_course : Course fs base d (stage fs base d) (assembleWith fs base d) := by
  cases hr : registry fs base d with
  | error e =>
    rw [stage, hr]
    exact course_of_undiscovered hr
  | ok r =>
    cases hm : (Model.build fs r d.model).result with
    | error e =>
      simp only [stage, hr, hm]
      exact course_of_unbuilt hr hm
    | ok m =>
      cases hb : bind m d with
      | error e =>
        simp only [stage, hr, hm, hb]
        exact course_of_unbound hr hm hb
      | ok bound =>
        simp only [stage, hr, hm, hb]
        exact course_of_bound hr hm hb

theorem fails_discovering_iff {e : AssemblyError} :
    stage fs base d = .discovery ∧ (assembleWith fs base d).result = .error e ↔
      registry fs base d = .error e := by
  constructor
  · rintro ⟨hstage, hresult⟩
    have hcourse : Course fs base d _ (assembleWith fs base d) := assembleWith_course
    rw [hstage] at hcourse
    generalize assembleWith fs base d = p at hcourse hresult
    cases hcourse with
    | discovery h =>
      cases hresult
      exact h
  · intro h
    have hcourse := course_of_undiscovered h
    refine ⟨hcourse.stage_eq.symm, ?_⟩
    generalize assembleWith fs base d = p at hcourse
    cases hcourse with
    | discovery h' =>
      cases h'.symm.trans h
      rfl

theorem fails_building_iff {e : AssemblyError} :
    stage fs base d = .building ∧ (assembleWith fs base d).result = .error e ↔
      ∃ r, registry fs base d = .ok r ∧ (Model.build fs r d.model).result = .error e := by
  constructor
  · rintro ⟨hstage, hresult⟩
    have hcourse : Course fs base d _ (assembleWith fs base d) := assembleWith_course
    rw [hstage] at hcourse
    generalize assembleWith fs base d = p at hcourse hresult
    cases hcourse with
    | building hr h =>
      cases hresult
      exact ⟨_, hr, h⟩
  · rintro ⟨r, hr, h⟩
    have hcourse := course_of_unbuilt hr h
    refine ⟨hcourse.stage_eq.symm, ?_⟩
    generalize assembleWith fs base d = p at hcourse
    cases hcourse with
    | building hr' h' =>
      cases hr'.symm.trans hr
      cases h'.symm.trans h
      rfl

theorem assembleWith_nested : Event.Nested (assembleWith fs base d).events := by
  unfold assembleWith
  apply Progress.nested_bind (Progress.nested_phase _ .nil)
  intro r
  apply Progress.nested_bind (Progress.nested_phase _ (Model.build_nested d.model))
  intro m
  apply Progress.nested_bind (Progress.nested_phase _ .nil)
  rintro ⟨driver, optimization⟩
  by_cases hundriven : (optimization.isSome && driver.isNone) = true
  · simp only [hundriven, if_true]
    exact .message .nil
  · simp only [hundriven]
    exact .nil

theorem assembly_follows_course (fs : FileSystem) (base : Registry) (d : Document) :
    (∃! s, Course fs base d s (assembleWith fs base d)) ∧
      Event.Nested (assembleWith fs base d).events ∧
      ∀ before p s inner after,
        d.model.nodes (KeyPath.root.key "model") = before ++ (p, s) :: (inner ++ after) →
          (s.nodes p <+: (p, s) :: inner → finished ((p, s) :: inner) = finished inner + 1) ∧
            (¬s.nodes p <+: (p, s) :: inner → finished ((p, s) :: inner) = finished inner) := by
  refine ⟨⟨stage fs base d, assembleWith_course, ?_⟩, assembleWith_nested, ?_⟩
  · intro s hs
    exact hs.stage_eq
  · intro before p s inner after hnodes
    exact ModelSpec.finished_cons hnodes

end DesignProcess.Problem
