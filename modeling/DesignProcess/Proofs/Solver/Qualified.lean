import DesignProcess.Proofs.CallSpec.Qualified
import DesignProcess.Solver.Binding

namespace DesignProcess

def Solver.within (names : List String) (s : Solver) : Solver :=
  { s with target := Text.joined names ++ "." ++ s.target }

namespace SolverChoice

variable {slot : SolverSlot} {path : KeyPath} {text : String} {choice : SolverChoice}

theorem ofCall_eq_ok_iff {spec : CallSpec} :
    ofCall slot path spec = .ok choice ↔ ∃ kind : SolverKind, kind.name = spec.kind ∧
      kind.slot = slot ∧ choice = some ⟨kind, spec.target, spec.arguments⟩ := by
  simp only [ofCall, ← SolverKind.ofName?_eq_some_iff]
  cases SolverKind.ofName? spec.kind with
  | none => simp
  | some kind =>
    by_cases hslot : kind.slot = slot
    · simp [hslot, eq_comm]
    · simp [hslot]

theorem ofText?_eq_ok_iff :
    ofText? slot path (some text) = .ok choice ↔
      ∃ spec, CallSpec.ofText text = .ok spec ∧ ofCall slot path spec = .ok choice := by
  cases h : CallSpec.ofText text <;> simp [ofText?, h]

theorem slot_of_ofText? (h : ofText? slot path (some text) = .ok choice) :
    ∃ solver, choice = some solver ∧ solver.kind.slot = slot := by
  obtain ⟨spec, -, hcall⟩ := ofText?_eq_ok_iff.mp h
  obtain ⟨kind, -, hslot, rfl⟩ := ofCall_eq_ok_iff.mp hcall
  exact ⟨_, rfl, hslot⟩

theorem slot_unique {slot' : SolverSlot} {path' : KeyPath} {choice' : SolverChoice}
    (h : ofText? slot path (some text) = .ok choice)
    (h' : ofText? slot' path' (some text) = .ok choice') : slot = slot' := by
  obtain ⟨spec, hspec, hcall⟩ := ofText?_eq_ok_iff.mp h
  obtain ⟨spec', hspec', hcall'⟩ := ofText?_eq_ok_iff.mp h'
  obtain rfl : spec = spec' := Except.ok.inj (hspec.symm.trans hspec')
  obtain ⟨kind, hkind, rfl, -⟩ := ofCall_eq_ok_iff.mp hcall
  obtain ⟨kind', hkind', rfl, -⟩ := ofCall_eq_ok_iff.mp hcall'
  rw [SolverKind.name_injective (hkind.trans hkind'.symm)]

theorem ofCall_within_iff {names : List String} (hne : names ≠ []) {spec : CallSpec} :
    ofCall slot path (spec.within names) = .ok choice ↔
      ∃ solver, ofCall slot path spec = .ok (some solver) ∧
        choice = some (solver.within names) := by
  simp only [ofCall_eq_ok_iff, CallSpec.within_kind, CallSpec.within_target hne,
    CallSpec.within_arguments]
  constructor
  · rintro ⟨kind, hkind, hslot, rfl⟩
    exact ⟨_, ⟨kind, hkind, hslot, rfl⟩, rfl⟩
  · rintro ⟨_, ⟨kind, hkind, hslot, ⟨⟩⟩, rfl⟩
    exact ⟨kind, hkind, hslot, rfl⟩

theorem qualified_accepted_iff {names : List String} (hne : names ≠ [])
    (hnames : ∀ name ∈ names, CallSpec.IsIdent name) (slot : SolverSlot) (path : KeyPath)
    (text : String) :
    ((∃ choice, ofText? slot path (some (Text.joined names ++ "." ++ text)) = .ok choice) ↔
      ∃ choice, ofText? slot path (some text) = .ok choice) ∧
    (∀ choice, ofText? slot path (some (Text.joined names ++ "." ++ text)) = .ok choice ↔
      ∃ solver, ofText? slot path (some text) = .ok (some solver) ∧
        choice = some (solver.within names)) ∧
    (∀ choice, ofText? slot path (some text) = .ok choice →
      ∃ solver, choice = some solver ∧ solver.kind.slot = slot) ∧
    ∀ path', ¬((∃ choice, ofText? .nonlinear path (some text) = .ok choice) ∧
      ∃ choice, ofText? .linear path' (some text) = .ok choice) := by
  have hqualified (choice : SolverChoice) :
      ofText? slot path (some (Text.joined names ++ "." ++ text)) = .ok choice ↔
        ∃ solver, ofText? slot path (some text) = .ok (some solver) ∧
          choice = some (solver.within names) := by
    simp only [ofText?_eq_ok_iff, CallSpec.ofText_within_iff hne hnames]
    constructor
    · rintro ⟨_, ⟨spec, hspec, rfl⟩, hcall⟩
      obtain ⟨solver, hsolver, rfl⟩ := (ofCall_within_iff hne).mp hcall
      exact ⟨solver, ⟨spec, hspec, hsolver⟩, rfl⟩
    · rintro ⟨solver, ⟨spec, hspec, hsolver⟩, rfl⟩
      exact ⟨_, ⟨spec, hspec, rfl⟩, (ofCall_within_iff hne).mpr ⟨solver, hsolver, rfl⟩⟩
  refine ⟨⟨?_, ?_⟩, hqualified, fun choice => slot_of_ofText?, ?_⟩
  · rintro ⟨choice, h⟩
    obtain ⟨solver, hsolver, -⟩ := (hqualified choice).mp h
    exact ⟨_, hsolver⟩
  · rintro ⟨choice, h⟩
    obtain ⟨solver, rfl, -⟩ := slot_of_ofText? h
    exact ⟨_, (hqualified _).mpr ⟨solver, h, rfl⟩⟩
  · rintro path' ⟨⟨choice, h⟩, choice', h'⟩
    cases slot_unique h h'

theorem qualified_accepted_iff_newton :
    let text := " NewtonSolver(maxiter=10)"
    let newton : Solver := ⟨.newton, "NewtonSolver", [("maxiter", .integer 10)]⟩
    (∀ name ∈ ["openmdao", "api"], CallSpec.IsIdent name) ∧
      ofText? .nonlinear .root (some text) = .ok (some newton) ∧
      ofText? .nonlinear .root (some ("openmdao.api." ++ text)) =
        .ok (some { newton with target := "openmdao.api.NewtonSolver" }) := by
  intro text newton
  have hnames : ∀ name ∈ ["openmdao", "api"], CallSpec.IsIdent name := by
    simp only [List.forall_mem_cons]
    refine ⟨?_, ?_, List.forall_mem_nil _⟩
    · exact ⟨_, .ident rfl rfl (List.all_eq_true.mp rfl) (by decide)⟩
    · exact ⟨_, .ident rfl rfl (List.all_eq_true.mp rfl) (by decide)⟩
  have htext : ofText? .nonlinear .root (some text) = .ok (some newton) := by decide +kernel
  obtain ⟨-, hqualified, -, -⟩ :=
    qualified_accepted_iff (List.cons_ne_nil _ _) hnames .nonlinear .root text
  exact ⟨hnames, htext, (hqualified _).mpr ⟨newton, htext, rfl⟩⟩

end SolverChoice

end DesignProcess
