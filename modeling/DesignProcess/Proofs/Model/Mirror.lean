import DesignProcess.Proofs.Model.Fault

namespace DesignProcess.Model

mutual

inductive Mirrors (fs : FileSystem) (r : Registry) : KeyPath → ModelSpec → Model → Prop
  | component {path : KeyPath} {request : ComponentRequest} {known : Registration}
      {fresh c : Component} (found : r.get? request.id = some known)
      (created : known.factory.create fs = .ok fresh) (absorbed : fresh.Absorbs request.options c) :
      Mirrors fs r path (.component request) (.component ⟨request.id, c, request.options⟩)
  | group {path : KeyPath} {texts : SolverTexts} {solvers : Solvers}
      {specs : List (String × ModelSpec)} {children : List (String × Model)}
      (nonlinear : SolverChoice.ofText? .nonlinear (path.key "nonlinear_solver") texts.nonlinear =
        .ok solvers.nonlinear)
      (linear : SolverChoice.ofText? .linear (path.key "linear_solver") texts.linear =
        .ok solvers.linear)
      (each : MirrorsEach fs r path specs children) :
      Mirrors fs r path (.group texts specs) (.group solvers children)

inductive MirrorsEach (fs : FileSystem) (r : Registry) :
    KeyPath → List (String × ModelSpec) → List (String × Model) → Prop
  | nil {path : KeyPath} : MirrorsEach fs r path [] []
  | cons {path : KeyPath} {name : String} {spec : ModelSpec} {child : Model}
      {specs : List (String × ModelSpec)} {children : List (String × Model)}
      (head : Mirrors fs r (path.key name) spec child)
      (tail : MirrorsEach fs r path specs children) :
      MirrorsEach fs r path ((name, spec) :: specs) ((name, child) :: children)

end

variable {fs : FileSystem} {r : Registry}

mutual

theorem Mirrors.nodeCount_eq {path : KeyPath} {spec : ModelSpec} {m : Model}
    (h : Mirrors fs r path spec m) : m.nodeCount = spec.nodeCount := by
  cases h with
  | component found created absorbed => rfl
  | group nonlinear linear each =>
    simp only [nodeCount, ModelSpec.nodeCount]
    rw [each.nodeCounts_eq]

theorem MirrorsEach.nodeCounts_eq {path : KeyPath} {specs : List (String × ModelSpec)}
    {children : List (String × Model)} (h : MirrorsEach fs r path specs children) :
    nodeCounts children = ModelSpec.nodeCounts specs := by
  cases h with
  | nil => rfl
  | cons head tail =>
    simp only [nodeCounts, ModelSpec.nodeCounts]
    rw [head.nodeCount_eq, tail.nodeCounts_eq]

end

mutual

theorem Mirrors.placed {path : KeyPath} {spec : ModelSpec} {m : Model}
    (h : Mirrors fs r path spec m) (above : String) : ∀ e ∈ m.componentsFrom above, ∃ known fresh,
      r.get? e.2.identifier = some known ∧ known.factory.create fs = .ok fresh ∧
        fresh.Absorbs e.2.options e.2.component := by
  cases h with
  | component found created absorbed =>
    intro e he
    rw [componentsFrom, List.mem_singleton] at he
    exact he ▸ ⟨_, _, found, created, absorbed⟩
  | group nonlinear linear each => exact each.placed above

theorem MirrorsEach.placed {path : KeyPath} {specs : List (String × ModelSpec)}
    {children : List (String × Model)} (h : MirrorsEach fs r path specs children) (above : String) :
    ∀ e ∈ componentsOf above children, ∃ known fresh,
      r.get? e.2.identifier = some known ∧ known.factory.create fs = .ok fresh ∧
        fresh.Absorbs e.2.options e.2.component := by
  cases h with
  | nil => exact List.forall_mem_nil _
  | cons head tail => exact List.forall_mem_append.mpr ⟨head.placed _, tail.placed above⟩

end

theorem chooseSolvers_eq_ok_iff {path : KeyPath} {texts : SolverTexts} {solvers : Solvers} :
    chooseSolvers path texts = .ok solvers ↔
      SolverChoice.ofText? .nonlinear (path.key "nonlinear_solver") texts.nonlinear =
          .ok solvers.nonlinear ∧
        SolverChoice.ofText? .linear (path.key "linear_solver") texts.linear =
          .ok solvers.linear := by
  unfold chooseSolvers
  rw [Except.bind_eq_ok_iff]
  constructor
  · rintro ⟨nonlinear, hn, h⟩
    obtain ⟨linear, hl, h⟩ := Except.bind_eq_ok_iff.mp h
    obtain rfl := Except.ok.inj h
    exact ⟨hn, hl⟩
  · rintro ⟨hn, hl⟩
    exact ⟨_, hn, Except.bind_eq_ok_iff.mpr ⟨_, hl, rfl⟩⟩

mutual

theorem buildNode_eq_ok_iff {path : KeyPath} {spec : ModelSpec} {m : Model} :
    (buildNode fs r path spec).result = .ok m ↔ Mirrors fs r path spec m := by
  cases spec with
  | component request =>
    simp only [buildNode, Progress.result_bind, Progress.result_ofExcept, Progress.result_report,
      Progress.result_pure]
    rw [Except.bind_eq_ok_iff]
    constructor
    · rintro ⟨placement, hplace, h⟩
      obtain ⟨known, fresh, c, found, created, absorbed, rfl⟩ := place_eq_ok_iff.mp hplace
      obtain rfl := Except.ok.inj h
      exact .component found created absorbed
    · intro h
      cases h with
      | component found created absorbed =>
        exact ⟨_, place_eq_ok_iff.mpr ⟨_, _, _, found, created, absorbed, rfl⟩, rfl⟩
  | group texts specs =>
    simp only [buildNode, Progress.result_bind, Progress.result_ofExcept, Progress.result_report,
      Progress.result_pure]
    have hsolvers {solvers : Solvers} :
        orMalformed (chooseSolvers path texts) = .ok solvers ↔
          chooseSolvers path texts = .ok solvers := by
      cases chooseSolvers path texts <;> simp [orMalformed]
    simp only [Except.bind_eq_ok_iff, hsolvers, chooseSolvers_eq_ok_iff]
    constructor
    · rintro ⟨solvers, ⟨nonlinear, linear⟩, children, hchildren, -, -, h⟩
      obtain rfl := Except.ok.inj h
      exact .group nonlinear linear (buildChildren_eq_ok_iff.mp hchildren)
    · intro h
      cases h with
      | group nonlinear linear each =>
        exact ⟨_, ⟨nonlinear, linear⟩, _, buildChildren_eq_ok_iff.mpr each, (), trivial, rfl⟩

theorem buildChildren_eq_ok_iff {path : KeyPath} {specs : List (String × ModelSpec)}
    {children : List (String × Model)} :
    (buildChildren fs r path specs).result = .ok children ↔
      MirrorsEach fs r path specs children := by
  cases specs with
  | nil =>
    constructor
    · intro h
      obtain rfl := Except.ok.inj h
      exact .nil
    · rintro ⟨⟩
      rfl
  | cons spec rest =>
    obtain ⟨name, spec⟩ := spec
    simp only [buildChildren, Progress.result_bind, Progress.result_pure, Except.bind_eq_ok_iff]
    constructor
    · rintro ⟨child, hchild, others, hothers, h⟩
      obtain rfl := Except.ok.inj h
      exact .cons (buildNode_eq_ok_iff.mp hchild) (buildChildren_eq_ok_iff.mp hothers)
    · intro h
      cases h with
      | cons head tail =>
        exact ⟨_, buildNode_eq_ok_iff.mpr head, _, buildChildren_eq_ok_iff.mpr tail, rfl⟩

end

theorem build_eq_ok_iff {spec : ModelSpec} {m : Model} :
    (build fs r spec).result = .ok m ↔ Mirrors fs r (KeyPath.root.key "model") spec m :=
  buildNode_eq_ok_iff

end DesignProcess.Model
