import DesignProcess.Proofs.Model.Settings

namespace DesignProcess

mutual

def ModelSpec.nodes (path : KeyPath) : ModelSpec → List (KeyPath × ModelSpec)
  | .component request => [(path, .component request)]
  | .group texts children => (path, .group texts children) :: nodesOf path children

def ModelSpec.nodesOf (path : KeyPath) : List (String × ModelSpec) → List (KeyPath × ModelSpec)
  | [] => []
  | (name, child) :: rest => child.nodes (path.key name) ++ nodesOf path rest

end

namespace Model

inductive LocalFault (fs : FileSystem) (r : Registry) (path : KeyPath) :
    ModelSpec → AssemblyError → Prop
  | unknown {request : ComponentRequest} (absent : r.get? request.id = none) :
      LocalFault fs r path (.component request)
        (.unknownComponent request.id (path.key "id") (r.suggestions request.id))
  | creation {request : ComponentRequest} {known : Registration} {fault : CreationFault}
      (found : r.get? request.id = some known) (failed : known.factory.create fs = .error fault) :
      LocalFault fs r path (.component request) (.creationFailed request.id path fault)
  | unsupported {id name : String} {v : Scalar} {before after : List (String × Scalar)}
      {known : Registration} {fresh c : Component} (found : r.get? id = some known)
      (created : known.factory.create fs = .ok fresh) (accepted : fresh.Absorbs before c)
      (refused : c.set name v = .error (.unsupported name)) :
      LocalFault fs r path (.component ⟨id, before ++ (name, v) :: after⟩)
        (.unsupportedOption id name (path.key name))
  | invalid {id name : String} {v : Scalar} {before after : List (String × Scalar)}
      {known : Registration} {fresh c : Component} {reason : ValueFault}
      (found : r.get? id = some known) (created : known.factory.create fs = .ok fresh)
      (accepted : fresh.Absorbs before c) (refused : c.set name v = .error (.invalid name reason)) :
      LocalFault fs r path (.component ⟨id, before ++ (name, v) :: after⟩)
        (.invalidOption id name (path.key name) reason)
  | nonlinear {texts : SolverTexts} {children : List (String × ModelSpec)} {expected : Expectation}
      (refused : SolverChoice.ofText? .nonlinear (path.key "nonlinear_solver") texts.nonlinear =
        .error ⟨path.key "nonlinear_solver", expected⟩) :
      LocalFault fs r path (.group texts children)
        (.malformed ⟨path.key "nonlinear_solver", expected⟩)
  | linear {texts : SolverTexts} {children : List (String × ModelSpec)} {expected : Expectation}
      {choice : SolverChoice}
      (accepted : SolverChoice.ofText? .nonlinear (path.key "nonlinear_solver") texts.nonlinear =
        .ok choice)
      (refused : SolverChoice.ofText? .linear (path.key "linear_solver") texts.linear =
        .error ⟨path.key "linear_solver", expected⟩) :
      LocalFault fs r path (.group texts children)
        (.malformed ⟨path.key "linear_solver", expected⟩)

def Sound (fs : FileSystem) (r : Registry) (node : KeyPath × ModelSpec) : Prop :=
  ∀ e, ¬LocalFault fs r node.1 node.2 e

inductive FirstFault (fs : FileSystem) (r : Registry) :
    List (KeyPath × ModelSpec) → AssemblyError → Prop
  | here {node : KeyPath × ModelSpec} {rest : List (KeyPath × ModelSpec)} {e : AssemblyError}
      (fault : LocalFault fs r node.1 node.2 e) : FirstFault fs r (node :: rest) e
  | later {node : KeyPath × ModelSpec} {rest : List (KeyPath × ModelSpec)} {e : AssemblyError}
      (sound : Sound fs r node) (tail : FirstFault fs r rest e) : FirstFault fs r (node :: rest) e

variable {fs : FileSystem} {r : Registry}

theorem FirstFault.append_left {nodes : List (KeyPath × ModelSpec)} {e : AssemblyError}
    (h : FirstFault fs r nodes e) (more : List (KeyPath × ModelSpec)) :
    FirstFault fs r (nodes ++ more) e := by
  induction h with
  | here fault => exact .here fault
  | later sound tail ih => exact .later sound ih

theorem FirstFault.append_right {nodes more : List (KeyPath × ModelSpec)} {e : AssemblyError}
    (hs : ∀ node ∈ nodes, Sound fs r node) (h : FirstFault fs r more e) :
    FirstFault fs r (nodes ++ more) e := by
  induction nodes with
  | nil => exact h
  | cons node rest ih =>
    obtain ⟨hnode, hrest⟩ := List.forall_mem_cons.mp hs
    exact .later hnode (ih hrest)

theorem FirstFault.unsound {nodes : List (KeyPath × ModelSpec)} {e : AssemblyError}
    (h : FirstFault fs r nodes e) : ¬∀ node ∈ nodes, Sound fs r node := by
  intro hs
  induction h with
  | here fault => exact hs _ List.mem_cons_self _ fault
  | later sound tail ih => exact ih fun node hnode => hs node (List.mem_cons_of_mem _ hnode)

theorem ofText?_error_path {slot : SolverSlot} {path : KeyPath} {text : Option String}
    {m : Malformed} (h : SolverChoice.ofText? slot path text = .error m) : m.path = path := by
  unfold SolverChoice.ofText? at h
  split at h
  · cases h
  · split at h
    · exact Except.error.inj h ▸ rfl
    · unfold SolverChoice.ofCall at h
      split at h
      · exact Except.error.inj h ▸ rfl
      · split at h
        · cases h
        · exact Except.error.inj h ▸ rfl

theorem resolve_eq_ok_iff {id : String} {path : KeyPath} {factory : Factory} :
    r.resolve id path = .ok factory ↔
      ∃ known, r.get? id = some known ∧ known.factory = factory := by
  unfold Registry.resolve
  cases r.get? id with
  | none => simp
  | some known => simp

theorem resolve_eq_error_iff {id : String} {path : KeyPath} {e : AssemblyError} :
    r.resolve id path = .error e ↔
      r.get? id = none ∧ e = .unknownComponent id path (r.suggestions id) := by
  unfold Registry.resolve
  cases r.get? id with
  | none => simp [eq_comm]
  | some known => simp

theorem place_eq_ok_iff {path : KeyPath} {request : ComponentRequest} {placement : Placement} :
    place fs r path request = .ok placement ↔
      ∃ known fresh c, r.get? request.id = some known ∧ known.factory.create fs = .ok fresh ∧
        fresh.Absorbs request.options c ∧ placement = ⟨request.id, c, request.options⟩ := by
  unfold place
  rw [Except.bind_eq_ok_iff]
  constructor
  · rintro ⟨factory, hresolve, h⟩
    obtain ⟨known, hknown, rfl⟩ := resolve_eq_ok_iff.mp hresolve
    cases hcreate : known.factory.create fs with
    | error fault => simp [hcreate] at h
    | ok fresh =>
      simp only [hcreate] at h
      obtain ⟨c, hc, hplacement⟩ := Except.bind_eq_ok_iff.mp h
      exact ⟨known, fresh, c, hknown, hcreate, configure_eq_ok_iff.mp hc,
        (Except.ok.inj hplacement).symm⟩
  · rintro ⟨known, fresh, c, hknown, hcreate, habs, rfl⟩
    refine ⟨known.factory, resolve_eq_ok_iff.mpr ⟨known, hknown, rfl⟩, ?_⟩
    simp only [hcreate]
    exact Except.bind_eq_ok_iff.mpr ⟨c, configure_eq_ok_iff.mpr habs, rfl⟩

theorem localFault_component_iff {path : KeyPath} {request : ComponentRequest} {e : AssemblyError} :
    LocalFault fs r path (.component request) e ↔ place fs r path request = .error e := by
  unfold place
  rw [Except.bind_eq_error_iff]
  constructor
  · intro h
    cases h with
    | unknown absent => exact .inl (resolve_eq_error_iff.mpr ⟨absent, rfl⟩)
    | creation found failed =>
      exact .inr ⟨_, resolve_eq_ok_iff.mpr ⟨_, found, rfl⟩, by simp only [failed]⟩
    | unsupported found created accepted refused =>
      refine .inr ⟨_, resolve_eq_ok_iff.mpr ⟨_, found, rfl⟩, ?_⟩
      simp only [created]
      exact Except.bind_eq_error_iff.mpr (.inl (configure_eq_error_iff.mpr
        ⟨_, _, _, _, _, _, rfl, accepted, refused, rfl⟩))
    | invalid found created accepted refused =>
      refine .inr ⟨_, resolve_eq_ok_iff.mpr ⟨_, found, rfl⟩, ?_⟩
      simp only [created]
      exact Except.bind_eq_error_iff.mpr (.inl (configure_eq_error_iff.mpr
        ⟨_, _, _, _, _, _, rfl, accepted, refused, rfl⟩))
  · rintro (h | ⟨factory, hresolve, h⟩)
    · obtain ⟨absent, rfl⟩ := resolve_eq_error_iff.mp h
      exact .unknown absent
    · obtain ⟨known, found, rfl⟩ := resolve_eq_ok_iff.mp hresolve
      cases created : known.factory.create fs with
      | error fault =>
        simp only [created] at h
        exact Except.error.inj h ▸ .creation found created
      | ok fresh =>
        simp only [created] at h
        obtain hc | ⟨c, -, h⟩ := Except.bind_eq_error_iff.mp h
        · obtain ⟨id, settings⟩ := request
          obtain ⟨before, name, v, after, c, fault, rfl, accepted, refused, rfl⟩ :=
            configure_eq_error_iff.mp hc
          rcases Component.set_error refused with rfl | ⟨reason, rfl⟩
          · exact .unsupported found created accepted refused
          · exact .invalid found created accepted refused
        · cases h

theorem localFault_group_iff {path : KeyPath} {texts : SolverTexts}
    {children : List (String × ModelSpec)} {e : AssemblyError} :
    LocalFault fs r path (.group texts children) e ↔
      orMalformed (chooseSolvers path texts) = .error e := by
  have hmalformed {α : Type} {x : Except Malformed α} :
      orMalformed x = .error e ↔ ∃ m, x = .error m ∧ e = .malformed m := by
    cases x with
    | ok a => simp [orMalformed]
    | error m => simp [orMalformed, eq_comm]
  rw [hmalformed]
  unfold chooseSolvers
  constructor
  · intro h
    cases h with
    | nonlinear refused => exact ⟨_, Except.bind_eq_error_iff.mpr (.inl refused), rfl⟩
    | linear accepted refused =>
      exact ⟨_, Except.bind_eq_error_iff.mpr
        (.inr ⟨_, accepted, Except.bind_eq_error_iff.mpr (.inl refused)⟩), rfl⟩
  · rintro ⟨⟨place, expected⟩, h, rfl⟩
    rcases Except.bind_eq_error_iff.mp h with h | ⟨choice, accepted, h⟩
    · obtain rfl : place = _ := ofText?_error_path h
      exact .nonlinear h
    · rcases Except.bind_eq_error_iff.mp h with h | ⟨choice, -, h⟩
      · obtain rfl : place = _ := ofText?_error_path h
        exact .linear accepted h
      · cases h

theorem LocalFault.deterministic {path : KeyPath} {spec : ModelSpec} {e e' : AssemblyError}
    (h : LocalFault fs r path spec e) (h' : LocalFault fs r path spec e') : e = e' := by
  cases spec with
  | component request =>
    exact Except.error.inj ((localFault_component_iff.mp h).symm.trans
      (localFault_component_iff.mp h'))
  | group texts children =>
    exact Except.error.inj ((localFault_group_iff.mp h).symm.trans (localFault_group_iff.mp h'))

theorem FirstFault.deterministic {nodes : List (KeyPath × ModelSpec)} {e e' : AssemblyError}
    (h : FirstFault fs r nodes e) (h' : FirstFault fs r nodes e') : e = e' := by
  induction h with
  | here fault =>
    cases h' with
    | here fault' => exact fault.deterministic fault'
    | later sound tail => exact absurd fault (sound _)
  | later sound tail ih =>
    cases h' with
    | here fault' => exact absurd fault' (sound _)
    | later sound' tail' => exact ih tail'

end Model

end DesignProcess
