import DesignProcess.Proofs.Model.Mirror

/-!
How the building of a model ends: with the mirror of the description, or with the fault of the
first node that has one when groups come before their children.
-/

namespace DesignProcess.Model

variable {fs : FileSystem} {r : Registry}

mutual

theorem Mirrors.sound {path : KeyPath} {spec : ModelSpec} {m : Model}
    (h : Mirrors fs r path spec m) : ∀ node ∈ spec.nodes path, Sound fs r node := by
  cases h with
  | component found created absorbed =>
    intro node hnode e fault
    obtain rfl := List.mem_singleton.mp hnode
    have hplace : place fs r path _ = .ok _ :=
      place_eq_ok_iff.mpr ⟨_, _, _, found, created, absorbed, rfl⟩
    cases hplace.symm.trans (localFault_component_iff.mp fault)
  | group nonlinear linear each =>
    intro node hnode
    rcases List.mem_cons.mp hnode with rfl | hnode
    · intro e fault
      have hsolvers : chooseSolvers path _ = .ok _ :=
        chooseSolvers_eq_ok_iff.mpr ⟨nonlinear, linear⟩
      have herror := localFault_group_iff.mp fault
      rw [hsolvers] at herror
      cases herror
    · exact each.sound node hnode

theorem MirrorsEach.sound {path : KeyPath} {specs : List (String × ModelSpec)}
    {children : List (String × Model)} (h : MirrorsEach fs r path specs children) :
    ∀ node ∈ ModelSpec.nodesOf path specs, Sound fs r node := by
  cases h with
  | nil =>
    intro node hnode
    cases hnode
  | cons head tail =>
    intro node hnode
    rcases List.mem_append.mp hnode with hnode | hnode
    · exact head.sound node hnode
    · exact tail.sound node hnode

end

mutual

theorem buildNode_firstFault {path : KeyPath} {spec : ModelSpec} {e : AssemblyError}
    (h : (buildNode fs r path spec).result = .error e) : FirstFault fs r (spec.nodes path) e := by
  cases spec with
  | component request =>
    simp only [buildNode, Progress.result_bind, Progress.result_ofExcept, Progress.result_report,
      Progress.result_pure] at h
    rcases Except.bind_eq_error_iff.mp h with hplace | ⟨placement, -, h⟩
    · exact .here (localFault_component_iff.mpr hplace)
    · cases h
  | group texts specs =>
    simp only [buildNode, Progress.result_bind, Progress.result_ofExcept, Progress.result_report,
      Progress.result_pure] at h
    rcases Except.bind_eq_error_iff.mp h with hsolvers | ⟨solvers, hsolvers, h⟩
    · exact .here (localFault_group_iff.mpr hsolvers)
    · rcases Except.bind_eq_error_iff.mp h with hchildren | ⟨children, -, h⟩
      · have hsound : Sound fs r (path, .group texts specs) := by
          intro e' fault
          cases hsolvers.symm.trans (localFault_group_iff.mp fault)
        exact .later hsound (buildChildren_firstFault hchildren)
      · cases h

theorem buildChildren_firstFault {path : KeyPath} {specs : List (String × ModelSpec)}
    {e : AssemblyError} (h : (buildChildren fs r path specs).result = .error e) :
    FirstFault fs r (ModelSpec.nodesOf path specs) e := by
  cases specs with
  | nil => cases h
  | cons spec rest =>
    obtain ⟨name, spec⟩ := spec
    simp only [buildChildren, Progress.result_bind, Progress.result_pure] at h
    rcases Except.bind_eq_error_iff.mp h with hchild | ⟨child, hchild, h⟩
    · exact (buildNode_firstFault hchild).append_left _
    · rcases Except.bind_eq_error_iff.mp h with hothers | ⟨others, -, h⟩
      · have hsound := (buildNode_eq_ok_iff.mp hchild).sound
        exact .append_right hsound (buildChildren_firstFault hothers)
      · cases h

end

theorem buildNode_eq_error_iff {path : KeyPath} {spec : ModelSpec} {e : AssemblyError} :
    (buildNode fs r path spec).result = .error e ↔ FirstFault fs r (spec.nodes path) e := by
  constructor
  · exact buildNode_firstFault
  · intro h
    cases hresult : (buildNode fs r path spec).result with
    | ok m => exact absurd (buildNode_eq_ok_iff.mp hresult).sound h.unsound
    | error e' => rw [h.deterministic (buildNode_firstFault hresult)]

theorem buildNode_succeeds_iff {path : KeyPath} {spec : ModelSpec} :
    (∃ m, (buildNode fs r path spec).result = .ok m) ↔
      ∀ node ∈ spec.nodes path, Sound fs r node := by
  constructor
  · rintro ⟨m, h⟩
    exact (buildNode_eq_ok_iff.mp h).sound
  · intro hs
    cases hresult : (buildNode fs r path spec).result with
    | ok m => exact ⟨m, rfl⟩
    | error e => exact absurd hs (buildNode_firstFault hresult).unsound

theorem build_mirrors_or_first_fault (fs : FileSystem) (r : Registry) (spec : ModelSpec) :
    let path := KeyPath.root.key "model"
    ((∃ m, (build fs r spec).result = .ok m) ↔ ∀ node ∈ spec.nodes path, Sound fs r node) ∧
      (∀ m, (build fs r spec).result = .ok m ↔
        Mirrors fs r path spec m ∧
          (build fs r spec).events.head? = some (.taskStart m.nodeCount)) ∧
      ∀ e, (build fs r spec).result = .error e ↔ FirstFault fs r (spec.nodes path) e := by
  intro path
  refine ⟨buildNode_succeeds_iff, fun m => ?_, fun e => buildNode_eq_error_iff⟩
  constructor
  · intro h
    have hm : Mirrors fs r path spec m := buildNode_eq_ok_iff.mp h
    refine ⟨hm, ?_⟩
    rw [hm.nodeCount_eq]
    rfl
  · rintro ⟨hm, -⟩
    exact buildNode_eq_ok_iff.mpr hm

end DesignProcess.Model
