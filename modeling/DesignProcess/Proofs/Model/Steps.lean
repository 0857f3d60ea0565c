import DesignProcess.Proofs.Model.Building
import DesignProcess.Proofs.Nesting

/-!
The steps that are reported while a model is built. A node is done when all below it is, so that a
failure comes after the steps of those nodes whose subtrees end before the node that fails.
-/

namespace DesignProcess

namespace ModelSpec

mutual

theorem nodes_isPrefix {path p : KeyPath} {spec s : ModelSpec}
    {before after : List (KeyPath × ModelSpec)} (h : spec.nodes path = before ++ (p, s) :: after) :
    s.nodes p <+: (p, s) :: after := by
  cases before with
  | nil =>
    cases spec with
    | component request =>
      cases h
      exact List.prefix_rfl
    | group texts specs =>
      cases h
      exact List.prefix_rfl
  | cons first before =>
    cases spec with
    | component request =>
      have hlength := congrArg List.length h
      simp [nodes] at hlength
    | group texts specs => exact nodesOf_isPrefix (List.cons.inj h).2

theorem nodesOf_isPrefix {path p : KeyPath} {specs : List (String × ModelSpec)} {s : ModelSpec}
    {before after : List (KeyPath × ModelSpec)}
    (h : nodesOf path specs = before ++ (p, s) :: after) : s.nodes p <+: (p, s) :: after := by
  cases specs with
  | nil =>
    have hlength := congrArg List.length h
    simp [nodesOf] at hlength
  | cons spec rest =>
    rcases List.append_eq_append_iff.mp h with ⟨skipped, -, hrest⟩ | ⟨own, hown, hrest⟩
    · exact nodesOf_isPrefix hrest
    · cases own with
      | nil =>
        have hfirst : nodesOf path rest = [] ++ (p, s) :: after := hrest.symm
        exact nodesOf_isPrefix hfirst
      | cons first own =>
        obtain ⟨rfl, rfl⟩ := List.cons.inj hrest
        exact (nodes_isPrefix hown).trans (List.prefix_append _ _)

end

/-- How many nodes have their whole subtree in a list that begins as the pre-order does: a subtree
takes up as many places from its root on as it has nodes. -/
def finished : List (KeyPath × ModelSpec) → Nat
  | [] => 0
  | node :: rest => (if node.2.nodeCount ≤ rest.length + 1 then 1 else 0) + finished rest

mutual

theorem length_nodes (path : KeyPath) (spec : ModelSpec) :
    (spec.nodes path).length = spec.nodeCount := by
  cases spec with
  | component request => rfl
  | group texts specs => rw [nodes, List.length_cons, length_nodesOf, nodeCount]

theorem length_nodesOf (path : KeyPath) (specs : List (String × ModelSpec)) :
    (nodesOf path specs).length = nodeCounts specs := by
  cases specs with
  | nil => rfl
  | cons spec rest =>
    rw [nodesOf, List.length_append, length_nodes, length_nodesOf, nodeCounts]

end

theorem nodeCount_le_iff_isPrefix {path p : KeyPath} {spec s : ModelSpec}
    {before inner after : List (KeyPath × ModelSpec)}
    (h : spec.nodes path = before ++ (p, s) :: (inner ++ after)) :
    s.nodeCount ≤ inner.length + 1 ↔ s.nodes p <+: (p, s) :: inner := by
  have hown : s.nodes p <+: (p, s) :: (inner ++ after) := nodes_isPrefix h
  have hinner : (p, s) :: inner <+: (p, s) :: (inner ++ after) := by
    rw [← List.cons_append]
    exact List.prefix_append _ _
  rw [← length_nodes p s]
  constructor
  · intro hle
    exact List.prefix_of_prefix_length_le hown hinner hle
  · intro hprefix
    exact hprefix.length_le

theorem finished_cons {path p : KeyPath} {spec s : ModelSpec}
    {before inner after : List (KeyPath × ModelSpec)}
    (h : spec.nodes path = before ++ (p, s) :: (inner ++ after)) :
    (s.nodes p <+: (p, s) :: inner → finished ((p, s) :: inner) = finished inner + 1) ∧
      (¬s.nodes p <+: (p, s) :: inner → finished ((p, s) :: inner) = finished inner) := by
  rw [← nodeCount_le_iff_isPrefix h, finished]
  constructor
  · intro hfits
    rw [if_pos hfits, Nat.add_comm]
  · intro hfits
    rw [if_neg hfits, Nat.zero_add]

mutual

theorem finished_nodes_append (path : KeyPath) (spec : ModelSpec)
    (more : List (KeyPath × ModelSpec)) :
    finished (spec.nodes path ++ more) = spec.nodeCount + finished more := by
  cases spec with
  | component request =>
    have hcount : (component request).nodeCount ≤ more.length + 1 := by
      rw [nodeCount]
      omega
    rw [nodes, List.singleton_append, finished, if_pos hcount, nodeCount]
  | group texts specs =>
    have hcount : (group texts specs).nodeCount ≤ (nodesOf path specs ++ more).length + 1 := by
      rw [nodeCount, List.length_append, length_nodesOf]
      omega
    rw [nodes, List.cons_append, finished, if_pos hcount, finished_nodesOf_append, nodeCount]
    omega

theorem finished_nodesOf_append (path : KeyPath) (specs : List (String × ModelSpec))
    (more : List (KeyPath × ModelSpec)) :
    finished (nodesOf path specs ++ more) = nodeCounts specs + finished more := by
  cases specs with
  | nil => rw [nodesOf, List.nil_append, nodeCounts, Nat.zero_add]
  | cons spec rest =>
    rw [nodesOf, List.append_assoc, finished_nodes_append, finished_nodesOf_append, nodeCounts]
    omega

end

theorem finished_le_length (nodes : List (KeyPath × ModelSpec)) :
    finished nodes ≤ nodes.length := by
  induction nodes with
  | nil => exact Nat.le_refl 0
  | cons node rest ih =>
    rw [finished, List.length_cons]
    split <;> omega

theorem finished_group_cons {path : KeyPath} {texts : SolverTexts}
    {specs : List (String × ModelSpec)} {before after : List (KeyPath × ModelSpec)}
    {node : KeyPath × ModelSpec} (h : nodesOf path specs = before ++ node :: after) :
    finished ((path, .group texts specs) :: before) = finished before := by
  have hlength := length_nodesOf path specs
  rw [h, List.length_append, List.length_cons] at hlength
  have hcount : ¬(group texts specs).nodeCount ≤ before.length + 1 := by
    rw [nodeCount]
    omega
  rw [finished, if_neg hcount, Nat.zero_add]

theorem finished_lt_nodeCount {path : KeyPath} {spec : ModelSpec}
    {before after : List (KeyPath × ModelSpec)} {node : KeyPath × ModelSpec}
    (h : spec.nodes path = before ++ node :: after) : finished before < spec.nodeCount := by
  have hlength := length_nodes path spec
  have hle := finished_le_length before
  rw [h, List.length_append, List.length_cons] at hlength
  omega

end ModelSpec

namespace Model

open ModelSpec (finished)

structure Interrupted (fs : FileSystem) (r : Registry) (nodes before : List (KeyPath × ModelSpec))
    (e : AssemblyError) : Prop where
  fault : ∃ node after, nodes = before ++ node :: after ∧ LocalFault fs r node.1 node.2 e
  sound : ∀ node ∈ before, Sound fs r node

variable {fs : FileSystem} {r : Registry}

theorem Interrupted.append_left {nodes before : List (KeyPath × ModelSpec)} {e : AssemblyError}
    (h : Interrupted fs r nodes before e) (more : List (KeyPath × ModelSpec)) :
    Interrupted fs r (nodes ++ more) before e := by
  obtain ⟨node, after, rfl, hfault⟩ := h.fault
  refine ⟨⟨node, after ++ more, ?_, hfault⟩, h.sound⟩
  rw [List.append_assoc, List.cons_append]

theorem Interrupted.append_right {nodes more before : List (KeyPath × ModelSpec)}
    {e : AssemblyError} (hs : ∀ node ∈ nodes, Sound fs r node)
    (h : Interrupted fs r more before e) :
    Interrupted fs r (nodes ++ more) (nodes ++ before) e := by
  obtain ⟨node, after, rfl, hfault⟩ := h.fault
  refine ⟨⟨node, after, ?_, hfault⟩, List.forall_mem_append.mpr ⟨hs, h.sound⟩⟩
  rw [List.append_assoc]

mutual

theorem buildNode_events_of_ok {path : KeyPath} {spec : ModelSpec} {m : Model}
    (h : (buildNode fs r path spec).result = .ok m) :
    (buildNode fs r path spec).events = List.replicate spec.nodeCount .taskStep := by
  cases spec with
  | component request =>
    simp only [buildNode, Progress.result_bind, Progress.result_ofExcept] at h ⊢
    obtain ⟨placement, hplace, -⟩ := Except.bind_eq_ok_iff.mp h
    rw [Progress.events_bind_of_ok hplace]
    rfl
  | group texts specs =>
    simp only [buildNode, Progress.result_bind, Progress.result_ofExcept] at h ⊢
    obtain ⟨solvers, hsolvers, h⟩ := Except.bind_eq_ok_iff.mp h
    obtain ⟨children, hchildren, -⟩ := Except.bind_eq_ok_iff.mp h
    rw [Progress.events_bind_of_ok hsolvers, Progress.events_bind_of_ok hchildren,
      buildChildren_events_of_ok hchildren, ModelSpec.nodeCount, List.replicate_succ']
    rfl

theorem buildChildren_events_of_ok {path : KeyPath} {specs : List (String × ModelSpec)}
    {children : List (String × Model)} (h : (buildChildren fs r path specs).result = .ok children) :
    (buildChildren fs r path specs).events =
      List.replicate (ModelSpec.nodeCounts specs) .taskStep := by
  cases specs with
  | nil => rfl
  | cons spec rest =>
    obtain ⟨name, spec⟩ := spec
    simp only [buildChildren, Progress.result_bind] at h ⊢
    obtain ⟨child, hchild, h⟩ := Except.bind_eq_ok_iff.mp h
    obtain ⟨others, hothers, -⟩ := Except.bind_eq_ok_iff.mp h
    rw [Progress.events_bind_of_ok hchild, Progress.events_bind_of_ok hothers,
      buildNode_events_of_ok hchild, buildChildren_events_of_ok hothers, Progress.events_pure,
      List.append_nil, ModelSpec.nodeCounts, List.replicate_append_replicate]

end

mutual

theorem buildNode_events_of_error {path : KeyPath} {spec : ModelSpec} {e : AssemblyError}
    (h : (buildNode fs r path spec).result = .error e) :
    ∃ before, Interrupted fs r (spec.nodes path) before e ∧
      (buildNode fs r path spec).events = List.replicate (finished before) .taskStep := by
  cases spec with
  | component request =>
    simp only [buildNode, Progress.result_bind, Progress.result_ofExcept, Progress.result_report,
      Progress.result_pure] at h ⊢
    rcases Except.bind_eq_error_iff.mp h with hplace | ⟨placement, -, h⟩
    · have hfault := localFault_component_iff.mpr hplace
      refine ⟨[], ⟨⟨_, [], rfl, hfault⟩, List.forall_mem_nil _⟩, ?_⟩
      rw [Progress.events_bind_of_error hplace]
      rfl
    · cases h
  | group texts specs =>
    simp only [buildNode, Progress.result_bind, Progress.result_ofExcept, Progress.result_report,
      Progress.result_pure] at h ⊢
    rcases Except.bind_eq_error_iff.mp h with hsolvers | ⟨solvers, hsolvers, h⟩
    · have hfault : LocalFault fs r path (.group texts specs) e :=
        localFault_group_iff.mpr hsolvers
      refine ⟨[], ⟨⟨_, _, rfl, hfault⟩, List.forall_mem_nil _⟩, ?_⟩
      rw [Progress.events_bind_of_error hsolvers]
      rfl
    · rcases Except.bind_eq_error_iff.mp h with hchildren | ⟨children, -, h⟩
      · obtain ⟨before, hinterrupted, hevents⟩ := buildChildren_events_of_error hchildren
        have hsound : Sound fs r (path, .group texts specs) := by
          intro e' fault
          cases hsolvers.symm.trans (localFault_group_iff.mp fault)
        obtain ⟨node, after, hsplit, -⟩ := hinterrupted.fault
        refine ⟨(path, .group texts specs) :: before, ?_, ?_⟩
        · exact hinterrupted.append_right (List.forall_mem_singleton.mpr hsound)
        · rw [Progress.events_bind_of_ok hsolvers, Progress.events_bind_of_error hchildren, hevents,
            ModelSpec.finished_group_cons hsplit]
          rfl
      · cases h

theorem buildChildren_events_of_error {path : KeyPath} {specs : List (String × ModelSpec)}
    {e : AssemblyError} (h : (buildChildren fs r path specs).result = .error e) :
    ∃ before, Interrupted fs r (ModelSpec.nodesOf path specs) before e ∧
      (buildChildren fs r path specs).events = List.replicate (finished before) .taskStep := by
  cases specs with
  | nil => cases h
  | cons spec rest =>
    obtain ⟨name, spec⟩ := spec
    simp only [buildChildren, Progress.result_bind, Progress.result_pure] at h ⊢
    rcases Except.bind_eq_error_iff.mp h with hchild | ⟨child, hchild, h⟩
    · obtain ⟨before, hinterrupted, hevents⟩ := buildNode_events_of_error hchild
      refine ⟨before, hinterrupted.append_left _, ?_⟩
      rw [Progress.events_bind_of_error hchild, hevents]
    · rcases Except.bind_eq_error_iff.mp h with hothers | ⟨others, -, h⟩
      · obtain ⟨before, hinterrupted, hevents⟩ := buildChildren_events_of_error hothers
        have hsound := (buildNode_eq_ok_iff.mp hchild).sound
        refine ⟨_, hinterrupted.append_right hsound, ?_⟩
        rw [Progress.events_bind_of_ok hchild, Progress.events_bind_of_error hothers,
          buildNode_events_of_ok hchild, hevents, ModelSpec.finished_nodes_append,
          List.replicate_append_replicate]
      · cases h

end

mutual

theorem buildNode_nested (path : KeyPath) (spec : ModelSpec) :
    Event.Nested (buildNode fs r path spec).events := by
  cases spec with
  | component request =>
    apply Progress.nested_bind .nil
    intro placement
    apply Progress.nested_bind (.step .nil)
    intro
    exact .nil
  | group texts specs =>
    apply Progress.nested_bind .nil
    intro solvers
    apply Progress.nested_bind (buildChildren_nested path specs)
    intro children
    apply Progress.nested_bind (.step .nil)
    intro
    exact .nil

theorem buildChildren_nested (path : KeyPath) (specs : List (String × ModelSpec)) :
    Event.Nested (buildChildren fs r path specs).events := by
  cases specs with
  | nil => exact .nil
  | cons spec rest =>
    apply Progress.nested_bind (buildNode_nested (path.key spec.1) spec.2)
    intro child
    apply Progress.nested_bind (buildChildren_nested path rest)
    intro children
    exact .nil

end

theorem build_nested (spec : ModelSpec) : Event.Nested (build fs r spec).events := by
  apply Progress.nested_task
  apply buildNode_nested

def steps (total done : Nat) : List Event :=
  .taskStart total :: (List.replicate done .taskStep ++ [.taskEnd])

theorem build_events_of_ok {spec : ModelSpec} {m : Model} (h : (build fs r spec).result = .ok m) :
    (build fs r spec).events = steps spec.nodeCount spec.nodeCount := by
  have hnode : (buildNode fs r (KeyPath.root.key "model") spec).events =
      List.replicate spec.nodeCount .taskStep := by
    apply buildNode_events_of_ok
    exact h
  rw [steps, ← hnode]
  rfl

theorem build_events_of_error {spec : ModelSpec} {e : AssemblyError}
    (h : (build fs r spec).result = .error e) :
    ∃ before, Interrupted fs r (spec.nodes (KeyPath.root.key "model")) before e ∧
      (build fs r spec).events = steps spec.nodeCount (finished before) := by
  have hnode : (buildNode fs r (KeyPath.root.key "model") spec).result = .error e := h
  obtain ⟨before, hinterrupted, hevents⟩ := buildNode_events_of_error hnode
  refine ⟨before, hinterrupted, ?_⟩
  rw [steps, ← hevents]
  rfl

end Model

end DesignProcess
