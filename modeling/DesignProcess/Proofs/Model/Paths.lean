import DesignProcess.Proofs.Document.Naming
import DesignProcess.Proofs.Model.Mirror
import Mathlib.Data.List.Nodup

namespace DesignProcess.Model

open Text (IsName AreNames joined pieces)

theorem childPath_joined {names : List String} {name : String} (h : AreNames names) :
    childPath (joined names) name = joined (names ++ [name]) := by
  unfold childPath
  by_cases hne : names = []
  · subst hne
    rfl
  · have hfalse : (joined names).isEmpty = false := by
      simpa using Text.joined_ne_empty h hne
    rw [Text.joined_snoc hne, hfalse]
    rfl

inductive WellNamed : Model → Prop
  | component (placement : Placement) : WellNamed (.component placement)
  | group {solvers : Solvers} {children : List (String × Model)}
      (distinct : (children.map (·.1)).Nodup)
      (names : ∀ e ∈ children, IsName e.1)
      (each : ∀ e ∈ children, WellNamed e.2) : WellNamed (.group solvers children)

theorem MirrorsEach.names_eq {fs : FileSystem} {r : Registry} {path : KeyPath}
    {specs : List (String × ModelSpec)} {children : List (String × Model)}
    (h : MirrorsEach fs r path specs children) : children.map (·.1) = specs.map (·.1) := by
  induction specs generalizing children with
  | nil =>
    cases h
    rfl
  | cons spec rest ih =>
    cases h with
    | cons head tail => rw [List.map_cons, List.map_cons, ih tail]

mutual

theorem Mirrors.wellNamed {fs : FileSystem} {r : Registry} {path : KeyPath} {spec : ModelSpec}
    {m : Model} (h : Mirrors fs r path spec m) (hspec : spec.WellNamed) : m.WellNamed := by
  cases h with
  | component found created absorbed => exact .component _
  | group nonlinear linear children =>
    cases hspec with
    | group distinct names each =>
      have hdistinct := children.names_eq.symm ▸ distinct
      apply WellNamed.group hdistinct
      · intro e he
        have hmem := children.names_eq ▸ List.mem_map_of_mem he
        obtain ⟨e', he', heq⟩ := List.mem_map.mp hmem
        exact heq ▸ names e' he'
      · exact children.wellNamed each

theorem MirrorsEach.wellNamed {fs : FileSystem} {r : Registry} {path : KeyPath}
    {specs : List (String × ModelSpec)} {children : List (String × Model)}
    (h : MirrorsEach fs r path specs children) (hspecs : ∀ e ∈ specs, e.2.WellNamed) :
    ∀ e ∈ children, e.2.WellNamed := by
  cases h with
  | nil => exact List.forall_mem_nil _
  | cons head tail =>
    obtain ⟨hhead, htail⟩ := List.forall_mem_cons.mp hspecs
    exact List.forall_mem_cons.mpr ⟨head.wellNamed hhead, tail.wellNamed htail⟩

end

mutual

def leaves : Model → List (List String × Placement)
  | component placement => [([], placement)]
  | group _ children => leavesOf children

def leavesOf : List (String × Model) → List (List String × Placement)
  | [] => []
  | (name, child) :: rest => child.leaves.map (fun e => (name :: e.1, e.2)) ++ leavesOf rest

end

def descend? (m : Model) (names : List String) : Option Model :=
  names.foldlM (fun node name => node.child? name) m

theorem find?_eq_descend? (m : Model) (q : String) : m.find? q = m.descend? (pieces q) := by
  rw [find?, descend?, pieces, List.foldlM_map]

theorem mem_leavesOf_iff {children : List (String × Model)} {names : List String} {p : Placement} :
    (names, p) ∈ leavesOf children ↔
      ∃ name child rest, (name, child) ∈ children ∧ names = name :: rest ∧
        (rest, p) ∈ child.leaves := by
  induction children with
  | nil => simp [leavesOf]
  | cons e others ih =>
    obtain ⟨k, c⟩ := e
    rw [leavesOf, List.mem_append, List.mem_map, ih]
    constructor
    · rintro (⟨e, he, heq⟩ | ⟨name, child, rest, hchild, hnames, hp⟩)
      · cases heq
        exact ⟨k, c, e.1, List.mem_cons_self, rfl, he⟩
      · exact ⟨name, child, rest, List.mem_cons_of_mem _ hchild, hnames, hp⟩
    · rintro ⟨name, child, rest, hchild, rfl, hp⟩
      rcases List.mem_cons.mp hchild with heq | hmem
      · cases heq
        exact .inl ⟨_, hp, rfl⟩
      · exact .inr ⟨name, child, rest, hmem, rfl, hp⟩

theorem areNames_of_mem_leaves {m : Model} {names : List String} {p : Placement}
    (h : m.WellNamed) (hp : (names, p) ∈ m.leaves) : AreNames names := by
  induction names generalizing m with
  | nil => exact List.forall_mem_nil _
  | cons name rest ih =>
    cases h with
    | component placement => simp [leaves] at hp
    | group distinct hnames each =>
      obtain ⟨_, child, _, hchild, heq, hp⟩ := mem_leavesOf_iff.mp hp
      cases heq
      exact List.forall_mem_cons.mpr ⟨hnames _ hchild, ih (each _ hchild) hp⟩

theorem descend?_eq_component_iff {m : Model} {names : List String} {p : Placement}
    (h : m.WellNamed) : m.descend? names = some (.component p) ↔ (names, p) ∈ m.leaves := by
  induction names generalizing m with
  | nil =>
    cases h with
    | component placement => simp [descend?, leaves, eq_comm]
    | group distinct hnames each => simp [descend?, leaves, mem_leavesOf_iff]
  | cons name rest ih =>
    cases h with
    | component placement => simp [descend?, leaves, child?]
    | @group solvers children distinct hnames each =>
      have hstep : (Model.group solvers children).descend? (name :: rest) =
          (children.lookup name).bind (·.descend? rest) := rfl
      rw [hstep, leaves, mem_leavesOf_iff, Option.bind_eq_some_iff]
      constructor
      · rintro ⟨child, hlookup, hp⟩
        have hchild := (lookup_eq_some_iff_mem distinct).mp hlookup
        exact ⟨name, child, rest, hchild, rfl, (ih (each _ hchild)).mp hp⟩
      · rintro ⟨_, child, _, hchild, heq, hp⟩
        cases heq
        have hlookup := (lookup_eq_some_iff_mem distinct).mpr hchild
        exact ⟨child, hlookup, (ih (each _ hchild)).mpr hp⟩

mutual

theorem WellNamed.nodup_leaves {m : Model} (h : m.WellNamed) : (m.leaves.map (·.1)).Nodup := by
  cases h with
  | component placement => exact List.nodup_singleton _
  | group distinct names each => exact nodup_leavesOf distinct each

theorem nodup_leavesOf {children : List (String × Model)} (hdistinct : (children.map (·.1)).Nodup)
    (heach : ∀ e ∈ children, e.2.WellNamed) : ((leavesOf children).map (·.1)).Nodup := by
  cases children with
  | nil => exact List.nodup_nil
  | cons e rest =>
    obtain ⟨name, child⟩ := e
    obtain ⟨hname, hrest⟩ := List.nodup_cons.mp hdistinct
    obtain ⟨hchild, hothers⟩ := List.forall_mem_cons.mp heach
    have hhead : ((child.leaves.map fun e => (name :: e.1, e.2)).map (·.1)).Nodup := by
      have hleaves := hchild.nodup_leaves.map (List.cons_injective (a := name))
      rw [List.map_map] at hleaves ⊢
      exact hleaves
    rw [leavesOf, List.map_append, List.nodup_append]
    refine ⟨hhead, nodup_leavesOf hrest hothers, ?_⟩
    -- The leaves of a child begin with its name, which no later child has.
    rintro names hfirst _ hlater rfl
    obtain ⟨⟨_, p⟩, hp, rfl⟩ := List.mem_map.mp hlater
    obtain ⟨k, c, others, hc, heq, -⟩ := mem_leavesOf_iff.mp hp
    obtain ⟨e, he, rfl⟩ := List.mem_map.mp hfirst
    obtain ⟨e', -, rfl⟩ := List.mem_map.mp he
    cases heq
    exact hname (List.mem_map.mpr ⟨_, hc, rfl⟩)

end

mutual

theorem componentsFrom_eq {m : Model} (h : m.WellNamed) {above : List String}
    (habove : AreNames above) :
    m.componentsFrom (joined above) = m.leaves.map fun e => (joined (above ++ e.1), e.2) := by
  cases h with
  | component placement => simp [componentsFrom, leaves]
  | group distinct names each => exact componentsOf_eq names each habove

theorem componentsOf_eq {children : List (String × Model)}
    (hnames : ∀ e ∈ children, IsName e.1)
    (heach : ∀ e ∈ children, e.2.WellNamed) {above : List String} (habove : AreNames above) :
    componentsOf (joined above) children =
      (leavesOf children).map fun e => (joined (above ++ e.1), e.2) := by
  cases children with
  | nil => rfl
  | cons e rest =>
    obtain ⟨name, child⟩ := e
    obtain ⟨hname, hrest⟩ := List.forall_mem_cons.mp hnames
    obtain ⟨hchild, hothers⟩ := List.forall_mem_cons.mp heach
    have hbelow : AreNames (above ++ [name]) :=
      List.forall_mem_append.mpr ⟨habove, List.forall_mem_singleton.mpr hname⟩
    rw [componentsOf, leavesOf, childPath_joined habove, componentsFrom_eq hchild hbelow,
      componentsOf_eq hrest hothers habove, List.map_append, List.map_map]
    simp [Function.comp_def]

end

theorem components_eq {m : Model} (h : m.WellNamed) :
    m.components = m.leaves.map fun e => (joined e.1, e.2) :=
  componentsFrom_eq h (List.forall_mem_nil _)

theorem mem_components_iff {m : Model} (h : m.WellNamed) {names : List String}
    (hnames : AreNames names) {p : Placement} :
    (joined names, p) ∈ m.components ↔ (names, p) ∈ m.leaves := by
  rw [components_eq h, List.mem_map]
  constructor
  · rintro ⟨⟨others, p'⟩, hp, heq⟩
    obtain ⟨hjoined, rfl⟩ := Prod.mk.inj heq
    have hothers : AreNames others := areNames_of_mem_leaves h hp
    rwa [← Text.joined_inj_on hothers hnames hjoined]
  · intro hp
    exact ⟨_, hp, rfl⟩

theorem find?_eq_component_iff {m : Model} (h : m.WellNamed) (q : String) (p : Placement) :
    m.find? q = some (.component p) ↔ (joined (pieces q), p) ∈ m.components := by
  rw [find?_eq_descend?, descend?_eq_component_iff h, mem_components_iff h (Text.areNames_pieces q)]

theorem nodup_paths {m : Model} (h : m.WellNamed) : (m.components.map (·.1)).Nodup := by
  have hmap : m.components.map (·.1) = (m.leaves.map (·.1)).map joined := by
    rw [components_eq h, List.map_map, List.map_map]
    rfl
  rw [hmap]
  apply List.Nodup.map_on ?_ h.nodup_leaves
  intro names hnames others hothers heq
  obtain ⟨e, he, rfl⟩ := List.mem_map.mp hnames
  obtain ⟨e', he', rfl⟩ := List.mem_map.mp hothers
  exact Text.joined_inj_on (areNames_of_mem_leaves h he) (areNames_of_mem_leaves h he') heq

theorem joined_pieces_of_mem {m : Model} (h : m.WellNamed) {path : String} {p : Placement}
    (hp : (path, p) ∈ m.components) : joined (pieces path) = path := by
  rw [components_eq h, List.mem_map] at hp
  obtain ⟨e, he, heq⟩ := hp
  cases heq
  rw [Text.pieces_joined (areNames_of_mem_leaves h he)]

/-- A path is followed whatever empty pieces it has; what it is listed as has none. -/
theorem find_iff_listed {fs : FileSystem} {r : Registry} {v : Value} {d : Document} {m : Model}
    (hd : Document.ofValue v = .ok d) (hm : (build fs r d.model).result = .ok m) :
    (m.components.map (·.1)).Nodup ∧
      (∀ q, (∃ p, m.find? q = some (.component p)) ↔
        joined (pieces q) ∈ m.components.map (·.1)) ∧
      (∀ q p, m.find? q = some (.component p) ↔ (joined (pieces q), p) ∈ m.components) ∧
      (∀ path p, (path, p) ∈ m.components → m.find? path = some (.component p)) ∧
      ∀ p, m = .component p → m.components = [("", p)] ∧ m.find? "" = some (.component p) := by
  have h : m.WellNamed := (build_eq_ok_iff.mp hm).wellNamed (Document.model_wellNamed hd)
  refine ⟨nodup_paths h, fun q => ?_, find?_eq_component_iff h, fun path p hp => ?_, ?_⟩
  · constructor
    · rintro ⟨p, hp⟩
      exact List.mem_map_of_mem ((find?_eq_component_iff h q p).mp hp)
    · intro hq
      obtain ⟨⟨path, p⟩, hp, rfl⟩ := List.mem_map.mp hq
      exact ⟨p, (find?_eq_component_iff h q p).mpr hp⟩
  · rw [find?_eq_component_iff h, joined_pieces_of_mem h hp]
    exact hp
  · rintro p rfl
    exact ⟨rfl, rfl⟩

theorem find_iff_listed_wing :
    let wing : ComponentType := ⟨"wing", "", [⟨"area", .output⟩], [], []⟩
    let r : Registry := ⟨Dictionary.empty.insert "wing" ⟨"wing", .declared wing, .builtIn⟩⟩
    let fs : FileSystem := ⟨.folder [], []⟩
    let part : Value := .table [("id", .scalar (.string "wing"))]
    let v : Value := .table [("model", .table [("linear_solver", .null),
      ("left", .table [("wing", part)]), ("right", .table [("wing", part)])])]
    ∃ d m p, Document.ofValue v = .ok d ∧ (build fs r d.model).result = .ok m ∧
      m.components = [("left.wing", p), ("right.wing", p)] ∧
      (m.components.map (·.1)).Nodup ∧ m.find? "left..wing." = some (.component p) ∧
      ¬∃ p, m.find? "left" = some (.component p) := by
  intro wing r fs part v
  let w : ModelSpec := .component ⟨"wing", []⟩
  let spec : ModelSpec := .group ⟨none, none⟩
    [("left", .group ⟨none, none⟩ [("wing", w)]), ("right", .group ⟨none, none⟩ [("wing", w)])]
  have hd : Document.ofValue v = .ok ⟨"", [], none, none, none, spec, none, none⟩ := rfl
  let p : Placement := ⟨"wing", wing.fresh, []⟩
  let m : Model := .group ⟨none, none⟩ [("left", .group ⟨none, none⟩ [("wing", .component p)]),
    ("right", .group ⟨none, none⟩ [("wing", .component p)])]
  have hm : (build fs r spec).result = .ok m := rfl
  have hlisted : m.components = [("left.wing", p), ("right.wing", p)] := rfl
  obtain ⟨hnodup, hiff, hfind, -⟩ := find_iff_listed hd hm
  refine ⟨_, m, p, hd, hm, hlisted, hnodup, ?_, ?_⟩
  · apply (hfind "left..wing." p).mpr
    rw [hlisted]
    exact List.mem_cons_self
  · rw [hiff, hlisted]
    decide

end DesignProcess.Model
