import DesignProcess.CommandLine.Run
import DesignProcess.Proofs.Assembly.Course
import DesignProcess.Proofs.Assembly.Folders
import DesignProcess.Proofs.Model.Usages
import DesignProcess.Proofs.Optimization.Binding
import DesignProcess.Proofs.Registry.Runs

/-!
Checks beside listings of variables. A check assembles the whole problem, and a listing only needs
the model. Until there is a model both fail alike, and the model that they have is the same.
-/

namespace DesignProcess

namespace Problem

variable {fs : FileSystem} {base : Registry} {d : Document} {p : Problem}

theorem assemble_result (hbase : Registry.builtin = .ok base) :
    (assemble fs d).result = (assembleWith fs base d).result := by
  rw [assemble, Progress.result_bind, Progress.result_ofExcept, hbase]
  rfl

theorem declared_of_bound {m : Model} {driver : Option CallSpec} {o : Optimization} {b : Binding}
    (h : bind m d = .ok (driver, some o))
    (hb : b ∈ o.designVariables ++ o.constraints ++ [o.objective]) : m.Declares b.entry.name := by
  obtain ⟨driver', -, h⟩ := Except.bind_eq_ok_iff.mp h
  obtain ⟨bound, hbound, h⟩ := Except.bind_eq_ok_iff.mp h
  cases h
  obtain ⟨spec, -, hspec⟩ := Except.of_option_mapM_eq_some hbound
  exact Optimization.declared_of_bind hspec hb

end Problem

namespace CommandLine

def printed : Run String → String × String
  | .ok out => (out, "")
  | .error e => ("", e.render ++ "\n")

inductive CheckFails (fs : FileSystem) (config : Path) : Option Problem.Stage → AssemblyError → Prop
  | loading {e : AssemblyError} (h : load fs config = .error e) : CheckFails fs config none e
  | assembly {base : Registry} {d : Document} {e : AssemblyError}
      (hbase : Registry.builtin = .ok base) (hd : load fs config = .ok d)
      (h : (Problem.assemble fs d).result = .error e) :
      CheckFails fs config (some (Problem.stage fs base d)) e

inductive ListingFails (fs : FileSystem) (config : Path) :
    Option Problem.Stage → AssemblyError → Prop
  | loading {e : AssemblyError} (h : load fs config = .error e) : ListingFails fs config none e
  | discovery {base : Registry} {d : Document} {e : AssemblyError}
      (hbase : Registry.builtin = .ok base) (hd : load fs config = .ok d)
      (h : base.discovered fs d.baseDir d.moduleFolders = .error e) :
      ListingFails fs config (some .discovery) e
  | building {base r : Registry} {d : Document} {e : AssemblyError}
      (hbase : Registry.builtin = .ok base) (hd : load fs config = .ok d)
      (hr : base.discovered fs d.baseDir d.moduleFolders = .ok r)
      (h : (Model.build fs r d.model).result = .error e) :
      ListingFails fs config (some .building) e

structure Lists (m : Model) (rows : List (String × String)) : Prop where
  names : rows.map (·.1) = m.variableNames
  increasing : (rows.map (·.1)).Pairwise (· < ·)
  labels : ∀ row ∈ rows, m.Labelled row.1 row.2

def rows (m : Model) : List (String × String) :=
  m.declarations.entries.map fun (name, u) => (name, u.label)

def spaces (n : Nat) : String := String.ofList (List.replicate n ' ')

def rowText (width : Nat) (found : Descriptions) : String × String → String
  | (name, label) =>
    name ++ spaces (width - name.length) ++ "  [" ++ (label ++ spaces (6 - label.length)) ++ "]" ++
      (match found.get? name with
        | some text => "  " ++ text
        | none => "") ++ "\n"

/-- Lengths are counted in bytes here, and in characters where a name is filled up to the width. -/
structure IsWidth (names : List String) (width : Nat) : Prop where
  bound : ∀ name ∈ names, name.utf8ByteSize ≤ width
  attained : width = 0 ∨ ∃ name ∈ names, name.utf8ByteSize = width

def Renders (found : Descriptions) (rows : List (String × String)) (out : String) : Prop :=
  ∃ width, IsWidth (rows.map (·.1)) width ∧
    out = String.join (rows.map (rowText width found)) ++ s!"{rows.length} variable(s) declared.\n"

variable {fs : FileSystem} {config : Path} {file : Option Path} {d : Document} {e : AssemblyError}

theorem ofAssembly_eq {α : Type} (x : Except AssemblyError α) :
    ofAssembly x = x.mapError .assembly := by
  cases x <;> rfl

theorem ofAssembly_eq_ok_iff {α : Type} {x : Except AssemblyError α} {a : α} :
    ofAssembly x = .ok a ↔ x = .ok a := by
  rw [ofAssembly_eq, Except.mapError_eq_ok_iff]

theorem ofAssembly_eq_error_iff {α : Type} {x : Except AssemblyError α} :
    ofAssembly x = .error (.assembly e) ↔ x = .error e := by
  rw [ofAssembly_eq, Except.mapError_eq_error_iff]
  simp

theorem ofDescriptions_ne_assembly {α : Type} {x : Except DescriptionFault α} :
    ofDescriptions x ≠ .error (.assembly e) := by
  cases x <;> simp [ofDescriptions]

theorem check_eq_error_iff : check fs config none = .error (.assembly e) ↔
    load fs config = .error e ∨
      ∃ d, load fs config = .ok d ∧ (Problem.assemble fs d).result = .error e := by
  unfold check
  simp only [Except.bind_eq_error_iff, ofAssembly_eq_error_iff, ofAssembly_eq_ok_iff, loadWith]
  simp [pure, Except.pure]

theorem check_eq_ok_iff {out : String} : check fs config none = .ok out ↔
    ∃ d p, load fs config = .ok d ∧ (Problem.assemble fs d).result = .ok p ∧
      out = Report.problem p ++ s!"✓ '{config.text}' assembled successfully.\n" := by
  unfold check
  simp only [Except.bind_eq_ok_iff, ofAssembly_eq_ok_iff, loadWith]
  simp [pure, Except.pure, eq_comm]

theorem listVariables_eq_error_iff : listVariables fs config file = .error (.assembly e) ↔
    load fs config = .error e ∨ ∃ d, load fs config = .ok d ∧ model fs d = .error e := by
  unfold listVariables
  simp only [Except.bind_eq_error_iff, ofAssembly_eq_error_iff, ofAssembly_eq_ok_iff,
    ofDescriptions_ne_assembly]
  simp [pure, Except.pure]

theorem model_eq {base : Registry} (hbase : Registry.builtin = .ok base) :
    model fs d = base.discovered fs d.baseDir d.moduleFolders >>=
      fun r => (Model.build fs r d.model).result := by
  rw [model, hbase]
  rfl

theorem check_fails_iff :
    check fs config none = .error (.assembly e) ↔ ∃ stage, CheckFails fs config stage e := by
  rw [check_eq_error_iff]
  constructor
  · rintro (h | ⟨d, hd, h⟩)
    · exact ⟨none, .loading h⟩
    · obtain ⟨base, hbase⟩ := Registry.builtin_succeeds
      exact ⟨_, .assembly hbase hd h⟩
  · rintro ⟨stage, h⟩
    cases h with
    | loading h => exact .inl h
    | assembly hbase hd h => exact .inr ⟨_, hd, h⟩

theorem listing_fails_iff : listVariables fs config file = .error (.assembly e) ↔
    ∃ stage, ListingFails fs config stage e := by
  rw [listVariables_eq_error_iff]
  constructor
  · rintro (h | ⟨d, hd, h⟩)
    · exact ⟨none, .loading h⟩
    · obtain ⟨base, hbase⟩ := Registry.builtin_succeeds
      rw [model_eq hbase] at h
      rcases Except.bind_eq_error_iff.mp h with h | ⟨r, hr, h⟩
      · exact ⟨_, .discovery hbase hd h⟩
      · exact ⟨_, .building hbase hd hr h⟩
  · rintro ⟨stage, h⟩
    cases h with
    | loading h => exact .inl h
    | discovery hbase hd h =>
      refine .inr ⟨_, hd, ?_⟩
      rw [model_eq hbase]
      exact Except.bind_eq_error_iff.mpr (.inl h)
    | building hbase hd hr h =>
      refine .inr ⟨_, hd, ?_⟩
      rw [model_eq hbase]
      exact Except.bind_eq_error_iff.mpr (.inr ⟨_, hr, h⟩)

theorem fail_alike {stage : Option Problem.Stage} (hstage : stage ≠ some .binding) :
    CheckFails fs config stage e ↔ ListingFails fs config stage e := by
  constructor
  · intro h
    cases h with
    | loading h => exact .loading h
    | @assembly base d _ hbase hd h =>
      rw [Problem.assemble_result hbase] at h
      cases hs : Problem.stage fs base d with
      | discovery =>
        have hregistry := Problem.fails_discovering_iff.mp ⟨hs, h⟩
        rw [Problem.registry_eq_discovered] at hregistry
        exact .discovery hbase hd hregistry
      | building =>
        obtain ⟨r, hr, hbuild⟩ := Problem.fails_building_iff.mp ⟨hs, h⟩
        rw [Problem.registry_eq_discovered] at hr
        exact .building hbase hd hr hbuild
      | binding =>
        rw [hs] at hstage
        exact absurd rfl hstage
      | done =>
        have hcourse : Problem.Course fs base d _ _ := Problem.assembleWith_course
        rw [hs] at hcourse
        generalize Problem.assembleWith fs base d = p at hcourse h
        cases hcourse
        cases h
  · intro h
    cases h with
    | loading h => exact .loading h
    | discovery hbase hd h =>
      rw [← Problem.registry_eq_discovered] at h
      obtain ⟨hs, hresult⟩ := Problem.fails_discovering_iff.mpr h
      rw [← Problem.assemble_result hbase] at hresult
      exact hs ▸ .assembly hbase hd hresult
    | building hbase hd hr h =>
      rw [← Problem.registry_eq_discovered] at hr
      obtain ⟨hs, hresult⟩ := Problem.fails_building_iff.mpr ⟨_, hr, h⟩
      rw [← Problem.assemble_result hbase] at hresult
      exact hs ▸ .assembly hbase hd hresult

theorem model_of_assembled {p : Problem} (h : (Problem.assemble fs d).result = .ok p) :
    model fs d = .ok p.model := by
  obtain ⟨base, hbase⟩ := Registry.builtin_succeeds
  rw [Problem.assemble_result hbase] at h
  obtain ⟨r, m, bound, hr, hm, -, rfl⟩ := Problem.assembleWith_eq_ok_iff.mp h
  rw [Problem.registry_eq_discovered] at hr
  rw [model_eq hbase]
  exact Except.bind_eq_ok_iff.mpr ⟨r, hr, hm⟩

theorem declared_of_assembled {p : Problem} {o : Optimization} {b : Binding}
    (h : (Problem.assemble fs d).result = .ok p) (ho : p.optimization = some o)
    (hb : b ∈ o.designVariables ++ o.constraints ++ [o.objective]) :
    p.model.Declares b.entry.name := by
  obtain ⟨base, hbase⟩ := Registry.builtin_succeeds
  rw [Problem.assemble_result hbase] at h
  obtain ⟨r, m, ⟨driver, optimization⟩, -, -, hbound, rfl⟩ := Problem.assembleWith_eq_ok_iff.mp h
  obtain rfl : optimization = some o := ho
  exact Problem.declared_of_bound hbound hb

theorem listVariables_of_model {m : Model} (hd : load fs config = .ok d)
    (hm : model fs d = .ok m) : listVariables fs config file =
      (ofDescriptions (describe fs d file)).map (Report.variableList m) := by
  rw [listVariables, hd]
  change (ofAssembly (model fs d) >>= _) = _
  rw [hm]
  cases describe fs d file <;> rfl

theorem lists_rows (m : Model) : Lists m (rows m) where
  names := by
    rw [← Model.names_declarations, rows, List.map_map]
    rfl
  increasing := by
    have hincreasing := m.declarations.names_increasing
    rw [rows, List.map_map]
    exact hincreasing
  labels := by
    intro row hrow
    obtain ⟨⟨name, u⟩, hentry, rfl⟩ := List.mem_map.mp hrow
    exact Model.labelled_of_entry hentry

theorem Lists.mem_names_iff {m : Model} {rows : List (String × String)} (h : Lists m rows)
    {name : String} : name ∈ rows.map (·.1) ↔ m.Declares name := by
  rw [h.names, Model.variableNames, ← Dictionary.contains_iff, Model.contains_variableTable_iff]

theorem isWidth_width (names : List String) : IsWidth names (Report.width names) := by
  have hwidth : Report.width names = (names.map String.utf8ByteSize).max?.getD 0 := by
    rw [Report.width, List.foldl_max, Nat.zero_max]
  rw [hwidth]
  cases hmax : (names.map String.utf8ByteSize).max? with
  | none =>
    obtain rfl : names = [] := List.map_eq_nil_iff.mp (List.max?_eq_none_iff.mp hmax)
    exact ⟨List.forall_mem_nil _, .inl rfl⟩
  | some width =>
    obtain ⟨hmem, hbound⟩ := List.max?_eq_some_iff.mp hmax
    exact ⟨List.forall_mem_map.mp hbound, .inr (List.mem_map.mp hmem)⟩

theorem declaration_eq (width : Nat) (found : Descriptions) (name : String) (u : Model.Usage) :
    Report.declaration width found name u = rowText width found (name, u.label) := by
  unfold Report.declaration rowText Report.padded spaces
  cases h : found.get? name <;> simp [Report.line, String.join, String.append_assoc, h]

theorem renders_variableList (m : Model) (found : Descriptions) :
    Renders found (rows m) (Report.variableList m found) := by
  have hnames : (rows m).map (·.1) = m.declarations.names := by
    rw [rows, List.map_map]
    rfl
  have hcount : Report.line [s!"{m.declarations.size} variable(s) declared."] =
      s!"{(rows m).length} variable(s) declared.\n" := by
    rw [rows, List.length_map]
    change "" ++ (toString m.declarations.size ++ " variable(s) declared.") ++ "\n" = _
    rw [String.empty_append, String.append_assoc]
    rfl
  refine ⟨Report.width m.declarations.names, hnames ▸ isWidth_width _, ?_⟩
  simp only [Report.variableList, declaration_eq, hcount]
  rw [rows, List.map_map]
  rfl

theorem check_and_listing_agree (fs : FileSystem) (config : Path) (file : Option Path) :
    let checked := (run fs (.check config none)).2
    let listed := (run fs (.listVariables config file)).2
    (∀ e, (checked = .error (.assembly e) ↔ ∃ stage, CheckFails fs config stage e) ∧
        (listed = .error (.assembly e) ↔ ∃ stage, ListingFails fs config stage e)) ∧
      (∀ stage e, stage ≠ some .binding →
        (CheckFails fs config stage e ↔ ListingFails fs config stage e)) ∧
      (∀ stage e, ListingFails fs config stage e →
        printed checked = ("", e.render ++ "\n") ∧ printed listed = printed checked) ∧
      ∀ out, checked = .ok out →
        ∃ d p, load fs config = .ok d ∧ (Problem.assemble fs d).result = .ok p ∧
          out = Report.problem p ++ s!"✓ '{config.text}' assembled successfully.\n" ∧
          Lists p.model (rows p.model) ∧
          (∀ o, p.optimization = some o →
            ∀ b ∈ o.designVariables ++ o.constraints ++ [o.objective],
              b.entry.name ∈ (rows p.model).map (·.1)) ∧
          ((∃ f, describe fs d file = .error f ∧ listed = .error (.descriptions f)) ∨
            ∃ found text, describe fs d file = .ok found ∧ listed = .ok text ∧
              Renders found (rows p.model) text) := by
  intro checked listed
  refine ⟨fun e => ⟨check_fails_iff, listing_fails_iff⟩, fun stage e hstage => fail_alike hstage,
    ?_, ?_⟩
  · intro stage e h
    have hbinding : stage ≠ some .binding := by
      rintro rfl
      cases h
    have hchecked : checked = .error (.assembly e) :=
      check_fails_iff.mpr ⟨stage, (fail_alike hbinding).mpr h⟩
    have hlisted : listed = .error (.assembly e) := listing_fails_iff.mpr ⟨stage, h⟩
    rw [hlisted, hchecked]
    exact ⟨rfl, rfl⟩
  · intro out hout
    obtain ⟨d, p, hd, hp, rfl⟩ := check_eq_ok_iff.mp hout
    have hlists : Lists p.model (rows p.model) := lists_rows p.model
    have hlisted : listed =
        (ofDescriptions (describe fs d file)).map (Report.variableList p.model) :=
      listVariables_of_model hd (model_of_assembled hp)
    refine ⟨d, p, hd, hp, rfl, hlists, ?_, ?_⟩
    · intro o ho b hb
      exact hlists.mem_names_iff.mpr (declared_of_assembled hp ho hb)
    · rw [hlisted]
      cases describe fs d file with
      | error f => exact .inl ⟨f, rfl, rfl⟩
      | ok found =>
        exact .inr ⟨found, _, rfl, rfl, renders_variableList p.model found⟩

end CommandLine

end DesignProcess
