import DesignProcess.Proofs.Manifest.Options

namespace DesignProcess.Manifest

structure ComponentEntry.Named (c : ComponentEntry) : Prop where
  nonempty : c.id ≠ ""
  solid : ∀ x ∈ c.id.toList, Text.isBlank x = false

structure ComponentEntry.Sound (c : ComponentEntry) : Prop where
  named : c.Named
  distinct : (c.options.map (·.name)).Nodup
  options : ∀ e ∈ c.options, e.Sound

def ComponentEntry.declaredType (path : Path) (c : ComponentEntry) : ComponentType where
  identifier := c.id
  description := c.description
  interface := c.inputs.map (⟨·, .input⟩) ++ c.outputs.map (⟨·, .output⟩)
  options := c.options.map (·.declaredRule)
  requires := c.requires.map fun p => if p.isRelative then path.parent.join p else p

inductive ComponentEntry.Faulty (path : Path) (c : ComponentEntry) : Fault → Prop
  | identifier (unnamed : ¬c.Named) : Faulty path c (.invalid path (.identifier c.id))
  | option {before after : List OptionEntry} {e : OptionEntry} {fault : Fault} (named : c.Named)
      (split : c.options = before ++ e :: after) (distinct : (before.map (·.name)).Nodup)
      (sound : ∀ b ∈ before, b.Sound) (h : e.Faulty path c.id (before.map (·.name)) fault) :
      Faulty path c fault

variable {path : Path} {c : ComponentEntry}

theorem isIdentifier_iff : isIdentifier c.id = true ↔ c.Named := by
  unfold isIdentifier
  rw [Bool.and_eq_true, Bool.not_eq_true', Bool.not_eq_true', String.isEmpty_eq_false_iff,
    List.any_eq_false]
  simp only [Bool.not_eq_true]
  exact ⟨fun ⟨hnonempty, hsolid⟩ => ⟨hnonempty, hsolid⟩, fun h => ⟨h.nonempty, h.solid⟩⟩

theorem join_eq (base p : Path) : base.join p = if p.isRelative then base.join p else p := by
  cases habsolute : p.isAbsolute <;> simp [Path.isRelative, Path.join, habsolute]

theorem componentType_of_sound (h : c.Sound) :
    componentType path c = .ok (c.declaredType path) := by
  have hnew : AreNew [] c.options := h.distinct
  have hrequires : c.requires.map path.parent.join = (c.declaredType path).requires :=
    List.map_congr_left fun p _ => join_eq path.parent p
  rw [componentType, if_pos (isIdentifier_iff.mpr h.named), optionRules_of_sound hnew h.options,
    hrequires]
  rfl

theorem componentType_of_faulty {fault : Fault} (h : c.Faulty path fault) :
    componentType path c = .error fault := by
  unfold componentType
  cases h with
  | identifier unnamed => rw [if_neg (mt isIdentifier_iff.mp unnamed)]
  | @option before _ _ _ named split distinct sound h =>
    have hnew : AreNew [] before := distinct
    rw [if_pos (isIdentifier_iff.mpr named), split, optionRules_of_faulty hnew sound h]
    rfl

theorem ComponentEntry.sound_or_faulty (path : Path) (c : ComponentEntry) :
    c.Sound ∨ ∃ fault, c.Faulty path fault := by
  by_cases hnamed : c.Named
  · rcases allSound_or_faulty path c.id c.options List.nodup_nil with
      ⟨hdistinct, hoptions⟩ | ⟨before, e, after, fault, hsplit, hdistinct, hbefore, hfault⟩
    · exact .inl ⟨hnamed, hdistinct, hoptions⟩
    · exact .inr ⟨fault, .option hnamed hsplit hdistinct hbefore hfault⟩
  · exact .inr ⟨_, .identifier hnamed⟩

theorem componentType_eq_ok_iff (c : ComponentEntry) (t : ComponentType) :
    componentType path c = .ok t ↔ c.Sound ∧ t = c.declaredType path :=
  (Except.ends_iff componentType_of_sound (fun _ => componentType_of_faulty)
    (c.sound_or_faulty path)).1 t

theorem componentType_eq_error_iff (c : ComponentEntry) (fault : Fault) :
    componentType path c = .error fault ↔ c.Faulty path fault :=
  (Except.ends_iff componentType_of_sound (fun _ => componentType_of_faulty)
    (c.sound_or_faulty path)).2 fault

variable {cs : List ComponentEntry}

theorem componentTypes_eq_ok_iff {types : List ComponentType} :
    componentTypes path cs = .ok types ↔
      (cs ≠ [] ∧ ∀ c ∈ cs, c.Sound) ∧ types = cs.map (·.declaredType path) := by
  unfold componentTypes
  by_cases hempty : cs = []
  · subst hempty
    simp
  · rw [if_neg (mt List.isEmpty_iff.mp hempty), Except.mapM_eq_ok_iff_of componentType_eq_ok_iff]
    simp only [ne_eq, hempty, not_false_eq_true, true_and]

theorem componentTypes_eq_error_iff {fault : Fault} :
    componentTypes path cs = .error fault ↔
      (cs = [] ∧ fault = .invalid path .noComponents) ∨
        ∃ before c after, cs = before ++ c :: after ∧ (∀ b ∈ before, b.Sound) ∧
          c.Faulty path fault := by
  unfold componentTypes
  by_cases hempty : cs = []
  · subst hempty
    simp [eq_comm]
  · rw [if_neg (mt List.isEmpty_iff.mp hempty),
      Except.mapM_eq_error_iff_of componentType_eq_ok_iff componentType_eq_error_iff]
    simp only [hempty, false_and, false_or]

theorem accepted_or_first_fault (path : Path) (cs : List ComponentEntry) :
    (∀ types, componentTypes path cs = .ok types ↔
      (cs ≠ [] ∧ ∀ c ∈ cs, c.Sound) ∧ types = cs.map (·.declaredType path)) ∧
    (∀ c ∈ cs, c.Sound → ∀ e ∈ c.options, ∀ v ∈ e.default,
      e.rule.check v = .ok (e.kind.widen v)) ∧
    ∀ fault, componentTypes path cs = .error fault ↔
      (cs = [] ∧ fault = .invalid path .noComponents) ∨
        ∃ before c after, cs = before ++ c :: after ∧ (∀ b ∈ before, b.Sound) ∧
          c.Faulty path fault := by
  refine ⟨fun types => componentTypes_eq_ok_iff, ?_, fun fault => componentTypes_eq_error_iff⟩
  intro c _ hc e he v hv
  exact (hc.options e he).stored hv

example : componentTypes ⟨"wings/box.toml"⟩ [{
      id := "wing.box", description := "", inputs := ["span"], outputs := ["mass"]
      requires := [⟨"box.csv"⟩, ⟨"/data/box.csv"⟩]
      options := [⟨"margin", .float, some (.integer 1), none, none, []⟩] }] =
    .ok [{
      identifier := "wing.box", description := ""
      interface := [⟨"span", .input⟩, ⟨"mass", .output⟩]
      options := [⟨"margin", .float, some (.float 1), none, none, []⟩]
      requires := [⟨"wings/box.csv"⟩, ⟨"/data/box.csv"⟩] }] := by
  decide

end DesignProcess.Manifest
