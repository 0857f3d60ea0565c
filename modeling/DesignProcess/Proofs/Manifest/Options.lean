import DesignProcess.Manifest.Checking
import DesignProcess.Proofs.Component.Bounds

namespace DesignProcess.Manifest

structure OptionEntry.Bounded (e : OptionEntry) : Prop where
  finite : e.rule.FiniteBounds
  ordered : ∀ l ∈ e.lower, ∀ u ∈ e.upper, Decimal.value l ≤ Decimal.value u

structure OptionEntry.Sound (e : OptionEntry) : Prop extends e.Bounded where
  default : ∀ v ∈ e.default, e.rule.Admits (e.kind.widen v)

def OptionEntry.declaredRule (e : OptionEntry) : OptionRule where
  name := e.name
  kind := e.kind
  default := e.default.map e.kind.widen
  lower := e.lower
  upper := e.upper
  allowed := e.allowed

inductive OptionEntry.InfiniteBound (e : OptionEntry) : Float → Prop
  | lower {l : Float} (hl : e.lower = some l) (infinite : l.isFinite = false) : InfiniteBound e l
  | upper {u : Float} (hu : e.upper = some u) (infinite : u.isFinite = false)
      (lower : ∀ l ∈ e.lower, l.isFinite = true) : InfiniteBound e u

inductive OptionEntry.Flawed (component : String) (names : List String) (e : OptionEntry) :
    Flaw → Prop
  | repeated (taken : e.name ∈ names) : Flawed component names e (.repeatedOption component e.name)
  | infinite {b : Float} (fresh : e.name ∉ names) (h : e.InfiniteBound b) :
      Flawed component names e (.infiniteBound component e.name b)
  | crossed {l u : Float} (fresh : e.name ∉ names) (finite : e.rule.FiniteBounds)
      (hl : e.lower = some l) (hu : e.upper = some u) (h : Decimal.value u < Decimal.value l) :
      Flawed component names e (.crossedBounds component e.name l u)

inductive OptionEntry.Faulty (path : Path) (component : String) (names : List String)
    (e : OptionEntry) : Fault → Prop
  | flawed {flaw : Flaw} (h : e.Flawed component names flaw) :
      Faulty path component names e (.invalid path flaw)
  | default {v : Scalar} {reason : ValueFault} (fresh : e.name ∉ names) (bounded : e.Bounded)
      (hv : e.default = some v) (h : e.rule.check v = .error reason) :
      Faulty path component names e (.badDefault path component e.name reason)

variable {path : Path} {component : String} {names : List String} {e : OptionEntry}

theorem infiniteBound?_eq_none_iff : infiniteBound? e = none ↔ e.rule.FiniteBounds := by
  unfold infiniteBound?
  rw [List.find?_eq_none]
  constructor
  · intro h
    constructor
    · intro l hl
      simpa using h l (List.mem_append_left _ (Option.mem_toList.mpr hl))
    · intro u hu
      simpa using h u (List.mem_append_right _ (Option.mem_toList.mpr hu))
  · intro h b hb
    rcases List.mem_append.mp hb with hl | hu
    · simpa using h.lower b (Option.mem_toList.mp hl)
    · simpa using h.upper b (Option.mem_toList.mp hu)

theorem infiniteBound?_eq_some_iff {b : Float} : infiniteBound? e = some b ↔ e.InfiniteBound b := by
  unfold infiniteBound?
  rw [List.find?_append, Option.or_eq_some_iff]
  constructor
  · rintro (h | ⟨hlower, h⟩)
    · exact .lower (Option.mem_toList.mp (List.mem_of_find?_eq_some h))
        (by simpa using List.find?_some h)
    · apply OptionEntry.InfiniteBound.upper (Option.mem_toList.mp (List.mem_of_find?_eq_some h))
      · simpa using List.find?_some h
      · intro l hl
        simpa using List.find?_eq_none.mp hlower l (Option.mem_toList.mpr hl)
  · intro h
    cases h with
    | lower hl infinite => exact .inl (by simp [hl, infinite])
    | upper hu infinite lower =>
      refine .inr ⟨?_, by simp [hu, infinite]⟩
      rw [List.find?_eq_none]
      intro l hl
      simpa using lower l (Option.mem_toList.mp hl)

theorem optionFlaw?_of_flawed {flaw : Flaw} (h : e.Flawed component names flaw) :
    optionFlaw? component names e = some flaw := by
  unfold optionFlaw?
  cases h with
  | repeated taken => rw [if_pos (List.contains_iff_mem.mpr taken)]
  | infinite fresh h =>
    rw [if_neg (mt List.contains_iff_mem.mp fresh), infiniteBound?_eq_some_iff.mpr h]
  | crossed fresh finite hl hu h =>
    have hlt := (Decimal.lt_iff_value_lt (finite.upper _ hu) (finite.lower _ hl)).mpr h
    rw [if_neg (mt List.contains_iff_mem.mp fresh), infiniteBound?_eq_none_iff.mpr finite,
      crossedBounds?_eq_some_iff.mpr ⟨hl, hu, hlt⟩]

theorem optionFlaw?_of_bounded (fresh : e.name ∉ names) (h : e.Bounded) :
    optionFlaw? component names e = none := by
  have hordered : ∀ l u, e.lower = some l → e.upper = some u → ¬u < l := by
    intro l u hl hu
    rw [Decimal.lt_iff_value_lt (h.finite.upper u hu) (h.finite.lower l hl), not_lt]
    exact h.ordered l hl u hu
  unfold optionFlaw?
  rw [if_neg (mt List.contains_iff_mem.mp fresh), infiniteBound?_eq_none_iff.mpr h.finite,
    crossedBounds?_eq_none_iff.mpr hordered]

theorem bounded_or_flawed (component : String) (names : List String) (e : OptionEntry) :
    (e.name ∉ names ∧ e.Bounded) ∨ ∃ flaw, e.Flawed component names flaw := by
  by_cases htaken : e.name ∈ names
  · exact .inr ⟨_, .repeated htaken⟩
  by_cases hfinite : e.rule.FiniteBounds
  · by_cases hordered : ∀ l ∈ e.lower, ∀ u ∈ e.upper, Decimal.value l ≤ Decimal.value u
    · exact .inl ⟨htaken, hfinite, hordered⟩
    · push Not at hordered
      obtain ⟨l, hl, u, hu, h⟩ := hordered
      exact .inr ⟨_, .crossed htaken hfinite hl hu h⟩
  · rw [← infiniteBound?_eq_none_iff, ← ne_eq, Option.ne_none_iff_exists'] at hfinite
    obtain ⟨b, hb⟩ := hfinite
    exact .inr ⟨_, .infinite htaken (infiniteBound?_eq_some_iff.mp hb)⟩

theorem OptionEntry.Sound.stored (h : e.Sound) {v : Scalar} (hv : v ∈ e.default) :
    e.rule.check v = .ok (e.kind.widen v) :=
  OptionRule.check_eq_ok_iff_admits.mpr ⟨h.default v hv, rfl⟩

theorem checkDefault_of_sound (h : e.Sound) :
    checkDefault path component e = .ok e.declaredRule := by
  unfold checkDefault OptionEntry.declaredRule
  cases hdefault : e.default with
  | none =>
    rw [OptionEntry.rule]
    rfl
  | some v =>
    simp only [h.stored hdefault]
    rfl

theorem checkDefault_of_refused {v : Scalar} {reason : ValueFault} (hv : e.default = some v)
    (h : e.rule.check v = .error reason) :
    checkDefault path component e = .error (.badDefault path component e.name reason) := by
  unfold checkDefault
  simp only [hv, h]

theorem sound_or_faulty (path : Path) (component : String) (names : List String)
    (e : OptionEntry) :
    (e.name ∉ names ∧ e.Sound) ∨ ∃ fault, e.Faulty path component names fault := by
  rcases bounded_or_flawed component names e with ⟨hfresh, hbounded⟩ | ⟨flaw, hflaw⟩
  · by_cases hdefault : ∀ v ∈ e.default, e.rule.Admits (e.kind.widen v)
    · exact .inl ⟨hfresh, hbounded, hdefault⟩
    · push Not at hdefault
      obtain ⟨v, hv, hrefused⟩ := hdefault
      cases hcheck : e.rule.check v with
      | ok stored => exact absurd (OptionRule.check_eq_ok_iff_admits.mp hcheck).1 hrefused
      | error reason => exact .inr ⟨_, .default hfresh hbounded hv hcheck⟩
  · exact .inr ⟨_, .flawed hflaw⟩

theorem optionRules_cons_of_sound {rest : List OptionEntry} (fresh : e.name ∉ names)
    (h : e.Sound) : optionRules path component names (e :: rest) =
      (optionRules path component (names ++ [e.name]) rest).map (e.declaredRule :: ·) := by
  rw [optionRules, optionFlaw?_of_bounded fresh h.toBounded, checkDefault_of_sound h]
  cases optionRules path component (names ++ [e.name]) rest <;> rfl

theorem optionRules_cons_of_faulty {rest : List OptionEntry} {fault : Fault}
    (h : e.Faulty path component names fault) :
    optionRules path component names (e :: rest) = .error fault := by
  rw [optionRules]
  cases h with
  | flawed h => rw [optionFlaw?_of_flawed h]
  | default fresh bounded hv h =>
    rw [optionFlaw?_of_bounded fresh bounded, checkDefault_of_refused hv h]
    rfl

def AreNew (names : List String) (entries : List OptionEntry) : Prop :=
  (names ++ entries.map (·.name)).Nodup

theorem areNew_cons {rest : List OptionEntry} :
    AreNew names (e :: rest) ↔ e.name ∉ names ∧ AreNew (names ++ [e.name]) rest := by
  unfold AreNew
  rw [List.append_assoc, List.map_cons, List.singleton_append, iff_and_self]
  intro h hmem
  exact (List.nodup_cons.mp (List.nodup_middle.mp h)).1 (List.mem_append_left _ hmem)

variable {entries before after : List OptionEntry}

theorem optionRules_of_sound (hnew : AreNew names entries) (h : ∀ e ∈ entries, e.Sound) :
    optionRules path component names entries = .ok (entries.map (·.declaredRule)) := by
  induction entries generalizing names with
  | nil => rfl
  | cons e rest ih =>
    obtain ⟨hfresh, hrest⟩ := areNew_cons.mp hnew
    obtain ⟨he, h⟩ := List.forall_mem_cons.mp h
    rw [optionRules_cons_of_sound hfresh he, ih hrest h]
    rfl

theorem optionRules_of_faulty {fault : Fault} (hnew : AreNew names before)
    (hbefore : ∀ b ∈ before, b.Sound)
    (h : e.Faulty path component (names ++ before.map (·.name)) fault) :
    optionRules path component names (before ++ e :: after) = .error fault := by
  -- Each option before the faulty one is sound and adds its name to those that are taken.
  induction before generalizing names with
  | nil =>
    rw [List.map_nil, List.append_nil] at h
    exact optionRules_cons_of_faulty h
  | cons b rest ih =>
    obtain ⟨hfresh, hrest⟩ := areNew_cons.mp hnew
    obtain ⟨hb, hbefore⟩ := List.forall_mem_cons.mp hbefore
    rw [List.map_cons, ← List.singleton_append, ← List.append_assoc] at h
    rw [List.cons_append, optionRules_cons_of_sound hfresh hb, ih hrest hbefore h]
    rfl

theorem allSound_or_faulty (path : Path) (component : String) (entries : List OptionEntry)
    (hnames : names.Nodup) :
    (AreNew names entries ∧ ∀ e ∈ entries, e.Sound) ∨
      ∃ before e after fault, entries = before ++ e :: after ∧ AreNew names before ∧
        (∀ b ∈ before, b.Sound) ∧
        e.Faulty path component (names ++ before.map (·.name)) fault := by
  have hnil : ∀ {names : List String}, names.Nodup → AreNew names [] := by
    intro names h
    rwa [AreNew, List.map_nil, List.append_nil]
  induction entries generalizing names with
  | nil => exact .inl ⟨hnil hnames, List.forall_mem_nil _⟩
  | cons e rest ih =>
    rcases sound_or_faulty path component names e with ⟨hfresh, he⟩ | ⟨fault, hfault⟩
    · have hsnoc : (names ++ [e.name]).Nodup := by
        rw [List.nodup_middle, List.append_nil]
        exact List.nodup_cons.mpr ⟨hfresh, hnames⟩
      rcases ih hsnoc with ⟨hnew, hrest⟩ | ⟨before, e', after, fault, rfl, hnew, hbefore, hfault⟩
      · exact .inl ⟨areNew_cons.mpr ⟨hfresh, hnew⟩, List.forall_mem_cons.mpr ⟨he, hrest⟩⟩
      · refine .inr ⟨e :: before, e', after, fault, rfl, areNew_cons.mpr ⟨hfresh, hnew⟩,
          List.forall_mem_cons.mpr ⟨he, hbefore⟩, ?_⟩
        rwa [List.map_cons, ← List.singleton_append, ← List.append_assoc]
    · refine .inr ⟨[], e, rest, fault, rfl, hnil hnames, List.forall_mem_nil _, ?_⟩
      rwa [List.map_nil, List.append_nil]

end DesignProcess.Manifest
