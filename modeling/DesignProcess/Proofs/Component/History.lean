import DesignProcess.Proofs.Component.Setting

namespace DesignProcess

namespace OptionRule

def stores? (rule : OptionRule) (setting : String × Scalar) : Option Scalar :=
  if setting.1 = rule.name then (rule.check setting.2).toOption else none

def lastStored? (rule : OptionRule) (settings : List (String × Scalar)) : Option Scalar :=
  settings.reverse.findSome? rule.stores?

variable {rule : OptionRule} {settings more : List (String × Scalar)} {name : String}
  {v stored : Scalar}

theorem stores?_of_ne {setting : String × Scalar} (h : rule.name ≠ setting.1) :
    rule.stores? setting = none :=
  if_neg h.symm

theorem stores?_own (h : rule.name = name) :
    rule.stores? (name, v) = (rule.check v).toOption :=
  if_pos h.symm

theorem stores?_eq_some_iff {setting : String × Scalar} :
    rule.stores? setting = some stored ↔
      setting.1 = rule.name ∧ rule.check setting.2 = .ok stored := by
  by_cases hname : setting.1 = rule.name
  · rw [stores?, if_pos hname]
    cases rule.check setting.2 <;> simp [hname, Except.toOption]
  · simp [stores?, hname]

theorem stores?_own_eq_none_iff :
    rule.stores? (rule.name, v) = none ↔ ∃ reason, rule.check v = .error reason := by
  rw [stores?_own rfl]
  cases rule.check v <;> simp [Except.toOption]

theorem lastStored?_append :
    rule.lastStored? (settings ++ more) =
      (rule.lastStored? more).or (rule.lastStored? settings) := by
  rw [lastStored?, List.reverse_append, List.findSome?_append]
  rfl

theorem lastStored?_single {setting : String × Scalar} :
    rule.lastStored? [setting] = rule.stores? setting :=
  List.findSome?_singleton

theorem lastStored?_cons {setting : String × Scalar} :
    rule.lastStored? (setting :: more) = (rule.lastStored? more).or (rule.stores? setting) := by
  rw [← lastStored?_single, ← lastStored?_append]
  rfl

theorem lastStored?_eq_some_iff :
    rule.lastStored? settings = some stored ↔
      ∃ before v later, settings = before ++ (rule.name, v) :: later ∧
        rule.check v = .ok stored ∧
        ∀ w, (rule.name, w) ∈ later → ∃ reason, rule.check w = .error reason := by
  rw [lastStored?, List.findSome?_eq_some_iff]
  constructor
  · rintro ⟨later, ⟨name, v⟩, before, hsplit, hv, hlater⟩
    obtain ⟨hname, hcheck⟩ := stores?_eq_some_iff.mp hv
    refine ⟨before.reverse, v, later.reverse, ?_, hcheck, ?_⟩
    · rw [← hname, ← List.reverse_reverse settings, hsplit]
      simp
    · intro w hw
      exact stores?_own_eq_none_iff.mp (hlater _ (List.mem_reverse.mp hw))
  · rintro ⟨before, v, later, rfl, hcheck, hlater⟩
    refine ⟨later.reverse, (rule.name, v), before.reverse, by simp, ?_, ?_⟩
    · exact stores?_eq_some_iff.mpr ⟨rfl, hcheck⟩
    · rintro ⟨name, w⟩ hw
      by_cases hname : rule.name = name
      · subst hname
        exact stores?_own_eq_none_iff.mpr (hlater w (List.mem_reverse.mp hw))
      · exact stores?_of_ne hname

theorem lastStored?_filter :
    rule.lastStored? (settings.filter (·.1 = rule.name)) = rule.lastStored? settings := by
  induction settings with
  | nil => rfl
  | cons setting rest ih =>
    rw [lastStored?_cons, ← ih]
    by_cases hname : setting.1 = rule.name
    · rw [List.filter_cons_of_pos (by simpa using hname), lastStored?_cons]
    · rw [List.filter_cons_of_neg (by simpa using hname), stores?_of_ne (Ne.symm hname),
        Option.or_none]

end OptionRule

def OptionSlot.settled (slot : OptionSlot) (settings : List (String × Scalar)) : OptionSlot :=
  { slot with value := (slot.rule.lastStored? settings).or slot.value }

namespace OptionSlot

variable {slot : OptionSlot} {name : String} {v : Scalar}

theorem settled_nil : slot.settled [] = slot := rfl

theorem settled_append (settings more : List (String × Scalar)) :
    slot.settled (settings ++ more) = (slot.settled settings).settled more := by
  simp only [settled, OptionRule.lastStored?_append, Option.or_assoc]

theorem settled_of_ne (h : slot.rule.name ≠ name) : slot.settled [(name, v)] = slot := by
  rw [settled, OptionRule.lastStored?_single, OptionRule.stores?_of_ne h, Option.none_or]

theorem settled_own (h : slot.rule.name = name) :
    slot.settled [(name, v)] =
      { slot with value := (slot.rule.check v).toOption.or slot.value } := by
  rw [settled, OptionRule.lastStored?_single, OptionRule.stores?_own h]

end OptionSlot

namespace Component

variable {c : Component} {t : ComponentType} {slots : List OptionSlot} {name : String} {v : Scalar}

theorem setSlot_eq_unsupported_iff {option : String} :
    setSlot name v slots = .error (.unsupported option) ↔
      option = name ∧ name ∉ slots.map (·.rule.name) := by
  induction slots with
  | nil => simp [setSlot, eq_comm]
  | cons slot rest ih =>
    rw [setSlot, List.map_cons, List.mem_cons, not_or]
    split
    · rename_i hname
      cases slot.rule.check v <;> simp [hname]
    · rename_i hname
      rw [Except.map_eq_error_iff, ih]
      simp [Ne.symm hname]

theorem setSlot_eq_invalid_iff {option : String} {reason : ValueFault}
    (hnames : (slots.map (·.rule.name)).Nodup) :
    setSlot name v slots = .error (.invalid option reason) ↔
      option = name ∧ ∃ slot ∈ slots, slot.rule.name = name ∧
        slot.rule.check v = .error reason := by
  induction slots with
  | nil => simp [setSlot]
  | cons slot rest ih =>
    obtain ⟨hslot, hrest⟩ := List.nodup_cons.mp hnames
    rw [setSlot]
    split
    · rename_i hname
      constructor
      · intro h
        cases hcheck : slot.rule.check v with
        | ok stored =>
          rw [hcheck] at h
          cases h
        | error found =>
          rw [hcheck] at h
          cases h
          exact ⟨rfl, slot, List.mem_cons_self, hname, hcheck⟩
      · rintro ⟨rfl, other, hother, hsame, hcheck⟩
        rcases List.mem_cons.mp hother with rfl | hother
        · rw [hcheck]
        · exact absurd (List.mem_map.mpr ⟨other, hother, hsame.trans hname.symm⟩) hslot
    · rename_i hname
      rw [Except.map_eq_error_iff, ih hrest]
      simp [hname]

theorem map_settled_of_notMem (h : name ∉ slots.map (·.rule.name)) :
    slots.map (·.settled [(name, v)]) = slots := by
  rw [List.map_congr_left, List.map_id]
  intro slot hslot
  apply OptionSlot.settled_of_ne
  rintro rfl
  exact h (List.mem_map_of_mem hslot)

theorem setSlot_settled (hnames : (slots.map (·.rule.name)).Nodup) :
    (setSlot name v slots).toOption.getD slots = slots.map (·.settled [(name, v)]) := by
  induction slots with
  | nil => rfl
  | cons slot rest ih =>
    obtain ⟨hslot, hrest⟩ := List.nodup_cons.mp hnames
    rw [setSlot, List.map_cons]
    split
    · rename_i hname
      rw [OptionSlot.settled_own hname, map_settled_of_notMem (hname ▸ hslot)]
      cases slot.rule.check v <;> rfl
    · rename_i hname
      rw [OptionSlot.settled_of_ne hname, ← ih hrest]
      cases setSlot name v rest <;> rfl

theorem attempt_eq (hnames : (c.slots.map (·.rule.name)).Nodup) :
    c.attempt name v = { c with slots := c.slots.map (·.settled [(name, v)]) } := by
  rw [← setSlot_settled hnames, attempt, set]
  cases setSlot name v c.slots <;> rfl

theorem settled_names (settings : List (String × Scalar)) :
    (slots.map (·.settled settings)).map (·.rule.name) = slots.map (·.rule.name) :=
  List.map_map

theorem attemptAll_eq (hnames : (c.slots.map (·.rule.name)).Nodup)
    (settings : List (String × Scalar)) :
    c.attemptAll settings = { c with slots := c.slots.map (·.settled settings) } := by
  induction settings generalizing c with
  | nil => simp [attemptAll, OptionSlot.settled_nil]
  | cons setting rest ih =>
    have hrest : c.attemptAll (setting :: rest) =
        (c.attempt setting.1 setting.2).attemptAll rest := rfl
    have hboth : ∀ slot : OptionSlot, (slot.settled [setting]).settled rest =
        slot.settled (setting :: rest) := fun slot => (slot.settled_append [setting] rest).symm
    rw [hrest, attempt_eq hnames, ih ((settled_names [setting]).symm ▸ hnames), List.map_map]
    simp only [Function.comp_def, hboth]

theorem attemptAll_of_refused {settings later : List (String × Scalar)} {fault : OptionFault}
    (h : (c.attemptAll settings).set name v = .error fault) :
    c.attemptAll (settings ++ (name, v) :: later) = c.attemptAll (settings ++ later) := by
  have hsame : (c.attemptAll settings).attempt name v = c.attemptAll settings := by
    rw [attempt, h]
  simp only [attemptAll, List.foldl_append, List.foldl_cons]
  exact congrArg (fun d => d.attemptAll later) hsame

theorem attemptAll_reordered {settings others : List (String × Scalar)}
    (hnames : (c.slots.map (·.rule.name)).Nodup)
    (h : ∀ name, others.filter (·.1 = name) = settings.filter (·.1 = name)) :
    c.attemptAll others = c.attemptAll settings := by
  have hslot : ∀ slot : OptionSlot, slot.settled others = slot.settled settings := by
    intro slot
    rw [OptionSlot.settled, ← OptionRule.lastStored?_filter, h, OptionRule.lastStored?_filter]
    rfl
  rw [attemptAll_eq hnames, attemptAll_eq hnames]
  simp only [hslot]

theorem fresh_names (t : ComponentType) :
    t.fresh.slots.map (·.rule.name) = t.options.map (·.name) :=
  List.map_map

theorem options_hold_last_accepted (hnames : (t.options.map (·.name)).Nodup)
    (settings : List (String × Scalar)) :
    let c := t.fresh.attemptAll settings
    (c.options = t.options.filterMap fun rule =>
      ((rule.lastStored? settings).or rule.default).map fun v => (rule.name, v)) ∧
    (∀ rule ∈ t.options, ∀ stored, rule.lastStored? settings = some stored ↔
      ∃ before v later, settings = before ++ (rule.name, v) :: later ∧
        rule.check v = .ok stored ∧
        ∀ w, (rule.name, w) ∈ later → ∃ reason, rule.check w = .error reason) ∧
    (∀ name v option, c.set name v = .error (.unsupported option) ↔
      option = name ∧ name ∉ t.options.map (·.name)) ∧
    (∀ name v option reason, c.set name v = .error (.invalid option reason) ↔
      option = name ∧ ∃ rule ∈ t.options, rule.name = name ∧ rule.check v = .error reason) ∧
    (∀ name v fault later, c.set name v = .error fault →
      t.fresh.attemptAll (settings ++ (name, v) :: later) =
        t.fresh.attemptAll (settings ++ later)) ∧
    ∀ others, (∀ name, others.filter (·.1 = name) = settings.filter (·.1 = name)) →
      t.fresh.attemptAll others = c := by
  intro c
  have hfresh : (t.fresh.slots.map (·.rule.name)).Nodup := (fresh_names t).symm ▸ hnames
  have hc : c = { t.fresh with slots := t.fresh.slots.map (·.settled settings) } :=
    attemptAll_eq hfresh settings
  have hrules : c.slots.map (·.rule) = t.options := by
    rw [hc, List.map_map, ComponentType.fresh, List.map_map]
    exact List.map_id _
  have hslots : c.slots.map (·.rule.name) = t.options.map (·.name) := by
    rw [← hrules, List.map_map]
    rfl
  refine ⟨?_, fun rule _ stored => OptionRule.lastStored?_eq_some_iff, ?_, ?_,
    fun name v fault later => attemptAll_of_refused, fun others => attemptAll_reordered hfresh⟩
  · rw [hc, options, ComponentType.fresh, List.map_map, List.filterMap_map]
    rfl
  · intro name v option
    rw [set, Except.map_eq_error_iff, setSlot_eq_unsupported_iff, hslots]
  · intro name v option reason
    rw [set, Except.map_eq_error_iff, setSlot_eq_invalid_iff (hslots ▸ hnames)]
    apply and_congr_right'
    rw [← hrules]
    constructor
    · rintro ⟨slot, hslot, hslot'⟩
      exact ⟨slot.rule, List.mem_map_of_mem hslot, hslot'⟩
    · rintro ⟨rule, hrule, hrule'⟩
      obtain ⟨slot, hslot, rfl⟩ := List.mem_map.mp hrule
      exact ⟨slot, hslot, hrule'⟩

theorem options_hold_last_accepted_wing :
    let span : OptionRule := ⟨"span", .float, some (.float 10), some 0, some 80, []⟩
    let label : OptionRule := OptionRule.plain "label" .string
    let wing : ComponentType :=
      ⟨"wing", "", [], [span, label, OptionRule.plain "ribs" .integer], []⟩
    let settings := [("span", .integer 30), ("label", .string "a"), ("span", .integer 90),
      ("sweep", .float 1)]
    let others := [("label", .string "a"), ("span", .integer 30), ("sweep", .float 1),
      ("span", .integer 90)]
    (wing.options.map (·.name)).Nodup ∧
      (wing.fresh.attemptAll settings).options =
        [("span", .float 30), ("label", .string "a")] ∧
      wing.fresh.attemptAll others = wing.fresh.attemptAll settings := by
  intro span label wing settings others
  have hnames : (wing.options.map (·.name)).Nodup := by decide
  have hsame : ∀ name, others.filter (·.1 = name) = settings.filter (·.1 = name) := by
    intro name
    by_cases hspan : "span" = name
    · subst hspan
      rfl
    · simp [settings, others, List.filter_cons, hspan]
  obtain ⟨hoptions, -, -, -, -, hreordered⟩ := options_hold_last_accepted hnames settings
  exact ⟨hnames, hoptions.trans (by decide), hreordered others hsame⟩

end Component

end DesignProcess
