import DesignProcess.Proofs.Model.Settings
import DesignProcess.Proofs.Component.Checking

namespace DesignProcess

structure ComponentType.Settled (t : ComponentType) : Prop where
  distinct : (t.options.map (·.name)).Nodup
  defaults : ∀ rule ∈ t.options, ∀ v ∈ rule.default, rule.Admits v

namespace Component

structure Obeys (c : Component) (t : ComponentType) : Prop where
  rules : c.slots.map (·.rule) = t.options
  values : ∀ slot ∈ c.slots, ∀ v ∈ slot.value, slot.rule.Admits v

def attempt (c : Component) (name : String) (v : Scalar) : Component :=
  match c.set name v with
  | .ok after => after
  | .error _ => c

def attemptAll (c : Component) (settings : List (String × Scalar)) : Component :=
  settings.foldl (fun c (name, v) => c.attempt name v) c

variable {c d : Component} {t : ComponentType} {name : String} {v : Scalar}
  {settings : List (String × Scalar)}

theorem setSlot_eq_ok {slots after : List OptionSlot} (h : setSlot name v slots = .ok after) :
    ∃ before slot rest stored, slots = before ++ slot :: rest ∧ slot.rule.name = name ∧
      slot.rule.check v = .ok stored ∧
      after = before ++ { slot with value := some stored } :: rest := by
  induction slots generalizing after with
  | nil => cases h
  | cons slot rest ih =>
    rw [setSlot] at h
    split at h
    · rename_i hname
      split at h
      · rename_i stored hstored
        cases h
        exact ⟨[], slot, rest, stored, rfl, hname, hstored, rfl⟩
      · cases h
    · obtain ⟨after, hafter, rfl⟩ := Except.map_eq_ok_iff.mp h
      obtain ⟨before, found, tail, stored, rfl, hname, hstored, rfl⟩ := ih hafter
      exact ⟨slot :: before, found, tail, stored, rfl, hname, hstored, rfl⟩

theorem set_eq_ok (h : c.set name v = .ok d) :
    ∃ before slot rest stored, c.slots = before ++ slot :: rest ∧ slot.rule.name = name ∧
      slot.rule.check v = .ok stored ∧
      d = { c with slots := before ++ { slot with value := some stored } :: rest } := by
  obtain ⟨after, hafter, rfl⟩ := Except.map_eq_ok_iff.mp h
  obtain ⟨before, slot, rest, stored, hslots, hname, hstored, rfl⟩ := setSlot_eq_ok hafter
  exact ⟨before, slot, rest, stored, hslots, hname, hstored, rfl⟩

theorem fresh_obeys (ht : t.Settled) : t.fresh.Obeys t where
  rules := by
    rw [ComponentType.fresh, List.map_map]
    exact List.map_id _
  values := by
    intro slot hslot v hv
    obtain ⟨rule, hrule, rfl⟩ := List.mem_map.mp hslot
    exact ht.defaults rule hrule v hv

theorem create_obeys {fs : FileSystem} (ht : t.Settled) (h : t.create fs = .ok c) : c.Obeys t := by
  unfold ComponentType.create at h
  split at h
  · cases h
  · cases h
    exact fresh_obeys ht

theorem Obeys.set (hc : c.Obeys t) (h : c.set name v = .ok d) : d.Obeys t := by
  obtain ⟨before, slot, rest, stored, hslots, -, hstored, rfl⟩ := set_eq_ok h
  have hvalues := hc.values
  rw [hslots, List.forall_mem_append, List.forall_mem_cons] at hvalues
  obtain ⟨hbefore, -, hrest⟩ := hvalues
  constructor
  · rw [← hc.rules, hslots]
    simp
  · rw [List.forall_mem_append, List.forall_mem_cons]
    refine ⟨hbefore, ?_, hrest⟩
    rintro _ ⟨⟩
    exact OptionRule.admits_of_check hstored

theorem Obeys.attempt (hc : c.Obeys t) (name : String) (v : Scalar) :
    (c.attempt name v).Obeys t := by
  unfold Component.attempt
  split
  · rename_i after h
    exact hc.set h
  · exact hc

theorem Obeys.attemptAll (hc : c.Obeys t) (settings : List (String × Scalar)) :
    (c.attemptAll settings).Obeys t := by
  induction settings generalizing c with
  | nil => exact hc
  | cons setting rest ih => exact ih (hc.attempt setting.1 setting.2)

theorem Obeys.absorbs (hc : c.Obeys t) (h : c.Absorbs settings d) : d.Obeys t := by
  induction h with
  | nil c => exact hc
  | cons head tail ih => exact ih (hc.set head)

theorem Obeys.reported (hc : c.Obeys t) (h : (name, v) ∈ c.options) :
    ∃ rule ∈ t.options, rule.name = name ∧ rule.Admits v := by
  obtain ⟨slot, hslot, hv⟩ := List.mem_filterMap.mp h
  obtain ⟨_, hvalue, heq⟩ := Option.map_eq_some_iff.mp hv
  cases heq
  refine ⟨slot.rule, ?_, rfl, hc.values slot hslot v hvalue⟩
  rw [← hc.rules]
  exact List.mem_map_of_mem hslot

theorem Obeys.accepted (hc : c.Obeys t) (h : c.Absorbs settings d) (hmem : (name, v) ∈ settings) :
    ∃ rule ∈ t.options, rule.name = name ∧ ∃ stored, rule.check v = .ok stored := by
  induction h with
  | nil c => cases hmem
  | cons head tail ih =>
    rcases List.mem_cons.mp hmem with heq | hmem
    · cases heq
      obtain ⟨before, slot, rest, stored, hslots, hname, hstored, -⟩ := set_eq_ok head
      refine ⟨slot.rule, ?_, hname, stored, hstored⟩
      rw [← hc.rules, hslots]
      simp
    · exact ih (hc.set head) hmem

end Component

end DesignProcess
