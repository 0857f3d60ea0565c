import DesignProcess.Proofs.Component.Declaring
import DesignProcess.Proofs.Model.Mirror
import DesignProcess.Proofs.Registry.Runs
import Mathlib.Data.List.Nodup

namespace DesignProcess.Registry

def Call.IsDiscovery : Call → Prop
  | .register .. => False
  | .discover .. => True

def Settled (r : Registry) : Prop :=
  ∀ e ∈ r.registrations.entries, ∃ t, e.2.factory = .declared t ∧ t.Settled

variable {r r' : Registry}

theorem Settled.registerType {origin : Origin} {t : ComponentType} (hr : r.Settled)
    (ht : t.Settled) (h : r.registerType origin t = .ok r') : r'.Settled := by
  intro e he
  rcases List.mem_cons.mp ((register_perm h).mem_iff.mp he) with rfl | hold
  · exact ⟨t, rfl, ht⟩
  · exact hr e hold

theorem Settled.registerTypes {origin : Origin} {types : List ComponentType} (hr : r.Settled)
    (htypes : ∀ t ∈ types, t.Settled)
    (h : types.foldlM (Registry.registerType · origin) r = .ok r') : r'.Settled := by
  induction types generalizing r with
  | nil =>
    cases h
    exact hr
  | cons t rest ih =>
    rw [List.foldlM_cons, Except.bind_eq_ok_iff] at h
    obtain ⟨middle, ht, hrest⟩ := h
    obtain ⟨hhead, htail⟩ := List.forall_mem_cons.mp htypes
    exact ih (hr.registerType hhead ht) htail hrest

theorem builtin_settled (h : builtin = .ok r) : r.Settled := by
  have hempty : empty.Settled := fun e he => nomatch he
  exact hempty.registerTypes Builtin.catalog_settled h

theorem Settled.discover {fs : FileSystem} {base : Option Path} {folders : List Path} {n : Nat}
    (hr : r.Settled) (h : r.discover fs base folders = .ok (r', n)) : r'.Settled := by
  obtain ⟨hreads, -, hgains, -⟩ := discover_sound h
  intro e he
  rcases List.mem_append.mp (hgains.mem_iff.mp he) with hold | hnew
  · exact hr e hold
  · obtain ⟨d, hd, rfl⟩ := List.mem_map.mp hnew
    exact ⟨d.2, rfl, Manifest.declared_settled hreads hd⟩

theorem Settled.perform {call : Call} (hr : r.Settled) (hcall : call.IsDiscovery) :
    (r.perform call).2.Settled := by
  cases call with
  | register id factory origin => cases hcall
  | discover fs base folders =>
    cases h : r.discover fs base folders with
    | ok staged => simpa only [Registry.perform, discoverInPlace, h] using hr.discover h
    | error e => simpa only [Registry.perform, discoverInPlace, h] using hr

theorem Settled.run {calls : List Call} (hr : r.Settled)
    (hcalls : ∀ call ∈ calls, call.IsDiscovery) : (r.run calls).2.Settled := by
  induction calls generalizing r with
  | nil => exact hr
  | cons call rest ih =>
    obtain ⟨hhead, htail⟩ := List.forall_mem_cons.mp hcalls
    exact ih (hr.perform hhead) htail

theorem Settled.get? (hr : r.Settled) {id : String} {reg : Registration}
    (h : r.get? id = some reg) : ∃ t, reg.factory = .declared t ∧ t.Settled :=
  hr (id, reg) (Dictionary.get?_eq_some_iff.mp h)

theorem Settled.create (hr : r.Settled) {fs : FileSystem} {id : String} {reg : Registration}
    {c : Component} (h : r.get? id = some reg) (hc : reg.factory.create fs = .ok c) :
    ∃ t, reg.factory = .declared t ∧ t.Settled ∧ c.Obeys t := by
  obtain ⟨t, ht, hsettled⟩ := hr.get? h
  rw [ht] at hc
  exact ⟨t, ht, hsettled, Component.create_obeys hsettled hc⟩

theorem values_stay_admitted {start : Registry} (hstart : builtin = .ok start) {calls : List Call}
    (hcalls : ∀ call ∈ calls, call.IsDiscovery) :
    let r := (start.run calls).2
    (∀ id path factory fs c settings, r.resolve id path = .ok factory →
      factory.create fs = .ok c → ∃ t, factory = .declared t ∧
        ∀ name v, (name, v) ∈ (c.attemptAll settings).options → ∃ rule ∈ t.options,
          rule.name = name ∧ (∀ other ∈ t.options, other.name = name → other = rule) ∧
            rule.check v = .ok v ∧ rule.Admits v) ∧
      ∀ fs spec m, (Model.build fs r spec).result = .ok m → ∀ e ∈ m.components,
        ∃ reg t, r.get? e.2.identifier = some reg ∧ reg.factory = .declared t ∧
          ∀ name v, (name, v) ∈ e.2.component.options ∨ (name, v) ∈ e.2.options →
            ∃ rule ∈ t.options, rule.name = name ∧
              ∀ x, v.toFloat? = some x → rule.AdmitsNumber x := by
  intro r
  have hr : r.Settled := (builtin_settled hstart).run hcalls
  constructor
  · intro id path factory fs c settings hresolve hcreate
    obtain ⟨reg, hget, rfl⟩ := Model.resolve_eq_ok_iff.mp hresolve
    obtain ⟨t, ht, hsettled, hobeys⟩ := hr.create hget hcreate
    refine ⟨t, ht, ?_⟩
    intro name v hmem
    obtain ⟨rule, hrule, rfl, hadmits⟩ := (hobeys.attemptAll settings).reported hmem
    refine ⟨rule, hrule, rfl, ?_, OptionRule.check_eq_self_iff.mpr hadmits, hadmits⟩
    intro other hother hname
    exact List.inj_on_of_nodup_map hsettled.distinct hother hrule hname
  · intro fs spec m hbuild e he
    obtain ⟨reg, fresh, hget, hcreate, habsorbs⟩ :=
      (Model.build_eq_ok_iff.mp hbuild).placed "" e he
    obtain ⟨t, ht, -, hobeys⟩ := hr.create hget hcreate
    refine ⟨reg, t, hget, ht, ?_⟩
    rintro name v (hreported | hgiven)
    · obtain ⟨rule, hrule, hname, hadmits⟩ := (hobeys.absorbs habsorbs).reported hreported
      exact ⟨rule, hrule, hname, fun x hx => hadmits.number hx⟩
    · obtain ⟨rule, hrule, hname, stored, hcheck⟩ := hobeys.accepted habsorbs hgiven
      exact ⟨rule, hrule, hname, fun x hx => OptionRule.number_of_check hcheck hx⟩

theorem values_stay_admitted_margin :
    let manifest :=
      "component=[\x7bid='trim',option=[\x7bname='margin',kind='float',default=1\x7d]\x7d]"
    let fs : FileSystem := ⟨.folder [("m", .folder [("a.toml", .file manifest.toUTF8)])], []⟩
    let margin : OptionRule := ⟨"margin", .float, some (.float 1), none, none, []⟩
    let trim : ComponentType := ⟨"trim", "", [], [margin], []⟩
    let calls : List Call := [.discover fs none [⟨"m"⟩]]
    let settings := [("margin", .float (0 / 0)), ("gain", .boolean true)]
    let c := trim.fresh
    ∃ start, builtin = .ok start ∧ (∀ call ∈ calls, call.IsDiscovery) ∧
      (start.run calls).1 = [.discovered 1] ∧
      (start.run calls).2.resolve "trim" .root = .ok (.declared trim) ∧
      (Factory.declared trim).create fs = .ok c ∧
      (c.attemptAll settings).options = [("margin", .float 1)] ∧
      margin.check (.float 1) = .ok (.float 1) := by
  intro manifest fs margin trim calls settings c
  have hfound : Manifest.ofFolder fs ⟨"m"⟩ = .ok [(⟨"m/a.toml"⟩, trim)] := by
    let written : Manifest.ComponentEntry :=
      ⟨"trim", "", [], [], [], [⟨"margin", .float, some (.integer 1), none, none, []⟩]⟩
    have hread : Manifest.ofText? .toml manifest = some [written] := by decide +kernel
    have htypes : Manifest.componentTypes ⟨"m/a.toml"⟩ [written] = .ok [trim] := by decide
    have hpath : Path.join ⟨"m"⟩ ⟨"a.toml"⟩ = ⟨"m/a.toml"⟩ := by decide +kernel
    exact Manifest.ofFolder_single rfl hpath (by decide +kernel) hread htypes
  obtain ⟨start, hstart⟩ := builtin_succeeds
  have hnew : start.get? "trim" = none := by
    have hbuiltin : builtin.map (·.get? "trim") = .ok none := by decide +kernel
    rw [hstart] at hbuiltin
    exact Except.ok.inj hbuiltin
  obtain ⟨after, hafter⟩ : ∃ after, start.registerAll [(⟨"m/a.toml"⟩, trim)] = .ok after :=
    registerAll_complete ⟨List.nodup_singleton _, List.forall_mem_singleton.mpr hnew⟩
  have hdiscover : start.discover fs none [⟨"m"⟩] = .ok (after, 1) := discover_single hfound hafter
  have hcalls : ∀ call ∈ calls, call.IsDiscovery := List.forall_mem_singleton.mpr trivial
  have hrun : start.run calls = ([.discovered 1], after) := by
    simp only [calls, run, perform, discoverInPlace, hdiscover]
  have hget : after.get? "trim" = some ⟨"trim", .declared trim, .discovered ⟨"m/a.toml"⟩⟩ := by
    obtain ⟨-, hgains⟩ := registerAll_sound hafter
    exact hgains.get?_eq_some_iff.mpr (.inr ⟨_, List.mem_singleton_self _, rfl⟩)
  have hresolve : (start.run calls).2.resolve "trim" .root = .ok (.declared trim) := by
    rw [hrun]
    exact Model.resolve_eq_ok_iff.mpr ⟨_, hget, rfl⟩
  have hcreate : (Factory.declared trim).create fs = .ok c := rfl
  have hoptions : (c.attemptAll settings).options = [("margin", .float 1)] := by decide
  obtain ⟨hreported, -⟩ := values_stay_admitted hstart hcalls
  obtain ⟨t, ht, hvalues⟩ := hreported "trim" .root _ fs c settings hresolve hcreate
  cases ht
  obtain ⟨rule, hrule, -, -, hcheck, -⟩ :=
    hvalues "margin" (.float 1) (hoptions ▸ List.mem_singleton_self _)
  obtain rfl := List.mem_singleton.mp hrule
  exact ⟨start, hstart, hcalls, congrArg Prod.fst hrun, hresolve, hcreate, hoptions, hcheck⟩

end DesignProcess.Registry
