import DesignProcess.Assembly
import DesignProcess.Proofs.Discovery.Staging
import DesignProcess.Proofs.Model.Extension
import Mathlib

/-!
Assembly with further module folders. Components that a description does not ask for have no part
in the problem that it gives.
-/

namespace DesignProcess

namespace Registry

variable {fs : FileSystem} {base : Option Path} {folders more : List Path}
  {r small large : Registry}

theorem discovered_eq_ok_iff {after : Registry} :
    r.discovered fs base folders = .ok after ↔
      ∃ n, r.discover fs base folders = .ok (after, n) := by
  unfold discovered discoverInPlace
  cases h : r.discover fs base folders with
  | ok staged =>
    obtain ⟨staged, n⟩ := staged
    simp [Except.map]
  | error e => simp [Except.map]

theorem discovered_nil : r.discovered fs base [] = .ok r := rfl

theorem declared_subset (h : folders.Sublist more) :
    Manifest.declared fs base folders ⊆ Manifest.declared fs base more := by
  intro d hd
  obtain ⟨folder, hfolder, hdeclared⟩ := List.mem_flatMap.mp hd
  exact List.mem_flatMap.mpr ⟨folder, h.subset hfolder, hdeclared⟩

theorem discovered_extends (hsmall : r.discovered fs base folders = .ok small)
    (hlarge : r.discovered fs base more = .ok large) (h : folders.Sublist more) :
    small.Extends large := by
  obtain ⟨m, hsmall⟩ := discovered_eq_ok_iff.mp hsmall
  obtain ⟨n, hlarge⟩ := discovered_eq_ok_iff.mp hlarge
  obtain ⟨-, -, hfew, -⟩ := discover_sound hsmall
  obtain ⟨-, -, hmany, -⟩ := discover_sound hlarge
  intro id reg hget
  rcases hfew.get?_eq_some_iff.mp hget with hold | ⟨d, hd, hentry⟩
  · exact hmany.get?_eq_some_iff.mpr (.inl hold)
  · exact hmany.get?_eq_some_iff.mpr (.inr ⟨d, declared_subset h hd, hentry⟩)

end Registry

namespace Problem

variable {fs : FileSystem} {base : Registry} {d : Document} {p : Problem}

theorem registry_eq_discovered :
    registry fs base d = base.discovered fs d.baseDir d.moduleFolders := by
  unfold registry
  split
  · rename_i hnone
    rw [List.isEmpty_iff.mp hnone, Registry.discovered_nil]
  · rfl

theorem assembleWith_eq_ok_iff :
    (assembleWith fs base d).result = .ok p ↔
      ∃ r model bound, registry fs base d = .ok r ∧ (Model.build fs r d.model).result = .ok model ∧
        bind model d = .ok bound ∧
        p = ⟨d.title, model, bound.2, bound.1, d.inputFile.map d.resolve,
          d.outputFile.map d.resolve⟩ := by
  have hphase {α : Type} {name : String} {q : Progress AssemblyError α} :
      (Progress.phase name q).result = q.result := rfl
  have hnote {b : Bool} {q : Problem} : (if b = true then (do
      Progress.report undriven
      pure q) else pure q : Progress AssemblyError Problem).result = .ok q := by
    split <;> rfl
  unfold assembleWith
  simp only [Progress.result_bind, hphase, Progress.result_ofExcept, Except.bind_eq_ok_iff, hnote]
  constructor
  · rintro ⟨r, hr, model, hmodel, bound, hbound, hp⟩
    exact ⟨r, model, bound, hr, hmodel, hbound, (Except.ok.inj hp).symm⟩
  · rintro ⟨r, model, bound, hr, hmodel, hbound, rfl⟩
    exact ⟨r, hr, model, hmodel, bound, hbound, rfl⟩

theorem assembly_unchanged_by_folders {folders : List Path} {after : Registry}
    (hp : (assembleWith fs base d).result = .ok p) (hmore : d.moduleFolders.Sublist folders)
    (hdiscovery : registry fs base { d with moduleFolders := folders } = .ok after) :
    (assembleWith fs base { d with moduleFolders := folders }).result = .ok p := by
  obtain ⟨r, model, bound, hr, hmodel, hbound, rfl⟩ := assembleWith_eq_ok_iff.mp hp
  have hextends : r.Extends after := by
    rw [registry_eq_discovered] at hr hdiscovery
    exact Registry.discovered_extends hr hdiscovery hmore
  have hbuild : (Model.build fs after d.model).result = .ok model :=
    Model.build_extend hmodel hextends
  exact assembleWith_eq_ok_iff.mpr ⟨after, model, bound, hdiscovery, hbuild, hbound, rfl⟩

theorem assembly_unchanged_by_folders_tank :
    let manifest := "component=[\x7bid='tank'\x7d]"
    let fs : FileSystem := ⟨.folder [("m", .folder [("a.toml", .file manifest.toUTF8)])], []⟩
    let span : OptionRule := { OptionRule.plain "span" .float with lower := some 0 }
    let wing : ComponentType := ⟨"wing", "", [⟨"area", .output⟩], [span], []⟩
    let base : Registry := ⟨Dictionary.empty.insert "wing" ⟨"wing", .declared wing, .builtIn⟩⟩
    let d : Document := {
      title := "sizing"
      moduleFolders := []
      inputFile := none
      outputFile := none
      driver := none
      model := .group ⟨none, none⟩ [("w", .component ⟨"wing", [("span", .integer 30)]⟩)]
      optimization := none
      baseDir := none }
    ∃ p after, (assembleWith fs base d).result = .ok p ∧
      registry fs base { d with moduleFolders := [⟨"m"⟩] } = .ok after ∧
      after.contains "tank" = true ∧
      (assembleWith fs base { d with moduleFolders := [⟨"m"⟩] }).result = .ok p := by
  intro manifest fs span wing base d
  have hfound : Manifest.ofFolder fs ⟨"m"⟩ = .ok [(⟨"m/a.toml"⟩, ⟨"tank", "", [], [], []⟩)] := by
    have hread : Manifest.ofText? .toml manifest = some [⟨"tank", "", [], [], [], []⟩] := by
      decide +kernel
    have hpath : Path.join ⟨"m"⟩ ⟨"a.toml"⟩ = ⟨"m/a.toml"⟩ := by decide +kernel
    exact Manifest.ofFolder_single rfl hpath (by decide +kernel) hread rfl
  let staged : Registry := ⟨base.registrations.insert "tank"
    ⟨"tank", .declared ⟨"tank", "", [], [], []⟩, .discovered ⟨"m/a.toml"⟩⟩⟩
  have hstage : base.registerAll [(⟨"m/a.toml"⟩, ⟨"tank", "", [], [], []⟩)] = .ok staged := rfl
  have hafter : base.discovered fs none [⟨"m"⟩] = .ok staged :=
    Registry.discovered_eq_ok_iff.mpr ⟨1, Registry.discover_single hfound hstage⟩
  obtain ⟨p, hp⟩ : ∃ p, (assembleWith fs base d).result = .ok p := ⟨_, rfl⟩
  exact ⟨p, _, hp, hafter, rfl, assembly_unchanged_by_folders hp (List.nil_sublist _) hafter⟩

end Problem

end DesignProcess
