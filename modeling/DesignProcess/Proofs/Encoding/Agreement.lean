import DesignProcess.Proofs.Encoding.Lowering
import DesignProcess.Proofs.Encoding.Nodes
import DesignProcess.Proofs.Encoding.Optimizations

/-!
A description says the same in both encodings. The schema does not tell an optional null entry from
an absent one: it accepts both or neither, with one description or one fault.
-/

namespace DesignProcess

open Value (Thins)

variable {v w : Value} {keys : List String}

namespace Document

structure Draft.Unset (d : Draft) (k : String) : Prop where
  title : k = "title" → d.title = none
  moduleFolders : k = "module_folders" → d.moduleFolders = []
  inputFile : k = "input_file" → d.inputFile = none
  outputFile : k = "output_file" → d.outputFile = none
  driver : k = "driver" → d.driver = none
  optimization : k = "optimization" → d.optimization = none

theorem Draft.extend_eq_of_thins (d : Draft) (k : String) (h : Thins (Place.under .root k) v w) :
    d.extend (k, v) = d.extend (k, w) := by
  by_cases hmodel : k = "model"
  · subst hmodel
    simp only [Draft.extend, ModelSpec.ofValue_eq_of_thins _ h rfl]
  · by_cases hoptimization : k = "optimization"
    · subst hoptimization
      simp only [Draft.extend, OptimizationSpec.ofValue_eq_of_thins _ h]
    · have hplace : Place.under .root k = .elsewhere := by
        simp [Place.under, hmodel, hoptimization]
      rw [h.eq_of_elsewhere hplace]

theorem Draft.extend_null (d : Draft) (k : String) (optional : Place.Optional keys .root k)
    (hunset : d.Unset k) : d.extend (k, .null) = .ok d := by
  obtain ⟨title, moduleFolders, inputFile, outputFile, driver, model, optimization⟩ := d
  simp only [Place.Optional, List.mem_cons, List.not_mem_nil, or_false] at optional
  rcases optional with rfl | rfl | rfl | rfl | rfl | rfl
  · obtain rfl : title = none := hunset.title rfl
    rfl
  · obtain rfl : moduleFolders = [] := hunset.moduleFolders rfl
    rfl
  · obtain rfl : inputFile = none := hunset.inputFile rfl
    rfl
  · obtain rfl : outputFile = none := hunset.outputFile rfl
    rfl
  · obtain rfl : driver = none := hunset.driver rfl
    rfl
  · obtain rfl : optimization = none := hunset.optimization rfl
    rfl

theorem Draft.Unset.extend {d t : Draft} {k l : String} (hd : d.Unset l)
    (hstep : d.extend (k, v) = .ok t) (hne : l ≠ k) : t.Unset l := by
  obtain ⟨htitle, hfolders, hinput, houtput, hdriver, hoptimization⟩ := hd
  simp only [Draft.extend] at hstep
  split at hstep
  · obtain ⟨s, -, rfl⟩ := Except.map_eq_ok_iff.mp hstep
    exact ⟨fun h => absurd h hne, hfolders, hinput, houtput, hdriver, hoptimization⟩
  · obtain ⟨ps, -, rfl⟩ := Except.map_eq_ok_iff.mp hstep
    exact ⟨htitle, fun h => absurd h hne, hinput, houtput, hdriver, hoptimization⟩
  · obtain ⟨s, -, rfl⟩ := Except.map_eq_ok_iff.mp hstep
    exact ⟨htitle, hfolders, fun h => absurd h hne, houtput, hdriver, hoptimization⟩
  · obtain ⟨s, -, rfl⟩ := Except.map_eq_ok_iff.mp hstep
    exact ⟨htitle, hfolders, hinput, fun h => absurd h hne, hdriver, hoptimization⟩
  · obtain ⟨s, -, rfl⟩ := Except.map_eq_ok_iff.mp hstep
    exact ⟨htitle, hfolders, hinput, houtput, fun h => absurd h hne, hoptimization⟩
  · obtain ⟨m, -, rfl⟩ := Except.map_eq_ok_iff.mp hstep
    exact ⟨htitle, hfolders, hinput, houtput, hdriver, hoptimization⟩
  · obtain ⟨o, -, rfl⟩ := Except.map_eq_ok_iff.mp hstep
    exact ⟨htitle, hfolders, hinput, houtput, hdriver, fun h => absurd h hne⟩
  · cases hstep

theorem ofValue_eq_of_thins (h : Thins .root v w) : ofValue v = ofValue w := by
  cases h with
  | scalar s => rfl
  | list each => rfl
  | table distinct spelling each =>
    have hempty (k : String) : Draft.empty.Unset k :=
      ⟨fun _ => rfl, fun _ => rfl, fun _ => rfl, fun _ => rfl, fun _ => rfl, fun _ => rfl⟩
    have hfold := each.foldlM_eq (fun d k _ _ hv => Draft.extend_eq_of_thins d k hv)
      Draft.extend_null (fun _ _ _ _ _ hstep hne hd => hd.extend hstep hne) distinct
      fun k _ => hempty k
    simp only [ofValue, hfold]

/-- Descriptions and faults are compared as they are, so that a NaN among the options is itself. -/
theorem encodings_agree {entries : List (Yaml.Value × Yaml.Value)}
    (h : (Yaml.Value.mapping entries).Portable .root) :
    let y := Yaml.Value.mapping entries
    let t := Toml.Value.table (Yaml.Value.entriesWithoutNulls entries)
    (∃ v, Value.ofYaml .root y = .ok v) ∧ (∃ w, Value.ofToml .root t = .ok w) ∧
      (Value.ofYaml .root y >>= ofValue) = (Value.ofToml .root t >>= ofValue) ∧
      ∀ yaml toml, Yaml.read? yaml = some y →
        ((Toml.read? toml).bind Toml.Value.storedEntries?).map Toml.Value.table = some t →
        ofText .yaml yaml = ofText .toml toml := by
  intro y t
  obtain ⟨v, w, hv, hw, hthins⟩ := Value.lowers_of_portable h .root
  have hsame : ofValue v = ofValue w := ofValue_eq_of_thins hthins
  have hagree : (Value.ofYaml .root y >>= ofValue) = (Value.ofToml .root t >>= ofValue) := by
    rw [hv, show Value.ofToml .root t = .ok w from hw]
    exact hsame
  refine ⟨⟨v, hv⟩, ⟨w, hw⟩, hagree, fun yaml toml hyaml htoml => ?_⟩
  obtain ⟨stored, hstored, hentries⟩ := Option.map_eq_some_iff.mp htoml
  simp only [ofText, Value.ofText, Value.ofYamlText, Value.ofTomlText, hyaml, hstored, hentries]
  exact hagree

theorem encodings_agree_wing :
    let wing : Yaml.Value :=
      .mapping [(.string "id", .string "geometry"), (.string "span", .float (0 / 0))]
    let mass : Yaml.Value := .mapping [(.string "upper", .null), (.string "name", .string "mass")]
    let entries : List (Yaml.Value × Yaml.Value) :=
      [(.string "driver", .null),
        (.string "model", .mapping [(.string "linear_solver", .null), (.string "wing", wing)]),
        (.string "optimization",
          .mapping [(.string "constraints", .null), (.string "objective", .sequence [mass])])]
    let y := Yaml.Value.mapping entries
    let t := Toml.Value.table (Yaml.Value.entriesWithoutNulls entries)
    y.Portable .root ∧ (Value.ofYaml .root y >>= ofValue) = (Value.ofToml .root t >>= ofValue) := by
  intro wing mass entries y t
  have hwing : wing.Portable .node := by
    change (Yaml.Value.named [("id", .string "geometry"), ("span", .float (0 / 0))]).Portable .node
    refine .mapping (by decide) (by simp) (by simp) ?_
    simp [Yaml.Value.Portable.string, Yaml.Value.Portable.float]
  have hmass : mass.Portable .entry := by
    change (Yaml.Value.named [("upper", .null), ("name", .string "mass")]).Portable .entry
    refine .mapping (by decide) (by simp) (by simp [Place.Optional]) ?_
    simp [Yaml.Value.Portable.string]
  have hmodel : (Yaml.Value.named [("linear_solver", .null), ("wing", wing)]).Portable .node := by
    refine .mapping (by decide) (by simp) (by simp [wing, Place.Optional, Value.IsSolverKey]) ?_
    simpa [Place.under, wing] using hwing
  have hoptimization : (Yaml.Value.named
      [("constraints", .null), ("objective", .sequence [mass])]).Portable .optimization := by
    refine .mapping (by decide) (fun _ f => by cases f <;> decide) ?_ ?_
    · intro k hk
      obtain rfl : k = "constraints" := by simpa using hk
      exact ⟨.constraints, .inr rfl⟩
    · simpa [Place.under] using Yaml.Value.Portable.sequence (by simpa [Place.item] using hmass)
  have hy : y.Portable .root := by
    change (Yaml.Value.named
      [("driver", .null), ("model", _), ("optimization", _)]).Portable .root
    refine .mapping (by decide) (by simp) ?_ ?_
    · simp [Place.Optional]
    · simpa [Place.under] using ⟨hmodel, hoptimization⟩
  exact ⟨hy, (encodings_agree hy).2.2.1⟩

end Document

end DesignProcess
