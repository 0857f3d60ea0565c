import DesignProcess.Proofs.Registry.Calls

namespace DesignProcess.Registry

def run (r : Registry) : List Call → List Outcome × Registry
  | [] => ([], r)
  | call :: rest =>
    let (outcome, after) := r.perform call
    let (outcomes, last) := after.run rest
    (outcome :: outcomes, last)

def totalGain : List Outcome → Nat
  | [] => 0
  | outcome :: rest => outcome.gain + totalGain rest

variable {r r' : Registry}

theorem run_append (r : Registry) (calls more : List Call) :
    (r.run (calls ++ more)).2 = ((r.run calls).2.run more).2 := by
  induction calls generalizing r with
  | nil => rfl
  | cons call rest ih => exact ih _

theorem run_grows (r : Registry) (calls : List Call) :
    r.Grows (r.run calls).2 (totalGain (r.run calls).1) := by
  induction calls generalizing r with
  | nil => exact grows_refl r
  | cons call rest ih => exact (perform_grows r call).trans (ih _)

theorem registerTypes_grows {origin : Origin} {types : List ComponentType}
    (h : types.foldlM (registerType · origin) r = .ok r') : r.Grows r' types.length := by
  induction types generalizing r with
  | nil =>
    cases h
    exact grows_refl _
  | cons t rest ih =>
    rw [List.foldlM_cons, Except.bind_eq_ok_iff] at h
    obtain ⟨middle, ht, hrest⟩ := h
    have hgrows := (register_grows ht).trans (ih hrest)
    rwa [Nat.add_comm] at hgrows

theorem builtin_succeeds : ∃ r, builtin = .ok r := by
  have hok : builtin.toBool = true := by decide +kernel
  cases h : builtin with
  | ok r => exact ⟨r, rfl⟩
  | error e =>
    rw [h] at hok
    cases hok

def IsStart (r : Registry) : Prop := r = empty ∨ builtin = .ok r

theorem IsStart.keyed (h : r.IsStart) : r.Keyed := by
  have hempty : empty.Keyed := fun e he => nomatch he
  rcases h with rfl | h
  · exact hempty
  · exact (registerTypes_grows h).keyed hempty

theorem mem_identifiers_iff {id : String} :
    id ∈ r.identifiers ↔ ∃ reg, (id, reg) ∈ r.registrations.entries := by
  simp [identifiers, Dictionary.names]

theorem get?_isSome_iff {id : String} : (∃ reg, r.get? id = some reg) ↔ id ∈ r.identifiers := by
  rw [mem_identifiers_iff]
  exact exists_congr fun reg => Dictionary.get?_eq_some_iff

theorem contains_iff {id : String} : r.contains id = true ↔ id ∈ r.identifiers :=
  Dictionary.contains_iff

theorem resolve_succeeds_iff {id : String} {path : KeyPath} :
    (∃ factory, r.resolve id path = .ok factory) ↔ id ∈ r.identifiers := by
  rw [← get?_isSome_iff]
  unfold resolve
  cases r.get? id <;> simp

theorem identifiers_increasing (r : Registry) : r.identifiers.Pairwise (· < ·) :=
  r.registrations.names_increasing

theorem Keyed.toList_identifiers (h : r.Keyed) : r.toList.map (·.identifier) = r.identifiers := by
  rw [toList, identifiers, Dictionary.names, List.map_map]
  exact List.map_congr_left fun e he => (h e he).symm

theorem identifiers_get? (r : Registry) : r.identifiers.map r.get? = r.toList.map some := by
  rw [toList, identifiers, Dictionary.names, List.map_map, List.map_map]
  exact List.map_congr_left fun e he => Dictionary.get?_eq_some_iff.mpr he

theorem registrations_persist {start : Registry} (hstart : start.IsStart) (calls : List Call) :
    let r := (start.run calls).2
    (∀ id reg, (id, reg) ∈ r.registrations.entries → id = reg.identifier) ∧
      (∀ more id reg, r.get? id = some reg → (start.run (calls ++ more)).2.get? id = some reg) ∧
      (∀ call e, (r.perform call).1 = .failed e → (r.perform call).2 = r ∧
        ∀ id existing incoming, e = .duplicateIdentifier id existing incoming →
          ∃ held reg, r.InHand call held id incoming ∧ held.get? id = some reg ∧
            reg.origin = existing) ∧
      r.size = start.size + totalGain (start.run calls).1 ∧
      r.identifiers.Pairwise (· < ·) ∧
      (∀ id, id ∈ r.identifiers ↔ ∃ reg, (id, reg) ∈ r.registrations.entries) ∧
      r.toList.map (·.identifier) = r.identifiers ∧ r.identifiers.map r.get? = r.toList.map some ∧
      ∀ id, (r.contains id = true ↔ id ∈ r.identifiers) ∧
        ((∃ reg, r.get? id = some reg) ↔ id ∈ r.identifiers) ∧
        ∀ path, (∃ factory, r.resolve id path = .ok factory) ↔ id ∈ r.identifiers := by
  intro r
  have hgrows : start.Grows r (totalGain (start.run calls).1) := run_grows start calls
  have hkeyed : r.Keyed := hgrows.keyed hstart.keyed
  refine ⟨fun id reg he => hkeyed (id, reg) he, ?_, ?_, hgrows.size_eq, identifiers_increasing r,
    fun id => mem_identifiers_iff, hkeyed.toList_identifiers, identifiers_get? r,
    fun id => ⟨contains_iff, get?_isSome_iff, fun path => resolve_succeeds_iff⟩⟩
  · intro more id reg hget
    rw [run_append]
    exact (run_grows r more).get? hget
  · intro call e hfailed
    refine ⟨perform_failed hfailed, ?_⟩
    rintro id existing incoming rfl
    exact perform_duplicate hfailed

theorem registrations_persist_wing :
    let tanks := "component=[\x7bid='tank'\x7d]"
    let fs : FileSystem := ⟨.folder [("m", .folder [("a.toml", .file tanks.toUTF8)])], []⟩
    let wing : Factory := .failing ⟨"no wing", none⟩
    let first : Call := .register "wing" wing .builtIn
    let second : Call := .discover fs none [⟨"m"⟩, ⟨"n"⟩]
    let third : Call := .register "wing" wing (.discovered ⟨"wing.toml"⟩)
    let r := (empty.run [first]).2
    empty.IsStart ∧
      (∃ staged, r.discover fs none [⟨"m"⟩] = .ok (staged, 1) ∧ staged.contains "tank" = true) ∧
      (empty.run [first, second, third]).1 = [.registered,
        .failed (.discovery ⟨"n"⟩ (.missingFolder ⟨"n"⟩)),
        .failed (.duplicateIdentifier "wing" .builtIn (.discovered ⟨"wing.toml"⟩))] ∧
      (r.perform second).2 = r ∧
      (empty.run [first, second, third]).2.size = empty.size + 1 ∧
      (empty.run [first, second, third]).2.get? "wing" = some ⟨"wing", wing, .builtIn⟩ := by
  intro tanks fs wing first second third r
  let tank : ComponentType := ⟨"tank", "", [], [], []⟩
  have hfound : Manifest.ofFolder fs ⟨"m"⟩ = .ok [(⟨"m/a.toml"⟩, tank)] := by
    have hread : Manifest.ofText? .toml tanks = some [⟨"tank", "", [], [], [], []⟩] := by
      decide +kernel
    have hpath : Path.join ⟨"m"⟩ ⟨"a.toml"⟩ = ⟨"m/a.toml"⟩ := by decide +kernel
    exact Manifest.ofFolder_single rfl hpath (by decide +kernel) hread rfl
  have hstaged : ∃ staged, r.discover fs none [⟨"m"⟩] = .ok (staged, 1) ∧
      staged.contains "tank" = true := by
    let staged : Registry :=
      ⟨r.registrations.insert "tank" ⟨"tank", .declared tank, .discovered ⟨"m/a.toml"⟩⟩⟩
    have hstage : r.registerAll [(⟨"m/a.toml"⟩, tank)] = .ok staged := rfl
    exact ⟨staged, discover_single hfound hstage, rfl⟩
  have hdiscover : r.discover fs none [⟨"m"⟩, ⟨"n"⟩] =
      .error (.discovery ⟨"n"⟩ (.missingFolder ⟨"n"⟩)) := by
    simp only [discover, discoverFolder, Path.resolve, hfound]
    rfl
  have hsecond : r.perform second = (.failed (.discovery ⟨"n"⟩ (.missingFolder ⟨"n"⟩)), r) := by
    simp only [second, perform, discoverInPlace, hdiscover]
  have hstart : empty.IsStart := .inl rfl
  have houtcomes : (empty.run [first, second, third]).1 = [.registered,
      .failed (.discovery ⟨"n"⟩ (.missingFolder ⟨"n"⟩)),
      .failed (.duplicateIdentifier "wing" .builtIn (.discovered ⟨"wing.toml"⟩))] := by
    change Outcome.registered :: (r.run [second, third]).1 = _
    rw [run, hsecond]
    rfl
  obtain ⟨-, -, -, hsize, -⟩ := registrations_persist hstart [first, second, third]
  obtain ⟨-, hpersist, hfailed, -⟩ := registrations_persist hstart [first]
  refine ⟨hstart, hstaged, houtcomes, ?_, ?_, hpersist [second, third] "wing" _ rfl⟩
  · exact (hfailed second _ (congrArg Prod.fst hsecond)).1
  · rw [hsize, houtcomes]
    rfl

end DesignProcess.Registry
