import DesignProcess.Proofs.Discovery.Growth
import DesignProcess.Proofs.Discovery.Listing

namespace DesignProcess

namespace Manifest

mutual

theorem declarations_eq (path : Path) :
    ∀ e : Entry, declarations path e = e.files.flatMap fun f => declaredIn (path.descend f.1) f.2
  | .file content => by
    rw [declarations, Entry.files, List.flatMap_singleton]
    rfl
  | .folder entries => by
    rw [declarations, Entry.files, declarationsOf_eq path entries]

theorem declarationsOf_eq (path : Path) :
    ∀ entries : List (String × Entry), declarationsOf path entries =
      (Entry.filesOf entries).flatMap fun f => declaredIn (path.descend f.1) f.2
  | [] => by rw [declarationsOf, Entry.filesOf, List.flatMap_nil]
  | (name, e) :: rest => by
    rw [declarationsOf, Entry.filesOf, List.flatMap_append, List.flatMap_map,
      declarations_eq (path.join ⟨name⟩) e, declarationsOf_eq path rest]
    rfl

end

theorem filesBelow_perm {fs : FileSystem} {folder : Path} {entries : List (String × Entry)}
    (h : fs.entry folder = .ok (.folder entries)) :
    (fs.filesBelow folder).Perm
      ((Entry.filesOf entries).map fun f => (folder.descend f.1, f.2)) := by
  simp only [FileSystem.filesBelow, h]
  exact (List.mergeSort_perm _ _).map _

theorem ofFolder_eq_ok_iff {fs : FileSystem} {folder : Path}
    {found : List (Path × ComponentType)} :
    ofFolder fs folder = .ok found ↔
      ∃ entries, fs.entry folder = .ok (.folder entries) ∧
        ofFiles (fs.filesBelow folder) = .ok found := by
  unfold ofFolder
  split
  · rename_i h
    simp [h]
  · rename_i h
    simp [h]
  · rename_i entries h
    simp [h]

theorem loads_filesBelow_iff {fs : FileSystem} {folder : Path} {entries : List (String × Entry)}
    (h : fs.entry folder = .ok (.folder entries)) :
    (∀ f ∈ fs.filesBelow folder, Loads f.1 f.2) ↔
      ∀ names content, Entry.FileAt (.folder entries) names content →
        Loads (folder.descend names) content := by
  have hfiles : ∀ names content, (names, content) ∈ Entry.filesOf entries ↔
      Entry.FileAt (.folder entries) names content := by
    intro names content
    rw [← Entry.mem_files_iff, Entry.files]
  constructor
  · intro hall names content hfile
    apply hall (folder.descend names, content)
    rw [(filesBelow_perm h).mem_iff]
    exact List.mem_map_of_mem ((hfiles names content).mpr hfile)
  · intro hall f hf
    rw [(filesBelow_perm h).mem_iff] at hf
    obtain ⟨⟨names, content⟩, hmem, rfl⟩ := List.mem_map.mp hf
    exact hall names content ((hfiles names content).mp hmem)

theorem ofFolder_sound {fs : FileSystem} {folder : Path} {found : List (Path × ComponentType)}
    (h : ofFolder fs folder = .ok found) :
    ReadsBelow fs folder ∧ found.Perm (declaredBelow fs folder) := by
  obtain ⟨entries, hentry, hfiles⟩ := ofFolder_eq_ok_iff.mp h
  obtain ⟨hall, rfl⟩ := ofFiles_eq_ok_iff.mp hfiles
  refine ⟨⟨entries, hentry, (loads_filesBelow_iff hentry).mp hall⟩, ?_⟩
  have hdeclared : declaredBelow fs folder =
      ((Entry.filesOf entries).map fun f => (folder.descend f.1, f.2)).flatMap
        fun f => declaredIn f.1 f.2 := by
    rw [List.flatMap_map]
    simp only [declaredBelow, hentry, declarations, declarationsOf_eq]
  rw [hdeclared]
  exact (filesBelow_perm hentry).flatMap_right _

theorem ofFolder_complete {fs : FileSystem} {folder : Path} (h : ReadsBelow fs folder) :
    ∃ found, ofFolder fs folder = .ok found := by
  obtain ⟨entries, hentry, hall⟩ := h
  have hfiles := ofFiles_eq_ok_iff.mpr ⟨(loads_filesBelow_iff hentry).mpr hall, rfl⟩
  exact ⟨_, ofFolder_eq_ok_iff.mpr ⟨entries, hentry, hfiles⟩⟩

theorem ofFolder_single {fs : FileSystem} {folder path : Path} {name text : String}
    {format : Format} {entries : List ComponentEntry} {types : List ComponentType}
    (hentry : fs.entry folder = .ok (.folder [(name, .file text.toUTF8)]))
    (hpath : folder.join ⟨name⟩ = path) (hformat : Format.ofPath? path = some format)
    (hread : ofText? format text = some entries)
    (htypes : componentTypes path entries = .ok types) :
    ofFolder fs folder = .ok (types.map fun t => (path, t)) := by
  have hfiles : fs.filesBelow folder = [(path, text.toUTF8)] := by
    simp [FileSystem.filesBelow, hentry, Entry.filesOf, Entry.files, hpath]
  have htext : FileSystem.textOf text.toUTF8 = .ok text := by
    unfold FileSystem.textOf String.fromUTF8?
    rw [String.toUTF8_eq_toByteArray, dif_pos text.isValidUTF8]
    rfl
  have hcontent : ofContent format path text.toUTF8 = .ok types := by
    simp only [ofContent, htext, hread, htypes]
  have hfile : ofFile path text.toUTF8 = .ok (types.map fun t => (path, t)) := by
    simp only [ofFile, hformat, hcontent]
    rfl
  obtain ⟨hloads, hdeclared⟩ := ofFile_eq_ok_iff.mp hfile
  apply ofFolder_eq_ok_iff.mpr
  refine ⟨_, hentry, ?_⟩
  rw [hfiles, ofFiles_eq_ok_iff, List.forall_mem_singleton, List.flatMap_singleton]
  exact ⟨hloads, hdeclared⟩

/-- A folder that is listed twice counts twice. -/
def declared (fs : FileSystem) (base : Option Path) (folders : List Path) :
    List (Path × ComponentType) :=
  folders.flatMap fun folder => declaredBelow fs (folder.resolve base)

end Manifest

namespace Registry

variable {fs : FileSystem} {base : Option Path} {folder : Path} {folders : List Path}
  {r r' : Registry} {n : Nat}

theorem discoverFolder_sound (h : discoverFolder fs base r folder = .ok (r', n)) :
    Manifest.ReadsBelow fs (folder.resolve base) ∧
      r.Admits (Manifest.declaredBelow fs (folder.resolve base)) ∧
      r.Gains r' (Manifest.declaredBelow fs (folder.resolve base)) ∧
      n = (Manifest.declaredBelow fs (folder.resolve base)).length := by
  unfold discoverFolder at h
  split at h
  · cases h
  · rename_i found hfound
    obtain ⟨after, hafter, heq⟩ := Except.map_eq_ok_iff.mp h
    cases heq
    obtain ⟨hreads, hperm⟩ := Manifest.ofFolder_sound hfound
    obtain ⟨hadmits, hgains⟩ := registerAll_sound hafter
    exact ⟨hreads, hadmits.perm hperm, hgains.perm hperm, hperm.length_eq⟩

theorem discoverFolder_complete (hreads : Manifest.ReadsBelow fs (folder.resolve base))
    (hadmits : r.Admits (Manifest.declaredBelow fs (folder.resolve base))) :
    ∃ r' n, discoverFolder fs base r folder = .ok (r', n) := by
  obtain ⟨found, hfound⟩ := Manifest.ofFolder_complete hreads
  obtain ⟨-, hperm⟩ := Manifest.ofFolder_sound hfound
  obtain ⟨after, hafter⟩ := registerAll_complete (hadmits.perm hperm.symm)
  refine ⟨after, found.length, ?_⟩
  simp only [discoverFolder, hfound, hafter]
  rfl

theorem discover_sound (h : r.discover fs base folders = .ok (r', n)) :
    (∀ folder ∈ folders, Manifest.ReadsBelow fs (folder.resolve base)) ∧
      r.Admits (Manifest.declared fs base folders) ∧
      r.Gains r' (Manifest.declared fs base folders) ∧
      n = (Manifest.declared fs base folders).length := by
  induction folders generalizing r n with
  | nil =>
    cases h
    exact ⟨List.forall_mem_nil _, admits_nil _, gains_nil _, rfl⟩
  | cons folder rest ih =>
    rw [discover, Except.bind_eq_ok_iff] at h
    obtain ⟨⟨middle, here⟩, hfolder, h⟩ := h
    obtain ⟨⟨after, there⟩, hrest, heq⟩ := Except.bind_eq_ok_iff.mp h
    cases heq
    obtain ⟨hreads, hadmits, hgains, hhere⟩ := discoverFolder_sound hfolder
    obtain ⟨hreadsRest, hadmitsRest, hgainsRest, hthere⟩ := ih hrest
    refine ⟨List.forall_mem_cons.mpr ⟨hreads, hreadsRest⟩,
      hgains.admits_append_iff.mpr ⟨hadmits, hadmitsRest⟩, hgains.append hgainsRest, ?_⟩
    rw [hhere, hthere, Manifest.declared, Manifest.declared, List.flatMap_cons,
      List.length_append]

theorem discover_complete
    (hreads : ∀ folder ∈ folders, Manifest.ReadsBelow fs (folder.resolve base))
    (hadmits : r.Admits (Manifest.declared fs base folders)) :
    ∃ r' n, r.discover fs base folders = .ok (r', n) := by
  induction folders generalizing r with
  | nil => exact ⟨r, 0, rfl⟩
  | cons folder rest ih =>
    obtain ⟨hfolder, hrest⟩ := List.forall_mem_cons.mp hreads
    rw [Manifest.declared, List.flatMap_cons] at hadmits
    have hhere : r.Admits (Manifest.declaredBelow fs (folder.resolve base)) := by
      refine ⟨?_, fun d hd => hadmits.fresh d (List.mem_append_left _ hd)⟩
      have hdistinct := hadmits.distinct
      rw [List.map_append, List.nodup_append] at hdistinct
      exact hdistinct.1
    obtain ⟨middle, here, hmiddle⟩ := discoverFolder_complete hfolder hhere
    obtain ⟨-, -, hgains, -⟩ := discoverFolder_sound hmiddle
    obtain ⟨r', there, hr'⟩ := ih hrest (hgains.admits_append_iff.mp hadmits).2
    refine ⟨r', here + there, ?_⟩
    rw [discover, Except.bind_eq_ok_iff]
    exact ⟨(middle, here), hmiddle, Except.bind_eq_ok_iff.mpr ⟨(r', there), hr', rfl⟩⟩

theorem discover_single {found : List (Path × ComponentType)}
    (hfound : Manifest.ofFolder fs (folder.resolve base) = .ok found)
    (h : r.registerAll found = .ok r') : r.discover fs base [folder] = .ok (r', found.length) := by
  simp only [discover, discoverFolder, hfound, h]
  rfl

theorem discoverInPlace_eq_ok_iff :
    discoverInPlace fs base folders r = (.ok n, r') ↔ r.discover fs base folders = .ok (r', n) := by
  unfold discoverInPlace
  split
  · rename_i staged count h
    simp [h, and_comm]
  · rename_i e h
    simp [h]

end Registry

end DesignProcess
