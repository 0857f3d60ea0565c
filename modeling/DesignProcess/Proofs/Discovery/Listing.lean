import DesignProcess.Discovery
import DesignProcess.Proofs.Lookup
import DesignProcess.Proofs.Manifest.Acceptance

namespace DesignProcess

namespace Entry

inductive FileAt : Entry → List String → ByteArray → Prop
  | here (content : ByteArray) : FileAt (.file content) [] content
  | inside {entries : List (String × Entry)} {name : String} {e : Entry} {names : List String}
      {content : ByteArray} (hmem : (name, e) ∈ entries) (h : FileAt e names content) :
      FileAt (.folder entries) (name :: names) content

theorem mem_filesOf_iff {entries : List (String × Entry)} {f : List String × ByteArray} :
    f ∈ filesOf entries ↔
      ∃ name e names, (name, e) ∈ entries ∧ f.1 = name :: names ∧ (names, f.2) ∈ e.files := by
  induction entries with
  | nil =>
    rw [filesOf]
    constructor
    · intro h
      cases h
    · rintro ⟨_, _, _, hmem, -⟩
      cases hmem
  | cons head rest ih =>
    obtain ⟨k, e⟩ := head
    rw [filesOf, List.mem_append, ih, List.mem_map]
    constructor
    · rintro (⟨⟨names, content⟩, hmem, rfl⟩ | ⟨name, e', names, hmem, hnames, hfile⟩)
      · exact ⟨k, e, names, List.mem_cons_self, rfl, hmem⟩
      · exact ⟨name, e', names, List.mem_cons_of_mem _ hmem, hnames, hfile⟩
    · rintro ⟨name, e', names, hmem, hnames, hfile⟩
      rcases List.mem_cons.mp hmem with heq | hmem
      · cases heq
        exact .inl ⟨(names, f.2), hfile, Prod.ext hnames.symm rfl⟩
      · exact .inr ⟨name, e', names, hmem, hnames, hfile⟩

theorem mem_files_iff {e : Entry} {names : List String} {content : ByteArray} :
    (names, content) ∈ e.files ↔ FileAt e names content := by
  induction names generalizing e with
  | nil =>
    constructor
    · intro h
      cases e with
      | file content =>
        rw [files, List.mem_singleton] at h
        cases h
        exact .here content
      | folder entries =>
        rw [files, mem_filesOf_iff] at h
        obtain ⟨_, _, _, -, hnames, -⟩ := h
        cases hnames
    · rintro ⟨⟩
      rw [files]
      exact List.mem_singleton_self _
  | cons name names ih =>
    constructor
    · intro h
      cases e with
      | file content =>
        rw [files, List.mem_singleton] at h
        cases h
      | folder entries =>
        rw [files, mem_filesOf_iff] at h
        obtain ⟨_, _, _, hmem, hnames, hfile⟩ := h
        cases hnames
        exact .inside hmem (ih.mp hfile)
    · rintro ⟨⟩
      rename_i hmem h
      rw [files, mem_filesOf_iff]
      exact ⟨_, _, _, hmem, rfl, ih.mpr h⟩

end Entry

def Path.descend (folder : Path) (names : List String) : Path :=
  names.foldl (fun p name => p.join ⟨name⟩) folder

namespace Manifest

def extensions : List (String × Format) := [("toml", .toml), ("yaml", .yaml), ("yml", .yaml)]

def IsManifest (path : Path) (format : Format) : Prop :=
  ∃ ext, path.extension? = some ext ∧ (lowerAscii ext, format) ∈ extensions

def entriesIn (path : Path) (content : ByteArray) : List ComponentEntry :=
  match path.extension?.bind fun ext => extensions.lookup (lowerAscii ext) with
  | none => []
  | some format =>
    match FileSystem.textOf content with
    | .ok text => (ofText? format text).getD []
    | .error _ => []

/-- Files that are no manifests need not be readable. -/
def Loads (path : Path) (content : ByteArray) : Prop :=
  ∀ format, IsManifest path format → ∃ text entries, FileSystem.textOf content = .ok text ∧
    ofText? format text = some entries ∧ entries ≠ [] ∧ ∀ c ∈ entries, c.Sound

def declaredIn (path : Path) (content : ByteArray) : List (Path × ComponentType) :=
  (entriesIn path content).map fun c => (path, c.declaredType path)

mutual

def declarations (path : Path) : Entry → List (Path × ComponentType)
  | .file content => declaredIn path content
  | .folder entries => declarationsOf path entries

def declarationsOf (path : Path) : List (String × Entry) → List (Path × ComponentType)
  | [] => []
  | (name, e) :: rest => declarations (path.join ⟨name⟩) e ++ declarationsOf path rest

end

def ReadsBelow (fs : FileSystem) (folder : Path) : Prop :=
  ∃ entries, fs.entry folder = .ok (.folder entries) ∧
    ∀ names content, Entry.FileAt (.folder entries) names content →
      Loads (folder.descend names) content

def declaredBelow (fs : FileSystem) (folder : Path) : List (Path × ComponentType) :=
  match fs.entry folder with
  | .ok e => declarations folder e
  | .error _ => []

theorem ofName?_eq_some_iff {s : String} {format : Format} :
    Format.ofName? s = some format ↔ (lowerAscii s, format) ∈ extensions := by
  unfold Format.ofName? extensions
  split
  · rename_i h
    simp [h, eq_comm]
  · rename_i h
    simp [h, eq_comm]
  · rename_i h
    simp [h, eq_comm]
  · rename_i htoml hyaml hyml
    have htoml : lowerAscii s ≠ "toml" := htoml
    have hyaml : lowerAscii s ≠ "yaml" := hyaml
    have hyml : lowerAscii s ≠ "yml" := hyml
    simp [htoml, hyaml, hyml]

theorem isManifest_iff {path : Path} {format : Format} :
    IsManifest path format ↔ Format.ofPath? path = some format := by
  simp only [IsManifest, Format.ofPath?, Option.bind_eq_some_iff, ofName?_eq_some_iff]

theorem ofPath?_eq_lookup (path : Path) :
    Format.ofPath? path = path.extension?.bind fun ext => extensions.lookup (lowerAscii ext) := by
  have hkeys : (extensions.map (·.1)).Nodup := by decide
  apply Option.ext
  intro format
  simp only [← isManifest_iff, IsManifest, Option.bind_eq_some_iff, lookup_eq_some_iff_mem hkeys]

theorem ofContent_eq_ok_iff {format : Format} {path : Path} {content : ByteArray}
    {types : List ComponentType} :
    ofContent format path content = .ok types ↔ ∃ text entries,
      FileSystem.textOf content = .ok text ∧ ofText? format text = some entries ∧
        (entries ≠ [] ∧ ∀ c ∈ entries, c.Sound) ∧ types = entries.map (·.declaredType path) := by
  unfold ofContent
  cases FileSystem.textOf content with
  | error fault => simp
  | ok text =>
    cases hentries : ofText? format text with
    | none => simp [hentries]
    | some entries => simp [hentries, componentTypes_eq_ok_iff]

theorem ofFile_eq_ok_iff {path : Path} {content : ByteArray} {found : List (Path × ComponentType)} :
    ofFile path content = .ok found ↔ Loads path content ∧ found = declaredIn path content := by
  unfold ofFile Loads declaredIn entriesIn
  simp only [isManifest_iff, ← ofPath?_eq_lookup]
  cases Format.ofPath? path with
  | none => simp [eq_comm]
  | some format =>
    simp only [Except.map_eq_ok_iff, ofContent_eq_ok_iff]
    constructor
    · rintro ⟨types, ⟨text, entries, htext, hread, hsound, rfl⟩, rfl⟩
      refine ⟨?_, by simp [htext, hread]⟩
      rintro format' heq
      cases heq
      exact ⟨text, entries, htext, hread, hsound⟩
    · rintro ⟨hloads, rfl⟩
      obtain ⟨text, entries, htext, hread, hsound⟩ := hloads format rfl
      exact ⟨_, ⟨text, entries, htext, hread, hsound, rfl⟩, by simp [htext, hread]⟩

theorem Loads.sound {path : Path} {content : ByteArray} (h : Loads path content) :
    ∀ c ∈ entriesIn path content, c.Sound := by
  unfold entriesIn
  rw [← ofPath?_eq_lookup]
  cases hformat : Format.ofPath? path with
  | none => exact List.forall_mem_nil _
  | some format =>
    obtain ⟨text, entries, htext, hread, -, hsound⟩ := h format (isManifest_iff.mpr hformat)
    simpa only [htext, hread, Option.getD_some] using hsound

theorem ofFiles_eq_ok_iff {files : List (Path × ByteArray)}
    {found : List (Path × ComponentType)} :
    ofFiles files = .ok found ↔
      (∀ f ∈ files, Loads f.1 f.2) ∧ found = files.flatMap fun f => declaredIn f.1 f.2 := by
  unfold ofFiles
  rw [Except.bind_eq_ok_iff]
  constructor
  · rintro ⟨lists, hlists, heq⟩
    cases heq
    obtain ⟨hall, rfl⟩ := (Except.mapM_eq_ok_iff_of fun f l => ofFile_eq_ok_iff).mp hlists
    exact ⟨hall, rfl⟩
  · rintro ⟨hall, rfl⟩
    exact ⟨_, (Except.mapM_eq_ok_iff_of fun f l => ofFile_eq_ok_iff).mpr ⟨hall, rfl⟩, rfl⟩

end Manifest

end DesignProcess
