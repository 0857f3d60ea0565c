import DesignProcess.Proofs.Descriptions.Lines
import DesignProcess.Proofs.Discovery.Listing

namespace DesignProcess

namespace Descriptions

/-- The description files at any depth below a folder, by the names that lead to them and as often
as the tree has them. A path that leads to no folder has none. -/
inductive Listing (fs : FileSystem) (folder : Path) : List (Path × ByteArray) → Prop
  | folder {entries : List (String × Entry)} {found : List (List String × ByteArray)}
      (hentry : fs.entry folder = .ok (.folder entries))
      (hfound : ∀ names content,
        (names, content) ∈ found ↔ Entry.FileAt (.folder entries) names content)
      (hcount : found.Perm (Entry.folder entries).files)
      (hsorted : found.Pairwise fun f g => ¬List.Lex (· < ·) g.1 f.1) :
      Listing fs folder ((found.map fun f => (folder.descend f.1, f.2)).filter
        fun f => f.1.fileName? = some fileName)
  | nothing (h : ∀ entries, fs.entry folder ≠ .ok (.folder entries)) : Listing fs folder []

def Parses (content : ByteArray) : Prop :=
  ∃ text d, FileSystem.textOf content = .ok text ∧ ofText text = .ok d

inductive Failure (path : Path) (content : ByteArray) : DescriptionFault → Prop
  | unreadable {fault : FileFault} (h : FileSystem.textOf content = .error fault) :
      Failure path content (.unreadable path fault)
  | flawed {text : String} {line : Nat} {flaw : LineFlaw}
      (htext : FileSystem.textOf content = .ok text)
      (h : ofText text = .error (.flawed "<string>" line flaw)) :
      Failure path content (.flawed path.text line flaw)

def described (fs : FileSystem) (folder : Path) : List (Path × ByteArray) :=
  (fs.filesBelow folder).filter fun f => f.1.fileName? = some fileName

theorem precedes_iff {a b : List String} :
    FileSystem.precedes a b = true ↔ ¬List.Lex (· < ·) b a := by
  rw [FileSystem.precedes, List.lex_eq_decide_lex, Bool.not_eq_true', decide_eq_false_iff_not]
  simp only [decide_eq_true_eq]

theorem pairwise_sorted (found : List (List String × ByteArray)) :
    (found.mergeSort fun f g => FileSystem.precedes f.1 g.1).Pairwise
      fun f g => ¬List.Lex (· < ·) g.1 f.1 := by
  have htrans (f g h : List String × ByteArray) (hfg : FileSystem.precedes f.1 g.1 = true)
      (hgh : FileSystem.precedes g.1 h.1 = true) : FileSystem.precedes f.1 h.1 = true := by
    rw [precedes_iff] at hfg hgh ⊢
    exact @List.le_trans String _ _ _ _ f.1 g.1 h.1 hfg hgh
  have htotal (f g : List String × ByteArray) :
      (FileSystem.precedes f.1 g.1 || FileSystem.precedes g.1 f.1) = true := by
    rw [Bool.or_eq_true, precedes_iff, precedes_iff]
    exact @List.le_total String _ _ f.1 g.1
  simpa only [precedes_iff] using List.pairwise_mergeSort htrans htotal found

theorem listing_described (fs : FileSystem) (folder : Path) :
    Listing fs folder (described fs folder) := by
  unfold described FileSystem.filesBelow
  split
  · rename_i entries hentry
    have hperm := List.mergeSort_perm (Entry.filesOf entries)
      fun f g => FileSystem.precedes f.1 g.1
    refine .folder hentry (fun names content => ?_) hperm (pairwise_sorted _)
    rw [hperm.mem_iff, ← Entry.mem_files_iff, Entry.files]
  · rename_i hnone
    exact .nothing hnone

def readFile (f : Path × ByteArray) : Except DescriptionFault Descriptions :=
  ofContent f.1 (FileSystem.textOf f.2)

theorem ofTextFrom_eq (source text : String) :
    ofTextFrom source text = (ofText text).mapError (.moved source 0) := by
  unfold ofText ofTextFrom
  rw [← addLines_moved, Nat.add_zero]

theorem readFile_eq_ok_iff {f : Path × ByteArray} {d : Descriptions} :
    readFile f = .ok d ↔
      ∃ text, FileSystem.textOf f.2 = .ok text ∧ ofText text = .ok d := by
  unfold readFile ofContent
  cases FileSystem.textOf f.2 with
  | error fault => simp
  | ok text => simp [ofTextFrom_eq, Except.mapError_eq_ok_iff]

theorem readFile_succeeds_iff {f : Path × ByteArray} :
    (∃ d, readFile f = .ok d) ↔ Parses f.2 := by
  simp only [readFile_eq_ok_iff]
  exact exists_comm

theorem readFile_eq_error_iff {f : Path × ByteArray} {fault : DescriptionFault} :
    readFile f = .error fault ↔ Failure f.1 f.2 fault := by
  unfold readFile
  constructor
  · intro h
    unfold ofContent at h
    split at h
    · rename_i hcontent
      cases h
      exact .unreadable hcontent
    · rename_i text hcontent
      rw [ofTextFrom_eq, Except.mapError_eq_error_iff] at h
      obtain ⟨g, hg, rfl⟩ := h
      obtain ⟨line, flaw, rfl⟩ := flawed_of_addLines hg
      exact .flawed hcontent hg
  · intro h
    cases h with
    | unreadable h =>
      rw [h]
      rfl
    | flawed htext h =>
      rw [htext]
      exact (ofTextFrom_eq _ _).trans (Except.mapError_eq_error_iff.mpr ⟨_, h, rfl⟩)

variable {files : List (Path × ByteArray)} {ds : List Descriptions}

def merged (ds : List Descriptions) : Descriptions := ds.foldl Dictionary.extend .empty

theorem foldl_extend (d : Descriptions) (ds : List Descriptions) :
    ds.foldl Dictionary.extend d = d.extend (merged ds) := by
  induction ds generalizing d with
  | nil => rfl
  | cons e rest ih =>
    rw [merged, List.foldl_cons, List.foldl_cons, ih, ih, Dictionary.empty_extend,
      Dictionary.extend_assoc]

theorem merged_cons (d : Descriptions) (ds : List Descriptions) :
    merged (d :: ds) = d.extend (merged ds) := by
  rw [merged, List.foldl_cons, foldl_extend, Dictionary.empty_extend]

theorem merged_append (ds es : List Descriptions) :
    merged (ds ++ es) = (merged ds).extend (merged es) := by
  rw [merged, List.foldl_append, foldl_extend]
  rfl

theorem addFolder_eq (fs : FileSystem) (d : Descriptions) (folder : Path) :
    addFolder fs d folder =
      (described fs folder).foldlM (fun d f => (readFile f).map d.extend) d := by
  unfold addFolder described
  rw [List.foldlM_filter]
  simp only [decide_eq_true_eq]
  rfl

def describedIn (fs : FileSystem) (base : Option Path) (folders : List Path) :
    List (Path × ByteArray) :=
  folders.flatMap fun folder => described fs (folder.resolve base)

theorem describedIn_append (fs : FileSystem) (base : Option Path) (xs ys : List Path) :
    describedIn fs base (xs ++ ys) = describedIn fs base xs ++ describedIn fs base ys :=
  List.flatMap_append

theorem foldlM_addFolder (fs : FileSystem) (base : Option Path) (folders : List Path)
    (d : Descriptions) :
    folders.foldlM (fun d folder => d.addFolder fs (folder.resolve base)) d =
      (describedIn fs base folders).foldlM (fun d f => (readFile f).map d.extend) d := by
  induction folders generalizing d with
  | nil => rfl
  | cons folder rest ih =>
    rw [List.foldlM_cons, describedIn, List.flatMap_cons, List.foldlM_append, addFolder_eq]
    exact bind_congr fun d => ih d

theorem ofFolders_eq (fs : FileSystem) (base : Option Path) (folders : List Path) :
    ofFolders fs base folders = ((describedIn fs base folders).mapM readFile).map merged := by
  rw [ofFolders, foldlM_addFolder]
  exact Except.foldlM_map_eq readFile Dictionary.extend _ .empty

theorem ofText_intercalate {texts : List String} {ds : List Descriptions}
    (h : texts.mapM ofText = .ok ds) :
    ofText (String.intercalate "\n" texts) = .ok (merged ds) := by
  induction texts generalizing ds with
  | nil =>
    cases h
    rfl
  | cons text rest ih =>
    obtain ⟨d, hd, h⟩ := Except.bind_eq_ok_iff.mp (List.mapM_cons.symm.trans h)
    obtain ⟨es, hes, heq⟩ := Except.bind_eq_ok_iff.mp h
    cases heq
    cases rest with
    | nil =>
      cases hes
      rw [merged_cons]
      exact hd
    | cons next rest =>
      rw [String.intercalate_cons_cons, ofText_joined, hd, ih hes, merged_cons]
      rfl

theorem texts_of_read (h : files.mapM readFile = .ok ds) :
    ∃ texts, files.mapM (fun f => FileSystem.textOf f.2) = .ok texts ∧
      texts.mapM ofText = .ok ds := by
  induction files generalizing ds with
  | nil =>
    cases h
    exact ⟨[], rfl, rfl⟩
  | cons f rest ih =>
    obtain ⟨d, hd, h⟩ := Except.bind_eq_ok_iff.mp (List.mapM_cons.symm.trans h)
    obtain ⟨es, hes, heq⟩ := Except.bind_eq_ok_iff.mp h
    cases heq
    obtain ⟨text, htext, hparsed⟩ := readFile_eq_ok_iff.mp hd
    obtain ⟨texts, htexts, hrest⟩ := ih hes
    refine ⟨text :: texts, ?_, ?_⟩
    · rw [List.mapM_cons, htext, htexts]
      rfl
    · rw [List.mapM_cons, hparsed, hrest]
      rfl

theorem ofFolders_append (fs : FileSystem) (base : Option Path) (xs ys : List Path) :
    ofFolders fs base (xs ++ ys) =
      ofFolders fs base xs >>= fun d => (ofFolders fs base ys).map d.extend := by
  simp only [ofFolders_eq, describedIn_append, List.mapM_append]
  cases (describedIn fs base xs).mapM readFile with
  | error fault => rfl
  | ok ds =>
    cases (describedIn fs base ys).mapM readFile with
    | error fault => rfl
    | ok es => exact congrArg Except.ok (merged_append ds es)

theorem folders_read_as_one_text (fs : FileSystem) (base : Option Path) :
    (∀ folder, Listing fs folder (described fs folder)) ∧
    (∀ folders, (∃ d, ofFolders fs base folders = .ok d) ↔
      ∀ f ∈ describedIn fs base folders, Parses f.2) ∧
    (∀ folders d, ofFolders fs base folders = .ok d →
      ∃ texts, (describedIn fs base folders).mapM (fun f => FileSystem.textOf f.2) = .ok texts ∧
        ofText (String.intercalate "\n" texts) = .ok d) ∧
    (∀ folders e, ofFolders fs base folders = .error e ↔
      ∃ before path content after,
        describedIn fs base folders = before ++ (path, content) :: after ∧
          (∀ f ∈ before, Parses f.2) ∧ Failure path content e) ∧
    ∀ xs ys d e, ofFolders fs base xs = .ok d → ofFolders fs base ys = .ok e →
      ofFolders fs base (xs ++ ys) = .ok (d.extend e) := by
  refine ⟨listing_described fs, ?_, ?_, ?_, ?_⟩
  · intro folders
    simp only [ofFolders_eq, Except.map_eq_ok_iff, ← readFile_succeeds_iff,
      ← Except.mapM_succeeds_iff]
    constructor
    · rintro ⟨d, ds, hds, -⟩
      exact ⟨ds, hds⟩
    · rintro ⟨ds, hds⟩
      exact ⟨_, ds, hds, rfl⟩
  · intro folders d h
    rw [ofFolders_eq, Except.map_eq_ok_iff] at h
    obtain ⟨ds, hds, rfl⟩ := h
    obtain ⟨texts, htexts, hparsed⟩ := texts_of_read hds
    exact ⟨texts, htexts, ofText_intercalate hparsed⟩
  · intro folders e
    rw [ofFolders_eq, Except.map_eq_error_iff, Except.mapM_eq_error_iff]
    simp only [readFile_succeeds_iff, readFile_eq_error_iff, Prod.exists]
  · intro xs ys d e hd he
    rw [ofFolders_append, hd, he]
    rfl

end Descriptions

end DesignProcess
