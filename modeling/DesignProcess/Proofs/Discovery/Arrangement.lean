import DesignProcess.Proofs.Discovery.Staging

/-!
Discovery over folders that are arranged differently. Two lists in a row are as good as one, and
since a registry is told by its registrations, the order of the folders does not show in it.
-/

namespace DesignProcess

namespace Registry

variable {fs : FileSystem} {base : Option Path} {r after other : Registry} {xs ys : List Path}
  {n : Nat} {e : AssemblyError}

theorem Gains.unique {found : List (Path × ComponentType)} (h : r.Gains after found)
    (h' : r.Gains other found) : after = other :=
  congrArg Registry.mk (Dictionary.eq_of_perm (h.trans h'.symm))

theorem discover_append (r : Registry) (xs ys : List Path) :
    r.discover fs base (xs ++ ys) = (do
      let (middle, k) ← r.discover fs base xs
      let (after, m) ← middle.discover fs base ys
      .ok (after, k + m)) := by
  induction xs generalizing r with
  | nil =>
    rw [List.nil_append]
    change _ = (r.discover fs base ys >>= fun p => .ok (p.1, 0 + p.2))
    simp only [Nat.zero_add]
    exact (bind_pure _).symm
  | cons folder rest ih =>
    rw [List.cons_append, discover, discover, bind_assoc]
    apply bind_congr
    rintro ⟨middle, k⟩
    simp only [ih, bind_assoc]
    apply bind_congr
    rintro ⟨next, m⟩
    change _ = (next.discover fs base ys >>= _)
    apply bind_congr
    rintro ⟨last, l⟩
    change Except.ok (last, k + (m + l)) = .ok (last, k + m + l)
    rw [Nat.add_assoc]

theorem discover_append_eq_ok_iff :
    r.discover fs base (xs ++ ys) = .ok (after, n) ↔
      ∃ k middle m, r.discover fs base xs = .ok (middle, k) ∧
        middle.discover fs base ys = .ok (after, m) ∧ n = k + m := by
  rw [discover_append, Except.bind_eq_ok_iff]
  constructor
  · rintro ⟨⟨middle, k⟩, hxs, h⟩
    obtain ⟨⟨last, m⟩, hys, heq⟩ := Except.bind_eq_ok_iff.mp h
    cases heq
    exact ⟨k, middle, m, hxs, hys, rfl⟩
  · rintro ⟨k, middle, m, hxs, hys, rfl⟩
    exact ⟨(middle, k), hxs, Except.bind_eq_ok_iff.mpr ⟨(after, m), hys, rfl⟩⟩

theorem discover_append_eq_error_iff :
    r.discover fs base (xs ++ ys) = .error e ↔
      r.discover fs base xs = .error e ∨
        ∃ k middle, r.discover fs base xs = .ok (middle, k) ∧
          middle.discover fs base ys = .error e := by
  rw [discover_append, Except.bind_eq_error_iff]
  apply or_congr_right
  constructor
  · rintro ⟨⟨middle, k⟩, hxs, h⟩
    rcases Except.bind_eq_error_iff.mp h with hys | ⟨_, -, hdone⟩
    · exact ⟨k, middle, hxs, hys⟩
    · cases hdone
  · rintro ⟨k, middle, hxs, hys⟩
    exact ⟨(middle, k), hxs, Except.bind_eq_error_iff.mpr (.inl hys)⟩

theorem discover_ok_of_perm (hperm : xs.Perm ys) (h : r.discover fs base xs = .ok (after, n)) :
    r.discover fs base ys = .ok (after, n) := by
  -- Which folders can be read, and what they declare together, is the same in any order.
  obtain ⟨hreads, hadmits, hgains, hcount⟩ := discover_sound h
  have hdeclared : (Manifest.declared fs base xs).Perm (Manifest.declared fs base ys) :=
    hperm.flatMap_right _
  obtain ⟨other, m, hother⟩ : ∃ other m, r.discover fs base ys = .ok (other, m) := by
    apply discover_complete
    · intro folder hfolder
      exact hreads folder (hperm.mem_iff.mpr hfolder)
    · exact hadmits.perm hdeclared
  obtain ⟨-, -, hgains', hcount'⟩ := discover_sound hother
  have hsame : after = other := (hgains.perm hdeclared).unique hgains'
  rw [hother, hsame, hcount, hcount', hdeclared.length_eq]

theorem discoverInPlace_eq_error_iff :
    (r.discoverInPlace fs base xs).1 = .error e ↔ r.discover fs base xs = .error e := by
  unfold discoverInPlace
  cases r.discover fs base xs <;> simp

theorem discovery_of_arranged_folders (fs : FileSystem) (base : Option Path) (r : Registry)
    (xs ys : List Path) :
    (∀ n after, r.discoverInPlace fs base (xs ++ ys) = (.ok n, after) ↔
      ∃ k middle m, r.discoverInPlace fs base xs = (.ok k, middle) ∧
        middle.discoverInPlace fs base ys = (.ok m, after) ∧ n = k + m) ∧
    (∀ e, (r.discoverInPlace fs base (xs ++ ys)).1 = .error e ↔
      (r.discoverInPlace fs base xs).1 = .error e ∨
        ∃ k middle, r.discoverInPlace fs base xs = (.ok k, middle) ∧
          (middle.discoverInPlace fs base ys).1 = .error e) ∧
    ∀ zs, xs.Perm zs → ∀ n after,
      r.discoverInPlace fs base xs = (.ok n, after) ↔
        r.discoverInPlace fs base zs = (.ok n, after) := by
  simp only [discoverInPlace_eq_ok_iff, discoverInPlace_eq_error_iff]
  refine ⟨fun n after => discover_append_eq_ok_iff, fun e => discover_append_eq_error_iff, ?_⟩
  intro zs hperm n after
  exact ⟨discover_ok_of_perm hperm, discover_ok_of_perm hperm.symm⟩

theorem discovery_of_arranged_folders_hangar :
    let tanks := "component=[\x7bid='tank'\x7d]"
    let pumps := "component=[\x7bid='pump'\x7d]"
    let fs : FileSystem := ⟨.folder [("m", .folder [("a.toml", .file tanks.toUTF8)]),
      ("n", .folder [("b.toml", .file pumps.toUTF8)])], []⟩
    let folders : List Path := [⟨"m"⟩, ⟨"n"⟩]
    folders.Perm folders.reverse ∧
      ∃ after, empty.discoverInPlace fs none folders = (.ok 2, after) ∧
        after.identifiers = ["pump", "tank"] ∧
        empty.discoverInPlace fs none folders.reverse = (.ok 2, after) := by
  intro tanks pumps fs folders
  have hperm : folders.Perm folders.reverse := (List.reverse_perm folders).symm
  have htanks : Manifest.ofFolder fs ⟨"m"⟩ = .ok [(⟨"m/a.toml"⟩, ⟨"tank", "", [], [], []⟩)] := by
    have hread : Manifest.ofText? .toml tanks = some [⟨"tank", "", [], [], [], []⟩] := by
      decide +kernel
    have hpath : Path.join ⟨"m"⟩ ⟨"a.toml"⟩ = ⟨"m/a.toml"⟩ := by decide +kernel
    exact Manifest.ofFolder_single rfl hpath (by decide +kernel) hread rfl
  have hpumps : Manifest.ofFolder fs ⟨"n"⟩ = .ok [(⟨"n/b.toml"⟩, ⟨"pump", "", [], [], []⟩)] := by
    have hread : Manifest.ofText? .toml pumps = some [⟨"pump", "", [], [], [], []⟩] := by
      decide +kernel
    have hpath : Path.join ⟨"n"⟩ ⟨"b.toml"⟩ = ⟨"n/b.toml"⟩ := by decide +kernel
    exact Manifest.ofFolder_single rfl hpath (by decide +kernel) hread rfl
  obtain ⟨after, hafter, hidentifiers⟩ :
      ∃ after, empty.discoverInPlace fs none folders = (.ok 2, after) ∧
        after.identifiers = ["pump", "tank"] := by
    simp only [discoverInPlace, discover, discoverFolder, folders, Path.resolve, htanks, hpumps]
    exact ⟨_, rfl, rfl⟩
  obtain ⟨-, -, hsame⟩ := discovery_of_arranged_folders fs none empty folders []
  exact ⟨hperm, after, hafter, hidentifiers, (hsame _ hperm 2 after).mp hafter⟩

end Registry

end DesignProcess
