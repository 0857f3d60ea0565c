import DesignProcess.Component.Builtin
import DesignProcess.Proofs.Component.Setting
import DesignProcess.Proofs.Discovery.Staging
import DesignProcess.Proofs.Manifest.Acceptance

namespace DesignProcess

namespace Manifest

variable {path : Path}

/-- The default is checked before it is in the rule, which makes no difference to the check. -/
theorem OptionEntry.Sound.default_admitted {e : OptionEntry} (h : e.Sound) :
    ∀ v ∈ e.declaredRule.default, e.declaredRule.Admits v := by
  intro v hv
  obtain ⟨given, hgiven, rfl⟩ := Option.mem_map.mp hv
  have hstored : e.declaredRule.check given = .ok (e.kind.widen given) := h.stored hgiven
  exact OptionRule.admits_of_check hstored

theorem ComponentEntry.Sound.settled {c : ComponentEntry} (h : c.Sound) :
    (c.declaredType path).Settled := by
  refine ⟨?_, List.forall_mem_map.mpr fun e he => (h.options e he).default_admitted⟩
  have hnames : (c.declaredType path).options.map (·.name) = c.options.map (·.name) :=
    List.map_map
  rw [hnames]
  exact h.distinct

theorem declaredBelow_settled {fs : FileSystem} {folder : Path} {d : Path × ComponentType}
    (h : ReadsBelow fs folder) (hd : d ∈ declaredBelow fs folder) : d.2.Settled := by
  obtain ⟨entries, hentry, hloads⟩ := h
  simp only [declaredBelow, hentry, declarations_eq] at hd
  obtain ⟨⟨names, content⟩, hfile, hd⟩ := List.mem_flatMap.mp hd
  obtain ⟨c, hc, rfl⟩ := List.mem_map.mp hd
  exact ((hloads names content (Entry.mem_files_iff.mp hfile)).sound c hc).settled

theorem declared_settled {fs : FileSystem} {base : Option Path} {folders : List Path}
    {d : Path × ComponentType} (h : ∀ folder ∈ folders, ReadsBelow fs (folder.resolve base))
    (hd : d ∈ declared fs base folders) : d.2.Settled := by
  obtain ⟨folder, hfolder, hd⟩ := List.mem_flatMap.mp hd
  exact declaredBelow_settled (h folder hfolder) hd

end Manifest

namespace Builtin

theorem catalog_settled : ∀ t ∈ catalog, t.Settled := by
  have hdistinct : ∀ t ∈ catalog, (t.options.map (·.name)).Nodup := by decide
  have hdefaults : ∀ t ∈ catalog, ∀ rule ∈ t.options, ∀ v ∈ rule.default, rule.Admits v := by
    decide
  exact fun t ht => ⟨hdistinct t ht, hdefaults t ht⟩

end Builtin

end DesignProcess
