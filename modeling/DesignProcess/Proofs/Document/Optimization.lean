import DesignProcess.Proofs.Document.Entry
import Mathlib.Data.List.Nodup

namespace DesignProcess

namespace OptimizationSpec

theorem Draft.extend_eq_ok_iff {path : KeyPath} {d t : Draft} {e : String × Value}
    (h : e.2.DistinctKeys) :
    d.extend path e = .ok t ↔ ∃ f, Field.ofKey? e.1 = some f ∧ f ∉ d.map (·.1) ∧
      e.2.IsEntryList ∧ t = d ++ [(f, e.2.entryList)] := by
  obtain ⟨k, v⟩ := e
  simp only [extend]
  cases hk : Field.ofKey? k with
  | none => simp
  | some f =>
    simp only [Option.some.injEq, exists_eq_left']
    cases hlookup : d.lookup f with
    | some es =>
      have hf : ¬f ∉ d.map (·.1) := by
        rw [← lookup_eq_none_iff_notMem, hlookup]
        simp
      simp only [Option.isSome_some, ↓reduceIte, hf, false_and, reduceCtorEq]
    | none =>
      have hf := lookup_eq_none_iff_notMem.mp hlookup
      rw [if_neg (by simp), Except.map_eq_ok_iff_of fun es => VariableEntry.listOfValue_eq_ok_iff h]
      simp only [hf, not_false_eq_true, true_and]

def drawn (entries : List (String × Value)) : Draft :=
  entries.filterMap fun e => (Field.ofKey? e.1).map fun f => (f, e.2.entryList)

theorem foldlM_extend_eq_ok_iff {path : KeyPath} {entries : List (String × Value)} {d t : Draft}
    (h : ∀ e ∈ entries, e.2.DistinctKeys) :
    entries.foldlM (Draft.extend path) d = .ok t ↔
      (∀ e ∈ entries, (∃ f, Field.ofKey? e.1 = some f) ∧ e.2.IsEntryList) ∧
        (entries.map fun e => Field.ofKey? e.1).Nodup ∧
        (∀ e ∈ entries, ∀ f, Field.ofKey? e.1 = some f → f ∉ d.map (·.1)) ∧
        t = d ++ drawn entries := by
  induction entries generalizing d with
  | nil => simp [drawn, pure, Except.pure, eq_comm]
  | cons e rest ih =>
    obtain ⟨he, hrest⟩ := List.forall_mem_cons.mp h
    simp only [List.foldlM_cons, Except.bind_eq_ok_iff, Draft.extend_eq_ok_iff he, ih hrest,
      List.forall_mem_cons, List.map_cons, List.nodup_cons]
    constructor
    · rintro ⟨_, ⟨f, hf, hnew, hlist, rfl⟩, hall, hnodup, hapart, rfl⟩
      have hother : Field.ofKey? e.1 ∉ rest.map fun e => Field.ofKey? e.1 := by
        rw [hf]
        intro hmem
        obtain ⟨e', he', hf'⟩ := List.mem_map.mp hmem
        exact hapart e' he' f hf' (by simp)
      refine ⟨⟨⟨⟨f, hf⟩, hlist⟩, hall⟩, ⟨hother, hnodup⟩, ⟨?_, ?_⟩, ?_⟩
      · rintro f' hf'
        obtain rfl := Option.some.inj (hf.symm.trans hf')
        exact hnew
      · intro e' he' f' hf' hmem
        apply hapart e' he' f' hf'
        rw [List.map_append, List.mem_append]
        exact .inl hmem
      · simp [drawn, hf]
    · rintro ⟨⟨⟨⟨f, hf⟩, hlist⟩, hall⟩, ⟨hother, hnodup⟩, ⟨hnew, hapart⟩, rfl⟩
      refine ⟨_, ⟨f, hf, hnew f hf, hlist, rfl⟩, hall, hnodup, ?_, by simp [drawn, hf]⟩
      intro e' he' f' hf' hmem
      simp only [List.map_append, List.mem_append, List.map_cons, List.map_nil,
        List.mem_singleton] at hmem
      rcases hmem with hmem | rfl
      · exact hapart e' he' f' hf' hmem
      · exact hother (List.mem_map.mpr ⟨e', he', hf'.trans hf.symm⟩)

theorem Field.singular_ne_plural (f g : Field) : f.singular ≠ g.plural := by
  cases f <;> cases g <;> decide

theorem nodup_ofKey?_iff {entries : List (String × Value)} (hkeys : (entries.map (·.1)).Nodup)
    (hknown : ∀ e ∈ entries, ∃ f, Field.ofKey? e.1 = some f) :
    (entries.map fun e => Field.ofKey? e.1).Nodup ↔
      ∀ f : Field, ¬(f.singular ∈ entries.map (·.1) ∧ f.plural ∈ entries.map (·.1)) := by
  constructor
  · rintro hnodup f ⟨hsingular, hplural⟩
    obtain ⟨e, he, hk⟩ := List.mem_map.mp hsingular
    obtain ⟨e', he', hk'⟩ := List.mem_map.mp hplural
    have hf : Field.ofKey? e.1 = some f := Field.ofKey?_eq_some_iff.mpr (.inl hk)
    have hf' : Field.ofKey? e'.1 = some f := Field.ofKey?_eq_some_iff.mpr (.inr hk')
    obtain rfl := List.inj_on_of_nodup_map hnodup he he' (hf.trans hf'.symm)
    exact Field.singular_ne_plural f f (hk.symm.trans hk')
  · intro hone
    rw [List.nodup_iff_pairwise_ne, List.pairwise_map] at hkeys ⊢
    refine hkeys.imp_of_mem fun {a b} ha hb hne heq => ?_
    obtain ⟨f, hf⟩ := hknown a ha
    exact hne (Field.key_unique_of_spelling (hone f) (List.mem_map_of_mem ha)
      (List.mem_map_of_mem hb) hf (heq ▸ hf))

theorem lookup_drawn_of_key {k : String} {v : Value} {rest : List (String × Value)} {f : Field}
    (hk : Field.ofKey? k = some f) : (drawn ((k, v) :: rest)).lookup f = some v.entryList := by
  simp [drawn, hk]

theorem lookup_drawn_of_other {k : String} {v : Value} {rest : List (String × Value)} {f : Field}
    (hk : Field.ofKey? k ≠ some f) : (drawn ((k, v) :: rest)).lookup f = (drawn rest).lookup f := by
  cases hg : Field.ofKey? k with
  | none => simp [drawn, hg]
  | some g =>
    have hfg : (f == g) = false := by
      rw [beq_eq_false_iff_ne]
      rintro rfl
      exact hk hg
    simp [drawn, hg, List.lookup_cons, hfg]

theorem lookup_drawn {entries : List (String × Value)}
    (hnodup : (entries.map fun e => Field.ofKey? e.1).Nodup) (f : Field) :
    (drawn entries).lookup f =
      ((entries.lookup f.singular).or (entries.lookup f.plural)).map Value.entryList := by
  induction entries with
  | nil => rfl
  | cons e rest ih =>
    obtain ⟨k, v⟩ := e
    obtain ⟨hother, hrest⟩ := List.nodup_cons.mp hnodup
    by_cases hk : Field.ofKey? k = some f
    · rw [lookup_drawn_of_key hk]
      rcases Field.ofKey?_eq_some_iff.mp hk with rfl | rfl
      · simp
      · have hne : (f.singular == f.plural) = false := by
          simpa using Field.singular_ne_plural f f
        have hsingular : rest.lookup f.singular = none := by
          rw [lookup_eq_none_iff_notMem]
          intro hmem
          obtain ⟨e', he', hkey⟩ := List.mem_map.mp hmem
          have hf : Field.ofKey? e'.1 = some f := Field.ofKey?_eq_some_iff.mpr (.inl hkey)
          exact hother (List.mem_map.mpr ⟨e', he', hf.trans hk.symm⟩)
        simp [List.lookup_cons, hne, hsingular]
    · have hsingular : (f.singular == k) = false := by
        rw [beq_eq_false_iff_ne]
        exact fun h => hk (Field.ofKey?_eq_some_iff.mpr (.inl h.symm))
      have hplural : (f.plural == k) = false := by
        rw [beq_eq_false_iff_ne]
        exact fun h => hk (Field.ofKey?_eq_some_iff.mpr (.inr h.symm))
      rw [lookup_drawn_of_other hk, ih hrest]
      simp [List.lookup_cons, hsingular, hplural]

theorem entries_drawn {entries : List (String × Value)}
    (hnodup : (entries.map fun e => Field.ofKey? e.1).Nodup) (f : Field) :
    (drawn entries).entries f = Value.fieldEntries entries f := by
  rw [Draft.entries, lookup_drawn hnodup]
  rfl

theorem ofValue_eq_ok_iff {path : KeyPath} {v : Value} {o : Option OptimizationSpec}
    (h : v.DistinctKeys) :
    ofValue path v = .ok o ↔ v.IsOptimization ∧ o = v.optimization? := by
  cases h with
  | null => simp [ofValue, Value.IsOptimization, Value.optimization?, eq_comm]
  | scalar s => simp [ofValue, Value.IsOptimization]
  | list each => simp [ofValue, Value.IsOptimization]
  | @table entries keys each =>
    have hall : (∀ e ∈ entries, (∃ f, Field.ofKey? e.1 = some f) ∧ e.2.IsEntryList) ↔
        ∀ e ∈ entries, (∃ f : Field, e.1 = f.singular ∨ e.1 = f.plural) ∧ e.2.IsEntryList := by
      simp only [Field.ofKey?_eq_some_iff]
    simp only [ofValue, Except.bind_eq_ok_iff, foldlM_extend_eq_ok_iff each]
    constructor
    · rintro ⟨d, ⟨hentries, hnodup, -, rfl⟩, h⟩
      have hone := (nodup_ofKey?_iff keys fun e he => (hentries e he).1).mp hnodup
      refine ⟨.inr ⟨entries, rfl, hall.mp hentries, hone⟩, ?_⟩
      simp only [List.nil_append, entries_drawn hnodup] at h
      exact (Except.ok.inj h).symm
    · rintro ⟨h | ⟨entries', heq, hentries, hone⟩, rfl⟩
      · cases h
      · obtain rfl := Value.table.inj heq
        have hentries' := hall.mpr hentries
        have hnodup := (nodup_ofKey?_iff keys fun e he => (hentries' e he).1).mpr hone
        refine ⟨_, ⟨hentries', hnodup, by simp, rfl⟩, ?_⟩
        simp only [List.nil_append, entries_drawn hnodup]
        rfl

end OptimizationSpec

end DesignProcess
