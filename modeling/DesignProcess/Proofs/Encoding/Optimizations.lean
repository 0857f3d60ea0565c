import DesignProcess.Proofs.Encoding.Omission
import DesignProcess.Proofs.Lookup
import DesignProcess.Proofs.Outcome

namespace DesignProcess

open Value (Thins ThinsItems ThinsEntries)

variable {p : Place} {v w : Value} {keys : List String} {es fs : List (String × Value)}

namespace VariableEntry

structure Draft.Unset (d : Draft) (k : String) : Prop where
  lower : k = "lower" → d.lower = none
  upper : k = "upper" → d.upper = none
  scaler : k = "scaler" → d.scaler = none
  units : k = "units" → d.units = none

theorem Draft.extend_eq_of_thins (path : KeyPath) (d : Draft) (k : String)
    (h : Thins (Place.under .entry k) v w) : d.extend path (k, v) = d.extend path (k, w) := by
  obtain rfl := h.eq_of_elsewhere rfl
  rfl

theorem Draft.extend_null (path : KeyPath) (d : Draft) (k : String)
    (optional : Place.Optional keys .entry k) (hunset : d.Unset k) :
    d.extend path (k, .null) = .ok d := by
  obtain ⟨name, lower, upper, units, scaler⟩ := d
  simp only [Place.Optional, List.mem_cons, List.not_mem_nil, or_false] at optional
  rcases optional with rfl | rfl | rfl | rfl
  · obtain rfl : lower = none := hunset.lower rfl
    rfl
  · obtain rfl : upper = none := hunset.upper rfl
    rfl
  · obtain rfl : scaler = none := hunset.scaler rfl
    rfl
  · obtain rfl : units = none := hunset.units rfl
    rfl

theorem Draft.Unset.extend {path : KeyPath} {d t : Draft} {k l : String} (hd : d.Unset l)
    (hstep : d.extend path (k, v) = .ok t) (hne : l ≠ k) : t.Unset l := by
  obtain ⟨hlower, hupper, hscaler, hunits⟩ := hd
  simp only [Draft.extend] at hstep
  split at hstep
  · obtain ⟨s, -, rfl⟩ := Except.map_eq_ok_iff.mp hstep
    exact ⟨hlower, hupper, hscaler, hunits⟩
  · obtain ⟨x, -, rfl⟩ := Except.map_eq_ok_iff.mp hstep
    exact ⟨fun h => absurd h hne, hupper, hscaler, hunits⟩
  · obtain ⟨x, -, rfl⟩ := Except.map_eq_ok_iff.mp hstep
    exact ⟨hlower, fun h => absurd h hne, hscaler, hunits⟩
  · obtain ⟨x, -, rfl⟩ := Except.map_eq_ok_iff.mp hstep
    exact ⟨hlower, hupper, fun h => absurd h hne, hunits⟩
  · obtain ⟨s, -, rfl⟩ := Except.map_eq_ok_iff.mp hstep
    exact ⟨hlower, hupper, hscaler, fun h => absurd h hne⟩
  · cases hstep

theorem ofValue_eq_of_thins (path : KeyPath) (h : Thins .entry v w) :
    ofValue path v = ofValue path w := by
  cases h with
  | scalar s => rfl
  | list each => rfl
  | table distinct spelling each =>
    have hempty (k : String) : Draft.empty.Unset k :=
      ⟨fun _ => rfl, fun _ => rfl, fun _ => rfl, fun _ => rfl⟩
    have hfold := each.foldlM_eq (fun d k _ _ hv => Draft.extend_eq_of_thins path d k hv)
      (Draft.extend_null path) (fun _ _ _ _ _ hstep hne hd => hd.extend hstep hne) distinct
      fun k _ => hempty k
    simp only [ofValue, hfold]

theorem listFrom_eq_of_thins {path : KeyPath} {i : Nat} {vs ws : List Value}
    (h : ThinsItems .entry vs ws) : listFrom path i vs = listFrom path i ws := by
  induction vs generalizing i ws with
  | nil =>
    cases h
    rfl
  | cons v rest ih =>
    cases h with
    | cons head tail => simp only [listFrom, ofValue_eq_of_thins _ head, ih tail]

theorem listOfValue_eq_of_thins (path : KeyPath) (h : Thins .entry v w) :
    listOfValue path v = listOfValue path w := by
  cases h with
  | scalar s => rfl
  | list each => exact listFrom_eq_of_thins each
  | table distinct spelling each =>
    simp only [listOfValue, ofValue_eq_of_thins path (.table distinct spelling each)]

end VariableEntry

namespace OptimizationSpec

def Apart (es : List (String × Value)) : Prop :=
  es.Pairwise fun a b => ∀ f, Field.ofKey? a.1 = some f → Field.ofKey? b.1 ≠ some f

theorem apart_of_singleSpelling (hdistinct : (es.map (·.1)).Nodup)
    (hspelling : SingleSpelling (es.map (·.1))) : Apart es := by
  rw [List.nodup_iff_pairwise_ne, List.pairwise_map] at hdistinct
  exact hdistinct.imp_of_mem fun {a b} ha hb hne f hf hf' =>
    hne (Field.key_unique_of_spelling (hspelling f) (List.mem_map_of_mem ha)
      (List.mem_map_of_mem hb) hf hf')

def Draft.Unset (d : Draft) (es : List (String × Value)) : Prop :=
  ∀ e ∈ es, ∀ f, Field.ofKey? e.1 = some f → d.lookup f = none

theorem Draft.Unset.append {d : Draft} {e : String × Value} {rest : List (String × Value)}
    {f : Field} (hd : d.Unset (e :: rest)) (hapart : Apart (e :: rest))
    (hf : Field.ofKey? e.1 = some f) (entries : List VariableEntry) :
    Draft.Unset (d ++ [(f, entries)]) rest := by
  intro e' he' g hg
  have hne : (g == f) = false := by
    rw [beq_eq_false_iff_ne]
    rintro rfl
    exact (List.pairwise_cons.mp hapart).1 e' he' g hf hg
  have hlookup := hd e' (List.mem_cons_of_mem _ he') g hg
  rw [List.lookup_append, hlookup]
  simp [List.lookup_cons, hne]

theorem Draft.entries_append {d : Draft} {f : Field} (hd : d.lookup f = none)
    (entries : List VariableEntry) (g : Field) :
    Draft.entries (d ++ [(f, entries)]) g = if g = f then entries else d.entries g := by
  rw [Draft.entries, List.lookup_append]
  by_cases hg : g = f
  · subst hg
    simp [hd]
  · have hne : (g == f) = false := by simpa using hg
    simp [Draft.entries, List.lookup_cons, hne, hg]

theorem Draft.extend_of_unset {path : KeyPath} {d : Draft} {k : String} {f : Field}
    (hf : Field.ofKey? k = some f) (hd : d.lookup f = none) :
    d.extend path (k, v) =
      (VariableEntry.listOfValue (path.key k) v).map fun entries => d ++ [(f, entries)] := by
  simp [Draft.extend, hf, hd]

theorem foldlM_eq_of_thins {path : KeyPath} {d t : Draft} (h : ThinsEntries p keys es fs)
    (hp : p = .optimization) (hapart : Apart es) (hd : d.Unset es) (ht : t.Unset es)
    (hsame : d.entries = t.entries) :
    (es.foldlM (Draft.extend path) d).map Draft.entries =
      (fs.foldlM (Draft.extend path) t).map Draft.entries := by
  subst hp
  -- A null entry leaves its mark on the draft, but not on the entries that the draft has of a field.
  induction es generalizing fs d t with
  | nil =>
    cases h
    exact congrArg Except.ok hsame
  | cons e rest ih =>
    have hrest : Apart rest := (List.pairwise_cons.mp hapart).2
    cases h with
    | @kept _ _ k v w _ fs head tail =>
      rw [List.foldlM_cons, List.foldlM_cons]
      cases hf : Field.ofKey? k with
      | none => simp only [Draft.extend, hf]; rfl
      | some f =>
        have hdf : d.lookup f = none := hd _ List.mem_cons_self f hf
        have htf : t.lookup f = none := ht _ List.mem_cons_self f hf
        rw [Draft.extend_of_unset hf hdf, Draft.extend_of_unset hf htf,
          VariableEntry.listOfValue_eq_of_thins _ head]
        cases VariableEntry.listOfValue (path.key k) w with
        | error m => rfl
        | ok entries =>
          refine ih hrest (hd.append hapart hf entries) (ht.append hapart hf entries) ?_ tail
          funext g
          rw [Draft.entries_append hdf, Draft.entries_append htf, hsame]
    | @omitted _ _ k _ _ optional tail =>
      obtain ⟨f, hkey⟩ := optional
      have hf : Field.ofKey? k = some f := Field.ofKey?_eq_some_iff.mpr hkey
      have hdf : d.lookup f = none := hd _ List.mem_cons_self f hf
      rw [List.foldlM_cons, Draft.extend_of_unset hf hdf]
      have htrest : t.Unset rest := fun e he => ht e (List.mem_cons_of_mem _ he)
      refine ih hrest (hd.append hapart hf []) htrest ?_ tail
      funext g
      rw [Draft.entries_append hdf, ← hsame]
      split
      · rename_i hg
        rw [hg, Draft.entries, hdf]
        rfl
      · rfl

theorem ofValue_eq_of_thins (path : KeyPath) (h : Thins .optimization v w) :
    ofValue path v = ofValue path w := by
  cases h with
  | scalar s => rfl
  | list each => rfl
  | @table _ es fs distinct spelling each =>
    have hapart : Apart es := apart_of_singleSpelling distinct (spelling rfl)
    have hempty : Draft.Unset [] es := fun _ _ _ _ => rfl
    have hfold : (es.foldlM (Draft.extend path) []).map Draft.entries =
        (fs.foldlM (Draft.extend path) []).map Draft.entries :=
      foldlM_eq_of_thins each rfl hapart hempty hempty rfl
    have hofValue (es : List (String × Value)) : ofValue path (.table es) =
        ((es.foldlM (Draft.extend path) []).map Draft.entries).map fun entries =>
          some ⟨entries .designVariables, entries .constraints, entries .objectives⟩ := by
      rw [ofValue]
      cases es.foldlM (Draft.extend path) [] <;> rfl
    rw [hofValue, hofValue, hfold]

end OptimizationSpec

end DesignProcess
