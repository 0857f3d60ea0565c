import DesignProcess.Proofs.Encoding.Omission
import DesignProcess.Proofs.Lookup

namespace DesignProcess

open Value (Thins ThinsEntries IsSolverKey)

variable {p : Place} {v w : Value} {keys : List String} {es fs : List (String × Value)}

namespace ComponentRequest

theorem extend_eq_of_thins (path : KeyPath) (r : ComponentRequest) (k : String) (h : Thins p v w) :
    extend path r (k, v) = extend path r (k, w) := by
  cases h with
  | scalar s => rfl
  | list each =>
    by_cases hk : k = "id"
    · subst hk
      rfl
    · simp [extend, Value.kindName]
  | table distinct spelling each =>
    by_cases hk : k = "id"
    · subst hk
      rfl
    · simp [extend, Value.kindName]

theorem firstTable_eq_of_thins (hnone : ∀ k, ¬p.Optional keys k) (h : ThinsEntries p keys es fs) :
    (es.find? (·.2.isTable)).map (·.1) = (fs.find? (·.2.isTable)).map (·.1) := by
  induction es generalizing fs with
  | nil =>
    cases h
    rfl
  | cons e rest ih =>
    cases h with
    | @kept _ _ k v w _ fs head tail =>
      rw [List.find?_cons, List.find?_cons, head.isTable_eq]
      cases w.isTable with
      | true => rfl
      | false => exact ih tail
    | omitted optional tail => exact absurd optional (hnone _)

theorem ofEntries_eq_of_thins (path : KeyPath) (hnone : ∀ k, ¬p.Optional keys k)
    (hdistinct : (es.map (·.1)).Nodup) (h : ThinsEntries p keys es fs) :
    ofEntries path es = ofEntries path fs := by
  have hfirst := firstTable_eq_of_thins hnone h
  have hnull (r : ComponentRequest) (k : String) (hk : p.Optional keys k) (_ : True) :
      extend path r (k, .null) = .ok r := absurd hk (hnone k)
  have hfold {r : ComponentRequest} : es.foldlM (extend path) r = fs.foldlM (extend path) r :=
    h.foldlM_eq (fun r k v w hv => extend_eq_of_thins path r k hv) hnull
      (fun _ _ _ _ _ _ _ _ => trivial) hdistinct fun _ _ => trivial
  unfold ofEntries
  cases hes : es.find? (·.2.isTable) with
  | none =>
    cases hfs : fs.find? (·.2.isTable) with
    | none => exact hfold
    | some f => simp [hes, hfs] at hfirst
  | some e =>
    cases hfs : fs.find? (·.2.isTable) with
    | none => simp [hes, hfs] at hfirst
    | some f =>
      have hchild : e.1 = f.1 := by simpa [hes, hfs] using hfirst
      simp only [hchild]

end ComponentRequest

namespace ModelSpec

theorem hasId_eq_of_thins (hp : p = .node) (h : ThinsEntries p keys es fs) :
    hasId es = hasId fs := by
  induction es generalizing fs with
  | nil =>
    cases h
    rfl
  | cons e rest ih =>
    cases h with
    | kept head tail => simp only [hasId, List.any_cons] at ih ⊢; rw [ih tail]
    | @omitted _ _ k _ _ optional tail =>
      subst hp
      have hk : (k == "id") = false := by
        rcases optional.2 with rfl | rfl <;> decide
      simp only [hasId, List.any_cons, hk, Bool.false_or] at ih ⊢
      exact ih tail

structure SolversUnset (solvers : SolverTexts) (keys : List String) : Prop where
  nonlinear : "nonlinear_solver" ∈ keys → solvers.nonlinear = none
  linear : "linear_solver" ∈ keys → solvers.linear = none

theorem SolversUnset.tail {solvers : SolverTexts} {k : String} {rest : List String}
    (h : SolversUnset solvers (k :: rest)) : SolversUnset solvers rest :=
  ⟨fun hmem => h.nonlinear (List.mem_cons_of_mem _ hmem),
    fun hmem => h.linear (List.mem_cons_of_mem _ hmem)⟩

theorem groupOfEntries_null {path : KeyPath} {solvers : SolverTexts}
    {done : List (String × ModelSpec)} {k : String} {rest : List (String × Value)}
    (hk : IsSolverKey k) (hunset : SolversUnset solvers (k :: rest.map (·.1))) :
    groupOfEntries path solvers done ((k, .null) :: rest) =
      groupOfEntries path solvers done rest := by
  obtain ⟨nonlinear, linear⟩ := solvers
  rcases hk with rfl | rfl
  · obtain rfl : nonlinear = none := hunset.nonlinear List.mem_cons_self
    rw [groupOfEntries]
    rfl
  · obtain rfl : linear = none := hunset.linear List.mem_cons_self
    rw [groupOfEntries]
    rfl

mutual

theorem ofValue_eq_of_thins {p : Place} {v w : Value} (path : KeyPath) (h : Thins p v w)
    (hp : p = .node) : ofValue path v = ofValue path w := by
  cases h with
  | scalar s => rfl
  | list each => simp only [ofValue, Value.kindName]
  | @table _ es fs distinct spelling each =>
    have hid := hasId_eq_of_thins hp each
    simp only [ofValue, ← hid]
    by_cases hkey : hasId es = true
    · have hnone : ∀ k, ¬p.Optional (es.map (·.1)) k := by
        subst hp
        intro k optional
        exact optional.1 (any_key_iff_mem.mp hkey)
      simp only [hkey, ↓reduceIte, ComponentRequest.ofEntries_eq_of_thins path hnone distinct each]
    · simp only [hkey, Bool.false_eq_true, ↓reduceIte]
      exact groupOfEntries_eq_of_thins path each hp distinct ⟨fun _ => rfl, fun _ => rfl⟩

theorem groupOfEntries_eq_of_thins {p : Place} {keys : List String} {es fs : List (String × Value)}
    {solvers : SolverTexts} {done : List (String × ModelSpec)} (path : KeyPath)
    (h : ThinsEntries p keys es fs) (hp : p = .node) (hdistinct : (es.map (·.1)).Nodup)
    (hunset : SolversUnset solvers (es.map (·.1))) :
    groupOfEntries path solvers done es = groupOfEntries path solvers done fs := by
  cases h with
  | nil => rfl
  | @kept _ _ k v w es fs head tail =>
    obtain ⟨hnew, hrest⟩ := List.nodup_cons.mp hdistinct
    have hchild {path : KeyPath} : ofValue path v = ofValue path w :=
      ofValue_eq_of_thins path head (by rw [hp]; rfl)
    have hfurther {solvers : SolverTexts} {done : List (String × ModelSpec)}
        (hsolvers : SolversUnset solvers (es.map (·.1))) :
        groupOfEntries path solvers done es = groupOfEntries path solvers done fs :=
      groupOfEntries_eq_of_thins path tail hp hrest hsolvers
    simp only [groupOfEntries, head.string?_eq, head.isTable_eq, head.kindName_eq, hchild]
    split
    · rename_i hk
      congr 1
      funext text
      exact hfurther ⟨fun hmem => absurd (hk ▸ hmem) hnew, hunset.tail.linear⟩
    · split
      · rename_i hk
        congr 1
        funext text
        exact hfurther ⟨hunset.tail.nonlinear, fun hmem => absurd (hk ▸ hmem) hnew⟩
      · simp only [hfurther hunset.tail]
  | @omitted _ _ k es fs optional tail =>
    have hrest := (List.nodup_cons.mp hdistinct).2
    have hk : IsSolverKey k := by
      subst hp
      exact optional.2
    rw [groupOfEntries_null hk hunset]
    exact groupOfEntries_eq_of_thins path tail hp hrest hunset.tail

end

end ModelSpec

end DesignProcess
