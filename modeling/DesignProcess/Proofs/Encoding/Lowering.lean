import DesignProcess.Document.Reading
import DesignProcess.Proofs.Encoding.Omission

namespace DesignProcess

namespace Yaml.Value

def named (entries : List (String × Value)) : Value :=
  .mapping (entries.map fun e => (.string e.1, e.2))

/-- What stands at a place of a description and can be said in TOML too: the keys of a table are
texts and distinct, nothing is tagged, integers have 64 bits, and null occurs only under keys that
may as well be absent. -/
inductive Portable : Place → Value → Prop
  | boolean {p : Place} (b : Bool) : Portable p (.boolean b)
  | integer {p : Place} {n : Int} (lower : Int64.minValue.toInt ≤ n)
      (upper : n ≤ Int64.maxValue.toInt) : Portable p (.integer n)
  | float {p : Place} (x : Float) : Portable p (.float x)
  | string {p : Place} (s : String) : Portable p (.string s)
  | sequence {p : Place} {items : List Value} (each : ∀ v ∈ items, Portable p.item v) :
      Portable p (.sequence items)
  | mapping {p : Place} {entries : List (String × Value)} (distinct : (entries.map (·.1)).Nodup)
      (spelling : p = .optimization → SingleSpelling (entries.map (·.1)))
      (nulls : ∀ k, (k, .null) ∈ entries → p.Optional (entries.map (·.1)) k)
      (each : ∀ e ∈ entries, e.2 ≠ .null → Portable (p.under e.1) e.2) : Portable p (named entries)

mutual

def withoutNulls : Value → Toml.Value
  | .null => .table []
  | .boolean b => .boolean b
  | .integer n => .integer n
  | .float x => .float x
  | .string s => .string s
  | .sequence items => .array (itemsWithoutNulls items)
  | .mapping entries => .table (entriesWithoutNulls entries)
  | .tagged _ v => v.withoutNulls

def itemsWithoutNulls : List Value → List Toml.Value
  | [] => []
  | v :: rest => v.withoutNulls :: itemsWithoutNulls rest

def entriesWithoutNulls : List (Value × Value) → List (String × Toml.Value)
  | [] => []
  | (_, .null) :: rest => entriesWithoutNulls rest
  | (.string k, v) :: rest => (k, v.withoutNulls) :: entriesWithoutNulls rest
  | _ :: rest => entriesWithoutNulls rest

end

theorem entriesWithoutNulls_cons {k : String} {v : Value} {rest : List (Value × Value)}
    (h : v ≠ .null) : entriesWithoutNulls ((.string k, v) :: rest) =
      (k, v.withoutNulls) :: entriesWithoutNulls rest := by
  cases v with
  | null => exact absurd rfl h
  | _ => rfl

end Yaml.Value

namespace Value

open Yaml.Value (named withoutNulls itemsWithoutNulls entriesWithoutNulls)

def Lowers (p : Place) (y : Yaml.Value) : Prop :=
  ∀ path, ∃ v w, ofYaml path y = .ok v ∧ ofToml path y.withoutNulls = .ok w ∧ Thins p v w

theorem items_lower {p : Place} {items : List Yaml.Value} (h : ∀ y ∈ items, Lowers p y)
    (path : KeyPath) (i : Nat) :
    ∃ vs ws, ofYamlItems path i items = .ok vs ∧
      ofTomlItems path i (itemsWithoutNulls items) = .ok ws ∧ ThinsItems p vs ws := by
  induction items generalizing i with
  | nil => exact ⟨[], [], rfl, rfl, .nil⟩
  | cons y rest ih =>
    obtain ⟨hy, hrest⟩ := List.forall_mem_cons.mp h
    obtain ⟨v, w, hv, hw, hthins⟩ := hy (path.index i)
    obtain ⟨vs, ws, hvs, hws, htail⟩ := ih hrest (i + 1)
    refine ⟨v :: vs, w :: ws, ?_, ?_, .cons hthins htail⟩
    · rw [ofYamlItems, hv, hvs]
      rfl
    · rw [itemsWithoutNulls, ofTomlItems, hw, hws]
      rfl

theorem entries_lower {p : Place} {keys : List String} {entries : List (String × Yaml.Value)}
    (hnulls : ∀ k, (k, .null) ∈ entries → p.Optional keys k)
    (heach : ∀ e ∈ entries, e.2 ≠ .null → Lowers (p.under e.1) e.2) (path : KeyPath) :
    ∃ es fs, ofYamlEntries path (entries.map fun e => (.string e.1, e.2)) = .ok es ∧
      ofTomlEntries path (entriesWithoutNulls (entries.map fun e => (.string e.1, e.2))) = .ok fs ∧
      es.map (·.1) = entries.map (·.1) ∧ ThinsEntries p keys es fs := by
  induction entries with
  | nil => exact ⟨[], [], rfl, rfl, rfl, .nil⟩
  | cons e rest ih =>
    obtain ⟨k, y⟩ := e
    obtain ⟨hy, hrest⟩ := List.forall_mem_cons.mp heach
    obtain ⟨es, fs, hes, hfs, hkeys, htail⟩ :=
      ih (fun k hk => hnulls k (List.mem_cons_of_mem _ hk)) hrest
    simp only [List.map_cons]
    by_cases hnull : y = .null
    · subst hnull
      refine ⟨(k, .null) :: es, fs, ?_, hfs, by rw [List.map_cons, hkeys],
        .omitted (hnulls k List.mem_cons_self) htail⟩
      rw [ofYamlEntries, hes]
      rfl
    · obtain ⟨v, w, hv, hw, hthins⟩ := hy hnull (path.key k)
      refine ⟨(k, v) :: es, (k, w) :: fs, ?_, ?_, by rw [List.map_cons, hkeys], .kept hthins htail⟩
      · rw [ofYamlEntries, hv, hes]
        rfl
      · rw [Yaml.Value.entriesWithoutNulls_cons hnull, ofTomlEntries, hw, hfs]
        rfl

theorem lowers_of_portable {p : Place} {y : Yaml.Value} (h : y.Portable p) : Lowers p y := by
  induction h with
  | boolean b => exact fun path => ⟨_, _, rfl, rfl, .scalar _⟩
  | @integer _ n lower upper =>
    have hfits : Decimal.int64? n = some (Int64.ofInt n) := if_pos ⟨lower, upper⟩
    intro path
    exact ⟨_, _, by rw [ofYaml, hfits], by rw [withoutNulls, ofToml, hfits], .scalar _⟩
  | float x => exact fun path => ⟨_, _, rfl, rfl, .scalar _⟩
  | string s => exact fun path => ⟨_, _, rfl, rfl, .scalar _⟩
  | sequence each ih =>
    intro path
    obtain ⟨vs, ws, hvs, hws, hthins⟩ := items_lower ih path 0
    exact ⟨_, _, by rw [ofYaml, hvs]; rfl, by rw [withoutNulls, ofToml, hws]; rfl, .list hthins⟩
  | mapping distinct spelling nulls each ih =>
    intro path
    obtain ⟨es, fs, hes, hfs, hkeys, hthins⟩ := entries_lower nulls ih path
    rw [← hkeys] at distinct spelling hthins
    exact ⟨_, _, by rw [named, ofYaml, hes]; rfl, by rw [named, withoutNulls, ofToml, hfs]; rfl,
      .table distinct spelling hthins⟩

end Value

end DesignProcess
