import DesignProcess.Proofs.CallSpec.Parsing
import DesignProcess.Proofs.Decimal.Finite

namespace DesignProcess.CallSpec

def IsIdent (name : String) : Prop := ∃ lexeme, Spells lexeme (.ident name)

def Readable : Scalar → Prop
  | .string s => ∀ c ∈ s.toList, c ≠ '\\' ∧ c ≠ '\n'
  | .float x => x.isFinite = true
  | _ => True

structure WellFormed (s : CallSpec) : Prop where
  names : ∀ name ∈ s.names, IsIdent name
  arguments : ∀ a ∈ s.arguments, IsIdent a.1 ∧ Readable a.2
  distinct : (s.arguments.map (·.1)).Nodup

theorem Numeral.readable {negative : Bool} {t : Token} {v : Scalar} (h : Numeral negative t v) :
    Readable v := by
  cases h with
  | integer => trivial
  | float _ hfinite =>
    cases negative with
    | false =>
      rw [if_neg Bool.false_ne_true]
      exact hfinite
    | true =>
      rw [if_pos rfl]
      exact (Decimal.isFinite_neg _).mpr hfinite

theorem Literal.readable {ts : List Token} {v : Scalar} (h : Literal ts v)
    (hts : ∀ t ∈ ts, ∃ lexeme, Spells lexeme t) : Readable v := by
  cases h with
  | unsigned h | plus h | minus h => exact h.readable
  | boolean => trivial
  | str content =>
    obtain ⟨lexeme, hspells⟩ := hts _ List.mem_cons_self
    cases hspells with
    | str _ hcontent =>
      intro c hc
      exact (hcontent c hc).2

theorem argument_of_arguments {ws : List Token} {arguments : List (String × Scalar)}
    (h : Arguments ws arguments) {a : String × Scalar} (ha : a ∈ arguments) :
    ∃ ts, Argument ts a ∧ ts ⊆ ws := by
  induction h with
  | @last ts b hb =>
    obtain rfl := List.mem_singleton.mp ha
    exact ⟨ts, hb, List.Subset.refl ts⟩
  | @comma ts b hb =>
    obtain rfl := List.mem_singleton.mp ha
    exact ⟨ts, hb, List.subset_append_left _ _⟩
  | @more ts us b others hb _ ih =>
    rcases List.mem_cons.mp ha with rfl | hmem
    · exact ⟨ts, hb, List.subset_append_left _ _⟩
    · obtain ⟨vs, hvs, hsubset⟩ := ih hmem
      refine ⟨vs, hvs, ?_⟩
      intro t ht
      apply List.mem_append_right
      exact List.mem_cons_of_mem _ (hsubset ht)

theorem argument_of_call {ws : List Token} {names : List String}
    {arguments : List (String × Scalar)} (h : Call ws names arguments) {a : String × Scalar}
    (ha : a ∈ arguments) : ∃ ts, Argument ts a ∧ ts ⊆ ws := by
  cases h with
  | bare | empty => cases ha
  | applied _ harguments =>
    obtain ⟨ts, hts, hsubset⟩ := argument_of_arguments harguments ha
    refine ⟨ts, hts, ?_⟩
    intro t ht
    apply List.mem_append_right
    apply List.mem_cons_of_mem
    exact List.mem_append_left _ (hsubset ht)

theorem distinct_of_call {ws : List Token} {names : List String}
    {arguments : List (String × Scalar)} (h : Call ws names arguments) :
    (arguments.map (·.1)).Nodup := by
  cases h with
  | bare | empty => exact List.nodup_nil
  | applied _ _ hdistinct => exact hdistinct

theorem wellFormed_of_ofText {text : String} {s : CallSpec} (h : ofText text = .ok s) :
    s.WellFormed := by
  obtain ⟨ws, hlexes, hcall⟩ := (ofText_eq_ok_iff text s).mp h
  constructor
  · intro name hname
    exact spells_of_mem hlexes (ident_mem_of_call hcall hname)
  · intro a ha
    obtain ⟨ts, hts, hsubset⟩ := argument_of_call hcall ha
    have hspells : ∀ t ∈ ts, ∃ lexeme, Spells lexeme t := by
      intro t ht
      exact spells_of_mem hlexes (hsubset ht)
    cases hts with
    | keyword name hv =>
      refine ⟨hspells _ List.mem_cons_self, ?_⟩
      apply hv.readable
      intro t ht
      exact hspells t (List.mem_cons_of_mem _ (List.mem_cons_of_mem _ ht))
  · exact distinct_of_call hcall

end DesignProcess.CallSpec
