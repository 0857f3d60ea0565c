import DesignProcess.Proofs.CallSpec.Lexeme

namespace DesignProcess.CallSpec

namespace Token

theorem number_sound {c : Char} {r : List Char} (hc : c.isDigit = true) :
    ∃ lexeme, c :: r = lexeme ++ (number (c :: r)).2 ∧ Spells lexeme (number (c :: r)).1 := by
  have hwhole := digits_takeWhile (c :: r)
  have hne : (c :: r).takeWhile Char.isDigit ≠ [] := by simp [hc]
  have hcut : (c :: r).takeWhile Char.isDigit ++ (c :: r).dropWhile Char.isDigit = c :: r :=
    List.takeWhile_append_dropWhile
  obtain ⟨hsplit, hfraction⟩ := fraction_spec ((c :: r).dropWhile Char.isDigit)
  rw [number_eq]
  by_cases hf : (fraction ((c :: r).dropWhile Char.isDigit)).1 = []
  · rw [if_pos hf]
    refine ⟨(String.ofList ((c :: r).takeWhile Char.isDigit)).toList, ?_, .integer ?_ ?_⟩
    · rw [hf, List.nil_append] at hsplit
      rw [String.toList_ofList, ← hsplit, hcut]
    · rwa [String.toList_ofList]
    · rwa [String.toList_ofList]
  · rw [if_neg hf]
    refine ⟨(String.ofList ((c :: r).takeWhile Char.isDigit ++
      (fraction ((c :: r).dropWhile Char.isDigit)).1)).toList, ?_, ?_⟩
    · rw [String.toList_ofList, List.append_assoc, ← hsplit, hcut]
    · rcases hfraction with ⟨ds, e, hpoint, hds, he⟩ | he
      · exact .pointed (by rw [String.toList_ofList, hpoint]) hne hwhole hds he
      · exact .scaled String.toList_ofList hne hwhole hf he

theorem dotted_sound (r : List Char) :
    ∃ lexeme, '.' :: r = lexeme ++ (dotted r).2 ∧ Spells lexeme (dotted r).1 := by
  unfold dotted
  split
  · rename_i hdigit
    obtain ⟨hsplit, hexponent⟩ := exponent_spec (r.dropWhile Char.isDigit)
    have hne : r.takeWhile Char.isDigit ≠ [] := by
      cases r with
      | nil => simp at hdigit
      | cons d r =>
        have hd : d.isDigit = true := by simpa using hdigit
        simp [hd]
    rw [fraction_point]
    refine ⟨(String.ofList ('.' :: (r.takeWhile Char.isDigit ++
      (exponent (r.dropWhile Char.isDigit)).1))).toList, ?_, ?_⟩
    · rw [String.toList_ofList, List.cons_append, List.append_assoc, ← hsplit,
        List.takeWhile_append_dropWhile]
    · exact .fraction String.toList_ofList hne (digits_takeWhile r) hexponent
  · exact ⟨['.'], rfl, .dot⟩

theorem isContent_iff (quote c : Char) :
    isContent quote c = true ↔ c ≠ quote ∧ c ≠ '\\' ∧ c ≠ '\n' := by
  simp [isContent, and_assoc]

theorem quoted_sound {quote : Char} {r rest : List Char} {t : Token}
    (hquote : quote = '\'' ∨ quote = '"') (h : quoted? quote r = some (t, rest)) :
    ∃ lexeme, quote :: r = lexeme ++ rest ∧ Spells lexeme t := by
  have hcut : r.takeWhile (isContent quote) ++ r.dropWhile (isContent quote) = r :=
    List.takeWhile_append_dropWhile
  unfold quoted? at h
  split at h
  · cases h
  · rename_i c tail hdrop
    split at h
    · rename_i hc
      subst hc
      cases h
      refine ⟨_, ?_, .str hquote ?_⟩
      · rw [String.toList_ofList, List.cons_append, List.append_assoc, List.singleton_append,
          ← hdrop, hcut]
      · intro d hd
        rw [String.toList_ofList] at hd
        exact (isContent_iff c d).mp (List.mem_takeWhile_imp hd)
    · cases h

theorem symbol_sound {c : Char} {t : Token} (h : symbol? c = some t) : Spells [c] t := by
  unfold symbol? at h
  split at h <;> cases h
  · exact .lparen
  · exact .rparen
  · exact .comma
  · exact .equals
  · exact .minus
  · exact .plus

theorem ofWord_spec (w : List Char) :
    (∃ b, (String.ofList w, b) ∈ booleanWords ∧ ofWord w = boolean b) ∨
      (String.ofList w ∉ booleanWords.map (·.1) ∧ ofWord w = ident (String.ofList w)) := by
  have hword : ∀ s : String, w = s.toList ↔ String.ofList w = s := fun s =>
    ⟨fun h => by rw [h, String.ofList_toList], fun h => by rw [← h, String.toList_ofList]⟩
  unfold ofWord
  simp only [hword]
  by_cases htrue : String.ofList w = "true" ∨ String.ofList w = "True"
  · rw [if_pos htrue]
    refine .inl ⟨true, ?_, rfl⟩
    rcases htrue with h | h <;> simp [h, booleanWords]
  · rw [if_neg htrue]
    by_cases hfalse : String.ofList w = "false" ∨ String.ofList w = "False"
    · rw [if_pos hfalse]
      refine .inl ⟨false, ?_, rfl⟩
      rcases hfalse with h | h <;> simp [h, booleanWords]
    · rw [if_neg hfalse]
      refine .inr ⟨?_, rfl⟩
      simpa [booleanWords, and_assoc] using And.intro htrue hfalse

theorem ofWord_sound {c : Char} {r : List Char} (hstart : isNameStart c = true)
    (hrest : ∀ d ∈ r, isNameChar d = true) : Spells (c :: r) (ofWord (c :: r)) := by
  have htext : (String.ofList (c :: r)).toList = c :: r := String.toList_ofList
  rcases ofWord_spec (c :: r) with ⟨b, hb, heq⟩ | ⟨hword, heq⟩
  · have hspells : Spells (String.ofList (c :: r)).toList (boolean b) := .boolean hb
    rwa [heq, ← htext]
  · have hspells : Spells (String.ofList (c :: r)).toList (ident (String.ofList (c :: r))) :=
      .ident htext hstart hrest hword
    rw [heq]
    rwa [htext] at hspells

theorem next_sound {cs rest : List Char} {t : Token} (h : next? cs = some (t, rest)) :
    ∃ lexeme, cs = lexeme ++ rest ∧ Spells lexeme t := by
  cases cs with
  | nil => cases h
  | cons c r =>
    simp only [next?] at h
    split at h
    · rename_i hstart
      cases h
      refine ⟨c :: r.takeWhile isNameChar, ?_, ofWord_sound hstart ?_⟩
      · rw [List.cons_append, List.takeWhile_append_dropWhile]
      · exact fun d hd => List.mem_takeWhile_imp hd
    · split at h
      · rename_i hdigit
        have hnumber := number_sound (r := r) hdigit
        rwa [Option.some.inj h] at hnumber
      · split at h
        · rename_i hdot
          have hdotted := dotted_sound r
          rwa [Option.some.inj h, ← hdot] at hdotted
        · split at h
          · rename_i hquote
            exact quoted_sound hquote h
          · obtain ⟨s, hs, heq⟩ := Option.map_eq_some_iff.mp h
            cases heq
            exact ⟨[c], rfl, symbol_sound hs⟩

end Token

end DesignProcess.CallSpec
