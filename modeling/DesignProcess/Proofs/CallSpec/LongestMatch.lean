import DesignProcess.Proofs.CallSpec.Spelling

/-!
The next token of a text is its longest lexeme. Every lexeme is read at least to its end however
the text goes on, and as its own token where reading stops there; the rest is arithmetic on
lengths.
-/

namespace DesignProcess.CallSpec

/-- Reading past `lexeme` may go on for some `extra`; without it the token is the lexeme's own. -/
def ReadsThrough (lexeme : List Char) (u : Token) (tail : List Char) : Prop :=
  ∃ t extra rest, tail = extra ++ rest ∧ Token.next? (lexeme ++ tail) = some (t, rest) ∧
    (extra = [] → t = u)

namespace Token

theorem next_word {c : Char} {r : List Char} (hstart : isNameStart c = true)
    (hrest : ∀ d ∈ r, isNameChar d = true) (tail : List Char) :
    next? (c :: r ++ tail) =
      some (ofWord (c :: (r ++ tail.takeWhile isNameChar)), tail.dropWhile isNameChar) := by
  simp only [List.cons_append, next?, hstart, if_true]
  rw [List.takeWhile_append_of_pos hrest, List.dropWhile_append_of_pos hrest]

theorem word_readsThrough {w : List Char} {c : Char} {r : List Char} (hw : w = c :: r)
    (hstart : isNameStart c = true) (hrest : ∀ d ∈ r, isNameChar d = true) (tail : List Char) :
    ReadsThrough w (ofWord w) tail := by
  subst hw
  refine ⟨_, tail.takeWhile isNameChar, tail.dropWhile isNameChar,
    List.takeWhile_append_dropWhile.symm, next_word hstart hrest tail, ?_⟩
  intro hextra
  rw [hextra, List.append_nil]

theorem ofWord_boolean {word : String} {b : Bool} (h : (word, b) ∈ booleanWords) :
    ofWord word.toList = boolean b := by
  simp only [booleanWords, List.mem_cons, Prod.mk.injEq, List.not_mem_nil, or_false] at h
  rcases h with ⟨rfl, rfl⟩ | ⟨rfl, rfl⟩ | ⟨rfl, rfl⟩ | ⟨rfl, rfl⟩ <;> decide

theorem booleanWords_shape {word : String} {b : Bool} (h : (word, b) ∈ booleanWords) :
    ∃ c r, word.toList = c :: r ∧ isNameStart c = true ∧ ∀ d ∈ r, isNameChar d = true := by
  simp only [booleanWords, List.mem_cons, Prod.mk.injEq, List.not_mem_nil, or_false] at h
  rcases h with ⟨rfl, -⟩ | ⟨rfl, -⟩ | ⟨rfl, -⟩ | ⟨rfl, -⟩
  · exact ⟨'t', "rue".toList, rfl, rfl, List.all_eq_true.mp rfl⟩
  · exact ⟨'T', "rue".toList, rfl, rfl, List.all_eq_true.mp rfl⟩
  · exact ⟨'f', "alse".toList, rfl, rfl, List.all_eq_true.mp rfl⟩
  · exact ⟨'F', "alse".toList, rfl, rfl, List.all_eq_true.mp rfl⟩

theorem ofWord_ident {name : String} (h : name ∉ booleanWords.map (·.1)) :
    ofWord name.toList = ident name := by
  rcases ofWord_spec name.toList with ⟨b, hb, -⟩ | ⟨-, heq⟩
  · rw [String.ofList_toList] at hb
    exact absurd (List.mem_map_of_mem hb) h
  · rwa [String.ofList_toList] at heq

theorem not_isNameStart_of_isDigit {c : Char} (h : c.isDigit = true) : isNameStart c = false := by
  cases hstart : isNameStart c with
  | false => rfl
  | true =>
    change (decide ('0'.val ≤ c.val) && decide (c.val ≤ '9'.val)) = true at h
    change (decide ('A'.val ≤ c.val ∧ c.val ≤ 'Z'.val) ||
      decide ('a'.val ≤ c.val) && decide (c.val ≤ 'z'.val) || c == '_') = true at hstart
    simp only [Bool.or_eq_true, Bool.and_eq_true, decide_eq_true_eq, UInt32.le_iff_toNat_le,
      beq_iff_eq] at h hstart
    change 48 ≤ c.toNat ∧ c.toNat ≤ 57 at h
    change (65 ≤ c.toNat ∧ c.toNat ≤ 90 ∨ 97 ≤ c.toNat ∧ c.toNat ≤ 122) ∨ c = '_' at hstart
    rcases hstart with (hupper | hlower) | rfl
    · omega
    · omega
    · exact absurd h.2 (by decide)

theorem next_digit {c : Char} {r : List Char} (h : c.isDigit = true) :
    next? (c :: r) = some (number (c :: r)) := by
  simp only [next?, not_isNameStart_of_isDigit h, h, if_true, Bool.false_eq_true, if_false]

theorem next_digits {ds : List Char} (hne : ds ≠ []) (hd : Digits ds) (tail : List Char) :
    next? (ds ++ tail) = some (number (ds ++ tail)) := by
  cases ds with
  | nil => exact absurd rfl hne
  | cons d ds => exact next_digit (hd d List.mem_cons_self)

theorem integer_readsThrough {digits : String} (hne : digits.toList ≠ [])
    (hd : Digits digits.toList) (tail : List Char) :
    ReadsThrough digits.toList (integer digits) tail := by
  obtain ⟨hsplit, -⟩ := fraction_spec (tail.dropWhile Char.isDigit)
  have hnext := (next_digits hne hd tail).trans (congrArg some (number_eq _))
  rw [takeWhile_digits_append hd, dropWhile_digits_append hd] at hnext
  refine ⟨_, tail.takeWhile Char.isDigit ++ (fraction (tail.dropWhile Char.isDigit)).1, _, ?_,
    hnext, ?_⟩
  · rw [List.append_assoc, ← hsplit, List.takeWhile_append_dropWhile]
  · intro hextra
    obtain ⟨htake, hfraction⟩ := List.append_eq_nil_iff.mp hextra
    rw [if_pos hfraction, htake, List.append_nil, String.ofList_toList]

theorem number_append {whole f extra rest tail : List Char} (hwhole : Digits whole)
    (hne : f ≠ []) (hhead : (f ++ tail).takeWhile Char.isDigit = [])
    (hfraction : fraction (f ++ tail) = (f ++ extra, rest)) :
    number (whole ++ f ++ tail) = (float (String.ofList (whole ++ f ++ extra)), rest) := by
  have hdrop : (f ++ tail).dropWhile Char.isDigit = f ++ tail := by
    have hcut : (f ++ tail).takeWhile Char.isDigit ++ (f ++ tail).dropWhile Char.isDigit =
        f ++ tail := List.takeWhile_append_dropWhile
    rwa [hhead, List.nil_append] at hcut
  have hf : f ++ extra ≠ [] := fun h => hne (List.append_eq_nil_iff.mp h).1
  rw [number_eq, List.append_assoc, takeWhile_digits_append hwhole,
    dropWhile_digits_append hwhole, hhead, hdrop, hfraction, if_neg hf]
  simp only [List.append_nil, List.append_assoc]

theorem float_readsThrough {text : String} {whole f : List Char}
    (htext : text.toList = whole ++ f) (hne : whole ≠ []) (hwhole : Digits whole)
    (hf : f ≠ []) {tail : List Char} (hhead : (f ++ tail).takeWhile Char.isDigit = [])
    (hfraction : ∃ extra rest, tail = extra ++ rest ∧ fraction (f ++ tail) = (f ++ extra, rest)) :
    ReadsThrough text.toList (float text) tail := by
  obtain ⟨extra, rest, htail, hfraction⟩ := hfraction
  refine ⟨float (String.ofList (whole ++ f ++ extra)), extra, rest, htail, ?_, ?_⟩
  · rw [htext, List.append_assoc, next_digits hne hwhole, ← List.append_assoc,
      number_append hwhole hf hhead hfraction]
  · intro hextra
    rw [hextra, List.append_nil, ← htext, String.ofList_toList]

theorem pointed_readsThrough {text : String} {whole ds e : List Char}
    (htext : text.toList = whole ++ '.' :: (ds ++ e)) (hne : whole ≠ []) (hwhole : Digits whole)
    (hd : Digits ds) (he : Exponent e) (tail : List Char) :
    ReadsThrough text.toList (float text) tail :=
  float_readsThrough htext hne hwhole (by simp) rfl (fraction_point_append hd he tail)

theorem scaled_readsThrough {text : String} {whole e : List Char}
    (htext : text.toList = whole ++ e) (hne : whole ≠ []) (hwhole : Digits whole)
    (hscaled : e ≠ []) (he : Exponent e) (tail : List Char) :
    ReadsThrough text.toList (float text) tail :=
  float_readsThrough htext hne hwhole hscaled (takeWhile_digits_exponent he hscaled tail)
    ⟨_, _, List.takeWhile_append_dropWhile.symm, fraction_exponent he hscaled tail⟩

theorem next_point (r : List Char) : next? ('.' :: r) = some (dotted r) := rfl

theorem dot_readsThrough (tail : List Char) : ReadsThrough ['.'] dot tail := by
  unfold ReadsThrough
  rw [List.singleton_append, next_point, dotted]
  split
  · rename_i hdigit
    obtain ⟨hsplit, -⟩ := exponent_spec (tail.dropWhile Char.isDigit)
    rw [fraction_point]
    refine ⟨_, tail.takeWhile Char.isDigit ++ (exponent (tail.dropWhile Char.isDigit)).1, _,
      ?_, rfl, ?_⟩
    · rw [List.append_assoc, ← hsplit, List.takeWhile_append_dropWhile]
    · intro hextra
      cases tail with
      | nil => cases hdigit
      | cons d tail =>
        have hd : d.isDigit = true := by simpa using hdigit
        simp [hd] at hextra
  · exact ⟨_, [], tail, rfl, rfl, fun _ => rfl⟩

theorem fraction_readsThrough {text : String} {ds e : List Char}
    (htext : text.toList = '.' :: (ds ++ e)) (hne : ds ≠ []) (hd : Digits ds) (he : Exponent e)
    (tail : List Char) : ReadsThrough text.toList (float text) tail := by
  obtain ⟨extra, rest, htail, hfraction⟩ := fraction_point_append hd he tail
  have hhead : (ds ++ e ++ tail).head?.any Char.isDigit = true := by
    cases ds with
    | nil => exact absurd rfl hne
    | cons d ds => simpa using hd d List.mem_cons_self
  refine ⟨float (String.ofList ('.' :: (ds ++ e) ++ extra)), extra, rest, htail, ?_, ?_⟩
  · rw [List.cons_append] at hfraction
    rw [htext, List.cons_append, next_point, dotted, if_pos hhead, hfraction]
  · intro hextra
    rw [hextra, List.append_nil, ← htext, String.ofList_toList]

theorem quoted_append {quote : Char} {content : String}
    (h : ∀ c ∈ content.toList, c ≠ quote ∧ c ≠ '\\' ∧ c ≠ '\n') (tail : List Char) :
    quoted? quote (content.toList ++ quote :: tail) = some (str content, tail) := by
  have hcontent : ∀ c ∈ content.toList, isContent quote c = true :=
    fun c hc => (isContent_iff quote c).mpr (h c hc)
  have hquote : isContent quote quote = false := by simp [isContent]
  have htake : (content.toList ++ quote :: tail).takeWhile (isContent quote) = content.toList := by
    rw [List.takeWhile_append_of_pos hcontent, List.takeWhile_cons_of_neg (by simp [hquote]),
      List.append_nil]
  have hdrop : (content.toList ++ quote :: tail).dropWhile (isContent quote) = quote :: tail := by
    rw [List.dropWhile_append_of_pos hcontent, List.dropWhile_cons_of_neg (by simp [hquote])]
  simp only [quoted?, hdrop, htake, if_true, String.ofList_toList]

theorem str_readsThrough {quote : Char} {content : String} (hquote : quote = '\'' ∨ quote = '"')
    (h : ∀ c ∈ content.toList, c ≠ quote ∧ c ≠ '\\' ∧ c ≠ '\n') (tail : List Char) :
    ReadsThrough (quote :: (content.toList ++ [quote])) (str content) tail := by
  refine ⟨str content, [], tail, rfl, ?_, fun _ => rfl⟩
  have hnext : next? (quote :: (content.toList ++ [quote]) ++ tail) =
      quoted? quote (content.toList ++ quote :: tail) := by
    rw [List.cons_append, List.append_assoc, List.singleton_append]
    rcases hquote with rfl | rfl <;> rfl
  rw [hnext, quoted_append h]

theorem spells_readsThrough {lexeme : List Char} {u : Token} (h : Spells lexeme u)
    (tail : List Char) : ReadsThrough lexeme u tail := by
  cases h with
  | lparen | rparen | comma | equals | minus | plus =>
    exact ⟨_, [], tail, rfl, rfl, fun _ => rfl⟩
  | dot => exact dot_readsThrough tail
  | boolean hword =>
    obtain ⟨c, r, hshape, hstart, hrest⟩ := booleanWords_shape hword
    rw [← ofWord_boolean hword]
    exact word_readsThrough hshape hstart hrest tail
  | ident hname hstart hrest hword =>
    rw [← ofWord_ident hword]
    exact word_readsThrough hname hstart hrest tail
  | integer hne hd => exact integer_readsThrough hne hd tail
  | pointed htext hne hwhole hd he => exact pointed_readsThrough htext hne hwhole hd he tail
  | fraction htext hne hd he => exact fraction_readsThrough htext hne hd he tail
  | scaled htext hne hwhole hscaled he =>
    exact scaled_readsThrough htext hne hwhole hscaled he tail
  | str hquote hcontent => exact str_readsThrough hquote hcontent tail

theorem next_eq_some_iff (cs rest : List Char) (t : Token) :
    next? cs = some (t, rest) ↔ Longest cs t rest := by
  constructor
  · intro h
    obtain ⟨lexeme, hsplit, hspells⟩ := next_sound h
    refine ⟨lexeme, hsplit, hspells, ?_⟩
    intro longer tail u hlonger hu
    obtain ⟨t', extra, rest', htail, hnext, -⟩ := spells_readsThrough hu tail
    rw [← hlonger, h] at hnext
    cases hnext
    have hlength := congrArg List.length (hsplit.symm.trans hlonger)
    simp only [htail, List.length_append] at hlength
    omega
  · rintro ⟨lexeme, hsplit, hspells, hlongest⟩
    obtain ⟨t', extra, rest', htail, hnext, htoken⟩ := spells_readsThrough hspells rest
    rw [← hsplit] at hnext
    obtain ⟨lexeme', hsplit', hspells'⟩ := next_sound hnext
    have hle := hlongest lexeme' rest' t' hsplit' hspells'
    have hlength := congrArg List.length (hsplit.symm.trans hsplit')
    simp only [htail, List.length_append] at hlength
    have hextra : extra = [] := List.length_eq_zero_iff.mp (by omega)
    rw [hnext, htoken hextra, htail, hextra, List.nil_append]

end Token

end DesignProcess.CallSpec
