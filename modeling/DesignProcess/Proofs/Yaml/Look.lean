import DesignProcess.Proofs.Decimal.Signed
import DesignProcess.Proofs.Yaml.Bare
import DesignProcess.Yaml.Value

namespace DesignProcess.Yaml

variable {w : List Char}

def reserved : List (List Char) :=
  ["null".toList, "Null".toList, "NULL".toList, "true".toList, "True".toList, "TRUE".toList,
    "false".toList, "False".toList, "FALSE".toList]

structure IsName (w : List Char) : Prop where
  chars : ∀ c ∈ w, isBareChar c = true
  letter : ∃ c r, w = c :: r ∧ c.isAlpha = true
  short : w.length ≤ 1024
  plain : w ∉ reserved

theorem IsName.isBare (h : IsName w) : IsBare w := by
  obtain ⟨c, r, rfl, hc⟩ := h.letter
  exact ⟨h.chars, c, r, .inl rfl, by simp [Char.isAlphanum, hc]⟩

namespace Look

theorem dropSign_of_ne {c : Char} {r : List Char} (hplus : c ≠ '+') (hminus : c ≠ '-') :
    dropSign (c :: r) = c :: r := by
  unfold dropSign
  split <;> simp_all

theorem isPadded_of_ne {c : Char} {r : List Char} (hplus : c ≠ '+') (hminus : c ≠ '-')
    (hzero : c = '0' → r = []) : isPadded (c :: r) = false := by
  unfold isPadded
  rw [dropSign_of_ne hplus hminus]
  split
  · rename_i heq
    cases heq
    cases hzero rfl
  · rfl

theorem natural?_of_ne {c : Char} {r : List Char} (hzero : c = '0' → r = []) :
    natural? (c :: r) = digits? 10 Char.isDigit (c :: r) := by
  unfold natural?
  split
  · rename_i heq
    cases heq
    cases hzero rfl
  · rename_i heq
    cases heq
    cases hzero rfl
  · rename_i heq
    cases heq
    cases hzero rfl
  · rfl

theorem integer?_of_ne {c : Char} {r : List Char} (hplus : c ≠ '+') (hminus : c ≠ '-')
    (hzero : c = '0' → r = []) :
    integer? (c :: r) = (digits? 10 Char.isDigit (c :: r)).map fun n => (n : ℤ) := by
  unfold integer?
  rw [isPadded_of_ne hplus hminus hzero, ← natural?_of_ne hzero]
  split
  · rename_i h
    cases h
  · split
    · rename_i heq
      cases heq
      exact absurd rfl hminus
    · rename_i heq
      cases heq
      exact absurd rfl hplus
    · rfl

theorem integer?_name {c : Char} {r : List Char} (hc : c.isAlpha = true) :
    integer? (c :: r) = none := by
  rw [integer?_of_ne (Text.ne_of_class hc rfl) (Text.ne_of_class hc rfl)
    fun h => absurd h (Text.ne_of_class hc rfl)]
  simp [digits?, Text.isDigit_of_isAlpha hc]

theorem float?_of_ne {c : Char} {r : List Char} (hdot : c ≠ '.') (hplus : c ≠ '+')
    (hminus : c = '-' → r.head? ≠ some '.') :
    float? (c :: r) = (Decimal.float? (c :: r)).filter Float.isFinite := by
  have hsigned : c = '-' → isInfinity r = false := by
    intro hc
    cases r with
    | nil => rfl
    | cons d r =>
      have hd : d ≠ '.' := fun heq => hminus hc (congrArg some heq)
      simp [isInfinity, hd]
  have hminus : ((c :: r).head? = some '-' && isInfinity (c :: r).tail) = false := by
    by_cases hc : c = '-'
    · simp [hsigned hc]
    · simp [hc]
  unfold float?
  rw [hminus]
  simp [isInfinity, isNaN, hdot, hplus]

theorem float?_name {c : Char} {r : List Char} (hc : c.isAlpha = true) :
    float? (c :: r) = none := by
  have hdot : c ≠ '.' := Text.ne_of_class hc rfl
  have hplus : c ≠ '+' := Text.ne_of_class hc rfl
  have hminus : c ≠ '-' := Text.ne_of_class hc rfl
  have hnumeral : Decimal.Numeral.ofText? (c :: r) = none := by
    have hwhole : (c :: r).takeWhile Char.isDigit = [] := by simp [Text.isDigit_of_isAlpha hc]
    have htail : (c :: r).dropWhile Char.isDigit = c :: r := by simp [Text.isDigit_of_isAlpha hc]
    unfold Decimal.Numeral.ofText?
    rw [hwhole, htail]
    apply if_pos
    split
    · rename_i heq
      exact absurd (List.cons.inj heq).1 hdot
    · rfl
  have hfloat : Decimal.float? (c :: r) = none := by
    rw [Decimal.float?_of_ne hplus hminus, hnumeral, Option.map_none]
  rw [float?_of_ne hdot hplus fun heq => absurd heq hminus, hfloat, Option.filter_none]

theorem plain?_name (h : IsName w) : plain? w = some (.string (String.ofList w)) := by
  obtain ⟨c, r, rfl, hc⟩ := h.letter
  have hplain := h.plain
  simp only [reserved, List.mem_cons, List.not_mem_nil, or_false, not_or] at hplain
  have htilde : c ≠ '~' := Text.ne_of_class hc rfl
  have hnull : isNull (c :: r) = false := by
    simp only [isNull, Bool.or_eq_false_iff, decide_eq_false_iff_not]
    refine ⟨⟨⟨?_, ?_⟩, ?_⟩, fun heq => htilde (List.cons.inj heq).1⟩ <;> tauto
  have hboolean : boolean? (c :: r) = none := by
    unfold boolean?
    rw [if_neg (by tauto), if_neg (by tauto)]
  have hpadded : isPadded (c :: r) = false :=
    isPadded_of_ne (Text.ne_of_class hc rfl) (Text.ne_of_class hc rfl)
      fun h => absurd h (Text.ne_of_class hc rfl)
  simp [plain?, hnull, hboolean, integer?_name hc, hpadded, float?_name hc]

theorem digits?_toDigits (n : ℕ) : digits? 10 Char.isDigit (Nat.toDigits 10 n) = some n := by
  have hall : (Nat.toDigits 10 n).all Char.isDigit = true :=
    List.all_eq_true.mpr fun c hc => Decimal.isDigit_toDigits hc
  simp [digits?, hall, Nat.toDigits_ne_nil, Decimal.natInBase_toDigits]

theorem integer?_signed (n : ℤ) : integer? (Decimal.signed n) = some n := by
  obtain ⟨c, r, hdigits, hc, hzero⟩ := Decimal.toDigits_cons n.natAbs
  have hread : digits? 10 Char.isDigit (c :: r) = some n.natAbs := by
    rw [← hdigits, digits?_toDigits]
  unfold Decimal.signed
  rw [hdigits]
  split
  · rename_i hneg
    have hpadded : isPadded ('-' :: c :: r) = false := by
      have := isPadded_of_ne (Text.ne_of_class hc rfl) (Text.ne_of_class hc rfl) hzero
      unfold isPadded at this ⊢
      rwa [dropSign_of_ne (Text.ne_of_class hc rfl) (Text.ne_of_class hc rfl)] at this
    have hvalue : -(n.natAbs : ℤ) = n := by omega
    simp only [integer?, hpadded, Bool.false_eq_true, if_false]
    rw [natural?_of_ne hzero, hread]
    exact congrArg some hvalue
  · rw [integer?_of_ne (Text.ne_of_class hc rfl) (Text.ne_of_class hc rfl) hzero, hread]
    have hvalue : (n.natAbs : ℤ) = n := by omega
    simp [hvalue]

theorem isBare_signed (n : ℤ) : IsBare (Decimal.signed n) := by
  have hbare : ∀ c ∈ Nat.toDigits 10 n.natAbs, isBareChar c = true := by
    intro c hc
    simp [isBareChar, isWord, Char.isAlphanum, Decimal.isDigit_toDigits hc]
  obtain ⟨c, r, hdigits, hc, -⟩ := Decimal.toDigits_cons n.natAbs
  have halphanum : c.isAlphanum = true := by simp [Char.isAlphanum, hc]
  unfold Decimal.signed
  split
  · exact ⟨List.forall_mem_cons.mpr ⟨rfl, hbare⟩, c, r, .inr (by rw [hdigits]), halphanum⟩
  · exact ⟨hbare, c, r, .inl hdigits, halphanum⟩

theorem float?_signed (n : ℤ) : float? (Decimal.signed n) =
    if (Decimal.nearestInt n).isFinite then some (Decimal.nearestInt n) else none := by
  have hdecimal := Decimal.float?_signed n
  obtain ⟨c, r, hdigits, hc, -⟩ := Decimal.toDigits_cons n.natAbs
  have hdot : c ≠ '.' := Text.ne_of_class hc rfl
  have hread : float? (Decimal.signed n) =
      (Decimal.float? (Decimal.signed n)).filter Float.isFinite := by
    unfold Decimal.signed
    rw [hdigits]
    split
    · exact float?_of_ne (by decide) (by decide) fun _ heq => hdot (Option.some.inj heq)
    · exact float?_of_ne hdot (Text.ne_of_class hc rfl)
        fun heq => absurd heq (Text.ne_of_class hc rfl)
  rw [hread, hdecimal]
  rfl

theorem size_fits {n : ℤ} (hlow : -2 ^ 63 ≤ n) (hhigh : n < 2 ^ 64) : size n = .fits :=
  if_pos (Decimal.fitsWord_iff.mpr ⟨hlow, hhigh⟩)

theorem size_refused {n : ℤ}
    (h : -2 ^ 127 ≤ n ∧ n < -2 ^ 63 ∨ 2 ^ 64 ≤ n ∧ n < 2 ^ 128) : size n = .refused := by
  have hfits : ¬Decimal.fitsWord 64 n = true := by
    rw [Decimal.fitsWord_iff]
    omega
  have hholds : Decimal.fitsWord 128 n = true := by
    rw [Decimal.fitsWord_iff]
    omega
  rw [size, if_neg hfits, if_pos hholds]

theorem size_unbounded {n : ℤ} (h : n < -2 ^ 127 ∨ 2 ^ 128 ≤ n) : size n = .unbounded := by
  have hfits : ¬Decimal.fitsWord 64 n = true := by
    rw [Decimal.fitsWord_iff]
    omega
  have hholds : ¬Decimal.fitsWord 128 n = true := by
    rw [Decimal.fitsWord_iff]
    omega
  rw [size, if_neg hfits, if_neg hholds]

theorem plain?_of_integer {n : ℤ} {c : Char} {r : List Char} (h : integer? (c :: r) = some n)
    (hc : c ∉ ['n', 'N', '~', 't', 'T', 'f', 'F']) : plain? (c :: r) =
    match size n with
    | .fits => some (.integer n)
    | .refused => none
    | .unbounded => some (match float? (c :: r) with
      | some x => .float x
      | none => .string (String.ofList (c :: r))) := by
  simp only [List.mem_cons, List.not_mem_nil, or_false, not_or] at hc
  have hnull : isNull (c :: r) = false := by simp [isNull, hc]
  have hboolean : boolean? (c :: r) = none := by simp [boolean?, hc]
  have hpadded : isPadded (c :: r) = false := by
    by_contra hcon
    rw [Bool.not_eq_false] at hcon
    unfold integer? at h
    rw [if_pos hcon] at h
    cases h
  unfold plain?
  rw [hnull, hboolean, h, hpadded]
  cases hsize : size n with
  | fits | refused => simp [hsize]
  | unbounded =>
    simp only [Option.map_some, hsize, Bool.false_eq_true, if_false]
    cases float? (c :: r) <;> rfl

/-- An integer that takes more than 128 bits is read as the float next to it, and as a string where
there is no finite one. -/
theorem plain?_signed (n : ℤ) : plain? (Decimal.signed n) =
    match size n with
    | .fits => some (.integer n)
    | .refused => none
    | .unbounded => some (if (Decimal.nearestInt n).isFinite then .float (Decimal.nearestInt n)
      else .string (String.ofList (Decimal.signed n))) := by
  obtain ⟨c, r, hsigned, hc⟩ := Decimal.signed_cons n
  have hinteger := integer?_signed n
  have hfloat := float?_signed n
  rw [hsigned] at hinteger hfloat ⊢
  have hletter : c ∉ ['n', 'N', '~', 't', 'T', 'f', 'F'] := by
    simp only [List.mem_cons, List.not_mem_nil, or_false]
    rintro (rfl | rfl | rfl | rfl | rfl | rfl | rfl) <;> revert hc <;> decide
  rw [plain?_of_integer hinteger hletter, hfloat]
  cases (Decimal.nearestInt n).isFinite <;> rfl

end Look

end DesignProcess.Yaml
