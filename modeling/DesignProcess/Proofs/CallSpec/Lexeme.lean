import DesignProcess.CallSpec.Token
import Mathlib.Data.List.TakeWhile

namespace DesignProcess.CallSpec

def Digits (cs : List Char) : Prop := ∀ c ∈ cs, c.isDigit = true

inductive Exponent : List Char → Prop
  | none : Exponent []
  | scaled {mark : Char} {sign digits : List Char} (hmark : mark = 'e' ∨ mark = 'E')
      (hsign : sign = [] ∨ sign = ['+'] ∨ sign = ['-']) (hne : digits ≠ []) (h : Digits digits) :
      Exponent (mark :: (sign ++ digits))

def booleanWords : List (String × Bool) :=
  [("true", true), ("True", true), ("false", false), ("False", false)]

inductive Spells : List Char → Token → Prop
  | lparen : Spells ['('] .lparen
  | rparen : Spells [')'] .rparen
  | comma : Spells [','] .comma
  | equals : Spells ['='] .equals
  | dot : Spells ['.'] .dot
  | minus : Spells ['-'] .minus
  | plus : Spells ['+'] .plus
  | boolean {word : String} {b : Bool} (h : (word, b) ∈ booleanWords) :
      Spells word.toList (.boolean b)
  | ident {name : String} {c : Char} {r : List Char} (hname : name.toList = c :: r)
      (hstart : isNameStart c = true) (hrest : ∀ d ∈ r, isNameChar d = true)
      (hword : name ∉ booleanWords.map (·.1)) : Spells name.toList (.ident name)
  | integer {digits : String} (hne : digits.toList ≠ []) (h : Digits digits.toList) :
      Spells digits.toList (.integer digits)
  | pointed {text : String} {whole fraction exponent : List Char}
      (htext : text.toList = whole ++ '.' :: (fraction ++ exponent)) (hne : whole ≠ [])
      (hwhole : Digits whole) (hfraction : Digits fraction) (hexponent : Exponent exponent) :
      Spells text.toList (.float text)
  | fraction {text : String} {fraction exponent : List Char}
      (htext : text.toList = '.' :: (fraction ++ exponent)) (hne : fraction ≠ [])
      (hfraction : Digits fraction) (hexponent : Exponent exponent) :
      Spells text.toList (.float text)
  | scaled {text : String} {whole exponent : List Char} (htext : text.toList = whole ++ exponent)
      (hne : whole ≠ []) (hwhole : Digits whole) (hscaled : exponent ≠ [])
      (hexponent : Exponent exponent) : Spells text.toList (.float text)
  | str {quote : Char} {content : String} (hquote : quote = '\'' ∨ quote = '"')
      (h : ∀ c ∈ content.toList, c ≠ quote ∧ c ≠ '\\' ∧ c ≠ '\n') :
      Spells (quote :: (content.toList ++ [quote])) (.str content)

def Longest (cs : List Char) (t : Token) (rest : List Char) : Prop :=
  ∃ lexeme, cs = lexeme ++ rest ∧ Spells lexeme t ∧
    ∀ longer tail u, cs = longer ++ tail → Spells longer u → longer.length ≤ lexeme.length

namespace Token

theorem takeWhile_digits_append {ds : List Char} (h : Digits ds) (tail : List Char) :
    (ds ++ tail).takeWhile Char.isDigit = ds ++ tail.takeWhile Char.isDigit :=
  List.takeWhile_append_of_pos h

theorem dropWhile_digits_append {ds : List Char} (h : Digits ds) (tail : List Char) :
    (ds ++ tail).dropWhile Char.isDigit = tail.dropWhile Char.isDigit :=
  List.dropWhile_append_of_pos h

theorem digits_takeWhile (cs : List Char) : Digits (cs.takeWhile Char.isDigit) :=
  fun _ hc => List.mem_takeWhile_imp hc

theorem sign_spec (cs : List Char) :
    cs = (sign cs).1 ++ (sign cs).2 ∧
      ((sign cs).1 = [] ∨ (sign cs).1 = ['+'] ∨ (sign cs).1 = ['-']) := by
  unfold sign
  split <;> simp

theorem sign_append {s ds tail : List Char} (hs : s = [] ∨ s = ['+'] ∨ s = ['-']) (hne : ds ≠ [])
    (hd : Digits ds) : sign (s ++ (ds ++ tail)) = (s, ds ++ tail) := by
  rcases hs with rfl | rfl | rfl
  · cases ds with
    | nil => exact absurd rfl hne
    | cons d ds =>
      have hdigit : d.isDigit = true := hd d List.mem_cons_self
      have hplus : d ≠ '+' := by
        rintro rfl
        cases hdigit
      have hminus : d ≠ '-' := by
        rintro rfl
        cases hdigit
      unfold sign
      split
      · rename_i heq
        exact absurd (List.cons.inj heq).1 hplus
      · rename_i heq
        exact absurd (List.cons.inj heq).1 hminus
      · rfl
  · rfl
  · rfl

theorem exponent_spec (cs : List Char) :
    cs = (exponent cs).1 ++ (exponent cs).2 ∧ Exponent (exponent cs).1 := by
  cases cs with
  | nil => exact ⟨rfl, .none⟩
  | cons c r =>
    obtain ⟨hsplit, hsign⟩ := sign_spec r
    simp only [exponent]
    split
    · rename_i h
      refine ⟨?_, .scaled h.1 hsign h.2 (digits_takeWhile _)⟩
      simp only [List.cons_append, List.append_assoc, List.takeWhile_append_dropWhile, ← hsplit]
    · exact ⟨rfl, .none⟩

theorem exponent_append {e : List Char} (he : Exponent e) (hne : e ≠ []) (tail : List Char) :
    exponent (e ++ tail) =
      (e ++ tail.takeWhile Char.isDigit, tail.dropWhile Char.isDigit) := by
  cases he with
  | none => exact absurd rfl hne
  | @scaled mark s ds hmark hs hds hd =>
    have hsign : sign (s ++ ds ++ tail) = (s, ds ++ tail) := by
      rw [List.append_assoc, sign_append hs hds hd]
    have htake := takeWhile_digits_append hd tail
    have hdrop := dropWhile_digits_append hd tail
    simp only [List.cons_append, exponent, hsign, htake, hdrop]
    rw [if_pos ⟨hmark, by simp [hds]⟩]
    simp only [List.append_assoc]

theorem isDigit_mark {mark : Char} (h : mark = 'e' ∨ mark = 'E') : mark.isDigit = false := by
  rcases h with rfl | rfl <;> rfl

theorem takeWhile_digits_exponent {e : List Char} (he : Exponent e) (hne : e ≠ [])
    (tail : List Char) : (e ++ tail).takeWhile Char.isDigit = [] := by
  cases he with
  | none => exact absurd rfl hne
  | scaled hmark => simp [isDigit_mark hmark]

theorem dropWhile_digits_exponent {e : List Char} (he : Exponent e) (hne : e ≠ [])
    (tail : List Char) : (e ++ tail).dropWhile Char.isDigit = e ++ tail := by
  cases he with
  | none => exact absurd rfl hne
  | scaled hmark => simp [isDigit_mark hmark]

theorem fraction_point (r : List Char) :
    fraction ('.' :: r) =
      ('.' :: (r.takeWhile Char.isDigit ++ (exponent (r.dropWhile Char.isDigit)).1),
        (exponent (r.dropWhile Char.isDigit)).2) := rfl

theorem fraction_spec (cs : List Char) :
    cs = (fraction cs).1 ++ (fraction cs).2 ∧
      ((∃ ds e, (fraction cs).1 = '.' :: (ds ++ e) ∧ Digits ds ∧ Exponent e) ∨
        Exponent (fraction cs).1) := by
  unfold fraction
  split
  · rename_i r
    obtain ⟨hsplit, hexponent⟩ := exponent_spec (r.dropWhile Char.isDigit)
    refine ⟨?_, .inl ⟨_, _, rfl, digits_takeWhile r, hexponent⟩⟩
    simp only [List.cons_append, List.append_assoc, ← hsplit, List.takeWhile_append_dropWhile]
  · obtain ⟨hsplit, hexponent⟩ := exponent_spec cs
    exact ⟨hsplit, .inr hexponent⟩

theorem fraction_point_append {ds e : List Char} (hd : Digits ds) (he : Exponent e)
    (tail : List Char) :
    ∃ extra rest, tail = extra ++ rest ∧
      fraction ('.' :: (ds ++ e) ++ tail) = ('.' :: (ds ++ e) ++ extra, rest) := by
  by_cases hne : e = []
  · subst hne
    obtain ⟨hsplit, -⟩ := exponent_spec (tail.dropWhile Char.isDigit)
    refine ⟨tail.takeWhile Char.isDigit ++ (exponent (tail.dropWhile Char.isDigit)).1,
      (exponent (tail.dropWhile Char.isDigit)).2, ?_, ?_⟩
    · rw [List.append_assoc, ← hsplit, List.takeWhile_append_dropWhile]
    · rw [List.append_nil, List.cons_append, fraction_point, takeWhile_digits_append hd,
        dropWhile_digits_append hd]
      simp only [List.cons_append, List.append_assoc]
  · refine ⟨tail.takeWhile Char.isDigit, tail.dropWhile Char.isDigit,
      List.takeWhile_append_dropWhile.symm, ?_⟩
    rw [List.cons_append, List.append_assoc, fraction_point, takeWhile_digits_append hd,
      dropWhile_digits_append hd, takeWhile_digits_exponent he hne,
      dropWhile_digits_exponent he hne, exponent_append he hne]
    simp only [List.append_nil, List.cons_append, List.append_assoc]

theorem fraction_exponent {e : List Char} (he : Exponent e) (hne : e ≠ []) (tail : List Char) :
    fraction (e ++ tail) = (e ++ tail.takeWhile Char.isDigit, tail.dropWhile Char.isDigit) := by
  have hexponent := exponent_append he hne tail
  cases he with
  | none => exact absurd rfl hne
  | scaled hmark =>
    rcases hmark with rfl | rfl
    · exact hexponent
    · exact hexponent

theorem number_eq (cs : List Char) :
    number cs =
      (if (fraction (cs.dropWhile Char.isDigit)).1 = [] then
        integer (String.ofList (cs.takeWhile Char.isDigit))
      else
        float (String.ofList
          (cs.takeWhile Char.isDigit ++ (fraction (cs.dropWhile Char.isDigit)).1)),
        (fraction (cs.dropWhile Char.isDigit)).2) := by
  unfold number
  split
  · rename_i rest h
    simp [h]
  · rename_i f rest hne h
    have hf : f ≠ [] := hne
    simp [h, hf]

end Token

end DesignProcess.CallSpec
