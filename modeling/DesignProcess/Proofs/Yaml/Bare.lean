import DesignProcess.Proofs.Text.Classes
import DesignProcess.Yaml.Plain
import Mathlib

namespace DesignProcess.Yaml

def isBareChar (c : Char) : Bool := isWord c || c == '.'

structure IsBare (w : List Char) : Prop where
  chars : ∀ c ∈ w, isBareChar c = true
  begins : ∃ c r, (w = c :: r ∨ w = '-' :: c :: r) ∧ c.isAlphanum = true

theorem isBlankOrBreak_of_isBareChar {c : Char} (h : isBareChar c = true) :
    isBlankOrBreak c = false := by
  by_contra hblank
  simp only [Bool.not_eq_false, isBlankOrBreak, isSpaceOrTab, isBreak, Bool.or_eq_true,
    beq_iff_eq] at hblank
  rcases hblank with (rfl | rfl) | ((((rfl | rfl) | rfl) | rfl) | rfl) <;> revert h <;> decide

theorem toNat_of_isBareChar {c : Char} (h : isBareChar c = true) :
    0x20 ≤ c.toNat ∧ c.toNat ≤ 0x7E := by
  simp only [isBareChar, isWord, Bool.or_eq_true, beq_iff_eq] at h
  rcases h with ((h | rfl) | rfl) | rfl
  · have := Text.toNat_of_isAlphanum h
    omega
  all_goals decide

theorem utf8Size_of_isBareChar {c : Char} (h : isBareChar c = true) : c.utf8Size = 1 := by
  have hlt := (toNat_of_isBareChar h).2
  apply if_pos
  rw [UInt32.le_iff_toNat_le]
  exact hlt.trans (by decide)

theorem byteLength_of_isBareChar {w : List Char} (h : ∀ c ∈ w, isBareChar c = true) :
    Text.byteLength w = w.length := by
  induction w with
  | nil => rfl
  | cons c w ih =>
    obtain ⟨hc, hw⟩ := List.forall_mem_cons.mp h
    rw [Text.byteLength, utf8Size_of_isBareChar hc, ih hw, List.length_cons, Nat.add_comm]

theorem isPrintable_of_isBareChar {c : Char} (h : isBareChar c = true) : isPrintable c = true := by
  obtain ⟨hlow, hhigh⟩ := toNat_of_isBareChar h
  simp [isPrintable, hlow, hhigh]

theorem IsBare.isPrintable {w : List Char} (h : IsBare w) : ∀ c ∈ w, Yaml.isPrintable c = true :=
  fun c hc => isPrintable_of_isBareChar (h.chars c hc)

namespace Cursor

theorem skip_append (w r : List Char) (offset line column : ℕ) :
    (⟨w ++ r, offset, line, column⟩ : Cursor).skip w.length =
      ⟨r, offset + Text.byteLength w, line, column + w.length⟩ := by
  simp [skip]

theorem skip_cons (c : Char) (r : List Char) (offset line column : ℕ) :
    (⟨c :: r, offset, line, column⟩ : Cursor).skip 1 =
      ⟨r, offset + c.utf8Size, line, column + 1⟩ := skip_append [c] r offset line column

end Cursor

namespace Plain

def Stops (r : List Char) : Prop :=
  r.head?.all isBlankOrBreak = true ∨ ∃ r', r = ':' :: r' ∧ r'.head?.all isBlankOrBreak = true

theorem run_stops {r : List Char} (h : Stops r) (fuel offset line column : ℕ)
    (text : List Char) :
    run false (fuel + 1) ⟨r, offset, line, column⟩ text =
      some (⟨r, offset, line, column⟩, text) := by
  cases r with
  | nil => rfl
  | cons c r =>
    rcases h with hblank | ⟨r', hcolon, hr'⟩
    · have hc : isBlankOrBreak c = true := hblank
      simp [run, hc]
    · cases hcolon
      have hends : ends false ⟨':' :: r, offset, line, column⟩ = true := by
        simp [ends, Cursor.looksAt, Cursor.next, Cursor.blankAfter, hr']
      have hcolon : isBlankOrBreak ':' = false := rfl
      simp [run, hcolon, badColon, hends]

theorem run_bare {w r : List Char} (hw : ∀ c ∈ w, isBareChar c = true) (h : Stops r)
    (fuel offset line column : ℕ) (text : List Char) :
    run false (w.length + (fuel + 1)) ⟨w ++ r, offset, line, column⟩ text =
      some (⟨r, offset + Text.byteLength w, line, column + w.length⟩, w.reverse ++ text) := by
  induction w generalizing offset column text with
  | nil => simp [run_stops h, Text.byteLength]
  | cons c w ih =>
    obtain ⟨hc, hw⟩ := List.forall_mem_cons.mp hw
    have hends : ends false ⟨c :: (w ++ r), offset, line, column⟩ = false := by
      simp [ends, Cursor.looksAt, Cursor.next, Text.ne_of_class hc (d := ':') rfl]
    rw [List.length_cons, Nat.add_right_comm, List.cons_append, run]
    simp only [isBlankOrBreak_of_isBareChar hc, badColon, hends, Bool.false_and,
      Bool.false_eq_true, if_false]
    rw [Cursor.skip_cons, ih hw, Nat.add_assoc, Nat.add_assoc, Nat.add_comm 1]
    simp [Text.byteLength]

end Plain

def Ready (r : List Char) : Prop := ∀ c ∈ r.head?, isBareChar c = true

theorem IsBare.ready_append {w : List Char} (h : IsBare w) (r : List Char) : Ready (w ++ r) := by
  intro c hc
  obtain ⟨d, w', hw, -⟩ := h.begins
  have hne : w ≠ [] := by
    rcases hw with rfl | rfl <;> simp
  rw [List.head?_append_of_ne_nil _ hne] at hc
  exact h.chars c (List.mem_of_mem_head? hc)

theorem Gap.read_ready {r : List Char} (h : Ready r) (limit fuel offset line column : ℕ)
    (g : Gap) :
    Gap.read limit (fuel + 1) ⟨r, offset, line, column⟩ g =
      some (⟨r, offset, line, column⟩, g) := by
  cases r with
  | nil => rfl
  | cons c r =>
    have hc := isBlankOrBreak_of_isBareChar (h c rfl)
    rw [isBlankOrBreak, Bool.or_eq_false_iff] at hc
    simp [Gap.read, hc.1, hc.2]

theorem Gap.read_spaces {r : List Char} (h : Ready r) {g : Gap} (hg : g.broken = true)
    (n limit fuel offset line column : ℕ) :
    Gap.read limit (n + (fuel + 1)) ⟨List.replicate n ' ' ++ r, offset, line, column⟩ g =
      some (⟨r, offset + n, line, column + n⟩, g) := by
  induction n generalizing offset column with
  | zero =>
    rw [Nat.zero_add]
    exact Gap.read_ready h limit fuel offset line column g
  | succ n ih =>
    have hspace : isSpaceOrTab ' ' = true := rfl
    have htab : (' ' == '\t') = false := rfl
    rw [Nat.add_right_comm, List.replicate_succ, List.cons_append, Gap.read]
    simp only [hspace, htab, hg, Bool.and_false, Bool.false_eq_true, if_true, if_false]
    have hsize : ' '.utf8Size = 1 := rfl
    rw [Cursor.skip_cons, ih, hsize, Nat.add_assoc, Nat.add_assoc, Nat.add_comm 1]

theorem Gap.read_line {r : List Char} (h : Ready r) (n limit fuel offset line column : ℕ) :
    Gap.read limit (n + (fuel + 1) + 1) ⟨'\n' :: (List.replicate n ' ' ++ r), offset, line, column⟩
        Gap.none =
      some (⟨r, offset + 1 + n, line + 1, n⟩, ⟨true, [], ['\n'], []⟩) := by
  have hbreak : (⟨'\n' :: (List.replicate n ' ' ++ r), offset, line, column⟩ : Cursor).lineBreak =
      (['\n'], ⟨List.replicate n ' ' ++ r, offset + 1, line + 1, 0⟩) := rfl
  have hspace : isSpaceOrTab '\n' = false := rfl
  have hline : isBreak '\n' = true := rfl
  rw [Gap.read]
  simp only [hspace, hline, hbreak, Gap.none, Bool.false_eq_true, if_true, if_false]
  rw [Gap.read_spaces h rfl, Nat.zero_add]

theorem IsBare.ne_nil {w : List Char} (h : IsBare w) : w ≠ [] := by
  obtain ⟨c, r, rfl | rfl, -⟩ := h.begins
  · exact List.cons_ne_nil _ _
  · exact List.cons_ne_nil _ _

theorem IsBare.atDocumentMark {w : List Char} (h : IsBare w) (r : List Char)
    (offset line column : ℕ) :
    (⟨w ++ r, offset, line, column⟩ : Cursor).atDocumentMark = false := by
  obtain ⟨c, w', hbegins, hc⟩ := h.begins
  have hdash : c ≠ '-' := Text.ne_of_class hc rfl
  have hdot : c ≠ '.' := Text.ne_of_class hc rfl
  obtain rfl | rfl := hbegins
  · simp [Cursor.atDocumentMark, Cursor.marks, hdash, hdot]
  · simp [Cursor.atDocumentMark, Cursor.marks, hdash]

theorem IsBare.looksAt {w : List Char} (h : IsBare w) {d : Char} (hd : isBareChar d = false)
    (r : List Char) (offset line column : ℕ) :
    (⟨w ++ r, offset, line, column⟩ : Cursor).looksAt d = false := by
  have hready := h.ready_append r
  obtain ⟨c, w', hcons⟩ := List.exists_cons_of_ne_nil h.ne_nil
  rw [hcons] at hready ⊢
  have hc : c ≠ d := Text.ne_of_class (hready c rfl) hd
  simp [Cursor.looksAt, Cursor.next, hc]

namespace Plain

theorem read_bare {w r : List Char} (h : IsBare w) (hr : Stops r)
    (limit fuel offset line column : ℕ) :
    read false limit (fuel + 1) ⟨w ++ r, offset, line, column⟩ Gap.none [] =
      let after : Cursor := ⟨r, offset + Text.byteLength w, line, column + w.length⟩
      if after.next isBlankOrBreak then do
        let (c, gap) ← Gap.read limit after.fuel after Gap.none
        if c.column < limit then some (c, w.reverse, gap.broken)
        else read false limit fuel c gap w.reverse
      else some (after, w.reverse, false) := by
  have hfuel : (⟨w ++ r, offset, line, column⟩ : Cursor).fuel = w.length + (r.length + 1) := by
    simp [Cursor.fuel, Nat.add_assoc]
  rw [read, h.atDocumentMark, h.looksAt rfl, hfuel, run_bare h.chars hr]
  simp [h.ne_nil, Gap.none, Gap.fold]

theorem content?_before_colon {w r : List Char} (h : IsBare w)
    (hr : r.head?.all isBlankOrBreak = true) (limit offset line column : ℕ) :
    content? false limit ⟨w ++ ':' :: r, offset, line, column⟩ =
      some ⟨⟨':' :: r, offset + Text.byteLength w, line, column + w.length⟩, String.ofList w,
        false⟩ := by
  have hcolon : (⟨':' :: r, offset + Text.byteLength w, line, column + w.length⟩ : Cursor).next
      isBlankOrBreak = false := rfl
  unfold content?
  rw [Cursor.fuel, read_bare h (.inr ⟨r, rfl, hr⟩)]
  simp [hcolon]

theorem content?_line {w r : List Char} {n limit : ℕ} (h : IsBare w) (hr : Ready r)
    (hn : n < limit) (offset line column : ℕ) :
    content? false limit ⟨w ++ '\n' :: (List.replicate n ' ' ++ r), offset, line, column⟩ =
      some ⟨⟨r, offset + Text.byteLength w + 1 + n, line + 1, n⟩, String.ofList w, true⟩ := by
  have hbreak : ∀ rest o l c, (⟨'\n' :: rest, o, l, c⟩ : Cursor).next isBlankOrBreak = true :=
    fun _ _ _ _ => rfl
  have hfuel : ∀ o l c, (⟨'\n' :: (List.replicate n ' ' ++ r), o, l, c⟩ : Cursor).fuel =
      n + (r.length + 1) + 1 := by
    simp [Cursor.fuel, Nat.add_assoc]
  unfold content?
  rw [Cursor.fuel, read_bare h (.inl rfl)]
  simp [hbreak, hfuel, Gap.read_line hr, hn]

end Plain

end DesignProcess.Yaml
