import DesignProcess.Descriptions
import DesignProcess.Proofs.Dictionary
import DesignProcess.Proofs.Outcome

/-!
Descriptions line by line. Lines add to what is there by extension, whatever that is, and where
they stand shows in nothing but the place that a fault names. So two texts in a row are read as
each by itself.
-/

namespace DesignProcess

namespace Descriptions

variable {source : String} {d e : Descriptions} {number : Nat} {lines more : List (List Char)}

theorem addLines_append :
    addLines source d number (lines ++ more) =
      addLines source d number lines >>=
        fun d => addLines source d (number + lines.length) more := by
  induction lines generalizing d number with
  | nil => rfl
  | cons line rest ih =>
    rw [List.cons_append, addLines, addLines]
    cases entry? (Text.trim line) with
    | error flaw => rfl
    | ok found =>
      have hnext : number + 1 + rest.length = number + (rest.length + 1) := by omega
      simp only [ih, List.length_cons, hnext]

theorem insertLine_extend (d e : Descriptions) (found : Option (String × String)) :
    insertLine (d.extend e) found = d.extend (insertLine e found) := by
  cases found with
  | none => rfl
  | some entry => exact Dictionary.extend_insert d e entry.1 entry.2

theorem addLines_extend :
    addLines source (d.extend e) number lines = (addLines source e number lines).map d.extend := by
  induction lines generalizing e number with
  | nil => rfl
  | cons line rest ih =>
    rw [addLines, addLines]
    cases entry? (Text.trim line) with
    | error flaw => rfl
    | ok found => simp only [insertLine_extend, ih]

theorem addLines_eq :
    addLines source d number lines = (addLines source .empty number lines).map d.extend := by
  rw [← addLines_extend, Dictionary.extend_empty]

end Descriptions

def DescriptionFault.moved (source : String) (down : Nat) : DescriptionFault → DescriptionFault
  | unreadable path fault => unreadable path fault
  | flawed _ line flaw => flawed source (line + down) flaw

namespace Descriptions

variable {source other : String} {d e : Descriptions} {number down : Nat}
  {lines more : List (List Char)} {f : DescriptionFault}

theorem addLines_moved :
    addLines other d (number + down) lines =
      (addLines source d number lines).mapError (.moved other down) := by
  induction lines generalizing d number with
  | nil => rfl
  | cons line rest ih =>
    rw [addLines, addLines]
    cases entry? (Text.trim line) with
    | error flaw => rfl
    | ok found =>
      have hnext : number + down + 1 = number + 1 + down := Nat.add_right_comm number down 1
      simp only [hnext, ih]

theorem flawed_of_addLines (h : addLines source d number lines = .error f) :
    ∃ line flaw, f = .flawed source line flaw := by
  induction lines generalizing d number with
  | nil => cases h
  | cons line rest ih =>
    rw [addLines] at h
    split at h
    · rename_i flaw _
      cases h
      exact ⟨number, flaw, rfl⟩
    · exact ih h

theorem length_splitOn (cs : List Char) : (cs.splitOn '\n').length = cs.count '\n' + 1 := by
  induction cs with
  | nil => rfl
  | cons c r ih =>
    rw [List.splitOn_cons_eq_if_modifyHead, List.count_cons]
    split
    · simp [ih]
    · simp [ih]

theorem splitOn_joined (a b : String) :
    (a ++ "\n" ++ b).toList.splitOn '\n' = a.toList.splitOn '\n' ++ b.toList.splitOn '\n' := by
  rw [String.toList_append, String.toList_append, List.append_assoc]
  exact List.splitOn_append_cons_self _ _

theorem ofTextFrom_joined (source a b : String) :
    ofTextFrom source (a ++ "\n" ++ b) = ofTextFrom source a >>= fun d =>
      ((ofTextFrom source b).mapError (.moved source (a.toList.count '\n' + 1))).map d.extend := by
  unfold ofTextFrom
  rw [splitOn_joined, addLines_append, length_splitOn]
  apply bind_congr
  intro d
  rw [addLines_eq, addLines_moved]

def Gives (name description : String) (line : List Char) : Prop :=
  entry? (Text.trim line) = .ok (some (name, description))

def LastGives (name description : String) (lines : List (List Char)) : Prop :=
  ∃ before line after, lines = before ++ line :: after ∧ Gives name description line ∧
    ∀ l ∈ after, ∀ t, ¬Gives name t l

theorem not_lastGives_nil (name description : String) : ¬LastGives name description [] := by
  rintro ⟨before, line, after, hsplit, -⟩
  cases before <;> cases hsplit

theorem lastGives_cons {name description : String} {line : List Char} :
    LastGives name description (line :: lines) ↔
      LastGives name description lines ∨
        (∀ l ∈ lines, ∀ t, ¬Gives name t l) ∧ Gives name description line := by
  constructor
  · rintro ⟨before, l, after, hsplit, hgives, hafter⟩
    cases before with
    | nil =>
      cases hsplit
      exact .inr ⟨hafter, hgives⟩
    | cons first before =>
      cases hsplit
      exact .inl ⟨before, l, after, rfl, hgives, hafter⟩
  · rintro (⟨before, l, after, rfl, hgives, hafter⟩ | ⟨hnone, hgives⟩)
    · exact ⟨line :: before, l, after, rfl, hgives, hafter⟩
    · exact ⟨[], line, lines, rfl, hgives, hnone⟩

theorem get?_insertLine {name : String} {found : Option (String × String)} {line : List Char}
    (h : entry? (Text.trim line) = .ok found) {description : String} :
    (insertLine d found).get? name = some description ↔
      Gives name description line ∨
        (∀ t, ¬Gives name t line) ∧ d.get? name = some description := by
  simp only [Gives, h]
  cases found with
  | none => simp [insertLine]
  | some entry =>
    obtain ⟨k, t⟩ := entry
    rw [insertLine, Dictionary.get?_insert]
    by_cases hname : name = k
    · simp [hname]
    · simp [hname, Ne.symm hname]

theorem get?_of_addLines {after : Descriptions} (h : addLines source d number lines = .ok after)
    (name description : String) :
    after.get? name = some description ↔
      LastGives name description lines ∨
        (∀ l ∈ lines, ∀ t, ¬Gives name t l) ∧ d.get? name = some description := by
  induction lines generalizing d number with
  | nil =>
    cases h
    simp [not_lastGives_nil]
  | cons line rest ih =>
    rw [addLines] at h
    split at h
    · cases h
    · rename_i found hfound
      rw [ih h, lastGives_cons, get?_insertLine hfound, List.forall_mem_cons, and_or_left,
        or_assoc, and_left_comm, and_assoc]

theorem ofText_joined (a b : String) :
    ofText (a ++ "\n" ++ b) =
      ofText a >>= fun d =>
        ((ofText b).mapError (.moved "<string>" (a.toList.count '\n' + 1))).map d.extend :=
  ofTextFrom_joined "<string>" a b

theorem get?_of_ofText {text : String} (h : ofText text = .ok d) (name description : String) :
    d.get? name = some description ↔
      LastGives name description (text.toList.splitOn '\n') := by
  rw [get?_of_addLines h]
  simp [Dictionary.get?_empty]

theorem joined_text_read_in_turn (a b : String) :
    ((∃ d, ofText (a ++ "\n" ++ b) = .ok d) ↔ (∃ d, ofText a = .ok d) ∧ ∃ d, ofText b = .ok d) ∧
    (∀ d e, ofText a = .ok d → ofText b = .ok e →
      ofText (a ++ "\n" ++ b) = .ok (d.extend e) ∧
        ∀ name t, (d.extend e).get? name = some t ↔
          LastGives name t ((a ++ "\n" ++ b).toList.splitOn '\n')) ∧
    (∀ f, ofText a = .error f →
      ∃ line flaw, f = .flawed "<string>" line flaw ∧ ofText (a ++ "\n" ++ b) = .error f) ∧
    ∀ d f, ofText a = .ok d → ofText b = .error f →
      ∃ line flaw, f = .flawed "<string>" line flaw ∧
        ofText (a ++ "\n" ++ b) =
          .error (.flawed "<string>" (line + 1 + a.toList.count '\n') flaw) := by
  refine ⟨?_, ?_, ?_, ?_⟩
  · rw [ofText_joined]
    simp only [Except.bind_eq_ok_iff, Except.map_eq_ok_iff, Except.mapError_eq_ok_iff]
    constructor
    · rintro ⟨whole, d, hd, e, he, -⟩
      exact ⟨⟨d, hd⟩, e, he⟩
    · rintro ⟨⟨d, hd⟩, e, he⟩
      exact ⟨_, d, hd, e, he, rfl⟩
  · intro d e ha hb
    have hwhole : ofText (a ++ "\n" ++ b) = .ok (d.extend e) := by
      rw [ofText_joined, ha, hb]
      rfl
    exact ⟨hwhole, get?_of_ofText hwhole⟩
  · intro f ha
    obtain ⟨line, flaw, rfl⟩ := flawed_of_addLines ha
    refine ⟨line, flaw, rfl, ?_⟩
    rw [ofText_joined, ha]
    rfl
  · intro d f ha hb
    obtain ⟨line, flaw, rfl⟩ := flawed_of_addLines hb
    have hline : line + 1 + a.toList.count '\n' = line + (a.toList.count '\n' + 1) := by omega
    refine ⟨line, flaw, rfl, ?_⟩
    rw [ofText_joined, ha, hb, hline]
    rfl

end Descriptions

end DesignProcess
