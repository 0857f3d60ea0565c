import DesignProcess.Proofs.CallSpec.Parsing
import DesignProcess.Proofs.CallSpec.Positions
import DesignProcess.Proofs.CallSpec.Stages

/-!
Where the error of a refused text points. Reading never goes past the first token that no call has
at its place, and a text that cannot be cut into tokens is refused where cutting stops.
-/

namespace DesignProcess.CallSpec

def Error.IsStructural (e : Error) : Prop :=
  (∀ name, e.fault ≠ .duplicate name) ∧ ∀ digits, e.fault ≠ .outOfRange digits

def Stage.Refuses (s : Stage) : Option Token → Prop
  | some t => s.next? t = none
  | none => s.mayStop = false

def Blames (stop : Nat) (s : Stage) (ts : List Placed) (e : Error) : Prop :=
  ∃ before after s', ts = before ++ after ∧ s.after? (words before) = some s' ∧
    e.offset = position stop after ∧ s'.Refuses (after.head?.map (·.token))

variable {stop : Nat} {s s' : Stage} {ts rest read : List Placed} {e : Error}

theorem Blames.here (hrefuses : s.Refuses (ts.head?.map (·.token)))
    (hoffset : e.offset = position stop ts) : Blames stop s ts e :=
  ⟨[], ts, s, rfl, rfl, hoffset, hrefuses⟩

theorem Blames.append (hread : s.after? (words read) = some s') (h : Blames stop s' rest e) :
    Blames stop s (read ++ rest) e := by
  obtain ⟨before, after, last, rfl, hbefore, hoffset, hrefuses⟩ := h
  refine ⟨read ++ before, after, last, by rw [List.append_assoc], ?_, hoffset, hrefuses⟩
  rw [words_append, Stage.after?_append, hread]
  exact hbefore

theorem Blames.cons {p : Placed} (hnext : s.next? p.token = some s') (h : Blames stop s' ts e) :
    Blames stop s (p :: ts) e := by
  have hread : s.after? (words [p]) = some s' := by simp [hnext]
  exact .append hread h

theorem unexpected_blames {α : Type} {expected : Expectation}
    (h : (unexpected stop ts expected : Except Error α) = .error e)
    (hrefuses : s.Refuses (ts.head?.map (·.token))) : Blames stop s ts e := by
  cases h
  exact .here hrefuses rfl

theorem not_structural_of_number {start : Nat} {negative : Bool} {p : Placed}
    (hp : NumberToken p.token) (h : number stop start negative (p :: ts) = .error e) :
    ¬e.IsStructural := by
  obtain ⟨offset, t⟩ := p
  intro he
  cases hp with
  | integer digits | float digits =>
    simp only [number] at h
    split at h
    · cases h
    · cases h
      exact he.2 digits rfl

theorem number_blames {start : Nat} {negative : Bool}
    (h : number stop start negative ts = .error e) (he : e.IsStructural) :
    Blames stop .numberAfterSign ts e := by
  rcases ts with _ | ⟨⟨offset, t⟩, rest⟩
  · exact unexpected_blames h rfl
  · cases t with
    | integer digits => exact absurd he (not_structural_of_number (.integer digits) h)
    | float digits => exact absurd he (not_structural_of_number (.float digits) h)
    | _ => exact unexpected_blames h rfl

theorem literal_blames (h : literal stop ts = .error e) (he : e.IsStructural) :
    Blames stop .literal ts e := by
  rcases ts with _ | ⟨⟨offset, t⟩, rest⟩
  · exact unexpected_blames h rfl
  · cases t with
    | plus | minus => exact .cons rfl (number_blames h he)
    | str | boolean => cases h
    | integer digits =>
      have hnumber : number stop offset false (⟨offset, .integer digits⟩ :: rest) = .error e := h
      exact absurd he (not_structural_of_number (.integer digits) hnumber)
    | float digits =>
      have hnumber : number stop offset false (⟨offset, .float digits⟩ :: rest) = .error e := h
      exact absurd he (not_structural_of_number (.float digits) hnumber)
    | ident name =>
      cases h
      exact .here rfl rfl
    | _ => exact unexpected_blames h rfl

theorem argument_blames (h : argument stop ts = .error e) (he : e.IsStructural)
    (hparen : ts.head?.map (·.token) ≠ some .rparen) : Blames stop .argument ts e := by
  unfold argument at h
  split at h
  · exact .cons rfl (.cons rfl (literal_blames (Except.map_eq_error_iff.mp h) he))
  · rename_i offset name rest hequals
    apply Blames.cons rfl
    apply unexpected_blames h
    rcases rest with _ | ⟨⟨offset', t⟩, rest⟩
    · rfl
    · cases t with
      | equals => exact absurd rfl (hequals offset' rest)
      | _ => rfl
  · rename_i hkeyword hname
    have hrefuses : Stage.argument.Refuses (ts.head?.map (·.token)) := by
      rcases ts with _ | ⟨⟨offset, t⟩, rest⟩
      · rfl
      · cases t with
        | ident name => exact absurd rfl (hname offset name rest)
        | rparen => exact absurd rfl hparen
        | _ => rfl
    split at h
    · cases h
      exact .here hrefuses rfl
    · exact unexpected_blames h hrefuses

theorem after?_of_argument {a : String × Scalar} (h : argument stop ts = .ok (a, rest)) :
    ∃ read, ts = read ++ rest ∧ Stage.argument.after? (words read) = some .separator := by
  obtain ⟨read, rfl, hread⟩ := argument_eq_ok_iff.mp h
  exact ⟨read, rfl, Stage.after?_argument hread.shape⟩

theorem argumentsFrom_blames {found : List (String × Scalar)}
    (h : argumentsFrom stop found ts = .error e) (he : e.IsStructural) :
    Blames stop .argument ts e := by
  fun_induction argumentsFrom stop found ts with
  | case1 => cases h
  | case2 found ts hparen e' hargument =>
    cases h
    exact argument_blames hargument he hparen
  | case3 found ts hparen a rest hargument hduplicate =>
    cases h
    exact absurd rfl (he.1 a.1)
  | case4 found ts hparen a hnew offset more hargument _ ih =>
    obtain ⟨read, rfl, hread⟩ := after?_of_argument hargument
    exact .append hread (.cons rfl (ih h))
  | case5 => cases h
  | case6 found ts hparen a rest hargument hnew hargument' hcomma hclose =>
    obtain ⟨read, rfl, hread⟩ := after?_of_argument hargument
    apply Blames.append hread
    apply unexpected_blames h
    rcases rest with _ | ⟨⟨offset, t⟩, rest⟩
    · rfl
    · cases t with
      | comma => exact (hcomma offset rest hargument' rfl .rfl).elim
      | rparen => exact (hclose offset rest hargument' rfl .rfl).elim
      | _ => rfl

theorem otherNames_blames (h : otherNames stop ts = .error e) :
    Blames stop .name ts e := by
  fun_induction otherNames stop ts with
  | case1 offset offset' name ts ih =>
    exact .cons rfl (.cons rfl (ih (Except.map_eq_error_iff.mp h)))
  | case2 offset ts hname =>
    apply Blames.cons rfl
    apply unexpected_blames h
    rcases ts with _ | ⟨⟨offset', t⟩, rest⟩
    · rfl
    · cases t with
      | ident name => exact absurd rfl (hname offset' name rest)
      | _ => rfl
  | case3 => cases h

theorem path_blames (h : path stop ts = .error e) : Blames stop .target ts e := by
  unfold path at h
  split at h
  · exact .cons rfl (otherNames_blames (Except.map_eq_error_iff.mp h))
  · rename_i hname
    apply unexpected_blames h
    rcases ts with _ | ⟨⟨offset, t⟩, rest⟩
    · rfl
    · cases t with
      | ident name => exact absurd rfl (hname offset name rest)
      | _ => rfl

theorem no_dot_of_otherNames {names : List String} (h : otherNames stop ts = .ok (names, rest)) :
    rest.head?.map (·.token) ≠ some .dot := by
  fun_induction otherNames stop ts generalizing names with
  | case1 offset offset' name ts ih =>
    obtain ⟨⟨others, after⟩, hothers, heq⟩ := Except.map_eq_ok_iff.mp h
    cases heq
    exact ih hothers
  | case2 => cases h
  | case3 ts hname hdot =>
    cases h
    rcases rest with _ | ⟨⟨offset, t⟩, rest⟩
    · simp
    · rintro heq
      cases heq
      exact hdot offset rest rfl

theorem no_dot_of_path {names : String × List String} (h : path stop ts = .ok (names, rest)) :
    rest.head?.map (·.token) ≠ some .dot := by
  unfold path at h
  split at h
  · obtain ⟨⟨others, after⟩, hothers, heq⟩ := Except.map_eq_ok_iff.mp h
    cases heq
    exact no_dot_of_otherNames hothers
  · cases h

theorem after?_of_path {names : String × List String} (h : path stop ts = .ok (names, rest)) :
    ∃ read, ts = read ++ rest ∧ Stage.target.after? (words read) = some .name := by
  obtain ⟨read, rfl, hread⟩ := path_sound h
  exact ⟨read, rfl, Stage.after?_path hread⟩

theorem after?_of_closing {ws : List Token} {arguments : List (String × Scalar)}
    (h : Closing ws arguments) : Stage.argument.after? ws = some .closed := by
  rcases h with ⟨rfl, -⟩ | ⟨vs, rfl, harguments⟩
  · rfl
  · exact Stage.after?_arguments harguments.shape

theorem argumentList_blames (h : argumentList stop ts = .error e) (he : e.IsStructural) :
    Blames stop .name ts e := by
  unfold argumentList at h
  split at h
  · exact .cons rfl (argumentsFrom_blames h he)
  · cases h

theorem extra_blames {arguments : List (String × Scalar)} {extra : Placed}
    (h : argumentList stop ts = .ok (arguments, extra :: rest))
    (hdot : ts.head?.map (·.token) ≠ some .dot)
    (hoffset : e.offset = extra.offset) : Blames stop .name ts e := by
  unfold argumentList at h
  split at h
  · obtain ⟨read, found, rfl, -, hclosing, -⟩ := argumentsFrom_sound h List.nodup_nil
    apply Blames.cons rfl
    exact .append (after?_of_closing hclosing) (.here rfl hoffset)
  · rename_i hparen
    cases h
    obtain ⟨offset, t⟩ := extra
    cases t with
    | dot => exact absurd rfl hdot
    | lparen => exact absurd rfl (hparen offset rest)
    | _ => exact .here rfl hoffset

theorem call_blames (h : call stop ts = .error e) (he : e.IsStructural) :
    Blames stop .target ts e := by
  unfold call at h
  split at h
  · rename_i hpath
    cases h
    exact path_blames hpath
  · rename_i hpath
    obtain ⟨read, rfl, hread⟩ := after?_of_path hpath
    apply Blames.append hread
    split at h
    · rename_i hlist
      cases h
      exact argumentList_blames hlist he
    · cases h
    · rename_i found extra hsome hlist
      rcases extra with _ | ⟨extra, more⟩
      · exact (hsome rfl).elim
      · cases h
        exact extra_blames hlist (no_dot_of_path hpath) rfl

theorem not_viable_of_refuses {before : List Token} {t : Token}
    (h : Stage.target.after? before = some s) (hrefuses : s.Refuses (some t)) :
    ¬Viable (before ++ [t]) := by
  rw [viable_iff]
  rintro ⟨s', hs'⟩
  rw [Stage.after?_append, h] at hs'
  have hnext : s.next? t = none := hrefuses
  simp [hnext] at hs'

theorem not_sentence_of_refuses {ws : List Token} (h : Stage.target.after? ws = some s)
    (hrefuses : s.Refuses none) : ¬Sentence ws := by
  rw [Stage.sentence_iff]
  rintro ⟨s', hs', hstop⟩
  rw [h] at hs'
  cases hs'
  have hgoes : s.mayStop = false := hrefuses
  rw [hgoes] at hstop
  cases hstop

theorem Blames.viable (h : Blames stop .target ts e) :
    ∃ before after, ts = before ++ after ∧ e.offset = position stop after ∧
      Viable (words before) ∧ (after = [] → ¬Sentence (words before)) ∧
      ∀ p more, after = p :: more → ¬Viable (words before ++ [p.token]) := by
  obtain ⟨before, after, s, rfl, hbefore, hoffset, hrefuses⟩ := h
  refine ⟨before, after, rfl, hoffset, viable_iff.mpr ⟨s, hbefore⟩, ?_, ?_⟩
  · rintro rfl
    exact not_sentence_of_refuses hbefore hrefuses
  · rintro p more rfl
    exact not_viable_of_refuses hbefore hrefuses

theorem completed_of_viable {ws : List Token} (h : Viable ws) (hnot : ¬Sentence ws) :
    ∃ us, us ≠ [] ∧ Sentence (ws ++ us) := by
  obtain ⟨us, hus⟩ := h
  refine ⟨us, ?_, hus⟩
  rintro rfl
  rw [List.append_nil] at hus
  exact hnot hus

theorem error_at_first_offence (s : String) :
    (∀ ts e, Lexes s.toList ts → ofText s = .error e → e.IsStructural →
      (∃ before t after read rest tail, ts = before ++ t :: after ∧ s.toList = read ++ rest ∧
        Cuts s.toList before rest ∧ Longest rest t tail ∧ e.offset = Text.byteLength read ∧
        Viable before ∧ ¬Viable (before ++ [t])) ∨
      (e.offset = Text.byteLength s.toList ∧ (∃ us, us ≠ [] ∧ Sentence (ts ++ us)) ∧
        ¬Sentence ts)) ∧
    ((¬∃ ts, Lexes s.toList ts) →
      ∃ e before read rest, ofText s = .error e ∧ s.toList = read ++ rest ∧
        Cuts s.toList before rest ∧ Stuck rest ∧ e.offset = Text.byteLength read) := by
  unfold ofText
  constructor
  · intro ts e hlexes herror he
    obtain ⟨placed, htokens, rfl⟩ := tokens_of_lexes hlexes 0
    rw [htokens] at herror
    obtain ⟨before, after, rfl, hoffset, hviable, hend, hoffence⟩ := (call_blames herror he).viable
    obtain ⟨read, rest, hsplit, hcuts, hposition, hdone, hnext⟩ := cuts_of_tokens htokens
    rw [Nat.zero_add, Nat.zero_add] at hposition
    rw [hposition] at hoffset
    rcases after with _ | ⟨p, more⟩
    · rw [hdone rfl, List.append_nil] at hsplit
      rw [List.append_nil, hsplit]
      exact .inr ⟨hoffset, completed_of_viable hviable (hend rfl), hend rfl⟩
    · obtain ⟨tail, htail⟩ := hnext p more rfl
      refine .inl ⟨words before, p.token, words more, read, rest, tail, ?_, hsplit, hcuts, htail,
        hoffset, hviable, hoffence p more rfl⟩
      exact words_append before (p :: more)
  · intro hnone
    cases htokens : tokens 0 s.toList with
    | ok placed => exact absurd ⟨_, lexes_of_tokens htokens⟩ hnone
    | error e =>
      obtain ⟨before, read, rest, hsplit, hcuts, hstuck, hoffset⟩ := stuck_of_tokens htokens
      rw [Nat.zero_add] at hoffset
      exact ⟨e, before, read, rest, rfl, hsplit, hcuts, hstuck, hoffset⟩

end DesignProcess.CallSpec
