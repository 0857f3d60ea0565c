import DesignProcess.Proofs.CallSpec.Cutting
import DesignProcess.Proofs.CallSpec.WellFormed

/-!
Call specifications under further names. Names and dots in front of a text leave its own tokens as
they are, but for a digit at its head, with which no call begins.
-/

namespace DesignProcess.CallSpec

def under (name : String) (s : CallSpec) : CallSpec := ⟨name, s.names, s.arguments⟩

def within (names : List String) (s : CallSpec) : CallSpec := names.foldr under s

@[simp]
theorem within_cons (name : String) (names : List String) (s : CallSpec) :
    s.within (name :: names) = (s.within names).under name := rfl

@[simp]
theorem within_arguments (names : List String) (s : CallSpec) :
    (s.within names).arguments = s.arguments := by
  induction names with
  | nil => rfl
  | cons name rest ih => exact ih

theorem under_kind (name : String) (s : CallSpec) : (s.under name).kind = s.kind := by
  rw [kind, under, names, List.getLastD_cons, ← kind]

@[simp]
theorem within_kind (names : List String) (s : CallSpec) : (s.within names).kind = s.kind := by
  induction names with
  | nil => rfl
  | cons name rest ih => exact (under_kind name _).trans ih

theorem under_target (name : String) (s : CallSpec) :
    (s.under name).target = name ++ "." ++ s.target :=
  Text.joined_cons (List.cons_ne_nil _ _)

theorem joined_cons_dot {name : String} {names : List String} (hne : names ≠ []) (text : String) :
    Text.joined (name :: names) ++ "." ++ text =
      name ++ "." ++ (Text.joined names ++ "." ++ text) := by
  rw [Text.joined_cons hne]
  simp only [String.append_assoc]

theorem within_target {names : List String} (hne : names ≠ []) (s : CallSpec) :
    (s.within names).target = Text.joined names ++ "." ++ s.target := by
  induction names with
  | nil => exact absurd rfl hne
  | cons name rest ih =>
    rw [within_cons, under_target]
    by_cases hrest : rest = []
    · subst hrest
      rfl
    · rw [ih hrest, joined_cons_dot hrest]

variable {name : String} {names : List String} {r : List Char} {ts ws : List Token}
  {arguments : List (String × Scalar)}

theorem path_dot_iff :
    Path (.ident name :: .dot :: ws) names ↔ ∃ inner, names = name :: inner ∧ Path ws inner := by
  constructor
  · intro h
    cases h with
    | names _ hothers =>
      cases hothers with
      | dot second hothers => exact ⟨_, rfl, .names second hothers⟩
  · rintro ⟨inner, rfl, h⟩
    cases h with
    | names second hothers => exact .names name (.dot second hothers)

theorem path_head (h : Path ws names) :
    ∃ first vs others, ws = .ident first :: vs ∧ names = first :: others := by
  cases h with
  | names first => exact ⟨first, _, _, rfl, rfl⟩

theorem call_head (h : Call ws names arguments) :
    ∃ first vs others, ws = .ident first :: vs ∧ names = first :: others := by
  cases h with
  | bare hpath => exact path_head hpath
  | empty hpath | applied hpath =>
    obtain ⟨first, vs, others, rfl, rfl⟩ := path_head hpath
    exact ⟨first, _, others, rfl, rfl⟩

theorem call_dot_iff :
    Call (.ident name :: .dot :: ws) names arguments ↔
      ∃ inner, names = name :: inner ∧ Call ws inner arguments := by
  simp only [call_iff_closing]
  constructor
  · rintro (⟨hpath, rfl⟩ | ⟨vs, us, hsplit, hpath, hclosing⟩)
    · obtain ⟨inner, rfl, hinner⟩ := path_dot_iff.mp hpath
      exact ⟨inner, rfl, .inl ⟨hinner, rfl⟩⟩
    · cases hpath with
      | names first hothers =>
        cases hothers with
        | none => cases hsplit
        | dot second hothers =>
          cases hsplit
          exact ⟨_, rfl, .inr ⟨_, us, rfl, .names second hothers, hclosing⟩⟩
  · rintro ⟨inner, rfl, ⟨hpath, rfl⟩ | ⟨vs, us, rfl, hpath, hclosing⟩⟩
    · exact .inl ⟨path_dot_iff.mpr ⟨inner, rfl, hpath⟩, rfl⟩
    · exact .inr ⟨_ :: _ :: vs, us, rfl, path_dot_iff.mpr ⟨inner, rfl, hpath⟩, hclosing⟩

theorem second_of_call {t : Token} (h : Call (.ident name :: t :: ws) names arguments) :
    t = .dot ∨ t = .lparen := by
  rcases call_iff_closing.mp h with ⟨hpath, -⟩ | ⟨vs, us, hsplit, hpath, -⟩
  · cases hpath with
    | names _ hothers =>
      cases hothers with
      | dot => exact .inl rfl
  · cases hpath with
    | names _ hothers =>
      cases hothers with
      | none =>
        cases hsplit
        exact .inr rfl
      | dot =>
        cases hsplit
        exact .inl rfl

theorem not_isDigit_of_isGap {c : Char} (h : isGap c = true) : c.isDigit = false := by
  simp only [isGap, Bool.or_eq_true, beq_iff_eq] at h
  rcases h with ((rfl | rfl) | rfl) | rfl <;> rfl

theorem no_digit_before_ident (h : Lexes r (.ident name :: ws)) :
    ¬r.head?.any Char.isDigit = true := by
  cases h with
  | gap hgap => simp [not_isDigit_of_isGap hgap]
  | token hnext =>
    obtain ⟨lexeme, rfl, hspells, -⟩ := hnext
    cases hspells with
    | ident hname hstart =>
      rw [hname]
      simp [not_isDigit_of_isNameStart hstart]

theorem lexes_ident_iff (hname : IsIdent name) :
    Lexes (name.toList ++ '.' :: r) ts ↔ ∃ us, ts = .ident name :: us ∧ Lexes ('.' :: r) us := by
  obtain ⟨lexeme, hspells⟩ := hname
  have hcut : Cuts (name.toList ++ '.' :: r) [.ident name] ('.' :: r) :=
    cuts_token (longest_ident hspells rfl r)
  exact hcut.lexes_iff

theorem lexes_dot_iff (h : ¬r.head?.any Char.isDigit = true) :
    Lexes ('.' :: r) ts ↔ ∃ us, ts = .dot :: us ∧ Lexes r us :=
  (cuts_token (longest_dot_of_no_digit h)).lexes_iff

theorem float_of_digit (h : r.head?.any Char.isDigit = true) (hlexes : Lexes ('.' :: r) ts) :
    ∃ text us, ts = .float text :: us := by
  cases hlexes with
  | gap hgap => cases hgap
  | token hnext =>
    have hread := (Token.next_eq_some_iff _ _ _).mpr hnext
    rw [Token.next_point, Token.dotted, if_pos h] at hread
    cases hread
    exact ⟨_, _, rfl⟩

theorem no_digit_of_call (hname : IsIdent name) (hlexes : Lexes (name.toList ++ '.' :: r) ts)
    (h : Call ts names arguments) : ¬r.head?.any Char.isDigit = true := by
  intro hdigit
  obtain ⟨us, rfl, hus⟩ := (lexes_ident_iff hname).mp hlexes
  obtain ⟨text, vs, rfl⟩ := float_of_digit hdigit hus
  rcases second_of_call h with h | h
  · cases h
  · cases h

theorem toList_dotted (name text : String) :
    (name ++ "." ++ text).toList = name.toList ++ '.' :: text.toList := by
  simp

theorem ofText_under_iff (hname : IsIdent name) (text : String) (s : CallSpec) :
    ofText (name ++ "." ++ text) = .ok s ↔
      ∃ inner, ofText text = .ok inner ∧ s = inner.under name := by
  simp only [ofText_eq_ok_iff, toList_dotted]
  constructor
  · rintro ⟨ts, hlexes, hcall⟩
    -- The dot is cut off by itself only if no digit follows, which the call has to tell here.
    have hdigit := no_digit_of_call hname hlexes hcall
    obtain ⟨us, rfl, hus⟩ := (lexes_ident_iff hname).mp hlexes
    obtain ⟨vs, rfl, hvs⟩ := (lexes_dot_iff hdigit).mp hus
    obtain ⟨inner, hnames, hinner⟩ := call_dot_iff.mp hcall
    obtain ⟨first, ws, others, rfl, rfl⟩ := call_head hinner
    refine ⟨⟨first, others, s.arguments⟩, ⟨_, hvs, hinner⟩, ?_⟩
    obtain ⟨first', others', arguments⟩ := s
    cases hnames
    rfl
  · rintro ⟨inner, ⟨ts, hlexes, hcall⟩, rfl⟩
    -- And here the text itself begins with a name.
    obtain ⟨first, ws, -, rfl, -⟩ := call_head hcall
    have hdot := (lexes_dot_iff (no_digit_before_ident hlexes)).mpr ⟨_, rfl, hlexes⟩
    refine ⟨_, (lexes_ident_iff hname).mpr ⟨_, rfl, hdot⟩, ?_⟩
    exact call_dot_iff.mpr ⟨inner.names, rfl, hcall⟩

theorem ofText_within_iff (hne : names ≠ []) (hnames : ∀ name ∈ names, IsIdent name)
    (text : String) (s : CallSpec) :
    ofText (Text.joined names ++ "." ++ text) = .ok s ↔
      ∃ inner, ofText text = .ok inner ∧ s = inner.within names := by
  induction names generalizing s with
  | nil => exact absurd rfl hne
  | cons name rest ih =>
    obtain ⟨hname, hrest⟩ := List.forall_mem_cons.mp hnames
    by_cases hempty : rest = []
    · subst hempty
      exact ofText_under_iff hname text s
    · rw [joined_cons_dot hempty, ofText_under_iff hname]
      simp only [ih hempty hrest]
      constructor
      · rintro ⟨_, ⟨inner, hinner, rfl⟩, rfl⟩
        exact ⟨inner, hinner, rfl⟩
      · rintro ⟨inner, hinner, rfl⟩
        exact ⟨_, ⟨inner, hinner, rfl⟩, rfl⟩

end DesignProcess.CallSpec
