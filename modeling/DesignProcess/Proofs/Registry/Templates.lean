import DesignProcess.Proofs.Registry.Runs

namespace DesignProcess

inductive Bracket
  | single
  | double
  | dollar

structure Placeholder where
  bracket : Bracket
  name : List Char

def Placeholder.text (p : Placeholder) : List Char :=
  match p.bracket with
  | .single => '{' :: (p.name ++ ['}'])
  | .double => '{' :: '{' :: (p.name ++ ['}', '}'])
  | .dollar => '$' :: '{' :: (p.name ++ ['}'])

def Placeholder.IsNamed (p : Placeholder) : Prop := p.name ≠ [] ∧ '{' ∉ p.name ∧ '}' ∉ p.name

structure Hole where
  replaced : List Char
  placeholder : Placeholder
  kept : List Char

structure Template where
  head : List Char
  holes : List Hole

namespace Template

def identifier (t : Template) : List Char :=
  t.head ++ t.holes.flatMap fun h => h.replaced ++ h.kept

def text (t : Template) : List Char :=
  t.head ++ t.holes.flatMap fun h => h.placeholder.text ++ h.kept

def left (t : Template) : List Char := t.head ++ t.holes.flatMap Hole.kept

def EndsPiece (cs : List Char) : Prop := cs = [] ∨ cs.getLast? = some '.'

def BeginsPiece (cs : List Char) : Prop := cs = [] ∨ cs.head? = some '.'

def Apart (t : Template) : Prop :=
  ∀ before h after, t.holes = before ++ h :: after →
    EndsPiece (t.head ++ before.flatMap Hole.kept) ∨
      BeginsPiece (h.kept ++ after.flatMap Hole.kept)

theorem splitOn_append_of_apart {a b piece : List Char} (h : EndsPiece a ∨ BeginsPiece b)
    (hpiece : piece ∈ (a ++ b).splitOn '.') :
    piece = [] ∨ piece ∈ a.splitOn '.' ∨ piece ∈ b.splitOn '.' := by
  rcases h with (rfl | ha) | rfl | hb
  · exact .inr (.inr hpiece)
  · obtain ⟨front, rfl⟩ := List.getLast?_eq_some_iff.mp ha
    rw [List.append_assoc, List.singleton_append, List.splitOn_append_cons_self] at hpiece
    rw [List.splitOn_append_cons_self, List.mem_append]
    rcases List.mem_append.mp hpiece with h | h
    · exact .inr (.inl (.inl h))
    · exact .inr (.inr h)
  · rw [List.append_nil] at hpiece
    exact .inr (.inl hpiece)
  · obtain ⟨back, rfl⟩ := List.head?_eq_some_iff.mp hb
    rw [List.splitOn_append_cons_self] at hpiece
    rcases List.mem_append.mp hpiece with h | h
    · exact .inr (.inl h)
    · refine .inr (.inr ?_)
      rw [List.splitOn_cons_eq_if_modifyHead]
      exact List.mem_cons_of_mem _ h

theorem infix_intercalate {sep piece : List Char} {pieces : List (List Char)}
    (h : piece ∈ pieces) : piece <:+: sep.intercalate pieces := by
  induction pieces with
  | nil => cases h
  | cons first rest ih =>
    cases rest with
    | nil =>
      obtain rfl := List.mem_singleton.mp h
      exact ⟨[], [], by simp⟩
    | cons second rest =>
      rw [List.intercalate_cons_cons]
      rcases List.mem_cons.mp h with rfl | h
      · rw [List.append_assoc]
        exact (List.prefix_append _ _).isInfix
      · exact (ih h).trans (List.suffix_append _ _).isInfix

theorem infix_of_mem_splitOn {cs piece : List Char} (h : piece ∈ cs.splitOn '.') :
    piece <:+: cs := by
  have hinfix : piece <:+: ['.'].intercalate (cs.splitOn '.') := infix_intercalate h
  rwa [List.intercalate_splitOn] at hinfix

theorem EndsPiece.of_append {a b : List Char} (h : EndsPiece (a ++ b)) : EndsPiece b := by
  rcases h with h | h
  · exact .inl (List.append_eq_nil_iff.mp h).2
  · rw [List.getLast?_append] at h
    cases hb : b.getLast? with
    | none => exact .inl (List.getLast?_eq_none_iff.mp hb)
    | some c =>
      rw [hb] at h
      exact .inr (hb.trans h)

theorem infix_of_apart {head piece : List Char} {holes : List Hole}
    (h : (Template.mk head holes).Apart) (hpiece : piece ∈ (left ⟨head, holes⟩).splitOn '.') :
    piece <:+: identifier ⟨head, holes⟩ := by
  -- What stands before the first hole is joined to no piece of what comes behind it.
  induction holes generalizing head with
  | nil =>
    simp only [left, identifier, List.flatMap_nil, List.append_nil] at hpiece ⊢
    exact infix_of_mem_splitOn hpiece
  | cons hole rest ih =>
    have hfirst := h [] hole rest rfl
    have hrest : (Template.mk hole.kept rest).Apart := by
      rintro before h' after rfl
      refine (h (hole :: before) h' after rfl).imp_left fun hends => ?_
      rw [List.flatMap_cons] at hends
      exact hends.of_append
    have hidentifier : identifier ⟨head, hole :: rest⟩ =
        head ++ (hole.replaced ++ identifier ⟨hole.kept, rest⟩) := by
      simp [identifier]
    rw [List.flatMap_nil, List.append_nil] at hfirst
    rw [hidentifier]
    rcases splitOn_append_of_apart hfirst hpiece with rfl | hhead | htail
    · exact List.nil_infix
    · exact (infix_of_mem_splitOn hhead).trans (List.prefix_append _ _).isInfix
    · have hsuffix : identifier ⟨hole.kept, rest⟩ <:+
          head ++ (hole.replaced ++ identifier ⟨hole.kept, rest⟩) := by
        rw [← List.append_assoc]
        exact List.suffix_append _ _
      exact (ih hrest htail).trans hsuffix.isInfix

end Template

namespace Registry

def IsPlain (cs : List Char) : Prop :=
  ∀ c ∈ cs, isPlaceholderMark c = false ∧ Text.isBlank c = false

instance : DecidablePred IsPlain := fun cs => List.decidableBAll _ cs

theorem literal_plain {cs rest : List Char} (h : ∀ c ∈ cs, isPlaceholderMark c = false) :
    literal 0 (cs ++ rest) = cs ++ literal 0 rest := by
  induction cs with
  | nil => rfl
  | cons c cs ih =>
    obtain ⟨hc, hcs⟩ := List.forall_mem_cons.mp h
    rw [List.cons_append, List.cons_append, literal, hc, ih hcs]
    · rfl
    · rintro rfl
      cases hc
    · rintro rfl
      cases hc

theorem literal_hidden {depth : Nat} {cs rest : List Char} (hopen : '{' ∉ cs) (hclose : '}' ∉ cs) :
    literal (depth + 1) (cs ++ rest) = literal (depth + 1) rest := by
  induction cs with
  | nil => rfl
  | cons c cs ih =>
    obtain ⟨hc, hcs⟩ := not_or.mp (mt List.mem_cons.mpr hopen)
    obtain ⟨hc', hcs'⟩ := not_or.mp (mt List.mem_cons.mpr hclose)
    rw [List.cons_append, literal, ih hcs hcs']
    · simp
    · exact fun heq => hc heq.symm
    · exact fun heq => hc' heq.symm

theorem literal_placeholder {p : Placeholder} {rest : List Char} (h : p.IsNamed) :
    literal 0 (p.text ++ rest) = literal 0 rest := by
  obtain ⟨-, hopen, hclose⟩ := h
  unfold Placeholder.text
  cases p.bracket with
  | single =>
    simp only [List.cons_append, List.append_assoc, literal, literal_hidden hopen hclose,
      List.nil_append]
  | double =>
    simp only [List.cons_append, List.append_assoc, literal, literal_hidden hopen hclose,
      List.nil_append]
  | dollar =>
    have hdollar (r : List Char) : literal 0 ('$' :: r) = literal 0 r := rfl
    simp only [List.cons_append, List.append_assoc, hdollar, literal,
      literal_hidden hopen hclose, List.nil_append]

theorem literal_holes {holes : List Hole}
    (hkept : ∀ h ∈ holes, ∀ c ∈ h.kept, isPlaceholderMark c = false)
    (hnames : ∀ h ∈ holes, h.placeholder.IsNamed) :
    literal 0 (holes.flatMap fun h => h.placeholder.text ++ h.kept) =
      holes.flatMap Hole.kept := by
  induction holes with
  | nil => rfl
  | cons h rest ih =>
    obtain ⟨hk, hkept⟩ := List.forall_mem_cons.mp hkept
    obtain ⟨hn, hnames⟩ := List.forall_mem_cons.mp hnames
    rw [List.flatMap_cons, List.flatMap_cons, List.append_assoc, literal_placeholder hn,
      literal_plain hk, ih hkept hnames]

theorem literal_text {t : Template} (hhead : ∀ c ∈ t.head, isPlaceholderMark c = false)
    (hkept : ∀ h ∈ t.holes, ∀ c ∈ h.kept, isPlaceholderMark c = false)
    (hnames : ∀ h ∈ t.holes, h.placeholder.IsNamed) : literal 0 t.text = t.left := by
  rw [Template.text, literal_plain hhead, literal_holes hkept hnames]
  rfl

theorem splitOnP_congr {p q : Char → Bool} {cs : List Char} (h : ∀ c ∈ cs, p c = q c) :
    cs.splitOnP p = cs.splitOnP q := by
  induction cs with
  | nil => rfl
  | cons c cs ih =>
    obtain ⟨hc, hcs⟩ := List.forall_mem_cons.mp h
    rw [List.splitOnP_cons_eq_if_modifyHead, List.splitOnP_cons_eq_if_modifyHead, hc, ih hcs]

theorem fragments_text {t : Template} (hplain : IsPlain t.left)
    (hnames : ∀ h ∈ t.holes, h.placeholder.IsNamed) :
    fragments t.text = (t.left.splitOn '.').filter (· ≠ []) := by
  have hhead : ∀ c ∈ t.head, isPlaceholderMark c = false :=
    fun c hc => (hplain c (List.mem_append_left _ hc)).1
  have hkept : ∀ h ∈ t.holes, ∀ c ∈ h.kept, isPlaceholderMark c = false := by
    intro h hh c hc
    exact (hplain c (List.mem_append_right _ (List.mem_flatMap.mpr ⟨h, hh, hc⟩))).1
  have hsplit : t.left.splitOnP (fun c => c == '.' || Text.isBlank c) = t.left.splitOn '.' := by
    rw [List.splitOn_eq_splitOnP]
    apply splitOnP_congr
    intro c hc
    rw [(hplain c hc).2, Bool.or_false]
  rw [fragments, literal_text hhead hkept hnames, hsplit]

theorem isMalformed_text {t : Template} (hholes : t.holes ≠ []) : isMalformed t.text = true := by
  obtain ⟨h, hh⟩ := List.exists_mem_of_ne_nil _ hholes
  have hopen : '{' ∈ h.placeholder.text := by
    unfold Placeholder.text
    cases h.placeholder.bracket <;> simp
  have hmem : '{' ∈ t.text :=
    List.mem_append_right _ (List.mem_flatMap.mpr ⟨h, hh, List.mem_append_left _ hopen⟩)
  rw [isMalformed, Bool.or_eq_true]
  exact .inl (List.any_eq_true.mpr ⟨'{', hmem, rfl⟩)

theorem mem_suggestions_iff {r : Registry} {text known : String} (hsize : r.size ≤ maxSuggestions)
    (hmalformed : isMalformed text.toList = true) :
    known ∈ r.suggestions text ↔
      known ∈ r.identifiers ∧ ∀ piece ∈ fragments text.toList, piece <:+: known.toList := by
  have hlength : (r.identifiers.filter fun known =>
      (fragments text.toList).all (Text.occursIn · known.toList)).length ≤ maxSuggestions := by
    refine Nat.le_trans (List.length_filter_le _ _) ?_
    rwa [identifiers, Dictionary.names, List.length_map]
  rw [suggestions, if_pos hmalformed]
  dsimp only
  rw [List.take_of_length_le hlength, List.mem_filter, List.all_eq_true]
  simp only [Text.occursIn_iff]

theorem left_plain {t : Template} (h : IsPlain t.identifier) : IsPlain t.left := by
  intro c hc
  apply h c
  rcases List.mem_append.mp hc with hc | hc
  · exact List.mem_append_left _ hc
  · obtain ⟨hole, hhole, hc⟩ := List.mem_flatMap.mp hc
    refine List.mem_append_right _ (List.mem_flatMap.mpr ⟨hole, hhole, ?_⟩)
    exact List.mem_append_right _ hc

/-- The identifier that a template comes from is suggested for its text exactly when every piece
of what is left of it occurs in it. A hole inside of a piece joins what stands around it, and the
joined piece need not occur. -/
theorem template_suggested_iff {r : Registry} {t : Template} (path : KeyPath) (hsize : r.size ≤ 5)
    (hknown : r.contains (String.ofList t.identifier) = true)
    (hunknown : r.contains (String.ofList t.text) = false) (hplain : IsPlain t.identifier)
    (hholes : t.holes ≠ []) (hnames : ∀ h ∈ t.holes, h.placeholder.IsNamed) :
    ∃ suggestions,
      r.resolve (String.ofList t.text) path =
        .error (.unknownComponent (String.ofList t.text) path suggestions) ∧
      (String.ofList t.identifier ∈ suggestions ↔
        ∀ piece ∈ t.left.splitOn '.', piece <:+: t.identifier) ∧
      (t.Apart → String.ofList t.identifier ∈ suggestions) := by
  have hmem : String.ofList t.identifier ∈ r.suggestions (String.ofList t.text) ↔
      ∀ piece ∈ t.left.splitOn '.', piece <:+: t.identifier := by
    rw [mem_suggestions_iff hsize (by simpa using isMalformed_text hholes), String.toList_ofList,
      String.toList_ofList, fragments_text (left_plain hplain) hnames]
    constructor
    · rintro ⟨-, h⟩ piece hpiece
      by_cases hempty : piece = []
      · rw [hempty]
        exact List.nil_infix
      · exact h piece (List.mem_filter.mpr ⟨hpiece, by simpa using hempty⟩)
    · intro h
      exact ⟨contains_iff.mp hknown, fun piece hpiece => h piece (List.mem_filter.mp hpiece).1⟩
  have hget : r.get? (String.ofList t.text) = none := by
    rw [contains, Dictionary.contains, Option.isSome_eq_false_iff] at hunknown
    exact Option.isNone_iff_eq_none.mp hunknown
  refine ⟨r.suggestions (String.ofList t.text), ?_, hmem, fun hapart => hmem.mpr ?_⟩
  · rw [resolve, hget]
  · exact fun piece hpiece => Template.infix_of_apart hapart hpiece

theorem template_suggested_iff_geometry :
    let geometry : Registration :=
      ⟨"fastoad.geometry.legacy", .failing ⟨"no geometry", none⟩, .builtIn⟩
    let r : Registry := ⟨Dictionary.empty.insert "fastoad.geometry.legacy" geometry⟩
    let part : Hole := ⟨"geometry".toList, ⟨.double, "part".toList⟩, ".leg".toList⟩
    let ending : Hole := ⟨"acy".toList, ⟨.dollar, "ending".toList⟩, []⟩
    let t : Template := ⟨"fastoad.".toList, [part, ending]⟩
    r.size ≤ 5 ∧ r.contains (String.ofList t.identifier) = true ∧
      r.contains (String.ofList t.text) = false ∧ IsPlain t.identifier ∧ t.holes ≠ [] ∧
      (∀ h ∈ t.holes, h.placeholder.IsNamed) ∧ t.Apart ∧
      ∃ suggestions,
        r.resolve "fastoad.{{part}}.leg${ending}" .root =
          .error (.unknownComponent "fastoad.{{part}}.leg${ending}" .root suggestions) ∧
        "fastoad.geometry.legacy" ∈ suggestions := by
  intro geometry r part ending t
  have hplain : IsPlain t.identifier := by decide
  have hnames : ∀ h ∈ t.holes, h.placeholder.IsNamed := by
    unfold Placeholder.IsNamed
    decide
  have hapart : t.Apart := by
    rintro before h after hsplit
    match before, hsplit with
    | [], hsplit => exact .inl (.inr rfl)
    | [_], hsplit =>
      cases hsplit
      exact .inr (.inl rfl)
    | _ :: _ :: more, hsplit =>
      have hlength := congrArg List.length hsplit
      simp [t] at hlength
  have hunknown : r.contains (String.ofList t.text) = false := by decide +kernel
  obtain ⟨suggestions, hresolve, -, hmem⟩ := template_suggested_iff .root
    (by decide) rfl hunknown hplain (List.cons_ne_nil _ _) hnames
  exact ⟨by decide, rfl, hunknown, hplain, List.cons_ne_nil _ _, hnames, hapart,
    suggestions, hresolve, hmem hapart⟩

theorem template_within_piece_lost :
    let geometry : Registration :=
      ⟨"fastoad.geometry.legacy", .failing ⟨"no geometry", none⟩, .builtIn⟩
    let r : Registry := ⟨Dictionary.empty.insert "fastoad.geometry.legacy" geometry⟩
    let hole : Hole := ⟨"met".toList, ⟨.single, ['x']⟩, "ry.legacy".toList⟩
    let t : Template := ⟨"fastoad.geo".toList, [hole]⟩
    String.ofList t.identifier = "fastoad.geometry.legacy" ∧
      String.ofList t.text = "fastoad.geo{x}ry.legacy" ∧
      r.size ≤ 5 ∧ r.contains "fastoad.geometry.legacy" = true ∧ IsPlain t.identifier ∧
      hole.placeholder.IsNamed ∧ r.contains "fastoad.geo{x}ry.legacy" = false ∧
      ¬∃ suggestions, r.resolve "fastoad.geo{x}ry.legacy" .root =
          .error (.unknownComponent "fastoad.geo{x}ry.legacy" .root suggestions) ∧
        "fastoad.geometry.legacy" ∈ suggestions := by
  intro geometry r hole t
  have hsuggestions : r.suggestions "fastoad.geo{x}ry.legacy" = [] := by decide +kernel
  have hplain : IsPlain t.identifier := by decide
  have hnamed : hole.placeholder.IsNamed := ⟨List.cons_ne_nil _ _, by decide, by decide⟩
  refine ⟨rfl, rfl, by decide, rfl, hplain, hnamed, rfl, ?_⟩
  rintro ⟨suggestions, h, hmem⟩
  have hresolve : r.resolve "fastoad.geo{x}ry.legacy" .root =
      .error (.unknownComponent "fastoad.geo{x}ry.legacy" .root []) := by
    rw [← hsuggestions]
    rfl
  cases hresolve.symm.trans h
  cases hmem

end Registry

end DesignProcess
