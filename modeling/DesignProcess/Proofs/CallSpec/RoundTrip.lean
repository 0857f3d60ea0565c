import DesignProcess.Proofs.CallSpec.Printing

/-!
Reading what was rendered. A string with a single quote in it ends early in the rendered text, and
what is read there, if anything, has a shorter string in its place.
-/

namespace DesignProcess

def Scalar.hasQuote : Scalar → Bool
  | .string s => s.toList.contains '\''
  | _ => false

namespace CallSpec

variable {s t : CallSpec} {before after : List (String × Scalar)} {a b : String × Scalar}

theorem toList_render (s : CallSpec) :
    s.render.toList = s.target.toList ++
      '(' :: ((String.intercalate ", " (s.arguments.map renderArgument)).toList ++ [')']) := by
  simp [render, renderArguments]

theorem toList_arguments_split (before : List (String × Scalar)) (a : String × Scalar)
    (after : List (String × Scalar)) :
    ∃ more, (String.intercalate ", " ((before ++ a :: after).map renderArgument)).toList =
      renderLed before ++ ((renderArgument a).toList ++ more) ∧ (after = [] → more = []) := by
  induction before with
  | nil =>
    cases after with
    | nil =>
      refine ⟨[], ?_, fun _ => rfl⟩
      rw [List.append_nil]
      exact congrArg String.toList String.intercalate_singleton
    | cons c after =>
      refine ⟨", ".toList ++ (String.intercalate ", " ((c :: after).map renderArgument)).toList,
        ?_, nofun⟩
      rw [List.nil_append, List.map_cons, List.map_cons, String.intercalate_cons_cons,
        String.toList_append, String.toList_append, List.append_assoc]
      rfl
  | cons b before ih =>
    obtain ⟨more, hmore, hlast⟩ := ih
    refine ⟨more, ?_, hlast⟩
    have hne : (before ++ a :: after).map renderArgument ≠ [] := by simp
    rw [List.cons_append, List.map_cons, String.intercalate_cons_of_ne_nil hne,
      String.toList_append, String.toList_append, hmore]
    simp [renderLed]

theorem lexes_arguments (h : s.WellFormed) (hp : ∀ a ∈ s.arguments, Printable a.2) :
    ∃ us, Closing us s.arguments ∧ Lexes
      ((String.intercalate ", " (s.arguments.map renderArgument)).toList ++ [')']) us := by
  have hclose : Lexes [')'] [.rparen] := .token (Mark.rparen.longest []) .nil
  rcases List.eq_nil_or_concat s.arguments with hnone | ⟨init, last, hlast⟩
  · rw [hnone]
    exact ⟨[.rparen], .inl ⟨rfl, rfl⟩, hclose⟩
  · rw [List.concat_eq_append] at hlast
    have hall : ∀ a ∈ init ++ [last], IsIdent a.1 ∧ Printable a.2 := by
      intro a ha
      rw [← hlast] at ha
      exact ⟨(h.arguments a ha).1, hp a ha⟩
    obtain ⟨hinit, hsingle⟩ := List.forall_mem_append.mp hall
    obtain ⟨hname, hv⟩ := hsingle last List.mem_cons_self
    obtain ⟨ts, hled, hts⟩ := cuts_led hinit
    obtain ⟨us, hargument, hus⟩ := prints_argument hname hv
    obtain ⟨more, hmore, hnil⟩ := toList_arguments_split init last []
    obtain rfl := hnil rfl
    refine ⟨ts ++ (us ++ [.rparen]), ?_, ?_⟩
    · rw [hlast]
      exact hled.closing (closing_last hargument)
    · rw [hlast, hmore, List.append_nil, List.append_assoc]
      apply (hts _).lexes_iff.mpr
      refine ⟨_, rfl, ?_⟩
      apply (hus ')' .rparen .rparen []).lexes_iff.mpr
      exact ⟨_, rfl, hclose⟩

theorem ofText_render (h : s.WellFormed) (hp : ∀ a ∈ s.arguments, Printable a.2) :
    ofText s.render = .ok s := by
  obtain ⟨ps, hpath, htarget⟩ := cuts_target h.names
  obtain ⟨us, hclosing, hus⟩ := lexes_arguments h hp
  apply (ofText_eq_ok_iff _ _).mpr
  refine ⟨ps ++ .lparen :: us, ?_, ?_⟩
  · rw [toList_render]
    apply (htarget _).lexes_iff.mpr
    exact ⟨_, rfl, .token (Mark.lparen.longest _) hus⟩
  · apply call_iff_closing.mpr
    exact .inr ⟨ps, us, rfl, hpath, hclosing, h.distinct⟩

theorem argumentsFrom_led {stop : Nat} {found : List (String × Scalar)} {read rest : List Placed}
    (h : Led (words read) before) (hdistinct : ((found ++ before).map (·.1)).Nodup) :
    argumentsFrom stop found (read ++ rest) = argumentsFrom stop (found ++ before) rest := by
  generalize hw : words read = ws at h
  induction h generalizing found read with
  | nil => rw [words_eq_nil_iff.mp hw, List.nil_append, List.append_nil]
  | @cons ts us a arguments ha _ ih =>
    obtain ⟨own, others, rfl, rfl, hothers⟩ := words_eq_append_iff.mp hw
    obtain ⟨offset, more, rfl, rfl⟩ := words_eq_cons_iff.mp hothers
    have hargument : argument stop (own ++ ⟨offset, .comma⟩ :: (more ++ rest)) = .ok (a, _) :=
      argument_eq_ok_iff.mpr ⟨own, rfl, ha⟩
    have hsnoc : found ++ a :: arguments = found ++ [a] ++ arguments := by simp
    rw [List.append_assoc, List.cons_append,
      argumentsFrom_argument hargument (notMem_of_nodup hdistinct)]
    rw [hsnoc] at hdistinct ⊢
    exact ih hdistinct rfl

theorem prefix_of_argumentsFrom {stop : Nat} {found all : List (String × Scalar)}
    {ts rest : List Placed} (h : argumentsFrom stop found ts = .ok (all, rest))
    (hdistinct : (found.map (·.1)).Nodup) : found <+: all := by
  obtain ⟨_, arguments, -, rfl, -⟩ := argumentsFrom_sound h hdistinct
  exact List.prefix_append found arguments

theorem prefix_of_call {stop : Nat} {ts : List Placed} {ps bs us vs : List Token}
    {names : List String} (hw : words ts = ps ++ .lparen :: (bs ++ (us ++ vs)))
    (hpath : Path ps names) (hled : Led bs before) (ha : Argument us a)
    (hdistinct : ((before ++ [a]).map (·.1)).Nodup) (h : call stop ts = .ok t) :
    before ++ [a] <+: t.arguments := by
  obtain ⟨read, others, rfl, rfl, hothers⟩ := words_eq_append_iff.mp hw
  obtain ⟨offset, list, rfl, hlist⟩ := words_eq_cons_iff.mp hothers
  obtain ⟨led, more, rfl, rfl, hmore⟩ := words_eq_append_iff.mp hlist
  obtain ⟨own, rest, rfl, rfl, -⟩ := words_eq_append_iff.mp hmore
  have hbefore : (before.map (·.1)).Nodup := by
    rw [List.map_append] at hdistinct
    exact (List.nodup_append.mp hdistinct).1
  have hargument : argument stop (own ++ rest) = .ok (a, rest) :=
    argument_eq_ok_iff.mpr ⟨own, rfl, ha⟩
  obtain ⟨first, tail, rfl⟩ : ∃ first tail, names = first :: tail := by
    generalize words read = ps at hpath
    cases hpath
    exact ⟨_, _, rfl⟩
  unfold call at h
  rw [path_complete hpath (by simp)] at h
  simp only [argumentList] at h
  rw [argumentsFrom_led hled (by simpa using hbefore), List.nil_append,
    argumentsFrom_argument hargument (notMem_of_nodup hdistinct)] at h
  split at h
  · cases h
  · rename_i found hfound
    cases h
    split at hfound
    · exact prefix_of_argumentsFrom hfound hdistinct
    · cases hfound
      exact List.prefix_refl _
    · cases hfound
  · cases h

theorem reread_prefix {name content p : String} {q : List Char} (h : s.WellFormed)
    (hsplit : s.arguments = before ++ (name, .string content) :: after)
    (hbefore : ∀ a ∈ before, Printable a.2) (hcontent : content.toList = p.toList ++ '\'' :: q)
    (hp : '\'' ∉ p.toList) (ht : ofText s.render = .ok t) :
    before ++ [(name, .string p)] <+: t.arguments := by
  have hall := h.arguments
  have hdistinct := h.distinct
  rw [hsplit] at hall hdistinct
  obtain ⟨hfirst, hrest⟩ := List.forall_mem_append.mp hall
  obtain ⟨hname, hcontents⟩ := hrest _ List.mem_cons_self
  have hplain : ∀ c ∈ p.toList, c ≠ '\'' ∧ c ≠ '\\' ∧ c ≠ '\n' := by
    intro c hc
    refine ⟨?_, hcontents c ?_⟩
    · rintro rfl
      exact hp hc
    · rw [hcontent]
      exact List.mem_append_left _ hc
  obtain ⟨ps, hpath, htarget⟩ := cuts_target h.names
  obtain ⟨bs, hled, hbs⟩ := cuts_led fun a ha => ⟨(hfirst a ha).1, hbefore a ha⟩
  obtain ⟨more, hmore, -⟩ := toList_arguments_split before (name, .string content) after
  have hcut : Cuts s.render.toList (ps ++ .lparen :: (bs ++ [.ident name, .equals, .str p]))
      (q ++ '\'' :: (more ++ [')'])) := by
    have htext : (renderArgument (name, .string content)).toList ++ (more ++ [')']) =
        name.toList ++ '=' :: '\'' :: (p.toList ++ '\'' :: (q ++ '\'' :: (more ++ [')']))) := by
      rw [toList_renderArgument]
      simp [hcontent]
    rw [toList_render, hsplit, hmore, List.append_assoc, List.append_assoc, htext]
    apply (htarget _).trans
    apply Cuts.token (Mark.lparen.longest _)
    apply (hbs _).trans
    exact cuts_keyword hname (cuts_token (longest_str hplain _))
  unfold ofText at ht
  split at ht
  · cases ht
  · rename_i placed hplaced
    obtain ⟨vs, hwords, -⟩ := hcut.lexes_iff.mp (lexes_of_tokens hplaced)
    have hshape : words placed =
        ps ++ .lparen :: (bs ++ ([.ident name, .equals, .str p] ++ vs)) := by
      rw [List.append_assoc, List.cons_append, List.append_assoc] at hwords
      exact hwords
    have hnodup : ((before ++ [(name, Scalar.string p)]).map (·.1)).Nodup := by
      rw [List.map_append, List.map_cons] at hdistinct
      rw [List.map_append]
      exact hdistinct.sublist (List.Sublist.append_left (by simp) _)
    exact prefix_of_call hshape hpath hled (.keyword name (.str p)) hnodup ht

theorem same_at {xs ys : List (String × Scalar)}
    (h : sameArguments (before ++ a :: xs) (before ++ b :: ys) = true) : a.2.same b.2 = true := by
  unfold sameArguments at h
  rw [List.zip_append rfl, List.zip_cons_cons, List.all_append, List.all_cons] at h
  simp only [Bool.and_eq_true] at h
  exact h.2.2.1.2

theorem same_self (h : s.WellFormed) : s.same s = true := by
  have hvalue : ∀ a ∈ s.arguments, a.2.same a.2 = true := by
    intro a ha
    obtain ⟨-, hreadable⟩ := h.arguments a ha
    cases hv : a.2 with
    | float x =>
      rw [hv] at hreadable
      exact Decimal.beq_self_of_isFinite hreadable
    | boolean | integer | string => simp [Scalar.same]
  have harguments : sameArguments s.arguments s.arguments = true := by
    unfold sameArguments
    rw [List.zip, List.zipWith_self, List.all_map, Bool.and_eq_true, List.all_eq_true]
    refine ⟨beq_self_eq_true _, ?_⟩
    intro a ha
    exact Bool.and_eq_true_iff.mpr ⟨beq_self_eq_true _, hvalue a ha⟩
  exact Bool.and_eq_true_iff.mpr ⟨beq_self_eq_true _, harguments⟩

theorem printable_of_readable {v : Scalar} (hv : Readable v) (hquote : v.hasQuote = false)
    (hback : ∀ x, v = .float x → Decimal.float? (Decimal.literal.text x) = some x) :
    Printable v := by
  cases v with
  | boolean b => exact .boolean b
  | integer n => exact .integer n
  | float x => exact .float hv (hback x rfl)
  | string content =>
    apply Printable.string
    intro c hc
    refine ⟨?_, hv c hc⟩
    rintro rfl
    have hcontains : content.toList.contains '\'' = true := List.contains_iff_mem.mpr hc
    rw [Scalar.hasQuote, hcontains] at hquote
    cases hquote

theorem not_same_of_hasQuote (h : s.WellFormed)
    (hback : ∀ a ∈ s.arguments, ∀ x, a.2 = .float x →
      Decimal.float? (Decimal.literal.text x) = some x)
    (hquote : ∃ a ∈ s.arguments, a.2.hasQuote = true) (ht : ofText s.render = .ok t) :
    t.same s = false := by
  obtain ⟨a, hfind⟩ : ∃ a, s.arguments.find? (·.2.hasQuote) = some a := by
    apply Option.isSome_iff_exists.mp
    rw [List.find?_isSome]
    exact hquote
  obtain ⟨hfirst, before, after, hsplit, hbefore⟩ := List.find?_eq_some_iff_append.mp hfind
  obtain ⟨name, v⟩ := a
  have hprintable : ∀ b ∈ before, Printable b.2 := by
    intro b hb
    have hmem : b ∈ s.arguments := by
      rw [hsplit]
      exact List.mem_append_left _ hb
    apply printable_of_readable (h.arguments b hmem).2 _ (hback b hmem)
    simpa using hbefore b hb
  cases v with
  | boolean | integer | float => cases hfirst
  | string content =>
    have hmem : '\'' ∈ content.toList := List.contains_iff_mem.mp hfirst
    obtain ⟨p, q, hcontent, hp⟩ := List.eq_append_cons_of_mem hmem
    have hread : before ++ [(name, .string (String.ofList p))] <+: t.arguments := by
      apply reread_prefix h hsplit hprintable (q := q)
      · rw [String.toList_ofList, hcontent]
      · rwa [String.toList_ofList]
      · exact ht
    obtain ⟨others, hothers⟩ := hread
    cases hsame : t.same s with
    | false => rfl
    | true =>
      have harguments : sameArguments t.arguments s.arguments = true :=
        (Bool.and_eq_true_iff.mp hsame).2
      rw [← hothers, hsplit, List.append_assoc, List.singleton_append] at harguments
      have hvalue : Scalar.string (String.ofList p) = .string content :=
        of_decide_eq_true (same_at harguments)
      have hlength := congrArg (fun v => v.text.length) hvalue
      simp [hcontent] at hlength

theorem rendered_reads_back_iff {text : String} (hs : ofText text = .ok s)
    (hback : ∀ a ∈ s.arguments, ∀ x, a.2 = .float x →
      Decimal.float? (Decimal.literal.text x) = some x) :
    ((∃ t, ofText s.render = .ok t ∧ t.same s = true) ↔
      ∀ a ∈ s.arguments, a.2.hasQuote = false) ∧
    ((∀ a ∈ s.arguments, a.2.hasQuote = false) → ofText s.render = .ok s) ∧
    ((∃ a ∈ s.arguments, a.2.hasQuote = true) →
      (∃ e, ofText s.render = .error e) ∨ ∃ t, ofText s.render = .ok t ∧ t.same s = false) := by
  have hwell := wellFormed_of_ofText hs
  have hexact (hplain : ∀ a ∈ s.arguments, a.2.hasQuote = false) : ofText s.render = .ok s := by
    apply ofText_render hwell
    intro a ha
    exact printable_of_readable (hwell.arguments a ha).2 (hplain a ha) (hback a ha)
  refine ⟨⟨?_, ?_⟩, hexact, ?_⟩
  · rintro ⟨t, ht, hsame⟩ a ha
    by_contra hquote
    have hother := not_same_of_hasQuote hwell hback ⟨a, ha, by simpa using hquote⟩ ht
    rw [hsame] at hother
    cases hother
  · intro hplain
    exact ⟨s, hexact hplain, same_self hwell⟩
  · intro hquote
    cases ht : ofText s.render with
    | error e => exact .inl ⟨e, rfl⟩
    | ok t => exact .inr ⟨t, rfl, not_same_of_hasQuote hwell hback hquote ht⟩

theorem rendered_reads_back_iff_driver :
    let s : CallSpec :=
      ⟨"om", ["Driver"], [("tol", .float 0.25), ("name", .string "it's"), ("n", .integer (-3))]⟩
    ofText "om.Driver(tol=0.25, name=\"it's\", n=-3)" = .ok s ∧
      Decimal.float? (Decimal.literal.text 0.25) = some 0.25 ∧
      ((∃ e, ofText s.render = .error e) ∨ ∃ t, ofText s.render = .ok t ∧ t.same s = false) := by
  intro s
  have hs : ofText "om.Driver(tol=0.25, name=\"it's\", n=-3)" = .ok s := by decide +kernel
  have hquarter : Decimal.float? (Decimal.literal.text 0.25) = some 0.25 := by decide +kernel
  have hback : ∀ a ∈ s.arguments, ∀ x, a.2 = .float x →
      Decimal.float? (Decimal.literal.text x) = some x := by
    simp only [s, List.forall_mem_cons]
    refine ⟨?_, nofun, nofun, nofun⟩
    intro x hx
    cases hx
    exact hquarter
  obtain ⟨-, -, hspilt⟩ := rendered_reads_back_iff hs hback
  exact ⟨hs, hquarter, hspilt ⟨("name", .string "it's"), by simp [s], by decide⟩⟩

end CallSpec

end DesignProcess
