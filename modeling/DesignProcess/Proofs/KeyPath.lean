import DesignProcess.KeyPath
import DesignProcess.Proofs.Decimal.Signed
import DesignProcess.Proofs.Text.Dotted

namespace DesignProcess

theorem Text.cut_unique {Stop : Char → Prop} {a b x y : List Char} (ha : ∀ c ∈ a, ¬Stop c)
    (hb : ∀ c ∈ b, ¬Stop c) (hx : ∀ c ∈ x.head?, Stop c) (hy : ∀ c ∈ y.head?, Stop c)
    (h : a ++ x = b ++ y) : a = b ∧ x = y := by
  -- The first character between the two cuts would both be in a word and stop it.
  rcases List.append_eq_append_iff.mp h with ⟨more, rfl, rfl⟩ | ⟨more, rfl, rfl⟩
  · cases more with
    | nil => exact ⟨(List.append_nil a).symm, rfl⟩
    | cons c rest => exact absurd (hx c rfl) (hb c (by simp))
  · cases more with
    | nil => exact ⟨List.append_nil b, rfl⟩
    | cons c rest => exact absurd (hy c rfl) (ha c (by simp))

namespace KeyPath

structure IsPlainKey (name : String) : Prop where
  isName : Text.IsName name
  unbracketed : '[' ∉ name.toList
  notRoot : name ≠ "<document root>"

inductive Plain : KeyPath → Prop
  | root : Plain root
  | key {p : KeyPath} {name : String} (h : Plain p) (plain : IsPlainKey name) : Plain (p.key name)
  | index {p : KeyPath} (h : Plain p) (i : ℕ) : Plain (p.index i)

inductive OfKeys : KeyPath → Prop
  | root : OfKeys root
  | key {p : KeyPath} (h : OfKeys p) (name : String) : OfKeys (p.key name)

def PlainKeys (segments : List Segment) : Prop := ∀ name, .key name ∈ segments → IsPlainKey name

variable {p : KeyPath} {s t : List Segment}

theorem Plain.keys (h : p.Plain) : PlainKeys p.segments := by
  induction h with
  | root => exact fun name hmem => absurd hmem List.not_mem_nil
  | key h plain ih =>
    intro name hmem
    rcases List.mem_append.mp hmem with hmem | hmem
    · exact ih name hmem
    · cases List.mem_singleton.mp hmem
      exact plain
  | index h i ih =>
    intro name hmem
    rcases List.mem_append.mp hmem with hmem | hmem
    · exact ih name hmem
    · cases List.mem_singleton.mp hmem

theorem PlainKeys.tail {x : Segment} (h : PlainKeys (x :: s)) : PlainKeys s :=
  fun name hmem => h name (List.mem_cons_of_mem x hmem)

theorem PlainKeys.head {name : String} (h : PlainKeys (.key name :: s)) : IsPlainKey name :=
  h name List.mem_cons_self

def EndsKey (c : Char) : Prop := c = '.' ∨ c = '['

theorem IsPlainKey.not_endsKey {name : String} (h : IsPlainKey name) :
    ∀ c ∈ name.toList, ¬EndsKey c := by
  rintro c hc (rfl | rfl)
  · exact h.isName.2 hc
  · exact h.unbracketed hc

theorem endsKey_head_furtherText (s : List Segment) :
    ∀ c ∈ (furtherText s).head?, EndsKey c := by
  intro c hc
  cases s with
  | nil => cases hc
  | cons x rest =>
    cases x with
    | key name =>
      cases hc
      exact .inl rfl
    | index i =>
      cases hc
      exact .inr rfl

theorem indexText_cut {i j : ℕ} {r r' : List Char} (h : indexText i ++ r = indexText j ++ r') :
    i = j ∧ r = r' := by
  have hdigits : ∀ n, ∀ c ∈ Nat.toDigits 10 n, ¬c = ']' :=
    fun n c hc => Text.ne_of_class (Decimal.isDigit_toDigits hc) rfl
  simp only [indexText, List.cons_append, List.append_assoc, List.nil_append] at h
  obtain ⟨hij, hr⟩ := Text.cut_unique (hdigits i) (hdigits j) (by simp) (by simp)
    (List.cons.inj h).2
  exact ⟨Decimal.toDigits_injective hij, (List.cons.inj hr).2⟩

theorem furtherText_cons_cut {x y : Segment} (hx : PlainKeys (x :: s)) (hy : PlainKeys (y :: t))
    (h : furtherText (x :: s) = furtherText (y :: t)) : x = y ∧ furtherText s = furtherText t := by
  cases x with
  | key name =>
    cases y with
    | key other =>
      obtain ⟨hname, hrest⟩ := Text.cut_unique hx.head.not_endsKey hy.head.not_endsKey
        (endsKey_head_furtherText s) (endsKey_head_furtherText t) (List.cons.inj h).2
      exact ⟨congrArg Segment.key (String.toList_injective hname), hrest⟩
    | index j => exact absurd (List.cons.inj h).1 (by decide)
  | index i =>
    cases y with
    | key other => exact absurd (List.cons.inj h).1 (by decide)
    | index j =>
      obtain ⟨rfl, hrest⟩ := indexText_cut h
      exact ⟨rfl, hrest⟩

theorem furtherText_ne_nil (x : Segment) (s : List Segment) : furtherText (x :: s) ≠ [] := by
  cases x <;> exact List.cons_ne_nil _ _

theorem furtherText_inj_on (hs : PlainKeys s) (ht : PlainKeys t)
    (h : furtherText s = furtherText t) : s = t := by
  induction s generalizing t with
  | nil =>
    cases t with
    | nil => rfl
    | cons y rest => exact absurd h.symm (furtherText_ne_nil y rest)
  | cons x rest ih =>
    cases t with
    | nil => exact absurd h (furtherText_ne_nil x rest)
    | cons y others =>
      obtain ⟨rfl, hrest⟩ := furtherText_cons_cut hs ht h
      rw [ih hs.tail ht.tail hrest]

def opening : List Segment → String × List Segment
  | [] => ("<document root>", [])
  | .key name :: rest => (name, rest)
  | .index i :: rest => ("", .index i :: rest)

theorem text_eq_opening (s : List Segment) :
    text s = (opening s).1.toList ++ furtherText (opening s).2 := by
  cases s with
  | nil => rfl
  | cons x rest => cases x <;> rfl

theorem not_endsKey_opening (hs : PlainKeys s) : ∀ c ∈ (opening s).1.toList, ¬EndsKey c := by
  cases s with
  | nil =>
    change ∀ c ∈ "<document root>".toList, ¬EndsKey c
    simp [EndsKey]
  | cons x rest =>
    cases x with
    | key name => exact hs.head.not_endsKey
    | index i => exact fun c hc => absurd hc List.not_mem_nil

theorem plainKeys_opening (hs : PlainKeys s) : PlainKeys (opening s).2 := by
  cases s with
  | nil => exact hs
  | cons x rest =>
    cases x with
    | key name => exact hs.tail
    | index i => exact hs

def reopen (first : String × List Segment) : List Segment :=
  if first.1 = "" then first.2
  else if first.1 = "<document root>" then [] else .key first.1 :: first.2

/-- A plain key is neither empty, as what stands before an index, nor the text of the root. -/
theorem reopen_opening (hs : PlainKeys s) : reopen (opening s) = s := by
  cases s with
  | nil => rfl
  | cons x rest =>
    cases x with
    | key name =>
      obtain ⟨hname, -, hroot⟩ := hs.head
      exact (if_neg hname.1).trans (if_neg hroot)
    | index i => rfl

theorem text_inj_on (hs : PlainKeys s) (ht : PlainKeys t) (h : text s = text t) : s = t := by
  rw [text_eq_opening, text_eq_opening] at h
  obtain ⟨hfirst, hrest⟩ := Text.cut_unique (not_endsKey_opening hs) (not_endsKey_opening ht)
    (endsKey_head_furtherText _) (endsKey_head_furtherText _) h
  have hsegments : (opening s).2 = (opening t).2 :=
    furtherText_inj_on (plainKeys_opening hs) (plainKeys_opening ht) hrest
  have hopening : opening s = opening t := Prod.ext (String.toList_injective hfirst) hsegments
  rw [← reopen_opening hs, hopening, reopen_opening ht]

theorem OfKeys.exists_names (h : p.OfKeys) : ∃ names : List String, p = ⟨names.map .key⟩ := by
  induction h with
  | root => exact ⟨[], rfl⟩
  | key h name ih =>
    obtain ⟨names, rfl⟩ := ih
    refine ⟨names ++ [name], ?_⟩
    rw [List.map_append]
    rfl

theorem text_names {names : List String} (hne : names ≠ []) :
    text (names.map .key) = (Text.joined names).toList := by
  induction names with
  | nil => exact absurd rfl hne
  | cons name rest ih =>
    cases rest with
    | nil =>
      change name.toList ++ [] = _
      rw [List.append_nil]
      rfl
    | cons second others =>
      have hfurther : text ((name :: second :: others).map .key) =
          name.toList ++ '.' :: text ((second :: others).map .key) := rfl
      rw [hfurther, ih (List.cons_ne_nil _ _), Text.joined_cons (List.cons_ne_nil _ _)]
      simp

theorem ofText_eq_pieces (dotted : String) :
    ofText dotted = ⟨(Text.pieces dotted).map .key⟩ := by
  rw [ofText, Text.pieces, List.map_map]
  rfl

theorem ofText_render_names {names : List String} (h : Text.AreNames names) (hne : names ≠ []) :
    ofText (render ⟨names.map .key⟩) = ⟨names.map .key⟩ := by
  rw [render, text_names hne, String.ofList_toList, ofText_eq_pieces, Text.pieces_joined h]

theorem render_unambiguous :
    (∀ p q : KeyPath, p.Plain → q.Plain → p.render = q.render → p = q) ∧
      ∀ p : KeyPath, p.Plain → p.OfKeys → p ≠ root → ofText p.render = p := by
  constructor
  · intro p q hp hq h
    have hsegments : p.segments = q.segments :=
      text_inj_on hp.keys hq.keys (String.ofList_injective h)
    cases p
    cases q
    exact congrArg KeyPath.mk hsegments
  · intro p hp hkeys hroot
    obtain ⟨names, rfl⟩ := hkeys.exists_names
    have hnames : Text.AreNames names :=
      fun name hname => (hp.keys name (List.mem_map_of_mem hname)).isName
    apply ofText_render_names hnames
    rintro rfl
    exact hroot rfl

theorem render_unambiguous_lower :
    let table := (root.key "optimization").key "design_variables"
    let lower := (table.index 10).key "lower"
    let same : KeyPath :=
      ⟨[.key "optimization", .key "design_variables", .index 10, .key "lower"]⟩
    same.Plain ∧ lower.Plain ∧ lower.render = "optimization.design_variables[10].lower" ∧
      same.render = lower.render ∧ same = lower ∧
      table.Plain ∧ table.OfKeys ∧ table ≠ root ∧
      ofText "optimization.design_variables" = table := by
  intro table lower same
  have plain {name : String} (h : name ≠ "" ∧ '.' ∉ name.toList ∧ '[' ∉ name.toList ∧
      name ≠ "<document root>") : IsPlainKey name :=
    ⟨⟨h.1, h.2.1⟩, h.2.2.1, h.2.2.2⟩
  have htable : table.Plain := (Plain.root.key (plain (by decide))).key (plain (by decide))
  have hlower : lower.Plain := (htable.index 10).key (plain (by decide))
  have hkeys : table.OfKeys := (OfKeys.root.key _).key _
  have hroot : table ≠ root := by decide
  have hrender : same.render = lower.render := rfl
  exact ⟨hlower, hlower, by decide, hrender, render_unambiguous.1 same lower hlower hlower hrender,
    htable, hkeys, hroot, render_unambiguous.2 table htable hkeys hroot⟩

end KeyPath

end DesignProcess
