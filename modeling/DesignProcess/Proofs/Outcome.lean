namespace Except

variable {ε α β : Type}

theorem bind_eq_ok_iff {x : Except ε α} {f : α → Except ε β} {b : β} :
    x >>= f = .ok b ↔ ∃ a, x = .ok a ∧ f a = .ok b := by
  cases x with
  | error e => simp [bind, Except.bind]
  | ok a => simp [bind, Except.bind]

theorem bind_eq_error_iff {x : Except ε α} {f : α → Except ε β} {e : ε} :
    x >>= f = .error e ↔ x = .error e ∨ ∃ a, x = .ok a ∧ f a = .error e := by
  cases x with
  | error e => simp [bind, Except.bind]
  | ok a => simp [bind, Except.bind]

theorem map_eq_ok_iff {x : Except ε α} {f : α → β} {b : β} :
    x.map f = .ok b ↔ ∃ a, x = .ok a ∧ f a = b := by
  cases x with
  | error e => simp [Except.map]
  | ok a => simp [Except.map]

theorem map_eq_ok_iff_of {x : Except ε α} {p : Prop} {a : α} (h : ∀ b, x = .ok b ↔ p ∧ b = a)
    {f : α → β} {b : β} : x.map f = .ok b ↔ p ∧ b = f a := by
  rw [map_eq_ok_iff]
  constructor
  · rintro ⟨a', ha', rfl⟩
    obtain ⟨hp, rfl⟩ := (h a').mp ha'
    exact ⟨hp, rfl⟩
  · rintro ⟨hp, rfl⟩
    exact ⟨a, (h a).mpr ⟨hp, rfl⟩, rfl⟩

theorem map_eq_error_iff {x : Except ε α} {f : α → β} {e : ε} :
    x.map f = .error e ↔ x = .error e := by
  cases x with
  | error e => simp [Except.map]
  | ok a => simp [Except.map]

theorem mapError_error {δ : Type} (f : ε) (g : ε → δ) :
    (error f : Except ε α).mapError g = .error (g f) := rfl

theorem mapError_ok {δ : Type} (a : α) (g : ε → δ) :
    (ok a : Except ε α).mapError g = .ok a := rfl

theorem mapError_eq_ok_iff {δ : Type} {x : Except ε α} {g : ε → δ} {a : α} :
    x.mapError g = .ok a ↔ x = .ok a := by
  cases x with
  | error e => simp [mapError_error]
  | ok a => simp [mapError_ok]

theorem mapError_eq_error_iff {δ : Type} {x : Except ε α} {g : ε → δ} {e : δ} :
    x.mapError g = .error e ↔ ∃ f, x = .error f ∧ g f = e := by
  cases x with
  | error f => simp [mapError_error]
  | ok a => simp [mapError_ok]

theorem ends_iff {x : Except ε α} {p : Prop} {a : α} {fault : ε → Prop} (hok : p → x = .ok a)
    (herror : ∀ e, fault e → x = .error e) (h : p ∨ ∃ e, fault e) :
    (∀ b, x = .ok b ↔ p ∧ b = a) ∧ ∀ e, x = .error e ↔ fault e := by
  rcases h with hp | ⟨e₀, he₀⟩
  · have hx := hok hp
    constructor
    · intro b
      simp [hx, hp, eq_comm]
    · intro e
      apply iff_of_false
      · simp [hx]
      · intro he
        rw [herror e he] at hx
        cases hx
  · have hx := herror e₀ he₀
    constructor
    · intro b
      apply iff_of_false
      · simp [hx]
      · rintro ⟨hp, -⟩
        rw [hok hp] at hx
        cases hx
    · intro e
      constructor
      · intro he
        rw [hx] at he
        cases he
        exact he₀
      · exact herror e

theorem mapM_eq_ok_iff_of {f : α → Except ε β} {p : α → Prop} {g : α → β}
    (h : ∀ a b, f a = .ok b ↔ p a ∧ b = g a) {as : List α} {bs : List β} :
    as.mapM f = .ok bs ↔ (∀ a ∈ as, p a) ∧ bs = as.map g := by
  induction as generalizing bs with
  | nil => simp [pure, Except.pure, eq_comm]
  | cons a rest ih =>
    rw [List.mapM_cons, bind_eq_ok_iff]
    constructor
    · rintro ⟨b, hb, hrest⟩
      obtain ⟨cs, hcs, heq⟩ := bind_eq_ok_iff.mp hrest
      cases heq
      obtain ⟨ha, rfl⟩ := (h a b).mp hb
      obtain ⟨hall, rfl⟩ := ih.mp hcs
      exact ⟨List.forall_mem_cons.mpr ⟨ha, hall⟩, rfl⟩
    · rintro ⟨hall, rfl⟩
      obtain ⟨ha, hrest⟩ := List.forall_mem_cons.mp hall
      exact ⟨g a, (h a _).mpr ⟨ha, rfl⟩, bind_eq_ok_iff.mpr ⟨_, ih.mpr ⟨hrest, rfl⟩, rfl⟩⟩

theorem mapM_succeeds_iff {f : α → Except ε β} {as : List α} :
    (∃ bs, as.mapM f = .ok bs) ↔ ∀ a ∈ as, ∃ b, f a = .ok b := by
  induction as with
  | nil => simp [pure, Except.pure]
  | cons a rest ih =>
    rw [List.forall_mem_cons, ← ih, List.mapM_cons]
    simp only [bind_eq_ok_iff]
    constructor
    · rintro ⟨_, b, hb, bs, hbs, -⟩
      exact ⟨⟨b, hb⟩, bs, hbs⟩
    · rintro ⟨⟨b, hb⟩, bs, hbs⟩
      exact ⟨b :: bs, b, hb, bs, hbs, rfl⟩

theorem mapM_eq_error_iff {f : α → Except ε β} {as : List α} {e : ε} :
    as.mapM f = .error e ↔ ∃ before a after, as = before ++ a :: after ∧
      (∀ b ∈ before, ∃ c, f b = .ok c) ∧ f a = .error e := by
  induction as with
  | nil => simp [pure, Except.pure]
  | cons a rest ih =>
    rw [List.mapM_cons, bind_eq_error_iff]
    constructor
    · rintro (ha | ⟨b, hb, h⟩)
      · exact ⟨[], a, rest, rfl, List.forall_mem_nil _, ha⟩
      · rcases bind_eq_error_iff.mp h with hrest | ⟨bs, -, h⟩
        · obtain ⟨before, a', after, rfl, hbefore, ha'⟩ := ih.mp hrest
          exact ⟨a :: before, a', after, rfl, List.forall_mem_cons.mpr ⟨⟨b, hb⟩, hbefore⟩, ha'⟩
        · cases h
    · rintro ⟨before, a', after, hsplit, hbefore, ha'⟩
      cases before with
      | nil =>
        cases hsplit
        exact .inl ha'
      | cons first before =>
        cases hsplit
        obtain ⟨⟨b, hb⟩, hbefore⟩ := List.forall_mem_cons.mp hbefore
        have hrest := ih.mpr ⟨before, a', after, rfl, hbefore, ha'⟩
        exact .inr ⟨b, hb, bind_eq_error_iff.mpr (.inl hrest)⟩

theorem mapM_eq_error_iff_of {f : α → Except ε β} {p : α → Prop} {g : α → β}
    {fault : α → ε → Prop} (hok : ∀ a b, f a = .ok b ↔ p a ∧ b = g a)
    (herror : ∀ a e, f a = .error e ↔ fault a e) {as : List α} {e : ε} :
    as.mapM f = .error e ↔ ∃ before a after, as = before ++ a :: after ∧
      (∀ b ∈ before, p b) ∧ fault a e := by
  have hp (a : α) : (∃ b, f a = .ok b) ↔ p a := by
    simp only [hok, exists_and_left, exists_eq, and_true]
  rw [mapM_eq_error_iff]
  simp only [hp, herror]

theorem foldlM_map_eq {γ : Type} (f : α → Except ε β) (add : γ → β → γ) (as : List α) (c : γ) :
    as.foldlM (fun c a => (f a).map (add c)) c = (as.mapM f).map fun bs => bs.foldl add c := by
  induction as generalizing c with
  | nil => rfl
  | cons a rest ih =>
    rw [List.foldlM_cons, List.mapM_cons]
    cases f a with
    | error e => rfl
    | ok b =>
      change rest.foldlM (fun c a => (f a).map (add c)) (add c b) = _
      rw [ih]
      cases rest.mapM f <;> rfl

theorem option_mapM_some (f : α → Except ε β) (a : α) : (some a).mapM f = (f a).map some := rfl

theorem option_mapM_eq_error_iff {f : α → Except ε β} {o : Option α} {e : ε} :
    o.mapM f = .error e ↔ ∃ a, o = some a ∧ f a = .error e := by
  cases o with
  | none => simp [pure, Except.pure]
  | some a =>
    rw [option_mapM_some, map_eq_error_iff]
    simp

theorem option_mapM_succeeds_iff {f : α → Except ε β} {o : Option α} :
    (∃ r, o.mapM f = .ok r) ↔ ∀ a, o = some a → ∃ b, f a = .ok b := by
  cases o with
  | none => simp [pure, Except.pure]
  | some a =>
    rw [option_mapM_some]
    constructor
    · rintro ⟨r, hr⟩ a' ha'
      obtain ⟨b, hb, -⟩ := map_eq_ok_iff.mp hr
      cases ha'
      exact ⟨b, hb⟩
    · intro h
      obtain ⟨b, hb⟩ := h a rfl
      exact ⟨some b, map_eq_ok_iff.mpr ⟨b, hb, rfl⟩⟩

theorem of_option_mapM_eq_some {f : α → Except ε β} {o : Option α} {b : β}
    (h : o.mapM f = .ok (some b)) : ∃ a, o = some a ∧ f a = .ok b := by
  cases o with
  | none => cases h
  | some a =>
    obtain ⟨_, hb, heq⟩ := map_eq_ok_iff.mp h
    cases heq
    exact ⟨a, rfl, hb⟩

theorem option_mapM_isSome {f : α → Except ε β} {o : Option α} {r : Option β}
    (h : o.mapM f = .ok r) : r.isSome = o.isSome := by
  cases o with
  | none =>
    cases h
    rfl
  | some a =>
    obtain ⟨b, -, rfl⟩ := map_eq_ok_iff.mp h
    rfl

end Except
