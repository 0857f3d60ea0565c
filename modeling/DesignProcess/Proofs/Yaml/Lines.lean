import DesignProcess.Proofs.Yaml.Bare
import DesignProcess.Yaml.Layout

namespace DesignProcess.Yaml.Layout

/-- A layout outside of flow collections, without a token that could still become a key. -/
def settled (c : Cursor) (blocks : List ℕ) (allowed : Bool) (tokens : Array Token) : Layout :=
  ⟨c, blocks, [none], allowed, tokens⟩

/-- A layout behind a token that becomes a key if a colon follows. -/
def offered (c : Cursor) (blocks : List ℕ) (k : Candidate) (tokens : Array Token) : Layout :=
  ⟨c, blocks, [some k], false, tokens⟩

def deepen (column : ℕ) (blocks : List ℕ) : List ℕ :=
  if blocks.head?.all (· < column) then column :: blocks else blocks

def opening (column : ℕ) (blocks : List ℕ) : Array Token :=
  if blocks.head?.all (· < column) then #[.blockMapping] else #[]

variable {r w : List Char} {blocks : List ℕ} {allowed : Bool} {tokens : Array Token}

theorem looksAt_spaces (h : Ready r) {d : Char} (hspace : d ≠ ' ') (hd : isBareChar d = false)
    (n offset line column : ℕ) :
    (⟨List.replicate n ' ' ++ r, offset, line, column⟩ : Cursor).looksAt d = false := by
  cases n with
  | succ n => simp [Cursor.looksAt, Cursor.next, List.replicate_succ, hspace.symm]
  | zero =>
    cases r with
    | nil => rfl
    | cons c r => simp [Cursor.looksAt, Cursor.next, Text.ne_of_class (h c rfl) hd]

theorem next_ready (h : Ready r) {p : Char → Bool} (hp : ∀ c, isBareChar c = true → p c = false)
    (offset line column : ℕ) : (⟨r, offset, line, column⟩ : Cursor).next p = false := by
  cases r with
  | nil => rfl
  | cons c r => exact hp c (h c rfl)

theorem byteLength_spaces (n : ℕ) : Text.byteLength (List.replicate n ' ') = n := by
  induction n with
  | zero => rfl
  | succ n ih =>
    have hsize : ' '.utf8Size = 1 := rfl
    rw [List.replicate_succ, Text.byteLength, ih, hsize, Nat.add_comm]

theorem skipWhile_spaces (h : Ready r) (tabs : Bool) (n offset line column : ℕ) :
    (⟨List.replicate n ' ' ++ r, offset, line, column⟩ : Cursor).skipWhile
        (fun ch => ch == ' ' || (tabs && ch == '\t')) =
      ⟨r, offset + n, line, column + n⟩ := by
  have hspaces : (List.replicate n ' ' ++ r).takeWhile
      (fun ch => ch == ' ' || (tabs && ch == '\t')) = List.replicate n ' ' := by
    rw [List.takeWhile_append_of_pos (by simp)]
    cases r with
    | nil => simp
    | cons c r =>
      have hc := h c rfl
      simp [Text.ne_of_class hc (d := ' ') rfl, Text.ne_of_class hc (d := '\t') rfl]
  rw [Cursor.skipWhile, hspaces, Cursor.skip_append, byteLength_spaces, List.length_replicate]

theorem gap_spaces (h : Ready r) (n fuel offset line column : ℕ) :
    (settled ⟨List.replicate n ' ' ++ r, offset, line, column⟩ blocks allowed tokens).gap
        (fuel + 1) =
      settled ⟨r, offset + n, line, column + n⟩ blocks allowed tokens := by
  have hmark := looksAt_spaces h (d := '\ufeff') (by decide) rfl n offset line column
  have hcomment : (⟨r, offset + n, line, column + n⟩ : Cursor).looksAt '#' = false :=
    looksAt_spaces h (d := '#') (by decide) rfl 0 (offset + n) line (column + n)
  have hbreak := next_ready h
    (fun c hc => (Bool.or_eq_false_iff.mp (isBlankOrBreak_of_isBareChar hc)).2)
    (offset + n) line (column + n)
  unfold gap settled
  simp [hmark, skipWhile_spaces h, hcomment, hbreak, move]

theorem gap_line (h : Ready r) (n fuel offset line column : ℕ) :
    (settled ⟨'\n' :: (List.replicate n ' ' ++ r), offset, line, column⟩ blocks allowed tokens).gap
        (fuel + 2) =
      settled ⟨r, offset + 1 + n, line + 1, n⟩ blocks true tokens := by
  have hnext : (settled ⟨List.replicate n ' ' ++ r, offset + 1, line + 1, 0⟩ blocks true tokens).gap
      (fuel + 1) = settled ⟨r, offset + 1 + n, line + 1, 0 + n⟩ blocks true tokens :=
    gap_spaces h n fuel _ _ _
  rw [Nat.zero_add] at hnext
  rw [← hnext]
  unfold settled
  rw [gap]
  simp [Cursor.looksAt, Cursor.next, Cursor.skipWhile, Cursor.skip, Text.byteLength, isBreak, move,
    Cursor.lineBreak, allowKey, inFlow]
  rfl

theorem insert_size (c : Cursor) (first more : Array Token) (ts : List Token) :
    (settled c blocks allowed (first ++ more)).insert first.size ts =
      settled c blocks allowed (first ++ (ts.toArray ++ more)) := by
  simp [insert, settled]

theorem roll_size (c : Cursor) (first more : Array Token) (column : ℕ) :
    (settled c blocks allowed (first ++ more)).roll column first.size .blockMapping =
      settled c (deepen column blocks) allowed (first ++ (opening column blocks ++ more)) := by
  unfold roll
  rw [insert_size]
  cases blocks with
  | nil =>
    have hdeeper : ¬(column : ℤ) ≤ -1 := by omega
    simp [settled, inFlow, indent, hdeeper, deepen, opening]
  | cons b outer =>
    by_cases h : b < column
    · have hdeeper : ¬column ≤ b := by omega
      simp [settled, inFlow, indent, h, hdeeper, deepen, opening]
    · have hwithin : column ≤ b := by omega
      simp [settled, inFlow, indent, h, hwithin, deepen, opening]

theorem isIndicator_of_alphanum {c : Char} (h : c.isAlphanum = true) : isIndicator c = false := by
  rw [← Bool.not_eq_true]
  intro hin
  simp only [isIndicator, Bool.or_eq_true, List.contains_iff_mem, String.reduceToList,
    List.mem_cons, List.not_mem_nil, or_false, beq_iff_eq] at hin
  obtain (rfl | rfl | rfl | rfl | rfl | rfl | rfl | rfl | rfl | rfl | rfl | rfl | rfl | rfl | rfl |
    rfl | rfl | rfl) | rfl := hin
  all_goals exact absurd h (by decide)

theorem beginsPlain_alphanum {c : Char} (l : Layout) (h : c.isAlphanum = true) :
    l.beginsPlain c = true := by
  have hchar : isBareChar c = true := by simp [isBareChar, isWord, h]
  simp [beginsPlain, isBlankOrBreak_of_isBareChar hchar, isIndicator_of_alphanum h]

theorem token_bare {l : Layout} {ch : Char} (h : IsBare (ch :: w))
    (hrest : l.cursor.rest = ch :: (w ++ r)) : l.token ch = l.plain := by
  obtain ⟨c, w', heq | heq, hc⟩ := h.begins
  · cases heq
    have hne {d : Char} (hd : d.isAlphanum = false) : ch ≠ d := Text.ne_of_class hc hd
    simp [token, hrest, Cursor.marks, hne (d := '%') rfl, hne (d := '-') rfl, hne (d := '.') rfl,
      hne (d := '[') rfl, hne (d := '{') rfl, hne (d := ']') rfl, hne (d := '}') rfl,
      hne (d := ',') rfl, hne (d := '?') rfl, hne (d := ':') rfl, hne (d := '*') rfl,
      hne (d := '&') rfl, hne (d := '!') rfl, hne (d := '|') rfl, hne (d := '>') rfl,
      hne (d := '\'') rfl, hne (d := '"') rfl, beginsPlain_alphanum l hc]
  · cases heq
    have hchar : isBareChar c = true := by simp [isBareChar, isWord, hc]
    have hblank := isBlankOrBreak_of_isBareChar hchar
    have hspace := (Bool.or_eq_false_iff.mp hblank).1
    have hbegins : l.beginsPlain '-' = true := by
      simp [beginsPlain, hrest, hspace]
    simp [token, hrest, Cursor.marks, Cursor.blankAfter, Text.ne_of_class hc (d := '-') rfl, hblank,
      hbegins]

theorem unroll_settled {c : Cursor} (hblocks : ∀ b ∈ blocks.head?, b ≤ c.column)
    (candidate : Option Candidate) :
    (⟨c, blocks, [candidate], allowed, tokens⟩ : Layout).unroll c.column =
      ⟨c, blocks, [candidate], allowed, tokens⟩ := by
  cases blocks with
  | nil => rfl
  | cons b outer =>
    have hb := hblocks b rfl
    simp [unroll, inFlow, closeBlocks, hb]

theorem run_step {l m : Layout} {ch : Char} (hgap : l.gap l.cursor.fuel = m)
    (hstale : m.dropStale = some m) (hunroll : m.unroll m.cursor.column = m)
    (hrest : m.cursor.rest = ch :: r) (fuel : ℕ) :
    run (fuel + 1) l = (m.token ch).bind (run fuel) := by
  simp only [run, hgap, hstale, Option.bind_eq_bind, Option.bind_some, hunroll, hrest]

theorem run_word {l : Layout} {c : Cursor} (hw : IsBare w) (hrest : c.rest = w ++ r)
    (hblocks : ∀ b ∈ blocks.head?, b ≤ c.column)
    (hgap : l.gap l.cursor.fuel = settled c blocks allowed tokens) (fuel : ℕ) :
    run (fuel + 1) l = (settled c blocks allowed tokens).plain.bind (run fuel) := by
  obtain ⟨ch, w, rfl⟩ := List.exists_cons_of_ne_nil hw.ne_nil
  rw [run_step hgap rfl (unroll_settled hblocks none) hrest]
  have htoken : (settled c blocks allowed tokens).token ch = _ := token_bare hw hrest
  rw [htoken]

theorem plain_eq {l m : Layout} {s : Plain.Scalar} (hnote : l.noteCandidate = some m)
    (hcontent : Plain.content? m.inFlow (m.indent + 1).toNat m.cursor = some s) :
    l.plain = some (((m.allowKey s.broken).move s.cursor).emit (.scalar .plain s.text)) := by
  unfold plain
  rw [hnote]
  change (Plain.content? m.inFlow (m.indent + 1).toNat m.cursor).bind _ = _
  rw [hcontent]
  rfl

theorem plain_key (hw : IsBare w) (hr : r.head?.all isBlankOrBreak = true)
    (offset line column : ℕ) :
    let l := settled ⟨w ++ ':' :: r, offset, line, column⟩ blocks true tokens
    l.plain =
      some (offered ⟨':' :: r, offset + w.length, line, column + w.length⟩ blocks
        ⟨l.indent == column, tokens.size, offset, line, column⟩
        (tokens ++ #[.scalar .plain (String.ofList w)])) := by
  intro l
  have hnote : l.noteCandidate = some { l with
      candidates := [some ⟨l.indent == column, tokens.size, offset, line, column⟩] } := rfl
  rw [plain_eq hnote (Plain.content?_before_colon hw hr _ offset line column),
    byteLength_of_isBareChar hw.chars, ← Array.push_eq_append]
  rfl

theorem plain_value {n b : ℕ} {outer : List ℕ} (hw : IsBare w) (hr : Ready r) (hn : n ≤ b)
    (offset line column : ℕ) :
    (settled ⟨w ++ '\n' :: (List.replicate n ' ' ++ r), offset, line, column⟩ (b :: outer) false
        tokens).plain =
      some (settled ⟨r, offset + w.length + 1 + n, line + 1, n⟩ (b :: outer) true
        (tokens.push (.scalar .plain (String.ofList w)))) := by
  let l := settled ⟨w ++ '\n' :: (List.replicate n ' ' ++ r), offset, line, column⟩
    (b :: outer) false tokens
  have hnote : l.noteCandidate = some l := rfl
  have hlimit : n < ((b : ℤ) + 1).toNat := by omega
  rw [plain_eq hnote (Plain.content?_line hw hr hlimit offset line column),
    byteLength_of_isBareChar hw.chars]
  rfl

theorem gap_colon (k : Candidate) (fuel offset line column : ℕ) :
    (offered ⟨':' :: r, offset, line, column⟩ blocks k tokens).gap (fuel + 1) =
      offered ⟨':' :: r, offset, line, column⟩ blocks k tokens := by
  unfold offered
  rw [gap]
  simp [Cursor.looksAt, Cursor.next, Cursor.skipWhile, Cursor.skip, Text.byteLength, isBreak, move]

theorem token_colon {l : Layout} (hrest : l.cursor.rest = ':' :: r)
    (hr : r.head?.all isBlankOrBreak = true) : l.token ':' = l.value := by
  simp [token, hrest, Cursor.marks, Cursor.blankAfter, hr]

theorem value_candidate (required : Bool) (start first offset line column : ℕ) (t : Token) :
    (offered ⟨':' :: r, offset, line, column⟩ blocks ⟨required, tokens.size, start, line, first⟩
        (tokens ++ #[t])).value =
      some (settled ⟨r, offset + 1, line, column + 1⟩ (deepen first blocks) false
        (tokens ++ (opening first blocks ++ #[.key, t, .value]))) := by
  let colon : Cursor := ⟨':' :: r, offset, line, column⟩
  let l := settled colon blocks false (tokens ++ #[t])
  change some ((((l.insert tokens.size [.key]).roll first tokens.size .blockMapping).allowKey
    false).pass 1 .value) = _
  rw [insert_size, roll_size]
  simp [colon, allowKey, pass, emit, move, settled, Cursor.skip, Text.byteLength]
  rfl

theorem run_colon (required : Bool) {start first offset line column : ℕ} (t : Token)
    (hoffset : offset ≤ start + 1024) (hcolumn : ∀ b ∈ blocks.head?, b ≤ column)
    (hr : r.head?.all isBlankOrBreak = true) (fuel : ℕ) :
    run (fuel + 1) (offered ⟨':' :: r, offset, line, column⟩ blocks
        ⟨required, tokens.size, start, line, first⟩ (tokens ++ #[t])) =
      run fuel (settled ⟨r, offset + 1, line, column + 1⟩ (deepen first blocks) false
        (tokens ++ (opening first blocks ++ #[.key, t, .value]))) := by
  let l := offered ⟨':' :: r, offset, line, column⟩ blocks
    ⟨required, tokens.size, start, line, first⟩ (tokens ++ #[t])
  have hstale : l.dropStale = some l := by
    simp [l, offered, dropStale, Candidate.isStale, Nat.not_lt.mpr hoffset]
  rw [run_step (gap_colon _ _ _ _ _) hstale (unroll_settled hcolumn _) rfl, token_colon rfl hr,
    value_candidate, Option.bind_some]

theorem run_key {l : Layout} {offset line column : ℕ} (hw : IsBare w) (hshort : w.length ≤ 1024)
    (hr : r.head?.all isBlankOrBreak = true) (hblocks : ∀ b ∈ blocks.head?, b ≤ column)
    (hgap : l.gap l.cursor.fuel =
      settled ⟨w ++ ':' :: r, offset, line, column⟩ blocks true tokens) (fuel : ℕ) :
    run (fuel + 2) l =
      run fuel (settled ⟨r, offset + w.length + 1, line, column + w.length + 1⟩
        (deepen column blocks) false
        (tokens ++ (opening column blocks ++
          #[.key, .scalar .plain (String.ofList w), .value]))) := by
  have hbehind : ∀ b ∈ blocks.head?, b ≤ column + w.length :=
    fun b hb => (hblocks b hb).trans (Nat.le_add_right _ _)
  rw [run_word hw rfl hblocks hgap, plain_key hw hr, Option.bind_some]
  exact run_colon _ _ (by omega) hbehind hr fuel

theorem gap_ready (h : Ready r) (fuel offset line column : ℕ) :
    (settled ⟨r, offset, line, column⟩ blocks allowed tokens).gap (fuel + 1) =
      settled ⟨r, offset, line, column⟩ blocks allowed tokens :=
  gap_spaces h 0 fuel offset line column

theorem run_value {column b n offset line : ℕ} {outer : List ℕ} (hw : IsBare w) (hr : Ready r)
    (hcolumn : b ≤ column) (hn : n ≤ b) (fuel : ℕ) :
    run (fuel + 1) (settled
        ⟨' ' :: (w ++ '\n' :: (List.replicate n ' ' ++ r)), offset, line, column⟩ (b :: outer) false
          tokens) =
      run fuel (settled ⟨r, offset + 1 + w.length + 1 + n, line + 1, n⟩ (b :: outer) true
        (tokens ++ #[.scalar .plain (String.ofList w)])) := by
  have hblocks : ∀ d ∈ (b :: outer).head?, d ≤ column + 1 := by
    intro d hd
    cases hd
    omega
  let l := settled ⟨' ' :: (w ++ '\n' :: (List.replicate n ' ' ++ r)), offset, line, column⟩
    (b :: outer) false tokens
  have hgap : l.gap l.cursor.fuel = settled
      ⟨w ++ '\n' :: (List.replicate n ' ' ++ r), offset + 1, line, column + 1⟩ (b :: outer) false
        tokens := gap_spaces (hw.ready_append _) 1 _ _ _ _
  rw [run_word hw rfl hblocks hgap, plain_value hw hr hn, Option.bind_some, Array.push_eq_append]

structure IsBareEntry (entry : List Char × List Char) : Prop where
  key : IsBare entry.1
  short : entry.1.length ≤ 1024
  value : IsBare entry.2

def entryTokens (entries : List (List Char × List Char)) : List Token :=
  entries.flatMap fun (k, v) =>
    [.key, .scalar .plain (String.ofList k), .value, .scalar .plain (String.ofList v)]

theorem run_entry {l : Layout} {k v : List Char} {n offset line column : ℕ} {outer : List ℕ}
    (he : IsBareEntry (k, v)) (hr : Ready r) (hblocks : ∀ b ∈ blocks.head?, b ≤ column)
    (hdeepen : deepen column blocks = column :: outer) (hn : n ≤ column)
    (hgap : l.gap l.cursor.fuel = settled
      ⟨k ++ ':' :: ' ' :: (v ++ '\n' :: (List.replicate n ' ' ++ r)), offset, line, column⟩ blocks
        true tokens) (fuel : ℕ) :
    ∃ offset', run (fuel + 3) l = run fuel (settled ⟨r, offset', line + 1, n⟩ (column :: outer) true
      (tokens ++ (opening column blocks ++ (entryTokens [(k, v)]).toArray))) := by
  refine ⟨offset + k.length + 1 + 1 + v.length + 1 + n, ?_⟩
  rw [run_key he.key he.short rfl hblocks hgap (fuel + 1), hdeepen,
    run_value he.value hr (by omega) hn]
  simp [entryTokens]

def entryLines (column : ℕ) : List (List Char × List Char) → List Char
  | [] => []
  | (k, v) :: rest =>
    k ++ ':' :: ' ' :: (v ++ '\n' ::
      (List.replicate (if rest.isEmpty then 0 else column) ' ' ++ entryLines column rest))

variable {entries : List (List Char × List Char)}

theorem ready_entryLines (h : ∀ e ∈ entries, IsBareEntry e) (column : ℕ) :
    Ready (entryLines column entries) := by
  cases entries with
  | nil => exact fun c hc => nomatch hc
  | cons e rest => exact (h e List.mem_cons_self).key.ready_append _

theorem run_entries (h : ∀ e ∈ entries, IsBareEntry e) (column : ℕ) (outer : List ℕ)
    (tokens : Array Token) (fuel offset line : ℕ) :
    ∃ offset' line',
      run (fuel + 3 * entries.length) (settled
          ⟨entryLines column entries, offset, line, if entries.isEmpty then 0 else column⟩
          (column :: outer) true tokens) =
        run fuel (settled ⟨[], offset', line', 0⟩ (column :: outer) true
          (tokens ++ (entryTokens entries).toArray)) := by
  induction entries generalizing offset line tokens with
  | nil => exact ⟨offset, line, by simp [entryTokens, entryLines]⟩
  | cons e rest ih =>
    obtain ⟨he, hrest⟩ := List.forall_mem_cons.mp h
    obtain ⟨k, v⟩ := e
    have hwithin : opening column (column :: outer) = #[] := by simp [opening]
    have hdeepen : deepen column (column :: outer) = column :: outer := by simp [deepen]
    have hblocks : ∀ b ∈ (column :: outer).head?, b ≤ column := by simp
    have hnext : (if rest.isEmpty then 0 else column) ≤ column := by split <;> omega
    let l := settled ⟨entryLines column ((k, v) :: rest), offset, line, column⟩
      (column :: outer) true tokens
    have hgap : l.gap l.cursor.fuel = l := gap_ready (he.key.ready_append _) _ _ _ _
    obtain ⟨offset₁, hentry⟩ := run_entry he (ready_entryLines hrest column) hblocks hdeepen hnext
      hgap (fuel + 3 * rest.length)
    obtain ⟨offset', line', hrun⟩ :=
      ih hrest (tokens ++ (entryTokens [(k, v)]).toArray) offset₁ (line + 1)
    rw [hwithin, Array.empty_append] at hentry
    refine ⟨offset', line', hentry.trans (hrun.trans ?_)⟩
    simp [entryTokens]

theorem run_end (offset line column fuel : ℕ) :
    run (fuel + 1) (settled ⟨[], offset, line, 0⟩ [column + 1, 0] true tokens) =
      some (tokens ++ #[.blockEnd, .blockEnd, .streamEnd]) := by
  let l := settled ⟨[], offset, line, 0⟩ [column + 1, 0] true tokens
  have hgap : l.gap 1 = l := gap_ready (by simp [Ready]) 0 _ _ _
  rw [run]
  change Option.bind (l.gap 1).dropStale _ = _
  rw [hgap]
  simp [l, dropStale, settled, unroll, inFlow, closeBlocks, emit, streamEnd, outside, dropCandidate,
    allowKey]
  rw [Array.push_eq_append, Array.push_eq_append, Array.push_eq_append, Array.append_assoc,
    Array.append_assoc]
  rfl

def nestedLines (name : List Char) (indent : ℕ) (entries : List (List Char × List Char)) :
    List Char :=
  name ++ ':' :: '\n' :: (List.replicate indent ' ' ++ entryLines indent entries)

def nestedTokens (name : List Char) (entries : List (List Char × List Char)) : List Token :=
  [.blockMapping, .key, .scalar .plain (String.ofList name), .value, .blockMapping] ++
    entryTokens entries ++ [.blockEnd, .blockEnd, .streamEnd]

theorem run_nested {name : List Char} (hname : IsBare name) (hshort : name.length ≤ 1024)
    (h : ∀ e ∈ entries, IsBareEntry e) (hne : entries ≠ []) (n fuel : ℕ) :
    run (fuel + 3 * entries.length + 3) (ofText (nestedLines name (n + 1) entries)) =
      some (nestedTokens name entries).toArray := by
  obtain ⟨⟨k, v⟩, rest, rfl⟩ := List.exists_cons_of_ne_nil hne
  obtain ⟨he, hrest⟩ := List.forall_mem_cons.mp h
  have hready := ready_entryLines h (n + 1)
  have hnext : (if rest.isEmpty then 0 else n + 1) ≤ n + 1 := by split <;> omega
  have hfuel : fuel + 3 * ((k, v) :: rest).length + 3 = fuel + 1 + 3 * rest.length + 3 + 2 := by
    rw [List.length_cons]
    omega
  have hblocks : ∀ b ∈ [0].head?, b ≤ n + 1 := by simp
  let opened : Array Token := #[.blockMapping, .key, .scalar .plain (String.ofList name), .value]
  let l := settled ⟨'\n' :: (List.replicate (n + 1) ' ' ++ entryLines (n + 1) ((k, v) :: rest)),
    0 + name.length + 1, 0, 0 + name.length + 1⟩ [0] false opened
  have hgap : l.gap l.cursor.fuel = settled ⟨entryLines (n + 1) ((k, v) :: rest),
      0 + name.length + 1 + 1 + (n + 1), 0 + 1, n + 1⟩ [0] true opened := gap_line hready _ _ _ _ _
  obtain ⟨offset₁, hentry⟩ := run_entry he (ready_entryLines hrest (n + 1)) hblocks rfl hnext hgap
    (fuel + 1 + 3 * rest.length)
  obtain ⟨offset₂, line₂, hrun⟩ := run_entries hrest (n + 1) [0]
    (opened ++ (opening (n + 1) [0] ++ (entryTokens [(k, v)]).toArray)) (fuel + 1) offset₁ 2
  have hstart : (ofText (nestedLines name (n + 1) ((k, v) :: rest))).gap
      (ofText (nestedLines name (n + 1) ((k, v) :: rest))).cursor.fuel =
      settled ⟨nestedLines name (n + 1) ((k, v) :: rest), 0, 0, 0⟩ [] true #[] :=
    gap_ready (hname.ready_append _) _ 0 0 0
  rw [hfuel, run_key hname hshort rfl (by simp) hstart]
  refine (hentry.trans (hrun.trans (run_end offset₂ line₂ n fuel))).trans ?_
  simp [opened, entryTokens, opening, nestedTokens]

theorem isPrintable_spaces (n : ℕ) : ∀ c ∈ List.replicate n ' ', isPrintable c = true := by
  intro c hc
  rw [List.eq_of_mem_replicate hc]
  rfl

theorem isPrintable_entryLines (h : ∀ e ∈ entries, IsBareEntry e) (column : ℕ) :
    ∀ c ∈ entryLines column entries, isPrintable c = true := by
  induction entries with
  | nil => exact fun c hc => nomatch hc
  | cons e rest ih =>
    obtain ⟨he, hrest⟩ := List.forall_mem_cons.mp h
    simp only [entryLines, List.forall_mem_append, List.forall_mem_cons]
    exact ⟨he.key.isPrintable, rfl, rfl, he.value.isPrintable, rfl, isPrintable_spaces _, ih hrest⟩

theorem le_length_entryLines (entries : List (List Char × List Char)) (column : ℕ) :
    3 * entries.length ≤ (entryLines column entries).length := by
  induction entries with
  | nil => exact Nat.zero_le _
  | cons e rest ih =>
    simp only [entryLines, List.length_cons, List.length_append]
    omega

theorem tokens?_nestedLines {name : List Char} (hname : IsBare name) (hshort : name.length ≤ 1024)
    (h : ∀ e ∈ entries, IsBareEntry e) (hne : entries ≠ []) (n : ℕ) :
    tokens? (String.ofList (nestedLines name (n + 1) entries)) =
      some (nestedTokens name entries).toArray := by
  have hprintable : (nestedLines name (n + 1) entries).all isPrintable = true := by
    rw [List.all_eq_true]
    simp only [nestedLines, List.forall_mem_append, List.forall_mem_cons]
    exact ⟨hname.isPrintable, rfl, rfl, isPrintable_spaces _, isPrintable_entryLines h _⟩
  have hlength : 3 * entries.length + 1 ≤ (nestedLines name (n + 1) entries).length := by
    have := le_length_entryLines entries (n + 1)
    simp only [nestedLines, List.length_cons, List.length_append]
    omega
  obtain ⟨fuel, hfuel⟩ := Nat.exists_eq_add_of_le hlength
  have hsum : 3 * entries.length + 1 + fuel + 2 = fuel + 3 * entries.length + 3 := by omega
  rw [tokens?, String.toList_ofList, if_pos hprintable, hfuel, hsum]
  exact run_nested hname hshort h hne n fuel

end DesignProcess.Yaml.Layout
