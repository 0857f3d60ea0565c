import DesignProcess.Proofs.Yaml.Lines
import DesignProcess.Yaml.Value

namespace DesignProcess.Yaml

open Layout (IsBareEntry entryTokens nestedLines nestedTokens)

namespace Node

def bare (w : List Char) : Node := .scalar ⟨none, none⟩ .plain (String.ofList w)

def bareEntries (entries : List (List Char × List Char)) : List (Node × Node) :=
  entries.map fun (k, v) => (bare k, bare v)

variable {tokens : List Token} {anchors : List (String × ℕ)} {handles : List (String × Tag)}

theorem blockEntries_cons (fuel : ℕ) (k v : List Char) :
    blockEntries (fuel + 4) ⟨entryTokens [(k, v)] ++ tokens, anchors, handles⟩ =
      (blockEntries (fuel + 3) ⟨tokens, anchors, handles⟩).map fun (es, s) =>
        ((bare k, bare v) :: es, s) := by
  change (blockEntries (fuel + 3) ⟨tokens, anchors, handles⟩).bind _ = _
  cases blockEntries (fuel + 3) ⟨tokens, anchors, handles⟩ <;> rfl

theorem blockEntries_entryTokens (entries : List (List Char × List Char)) (fuel : ℕ) :
    blockEntries (fuel + entries.length + 3)
        ⟨entryTokens entries ++ .blockEnd :: tokens, anchors, handles⟩ =
      some (bareEntries entries, ⟨tokens, anchors, handles⟩) := by
  induction entries with
  | nil => rfl
  | cons e rest ih =>
    have hsplit : entryTokens (e :: rest) ++ .blockEnd :: tokens =
        entryTokens [(e.1, e.2)] ++ (entryTokens rest ++ .blockEnd :: tokens) := by
      simp [entryTokens]
    have hfuel : fuel + (e :: rest).length + 3 = fuel + rest.length + 4 := by
      rw [List.length_cons]
      omega
    rw [hsplit, hfuel, blockEntries_cons, ih]
    rfl

theorem node_blockMapping {place : Place} (hplace : place ≠ .flow) (fuel : ℕ) :
    node (fuel + 2) place ⟨.blockMapping :: tokens, anchors, handles⟩ =
      (blockEntries fuel ⟨tokens, anchors, handles⟩).map fun (es, s) =>
        (.mapping ⟨none, none⟩ es, s) := by
  cases place with
  | flow => exact absurd rfl hplace
  | block | entry =>
    change (blockEntries fuel ⟨tokens, anchors, handles⟩).bind _ = _
    cases blockEntries fuel ⟨tokens, anchors, handles⟩ <;> rfl

def nested (name : List Char) (entries : List (List Char × List Char)) : Node :=
  .mapping ⟨none, none⟩ [(bare name, .mapping ⟨none, none⟩ (bareEntries entries))]

theorem blockEntries_key (fuel : ℕ) (name : List Char) :
    blockEntries (fuel + 4) ⟨.key :: .scalar .plain (String.ofList name) :: .value ::
        .blockMapping :: tokens, anchors, handles⟩ =
      (node (fuel + 2) .entry ⟨.blockMapping :: tokens, anchors, handles⟩).bind fun (v, s) =>
        (blockEntries (fuel + 3) s).map fun (es, s) => ((bare name, v) :: es, s) := by
  change ((node (fuel + 2) .entry ⟨.blockMapping :: tokens, anchors, handles⟩).bind _) = _
  cases node (fuel + 2) .entry ⟨.blockMapping :: tokens, anchors, handles⟩ with
  | none => rfl
  | some found =>
    change (blockEntries (fuel + 3) found.2).bind _ = (blockEntries (fuel + 3) found.2).map _
    cases blockEntries (fuel + 3) found.2 <;> rfl

theorem node_nested (name : List Char) (entries : List (List Char × List Char)) (fuel : ℕ) :
    node (fuel + entries.length + 9) .block ⟨nestedTokens name entries, anchors, handles⟩ =
      some (nested name entries, ⟨[.streamEnd], anchors, handles⟩) := by
  have hinner : node (fuel + entries.length + 3 + 2) .entry ⟨.blockMapping ::
      (entryTokens entries ++ .blockEnd :: [.blockEnd, .streamEnd]), anchors, handles⟩ =
      some (.mapping ⟨none, none⟩ (bareEntries entries),
        ⟨[.blockEnd, .streamEnd], anchors, handles⟩) := by
    rw [node_blockMapping (by decide), blockEntries_entryTokens]
    rfl
  have htokens : nestedTokens name entries = .blockMapping :: .key ::
      .scalar .plain (String.ofList name) :: .value :: .blockMapping ::
        (entryTokens entries ++ .blockEnd :: [.blockEnd, .streamEnd]) := by
    simp [nestedTokens]
  rw [htokens, node_blockMapping (by decide) (fuel + entries.length + 3 + 4), blockEntries_key,
    hinner]
  rfl

theorem document_nested (name : List Char) (entries : List (List Char × List Char)) (fuel : ℕ) :
    document (fuel + entries.length + 9) ⟨nestedTokens name entries, [], []⟩ =
      some (nested name entries, ⟨[], [], defaultHandles⟩) := by
  change ((node (fuel + entries.length + 9) .block
    ⟨nestedTokens name entries, [], defaultHandles⟩).bind _) = _
  rw [node_nested]
  rfl

end Node

variable {entries : List (List Char × List Char)} {name : List Char}

theorem Tree.ofText?_nestedLines (hname : IsBare name) (hshort : name.length ≤ 1024)
    (h : ∀ e ∈ entries, IsBareEntry e) (hne : entries ≠ []) (n : ℕ) :
    Tree.ofText? (String.ofList (nestedLines name (n + 1) entries)) =
      some ⟨Node.nested name entries, (Node.nested name entries).anchored⟩ := by
  have hlength : entries.length + 9 ≤ 6 * (nestedTokens name entries).toArray.size + 6 := by
    simp [nestedTokens, entryTokens]
    omega
  obtain ⟨fuel, hfuel⟩ := Nat.exists_eq_add_of_le' hlength
  unfold Tree.ofText?
  rw [Layout.tokens?_nestedLines hname hshort h hne n]
  change (Node.document (6 * (nestedTokens name entries).toArray.size + 6)
    ⟨nestedTokens name entries, [], []⟩).bind _ = _
  rw [hfuel, ← Nat.add_assoc, Node.document_nested]
  rfl

theorem Tree.value_bare (t : Tree) (depth count : ℕ) (w : List Char) :
    t.value depth (Node.bare w) count = (Look.plain? w).map fun v => (v, count) := by
  have hlook : Look.value? none .plain (String.ofList w) = Look.plain? w := by
    change Look.plain? (String.ofList w).toList = _
    rw [String.toList_ofList]
  cases depth with
  | zero | succ depth =>
    change (Look.value? none .plain (String.ofList w)).map _ = _
    rw [hlook]
    rfl

theorem Tree.value_mapping (t : Tree) (depth count : ℕ) (entries : List (Node × Node)) :
    t.value (depth + 1) (.mapping ⟨none, none⟩ entries) count =
      (entries.foldlM (addEntry (t.value depth)) [] count).map fun (es, count) =>
        (.mapping es, count) := by
  change (entries.foldlM (addEntry (t.value depth)) [] count).bind _ = _
  cases entries.foldlM (addEntry (t.value depth)) [] count <;> rfl

theorem Tree.addEntry_of_key (value : Node → Counted Value) {k : Node} {x : Value} (v : Node)
    {count : ℕ} {found : List (Value × Value)} (hk : value k count = some (x, count))
    (hnew : ∀ p ∈ found, p.1.sameKey x = false) :
    addEntry value found (k, v) count =
      (value v count).map fun (y, count) => (found ++ [(x, y)], count) := by
  have hany : (found.any fun p => p.1.sameKey x) = false := by
    simpa using hnew
  change (value k count).bind _ = _
  rw [hk]
  change (if (found.any fun p => p.1.sameKey x) = true then _ else _ : Counted _) count = _
  rw [hany]
  change (value v count).bind _ = _
  cases value v count <;> rfl

def denote? : List (List Char × List Char) → Option (List (Value × Value))
  | [] => some []
  | (k, v) :: rest =>
    (Look.plain? v).bind fun x => (denote? rest).map ((.string (String.ofList k), x) :: ·)

structure HasStringKeys (entries : List (List Char × List Char)) : Prop where
  string : ∀ e ∈ entries, Look.plain? e.1 = some (.string (String.ofList e.1))
  nodup : (entries.map (·.1)).Nodup

theorem HasStringKeys.tail {e : List Char × List Char} (h : HasStringKeys (e :: entries)) :
    HasStringKeys entries :=
  ⟨fun d hd => h.string d (List.mem_cons_of_mem _ hd), (List.nodup_cons.mp h.nodup).2⟩

theorem sameKey_string {k l : List Char} (h : k ≠ l) :
    (Value.string (String.ofList k)).sameKey (.string (String.ofList l)) = false := by
  have hne : String.ofList k ≠ String.ofList l := fun heq => h (String.ofList_inj.mp heq)
  simp [Value.sameKey, hne]

theorem Tree.foldlM_bareEntries (t : Tree) (depth count : ℕ) (found : List (Value × Value))
    (h : HasStringKeys entries)
    (hnew : ∀ e ∈ entries, ∀ p ∈ found, p.1.sameKey (.string (String.ofList e.1)) = false) :
    (Node.bareEntries entries).foldlM (addEntry (t.value depth)) found count =
      (denote? entries).map fun es => (found ++ es, count) := by
  induction entries generalizing found with
  | nil => simp [Node.bareEntries, denote?, pure, StateT.pure]
  | cons e rest ih =>
    obtain ⟨k, v⟩ := e
    have hkey : t.value depth (Node.bare k) count = some (.string (String.ofList k), count) := by
      rw [Tree.value_bare, h.string _ List.mem_cons_self]
      rfl
    have hfresh := hnew (k, v) List.mem_cons_self
    change ((addEntry (t.value depth) found (Node.bare k, Node.bare v) count).bind fun (f, c) =>
      (Node.bareEntries rest).foldlM (addEntry (t.value depth)) f c) = _
    rw [Tree.addEntry_of_key _ _ hkey hfresh, Tree.value_bare, denote?]
    cases Look.plain? v with
    | none => rfl
    | some y =>
      have hnext : ∀ e ∈ rest, ∀ p ∈ found ++ [(Value.string (String.ofList k), y)],
          p.1.sameKey (.string (String.ofList e.1)) = false := by
        intro e he p hp
        rcases List.mem_append.mp hp with hp | hp
        · exact hnew e (List.mem_cons_of_mem _ he) p hp
        · rw [List.mem_singleton.mp hp]
          apply sameKey_string
          rintro rfl
          exact (List.nodup_cons.mp h.nodup).1 (List.mem_map.mpr ⟨e, he, rfl⟩)
      change (Node.bareEntries rest).foldlM (addEntry (t.value depth))
        (found ++ [(Value.string (String.ofList k), y)]) count = _
      rw [ih _ h.tail hnext]
      simp [Function.comp_def]

theorem Tree.value_nested (t : Tree) (depth count : ℕ)
    (hname : Look.plain? name = some (.string (String.ofList name))) (h : HasStringKeys entries) :
    t.value (depth + 2) (Node.nested name entries) count = (denote? entries).map fun es =>
      (.mapping [(.string (String.ofList name), .mapping es)], count) := by
  have hkey : t.value (depth + 1) (Node.bare name) count =
      some (.string (String.ofList name), count) := by
    rw [Tree.value_bare, hname]
    rfl
  have hinner : t.value (depth + 1) (.mapping ⟨none, none⟩ (Node.bareEntries entries)) count =
      (denote? entries).map fun es => (.mapping es, count) := by
    rw [Tree.value_mapping, Tree.foldlM_bareEntries t depth count [] h (by simp)]
    simp [Function.comp_def]
  rw [Node.nested, Tree.value_mapping]
  change ((addEntry (t.value (depth + 1)) [] (Node.bare name,
    .mapping ⟨none, none⟩ (Node.bareEntries entries)) count).bind
      fun (f, c) => some (f, c)).map _ = _
  rw [Tree.addEntry_of_key _ _ hkey (by simp), hinner]
  cases denote? entries <;> rfl

theorem read?_nestedLines (hname : IsBare name) (hshort : name.length ≤ 1024)
    (hstring : Look.plain? name = some (.string (String.ofList name)))
    (hbare : ∀ e ∈ entries, IsBareEntry e) (hkeys : HasStringKeys entries) (hne : entries ≠ [])
    (n : ℕ) :
    read? (String.ofList (nestedLines name (n + 1) entries)) = (denote? entries).map fun es =>
      .mapping [(.string (String.ofList name), .mapping es)] := by
  unfold read?
  rw [Tree.ofText?_nestedLines hname hshort hbare hne n]
  change (Tree.value _ maxDepth (Node.nested name entries) 0).bind _ = _
  rw [show maxDepth = 126 + 2 from rfl, Tree.value_nested _ 126 0 hstring hkeys]
  cases denote? entries <;> rfl

end DesignProcess.Yaml
