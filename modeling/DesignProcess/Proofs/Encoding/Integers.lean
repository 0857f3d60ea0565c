import DesignProcess.Document.Reading
import DesignProcess.Proofs.Document.Request
import DesignProcess.Proofs.Toml.Assignments
import DesignProcess.Proofs.Toml.Numbers
import DesignProcess.Proofs.Yaml.Look
import DesignProcess.Proofs.Yaml.Nested

/-!
Integers among the options of a component. Both encodings keep an integer of 64 signed bits, and
both refuse one that does not fit as long as 128 bits hold it. YAML takes larger ones for floats or
strings.
-/

namespace DesignProcess

open Yaml (IsName)

namespace Document

def modelKey : List Char := "model".toList

def idKey : List Char := "id".toList

structure IsOptionName (k : List Char) : Prop extends IsName k where
  undotted : '.' ∉ k
  ne_id : k ≠ idKey

def integerText (id option : List Char) (n : ℤ) : Format → String
  | .yaml =>
    String.ofList (Yaml.Layout.nestedLines modelKey 2 [(idKey, id), (option, Decimal.signed n)])
  | .toml =>
    String.ofList (Toml.tableLines modelKey
      [⟨idKey, '"' :: (id ++ ['"']), .string (String.ofList id)⟩,
        ⟨option, Decimal.signed n, .integer n⟩])

example : integerText "wing".toList "count".toList (-7) .yaml =
    "model:\n  id: wing\n  count: -7\n" := by decide

example : integerText "wing".toList "count".toList (-7) .toml =
    "[model]\nid = \"wing\"\ncount = -7\n" := by decide

def withOption (id option : List Char) (s : Scalar) : Document :=
  ⟨"", [], none, none, none,
    .component ⟨String.ofList id, [(String.ofList option, s)]⟩, none, none⟩

variable {id option : List Char}

theorem ofValue_withOption (hid : option ≠ idKey) (s : Scalar) :
    ofValue (.table [("model", .table [("id", .scalar (.string (String.ofList id))),
        (String.ofList option, .scalar s)])]) =
      .ok (withOption id option s) := by
  have hne : String.ofList option ≠ "id" := fun heq => hid (String.ofList_inj.mp heq)
  let entries : List (String × Value) :=
    [("id", .scalar (.string (String.ofList id))), (String.ofList option, .scalar s)]
  have hrequest : ComponentRequest.ofEntries (KeyPath.root.key "model") entries =
      .ok ⟨String.ofList id, [(String.ofList option, s)]⟩ := by
    apply (ComponentRequest.ofEntries_eq_ok_iff (by simpa [entries] using hne.symm)).mpr
    constructor
    · simp [entries, ComponentRequest.IsRequestEntry, hne]
    · simp [entries, Value.request, Value.textAt, Value.text?, Value.scalar?, hne]
  have hmodel : ModelSpec.ofValue (KeyPath.root.key "model") (.table entries) =
      .ok (.component ⟨String.ofList id, [(String.ofList option, s)]⟩) := by
    have hhas : ModelSpec.hasId entries = true := rfl
    rw [ModelSpec.ofValue, if_pos hhas, hrequest]
    rfl
  change ((ModelSpec.ofValue (KeyPath.root.key "model") (.table entries)).map _ >>= _) >>= _ = _
  rw [hmodel]
  rfl

namespace IsOptionName

theorem isBareKey (h : IsOptionName option) : Toml.IsBareKey option := by
  obtain ⟨c, r, rfl, -⟩ := h.letter
  refine ⟨List.cons_ne_nil c r, fun d hd => ?_⟩
  have hbare := h.chars d hd
  have hdot : d ≠ '.' := by
    rintro rfl
    exact h.undotted hd
  simpa [Yaml.isBareChar, Yaml.isWord, Toml.Statement.isBareKeyChar, hdot,
    Bool.or_right_comm] using hbare

end IsOptionName

theorem isVerbatim_of_isBareChar {c : Char} (h : Yaml.isBareChar c = true) :
    Toml.Value.IsVerbatim c := by
  obtain ⟨hlow, hhigh⟩ := Yaml.toNat_of_isBareChar h
  have hdelete : c.toNat ≠ 0x7F := by omega
  exact ⟨by simp [Toml.Quoted.isTextChar, hlow, hdelete], Text.ne_of_class h rfl,
    Text.ne_of_class h rfl⟩

theorem isBareKey_modelKey : Toml.IsBareKey modelKey := ⟨by decide, List.all_eq_true.mp rfl⟩

theorem isBareKey_idKey : Toml.IsBareKey idKey := ⟨by decide, List.all_eq_true.mp rfl⟩

theorem read?_tomlText (hid : IsName id) (hoption : IsOptionName option) (n : ℤ) :
    Toml.read? (integerText id option n .toml) =
      some [("model", .table [("id", .string (String.ofList id)),
        (String.ofList option, .integer n)])] := by
  have hne : id ≠ [] := hid.isBare.ne_nil
  have hquoted := Toml.Reads.quoted hne fun c hc => isVerbatim_of_isBareChar (hid.chars c hc)
  apply Toml.read?_tableLines isBareKey_modelKey
  · simp only [List.mem_cons, List.not_mem_nil, or_false]
    rintro a (rfl | rfl)
    · exact ⟨isBareKey_idKey, hquoted⟩
    · exact ⟨hoption.isBareKey, .signed n⟩
  · simpa using hoption.ne_id.symm

theorem ofText_toml (hid : IsName id) (hoption : IsOptionName option) (n : ℤ) :
    ofText .toml (integerText id option n .toml) =
      match Decimal.int64? n with
      | some i => .ok (withOption id option (.integer i))
      | none => .error ⟨.root, .format .toml⟩ := by
  have hstored : Toml.Value.storedEntries? [("model", .table [("id", .string (String.ofList id)),
      (String.ofList option, .integer n)])] = (Decimal.int64? n).map fun _ =>
        [("model", .table [("id", .string (String.ofList id)),
          (String.ofList option, .integer n)])] := by
    simp only [Toml.Value.storedEntries?, Toml.Value.stored?]
    cases Decimal.int64? n <;> rfl
  unfold ofText Value.ofText
  dsimp only
  unfold Value.ofTomlText
  rw [read?_tomlText hid hoption, Option.bind_some, hstored]
  cases hn : Decimal.int64? n with
  | none => rfl
  | some i =>
    change (Value.ofToml .root (.table [("model", .table [("id", .string (String.ofList id)),
      (String.ofList option, .integer n)])])) >>= ofValue = _
    simp only [Value.ofToml, Value.ofTomlEntries, hn]
    exact ofValue_withOption hoption.ne_id (.integer i)

theorem read?_yamlText (hid : IsName id) (hoption : IsOptionName option) (n : ℤ) :
    Yaml.read? (integerText id option n .yaml) =
      (Yaml.Look.plain? (Decimal.signed n)).map fun v =>
        .mapping [(.string "model", .mapping [(.string "id", .string (String.ofList id)),
          (.string (String.ofList option), v)])] := by
  have hmodel : IsName modelKey :=
    ⟨List.all_eq_true.mp rfl, ⟨_, _, rfl, by decide⟩, by decide, by decide⟩
  have hidKey : IsName idKey :=
    ⟨List.all_eq_true.mp rfl, ⟨_, _, rfl, by decide⟩, by decide, by decide⟩
  have hbare : ∀ e ∈ [(idKey, id), (option, Decimal.signed n)], Yaml.Layout.IsBareEntry e := by
    simp only [List.mem_cons, List.not_mem_nil, or_false]
    rintro e (rfl | rfl)
    · exact ⟨hidKey.isBare, hidKey.short, hid.isBare⟩
    · exact ⟨hoption.isBare, hoption.short, Yaml.Look.isBare_signed n⟩
  have hkeys : Yaml.HasStringKeys [(idKey, id), (option, Decimal.signed n)] := by
    constructor
    · simp only [List.mem_cons, List.not_mem_nil, or_false]
      rintro e (rfl | rfl)
      · exact Yaml.Look.plain?_name hidKey
      · exact Yaml.Look.plain?_name hoption.toIsName
    · simpa using hoption.ne_id.symm
  have hread := Yaml.read?_nestedLines hmodel.isBare hmodel.short (Yaml.Look.plain?_name hmodel)
    hbare hkeys (List.cons_ne_nil _ _) 1
  unfold integerText
  dsimp only
  rw [hread]
  simp only [Yaml.denote?, Yaml.Look.plain?_name hid]
  cases Yaml.Look.plain? (Decimal.signed n) <;> rfl

theorem ofText_yaml (hid : IsName id) (hoption : IsOptionName option) (n : ℤ) :
    ofText .yaml (integerText id option n .yaml) =
      match Yaml.Look.plain? (Decimal.signed n) with
      | some v => do
        let w ← Value.ofYaml ((KeyPath.root.key "model").key (String.ofList option)) v
        ofValue (.table [("model", .table [("id", .scalar (.string (String.ofList id))),
          (String.ofList option, w)])])
      | none => .error ⟨.root, .format .yaml⟩ := by
  unfold ofText Value.ofText
  dsimp only
  unfold Value.ofYamlText
  rw [read?_yamlText hid hoption]
  cases Yaml.Look.plain? (Decimal.signed n) with
  | none => rfl
  | some v =>
    simp only [Option.map_some, Value.ofYaml, Value.ofYamlEntries]
    cases Value.ofYaml ((KeyPath.root.key "model").key (String.ofList option)) v <;> rfl

theorem integer_option_read (hid : IsName id) (hoption : IsOptionName option) (n : ℤ) :
    let read (f : Format) := ofText f (integerText id option n f)
    (-2 ^ 63 ≤ n → n < 2 ^ 63 → ∃ i : Int64, i.toInt = n ∧
      ∀ f, read f = .ok (withOption id option (.integer i))) ∧
    (n < -2 ^ 63 ∨ 2 ^ 63 ≤ n → read .toml = .error ⟨.root, .format .toml⟩) ∧
    (2 ^ 63 ≤ n → n < 2 ^ 64 → read .yaml =
      .error ⟨(KeyPath.root.key "model").key (String.ofList option), .storableInteger⟩) ∧
    (-2 ^ 127 ≤ n ∧ n < -2 ^ 63 ∨ 2 ^ 64 ≤ n ∧ n < 2 ^ 128 →
      read .yaml = .error ⟨.root, .format .yaml⟩) ∧
    (n < -2 ^ 127 ∨ 2 ^ 128 ≤ n → read .yaml = .ok (withOption id option
      (if (Decimal.nearestInt n).isFinite then .float (Decimal.nearestInt n)
      else .string (String.ofList (Decimal.signed n))))) := by
  intro read
  have htoml : read .toml = _ := ofText_toml hid hoption n
  have hyaml : read .yaml = _ := ofText_yaml hid hoption n
  rw [Yaml.Look.plain?_signed] at hyaml
  refine ⟨fun hlow hhigh => ?fits, fun hout => ?refused, fun hlow hhigh => ?unsigned,
    fun hwide => ?wide, fun hlarge => ?large⟩
  case fits =>
    have hword := Decimal.int64?_eq_some hlow hhigh
    refine ⟨Int64.ofInt n, Int64.toInt_ofInt_of_le hlow hhigh, ?_⟩
    rintro (_ | _)
    · rw [htoml, hword]
    · rw [hyaml, Yaml.Look.size_fits (by omega) (by omega)]
      simp only [Value.ofYaml, hword]
      exact ofValue_withOption hoption.ne_id _
  case refused => rw [htoml, Decimal.int64?_eq_none hout]
  case unsigned =>
    rw [hyaml, Yaml.Look.size_fits (by omega) (by omega)]
    simp only [Value.ofYaml, Decimal.int64?_eq_none (.inr hlow)]
    rfl
  case wide => rw [hyaml, Yaml.Look.size_refused hwide]
  case large =>
    rw [hyaml, Yaml.Look.size_unbounded hlarge]
    cases (Decimal.nearestInt n).isFinite with
    | true => exact ofValue_withOption hoption.ne_id (.float _)
    | false => exact ofValue_withOption hoption.ne_id (.string _)

theorem isName_wing : IsName "wing".toList :=
  ⟨List.all_eq_true.mp rfl, ⟨_, _, rfl, by decide⟩, by decide, by decide⟩

theorem isOptionName_count : IsOptionName "count".toList :=
  ⟨⟨List.all_eq_true.mp rfl, ⟨_, _, rfl, by decide⟩, by decide, by decide⟩, by decide, by decide⟩

theorem integer_option_read_wing :
    IsName "wing".toList ∧ IsOptionName "count".toList ∧
      ofText .toml "[model]\nid = \"wing\"\ncount = 9223372036854775808\n" =
        .error ⟨.root, .format .toml⟩ ∧
      ofText .yaml "model:\n  id: wing\n  count: 9223372036854775808\n" =
        .error ⟨(KeyPath.root.key "model").key "count", .storableInteger⟩ := by
  obtain ⟨-, htoml, hyaml, -, -⟩ := integer_option_read isName_wing isOptionName_count (2 ^ 63)
  exact ⟨isName_wing, isOptionName_count, htoml (.inr le_rfl), hyaml le_rfl (by norm_num)⟩

theorem wide_integer_read_as_float :
    let y := "model:\n  id: wing\n  count: 340282366920938463463374607431768211456\n"
    integerText "wing".toList "count".toList (2 ^ 128) .yaml = y ∧
      ∃ x : Float, ofText .yaml y =
        .ok ⟨"", [], none, none, none, .component ⟨"wing", [("count", .float x)]⟩, none, none⟩ := by
  intro y
  have htext : integerText "wing".toList "count".toList (2 ^ 128) .yaml = y := by decide +kernel
  have hfinite : (Decimal.nearestInt (2 ^ 128)).isFinite = true := by decide +kernel
  refine ⟨htext, Decimal.nearestInt (2 ^ 128), ?_⟩
  rw [← htext, ofText_yaml isName_wing isOptionName_count, Yaml.Look.plain?_signed,
    Yaml.Look.size_unbounded (.inr le_rfl), hfinite]
  exact ofValue_withOption isOptionName_count.ne_id (.float _)

end Document

end DesignProcess
