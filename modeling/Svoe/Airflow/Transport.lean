import Svoe.Encoding.Base64
import Svoe.Encoding.Json
import Svoe.Features.FeatureConfigs

/-!
# Dag configs in the database

A dag config is stored as the Base64 of its JSON text, and decoded before the operators see it.
JSON has no integer keys: `1` becomes `'1'`, and the params of position 1 are no longer found.

* `base64Decode_base64Encode` : what comes back of any config.
* `carried_iff` : when a config comes back, and the params of its features with it.
-/

namespace Svoe

namespace Airflow

open Json

variable {F : Type} (format : FloatFormat F)

/-! ### The transport -/

/-- `str.encode`. -/
def encodeUtf8 (t : List Char) : List UInt8 := (String.ofList t).toUTF8.data.toList

/-- `bytes.decode`. -/
def decodeUtf8 (bs : List UInt8) : Option (List Char) :=
  (ByteArray.mk bs.toArray).utf8Decode?.map Array.toList

theorem decodeUtf8_encodeUtf8 (t : List Char) : decodeUtf8 (encodeUtf8 t) = some t := by
  rw [decodeUtf8, encodeUtf8, Array.toArray_toList]
  show ((String.ofList t).toByteArray.utf8Decode?).map Array.toList = some t
  rw [String.toByteArray_ofList, List.utf8Decode?_utf8Encode]
  rfl

inductive TransportError where
  /-- `binascii.Error`. -/
  | binascii
  /-- `UnicodeDecodeError`. -/
  | unicodeDecode
  /-- `JSONDecodeError`. -/
  | jsonDecode
  deriving DecidableEq

/-- `base64_encode`. -/
def base64Encode (conf : Value F) : List Char :=
  Base64.urlsafeB64encode (encodeUtf8 (dumps format conf))

/-- `base64_decode`. -/
def base64Decode (confEncoded : List Char) : Except TransportError (Value F) :=
  match Base64.urlsafeB64decode confEncoded with
  | none => .error .binascii
  | some bs =>
    match decodeUtf8 bs with
    | none => .error .unicodeDecode
    | some t =>
      match loads format t with
      | none => .error .jsonDecode
      | some conf => .ok conf

theorem base64Decode_base64Encode (conf : Value F) :
    base64Decode format (base64Encode format conf) = .ok conf.reread := by
  rw [base64Decode, base64Encode, Base64.urlsafeB64decode_urlsafeB64encode]
  dsimp only
  rw [decodeUtf8_encodeUtf8]
  dsimp only
  rw [loads_dumps]

/-! ### The params of the features -/

/-- A string of Python. -/
def pyStr (s : String) : List CodePoint := s.toList.map CodePoint.ofChar

def strKey (s : String) : Key := .str (pyStr s)

/-- `type(v)`. -/
def typeName : Value F → String
  | .null => "<class 'NoneType'>"
  | .bool _ => "<class 'bool'>"
  | .int _ => "<class 'int'>"
  | .float _ => "<class 'float'>"
  | .str _ => "<class 'str'>"
  | .list _ => "<class 'list'>"
  | .dict _ => "<class 'dict'>"

/-- The item of a position, if the key of an item is one. -/
def positionItem (p : Key × Value F) : Option (ℕ × Value F) :=
  match p.1 with
  | .int (.ofNat n) => some (n, p.2)
  | _ => none

/-- A value as the params of the nodes of a tree. -/
def nodeParams : Option (Value F) → NodeParams (Value F)
  | none => .none
  | some .null => .none
  | some (.dict d) => .dict (d.filterMap positionItem)
  | some (.list l) => .list l
  | some v => .other (typeName v)

variable {δ : Type} (defs : Definitions δ (Value F))

/-- The definitions, with values for params. -/
def onValues : Definitions δ (Value F) :=
  { defs with
    emptyParams := .dict []
    dataSourceParams := fun params =>
      (params.get (strKey "data_source")).map fun v => nodeParams (some v)
    featureParams := fun params => nodeParams (params.get (strKey "feature")) }

/-- The params of a config of a feature, within the args of a task of a dag. -/
def configParams (conf : Value F) (dagName task : List CodePoint) (i : ℕ) : Option (Value F) := do
  let dag ← conf.get (.str dagName)
  let tasks ← dag.get (strKey "tasks")
  let task ← tasks.get (.str task)
  let args ← task.get (strKey "args")
  let featurizerConfig ← args.get (strKey "featurizer_config")
  let featureConfigs ← featurizerConfig.get (strKey "feature_configs")
  let featureConfig ← featureConfigs.item i
  featureConfig.get (strKey "params")

/-- The feature params that `_parse_params` selects for a position. -/
def selectedParams (dagName task : List CodePoint) (i position : ℕ) (conf : Value F) :
    Option (Except ConstructError (Value F)) :=
  (configParams conf dagName task i).map fun params =>
    (onValues defs).parseParams ((onValues defs).featureParams params) position

/-! ### When nothing is lost -/

/-- A dag config, of which no mapping has a key twice. -/
structure DagConfig (F : Type) where
  conf : Value F
  distinctKeys : conf.DistinctKeys

/-- A config comes back from the database, and the params of every feature with it. -/
def Carried (conf : Value F) : Prop :=
  base64Decode format (base64Encode format conf) = .ok conf ∧
    ∀ (δ : Type) (defs : Definitions δ (Value F)) (dagName task : List CodePoint) (i position : ℕ),
      (base64Decode format (base64Encode format conf)).toOption.bind
          (selectedParams defs dagName task i position) =
        selectedParams defs dagName task i position conf

theorem carried_iff (config : DagConfig F) : Carried format config.conf ↔ config.conf.Plain := by
  rw [← Value.reread_eq_self_iff config.distinctKeys, Carried, base64Decode_base64Encode]
  constructor
  · intro h
    exact Except.ok.inj h.1
  · intro h
    rw [h]
    exact ⟨rfl, fun _ _ _ _ _ _ => rfl⟩

/-! ### A config with positions -/

/-- The one float of the configs below, `0.5`. -/
def half : FloatFormat Unit where
  repr _ := ['0', '.', '5']
  float t := if t = ['0', '.', '5'] then .finite () else .nan
  isFloatText_repr _ := by
    have hzero : IsNatural ['0'] :=
      ⟨List.cons_ne_nil _ _, by simp, fun _ => rfl⟩
    have hfive : IsFrac ['.', '5'] := Or.inr ⟨['5'], List.cons_ne_nil _ _, by simp, rfl⟩
    exact ⟨['0'], ['.', '5'], [], Or.inl hzero, hfive, Or.inl rfl, Or.inl (List.cons_ne_nil _ _),
      rfl⟩
  float_repr _ := if_pos rfl

/-- The config of a dag whose only task has one feature, with these feature params. -/
def midPriceDag (featureParams : Value Unit) : Value Unit :=
  .dict [(strKey "dag", .dict [(strKey "tasks", .dict [(strKey "featurize", .dict [(strKey "args",
    .dict [(strKey "featurizer_config", .dict [(strKey "feature_configs", .list [.dict
      [(strKey "feature_definition", .str (pyStr "price.mid_price_fd")),
        (strKey "params", .dict [(strKey "feature", featureParams)])]])])])])])])]

def sampling : Value Unit := .dict [(strKey "sampling", .str (pyStr "1s"))]

/-- The params of position 1, by an integer key. -/
def positionDag : Value Unit := midPriceDag (.dict [(.int 1, sampling)])

/-- The params of position 1, in a list. -/
def listDag : Value Unit :=
  midPriceDag (.list [.dict [(strKey "weight", .float (.finite ()))], sampling])

/-- The feature params of position 1 are found before the transport and not after it. -/
theorem not_carried_positionDag :
    ¬Carried half positionDag ∧ ∀ defs : Definitions Unit (Value Unit),
      selectedParams defs (pyStr "dag") (pyStr "featurize") 0 1 positionDag = some (.ok sampling) ∧
        (base64Decode half (base64Encode half positionDag)).toOption.bind
          (selectedParams defs (pyStr "dag") (pyStr "featurize") 0 1) = some (.ok (.dict [])) := by
  constructor
  · intro h
    have hreread := h.1
    rw [base64Decode_base64Encode] at hreread
    -- the mapping that came back has no item for the integer
    have hposition := congrArg (fun conf : Value Unit =>
      ((configParams conf (pyStr "dag") (pyStr "featurize") 0).bind
        (·.get (strKey "feature"))).bind (·.get (.int 1))) (Except.ok.inj hreread)
    have hsome : (none : Option (Value Unit)) = some sampling := hposition
    exact Option.some_ne_none _ hsome.symm
  · intro defs
    rw [base64Decode_base64Encode]
    exact ⟨rfl, rfl⟩

theorem carried_listDag : Carried half listDag :=
  (carried_iff half ⟨listDag, by decide +kernel⟩).2 (by decide +kernel)

end Airflow

end Svoe
