import SochDB.Library.KeyedMaps
import SochDB.RecordIds

/-!
The binary keys and values of the graph overlay. Names stand in keys as hashes of 32 bits;
record keys inside an edge key carry their length. Building a key stops when a record key has
more than 65535 bytes. The text of property values is left to a JSON codec.
-/
namespace EdgeEncoding
open KeyedMaps Utf8 BigEndian RecordIds WalRecords List

section Keys

def tagNode : UInt8 := 0x01
def tagEdge : UInt8 := 0x02
def tagReverse : UInt8 := 0x03

def nameHash (name : Str) : Bytes := beBytes 4 (fnv1a32 name.bytes).toNat

def writeLengthPrefixed (data : Bytes) : Option Bytes :=
  if data.length ≤ 65535 then some (lengthFirst 2 data) else none

def nodePrefix (ns : Str) : Bytes := tagNode :: nameHash ns

def nodeKey (ns : Str) (r : RecordId) : Bytes := nodePrefix ns ++ r.toKey

def nodeTablePrefix (ns table : Str) : Bytes := nodePrefix ns ++ RecordId.tablePrefix table

def edgePrefix (ns : Str) : Bytes := tagEdge :: nameHash ns

def edgeFromPrefix (ns : Str) (source : RecordId) : Option Bytes :=
  (writeLengthPrefixed source.toKey).map (edgePrefix ns ++ ·)

def edgeFromTypePrefix (ns : Str) (source : RecordId) (edgeType : Str) : Option Bytes :=
  (edgeFromPrefix ns source).map (· ++ nameHash edgeType)

def edgeKey (ns : Str) (source : RecordId) (edgeType : Str) (target : RecordId) : Option Bytes :=
  (edgeFromTypePrefix ns source edgeType).bind fun start =>
    (writeLengthPrefixed target.toKey).map (start ++ ·)

def reversePrefix (ns : Str) : Bytes := tagReverse :: nameHash ns

def reverseTypeToPrefix (ns edgeType : Str) (target : RecordId) : Option Bytes :=
  (writeLengthPrefixed target.toKey).map (reversePrefix ns ++ nameHash edgeType ++ ·)

def reverseKey (ns edgeType : Str) (target source : RecordId) : Option Bytes :=
  (reverseTypeToPrefix ns edgeType target).bind fun start =>
    (writeLengthPrefixed source.toKey).map (start ++ ·)

structure DecodedReverseKey where
  edgeTypeHash : Nat
  toKey : Bytes
  fromKey : Bytes
  deriving DecidableEq

def decodeReverseKey (key : Bytes) : Option DecodedReverseKey :=
  match key with
  | [] => none
  | tag :: rest =>
    if tag ≠ tagReverse then none
    else if rest.length < 4 then none
    else
      let rest := rest.drop 4
      if rest.length < 4 then none
      else
        (readLengthFirst 2 (rest.drop 4)).bind fun (toKey, after) =>
          (readLengthFirst 2 after).map fun (fromKey, _) => ⟨ofBe (rest.take 4), toKey, fromKey⟩

end Keys

/-- `serde_json` for property values. -/
structure Json (V : Type) where
  encode : V → Bytes
  decode : Bytes → Option V

section Values
variable {V : Type} (json : Json V)

abbrev Properties (V : Type) := Map Str V

def encodeProperties (props : Properties V) : Bytes :=
  beBytes 4 (pairs props).length ++
    (pairs props).flatMap fun e => lengthFirst 2 e.1.bytes ++ lengthFirst 4 (json.encode e.2)

def decodeEntries : Nat → Bytes → Properties V → Option (Properties V)
  | 0, _, props => some props
  | n + 1, data, props =>
    (readLengthFirst 2 data).bind fun (keyBytes, rest) =>
      (Str.fromUtf8 keyBytes).bind fun key =>
        (readLengthFirst 4 rest).bind fun (text, rest) =>
          (json.decode text).bind fun value => decodeEntries n rest (props.insert key value)

def decodeProperties (data : Bytes) : Option (Properties V) :=
  if data.length < 4 then none else decodeEntries json (ofBe (data.take 4)) (data.drop 4) ∅

def encodeNodeValue (nodeType : Str) (props : Properties V) : Bytes :=
  lengthFirst 2 nodeType.bytes ++ encodeProperties json props

def decodeNodeValue (data : Bytes) : Option (Str × Properties V) :=
  (readLengthFirst 2 data).bind fun (typeBytes, rest) =>
    (Str.fromUtf8 typeBytes).bind fun nodeType =>
      (decodeProperties json rest).map fun props => (nodeType, props)

structure GraphEdge (V : Type) where
  source : RecordId
  edgeType : Str
  target : RecordId
  properties : Properties V

def encodeEdgeValue (source : RecordId) (edgeType : Str) (target : RecordId) (props : Properties V) : Bytes :=
  lengthFirst 2 edgeType.bytes ++ (lengthFirst 2 source.display ++ (lengthFirst 2 target.display ++
    encodeProperties json props))

def readRecordId (data : Bytes) : Option (RecordId × Bytes) :=
  (readLengthFirst 2 data).bind fun (text, rest) => (RecordId.parse text).map fun r => (r, rest)

def decodeEdgeValue (data : Bytes) : Option (GraphEdge V) :=
  (readLengthFirst 2 data).bind fun (typeBytes, rest) =>
    (Str.fromUtf8 typeBytes).bind fun edgeType =>
      (readRecordId rest).bind fun (source, rest) =>
        (readRecordId rest).bind fun (target, rest) =>
          (decodeProperties json rest).map fun props => ⟨source, edgeType, target, props⟩

end Values

inductive Item where
  | node (ns : Str) (r : RecordId)
  | edge (ns : Str) (source : RecordId) (edgeType : Str) (target : RecordId)
  | reverse (ns : Str) (source : RecordId) (edgeType : Str) (target : RecordId)
  deriving DecidableEq

namespace Item

def key : Item → Option Bytes
  | .node ns r => some (nodeKey ns r)
  | .edge ns source edgeType target => edgeKey ns source edgeType target
  | .reverse ns source edgeType target => reverseKey ns edgeType target source

def ns : Item → Str
  | .node ns _ | .edge ns _ _ _ | .reverse ns _ _ _ => ns

def tables : Item → List Str
  | .node _ r => [r.table]
  | .edge _ source _ target | .reverse _ source _ target => [source.table, target.table]

def edgeTypes : Item → List Str
  | .node _ _ => []
  | .edge _ _ edgeType _ | .reverse _ _ edgeType _ => [edgeType]

def tag : Item → UInt8
  | .node .. => tagNode
  | .edge .. => tagEdge
  | .reverse .. => tagReverse

def Alike : Item → Item → Prop
  | .node ns r, .node ns' r' => fnv1a32 ns.bytes = fnv1a32 ns'.bytes ∧ r.toKey = r'.toKey
  | .edge ns source edgeType target, .edge ns' source' edgeType' target'
  | .reverse ns source edgeType target, .reverse ns' source' edgeType' target' =>
    fnv1a32 ns.bytes = fnv1a32 ns'.bytes ∧ source.toKey = source'.toKey ∧
      fnv1a32 edgeType.bytes = fnv1a32 edgeType'.bytes ∧ target.toKey = target'.toKey
  | _, _ => False

end Item

section KeyShapes

def Fits (r : RecordId) : Prop := r.toKey.length ≤ 65535

instance (r : RecordId) : Decidable (Fits r) := inferInstanceAs (Decidable (_ ≤ _))

variable {ns edgeType : Str} {source target : RecordId} {key : Bytes}

theorem writeLengthPrefixed_eq_some {piece : Bytes} :
    writeLengthPrefixed source.toKey = some piece ↔ Fits source ∧ lengthFirst 2 source.toKey = piece := by
  unfold writeLengthPrefixed
  split
  · rename_i fits
    simp [show Fits source from fits]
  · rename_i long
    simp [show ¬Fits source from long]

theorem edgeFromPrefix_eq_some : edgeFromPrefix ns source = some key ↔
    Fits source ∧ edgePrefix ns ++ lengthFirst 2 source.toKey = key := by
  simp [edgeFromPrefix, writeLengthPrefixed_eq_some]

theorem edgeFromTypePrefix_eq_some : edgeFromTypePrefix ns source edgeType = some key ↔
    Fits source ∧ edgePrefix ns ++ (lengthFirst 2 source.toKey ++ nameHash edgeType) = key := by
  simp [edgeFromTypePrefix, edgeFromPrefix_eq_some]

theorem edgeKey_eq_some : edgeKey ns source edgeType target = some key ↔ Fits source ∧ Fits target ∧
    edgePrefix ns ++ (lengthFirst 2 source.toKey ++ (nameHash edgeType ++ lengthFirst 2 target.toKey)) = key := by
  simp [edgeKey, Option.bind_eq_some_iff, edgeFromTypePrefix_eq_some, writeLengthPrefixed_eq_some, and_assoc]

theorem reverseTypeToPrefix_eq_some : reverseTypeToPrefix ns edgeType target = some key ↔
    Fits target ∧ reversePrefix ns ++ (nameHash edgeType ++ lengthFirst 2 target.toKey) = key := by
  simp [reverseTypeToPrefix, writeLengthPrefixed_eq_some]

theorem reverseKey_eq_some : reverseKey ns edgeType target source = some key ↔ Fits source ∧ Fits target ∧
    reversePrefix ns ++ (nameHash edgeType ++ (lengthFirst 2 target.toKey ++ lengthFirst 2 source.toKey)) = key := by
  simp [reverseKey, Option.bind_eq_some_iff, reverseTypeToPrefix_eq_some, writeLengthPrefixed_eq_some, and_assoc]
  tauto

theorem nameHash_injective {a b : Str} (same : nameHash a = nameHash b) :
    fnv1a32 a.bytes = fnv1a32 b.bytes := hash_injective same

@[simp] theorem nameHash_length (name : Str) : (nameHash name).length = 4 := beBytes_length 4 _

theorem decode_reverseKey (built : reverseKey ns edgeType target source = some key) :
    decodeReverseKey key = some ⟨(fnv1a32 edgeType.bytes).toNat, target.toKey, source.toKey⟩ := by
  obtain ⟨fitsSource, fitsTarget, rfl⟩ := reverseKey_eq_some.mp built
  have sourceSize : source.toKey.length < 256 ^ 2 := Nat.lt_succ_of_le fitsSource
  have targetSize : target.toKey.length < 256 ^ 2 := Nat.lt_succ_of_le fitsTarget
  have typeHash : ofBe (nameHash edgeType) = (fnv1a32 edgeType.bytes).toNat :=
    ofBe_beBytes (fnv1a32 edgeType.bytes).toNat_lt
  have second := readLengthFirst_append sourceSize []
  rw [append_nil] at second
  unfold decodeReverseKey reversePrefix
  rw [cons_append]
  dsimp only
  rw [if_neg (by simp), if_neg (by simp), drop_left' (nameHash_length ns), if_neg (by simp),
    drop_left' (nameHash_length edgeType), take_left' (nameHash_length edgeType),
    readLengthFirst_append targetSize, Option.bind_some]
  rw [second, typeHash]
  rfl

theorem length_lt_of_fits {r : RecordId} (fits : Fits r) : r.toKey.length < 256 ^ 2 := Nat.lt_succ_of_le fits

theorem edgeKey_alike {ns' edgeType' : Str} {source' target' : RecordId}
    (first : edgeKey ns source edgeType target = some key)
    (second : edgeKey ns' source' edgeType' target' = some key) :
    Item.Alike (.edge ns source edgeType target) (.edge ns' source' edgeType' target') := by
  obtain ⟨fitsSource, fitsTarget, rfl⟩ := edgeKey_eq_some.mp first
  obtain ⟨fitsSource', fitsTarget', same⟩ := edgeKey_eq_some.mp second
  obtain ⟨names, rest⟩ := append_inj (List.cons.inj same.symm).2 (by simp)
  obtain ⟨sources, rest⟩ :=
    lengthFirst_injective (length_lt_of_fits fitsSource) (length_lt_of_fits fitsSource') rest
  obtain ⟨types, rest⟩ := append_inj rest (by simp)
  have targets := lengthFirst_last_injective (length_lt_of_fits fitsTarget) (length_lt_of_fits fitsTarget') rest
  exact ⟨nameHash_injective names, sources, nameHash_injective types, targets⟩

theorem reverseKey_alike {ns' edgeType' : Str} {source' target' : RecordId}
    (first : reverseKey ns edgeType target source = some key)
    (second : reverseKey ns' edgeType' target' source' = some key) :
    Item.Alike (.reverse ns source edgeType target) (.reverse ns' source' edgeType' target') := by
  obtain ⟨fitsSource, fitsTarget, rfl⟩ := reverseKey_eq_some.mp first
  obtain ⟨fitsSource', fitsTarget', same⟩ := reverseKey_eq_some.mp second
  obtain ⟨names, rest⟩ := append_inj (List.cons.inj same.symm).2 (by simp)
  obtain ⟨types, rest⟩ := append_inj rest (by simp)
  obtain ⟨targets, rest⟩ :=
    lengthFirst_injective (length_lt_of_fits fitsTarget) (length_lt_of_fits fitsTarget') rest
  have sources := lengthFirst_last_injective (length_lt_of_fits fitsSource) (length_lt_of_fits fitsSource') rest
  exact ⟨nameHash_injective names, sources, nameHash_injective types, targets⟩

theorem key_starts {a : Item} (built : a.key = some key) :
    ∃ rest, key = a.tag :: (nameHash a.ns ++ rest) := by
  cases a with
  | node ns r => exact ⟨r.toKey, (Option.some.inj built).symm⟩
  | edge ns source edgeType target =>
    obtain ⟨_, _, rfl⟩ := edgeKey_eq_some.mp built
    exact ⟨_, rfl⟩
  | reverse ns source edgeType target =>
    obtain ⟨_, _, rfl⟩ := reverseKey_eq_some.mp built
    exact ⟨_, rfl⟩

theorem alike_of_key {a b : Item} (first : a.key = some key) (second : b.key = some key) : a.Alike b := by
  obtain ⟨_, starts⟩ := key_starts first
  obtain ⟨_, starts'⟩ := key_starts second
  have tags : a.tag = b.tag := (List.cons.inj (starts.symm.trans starts')).1
  cases a <;> cases b
  case node.node ns r ns' r' =>
    have same : nodeKey ns r = nodeKey ns' r' := Option.some.inj (first.trans second.symm)
    obtain ⟨names, keys⟩ := append_inj (List.cons.inj same).2 (by simp)
    exact ⟨nameHash_injective names, keys⟩
  case edge.edge => exact edgeKey_alike first second
  case reverse.reverse => exact reverseKey_alike first second
  all_goals exact absurd tags (by simp only [Item.tag]; decide)

end KeyShapes

section Codec
variable {V : Type} {json : Json V}

def Same (p q : Properties V) : Prop := ∀ k, get p k = get q k

variable {p q : Properties V}

theorem Same.symm (same : Same p q) : Same q p := fun k => (same k).symm

theorem Same.trans {r : Properties V} (first : Same p q) (second : Same q r) : Same p r :=
  fun k => (first k).trans (second k)

structure StorableEntry (json : Json V) (key : Str) (value : V) : Prop where
  key_length : key.bytes.length < 256 ^ 2
  text_length : (json.encode value).length < 256 ^ 4
  decodes : json.decode (json.encode value) = some value

structure StorableProperties (json : Json V) (p : Properties V) : Prop where
  count : (pairs p).length < 256 ^ 4
  entries : ∀ k v, get p k = some v → StorableEntry json k v

theorem pairs_length_of_same (same : Same p q) : (pairs p).length = (pairs q).length := by
  have nodup : ∀ r : Properties V, (pairs r).Nodup := fun r => List.Nodup.of_map Prod.fst (pairs_keys_nodup r)
  refine List.Perm.length_eq ((perm_ext_iff_of_nodup (nodup p) (nodup q)).mpr ?_)
  intro e
  rw [mem_pairs, mem_pairs, same]

theorem StorableProperties.of_same (storable : StorableProperties json p) (same : Same p q) :
    StorableProperties json q where
  count := pairs_length_of_same same ▸ storable.count
  entries k v known := storable.entries k v ((same k).trans known)

theorem decodeEntries_encoded (entries : List (Str × V)) (storable : ∀ e ∈ entries, StorableEntry json e.1 e.2)
    (props : Properties V) :
    decodeEntries json entries.length
      (entries.flatMap fun e => lengthFirst 2 e.1.bytes ++ lengthFirst 4 (json.encode e.2)) props =
      some (entries.foldl (fun props e => props.insert e.1 e.2) props) := by
  induction entries generalizing props with
  | nil => rfl
  | cons e entries ih =>
    have first := storable e mem_cons_self
    rw [length_cons, decodeEntries, flatMap_cons, append_assoc,
      readLengthFirst_append first.key_length, Option.bind_some]
    dsimp only
    rw [Str.fromUtf8_some.mpr rfl, Option.bind_some, readLengthFirst_append first.text_length, Option.bind_some]
    rw [first.decodes, Option.bind_some]
    exact ih (fun e member => storable e (mem_cons_of_mem _ member)) _

theorem same_rebuilt (p : Properties V) : Same ((pairs p).foldl (fun props e => props.insert e.1 e.2) ∅) p := by
  refine fun k => Option.ext fun v => ?_
  rw [get_inserts_eq, get_empty, Option.or_none, map_id', lastValue_of_nodup k (pairs_keys_nodup p), mem_pairs]

theorem decode_encodeProperties (storable : StorableProperties json p) :
    ∃ q, decodeProperties json (encodeProperties json p) = some q ∧ Same q p := by
  refine ⟨_, ?_, same_rebuilt p⟩
  have each : ∀ e ∈ pairs p, StorableEntry json e.1 e.2 := fun e member =>
    storable.entries e.1 e.2 (mem_pairs.mp member)
  unfold decodeProperties encodeProperties
  rw [if_neg (by simp), take_left' (beBytes_length 4 _), drop_left' (beBytes_length 4 _),
    ofBe_beBytes storable.count]
  exact decodeEntries_encoded (pairs p) each ∅

structure StorableNode (json : Json V) (nodeType : Str) (p : Properties V) : Prop where
  type_length : nodeType.bytes.length < 256 ^ 2
  properties : StorableProperties json p

theorem decode_encodeNodeValue {nodeType : Str} (storable : StorableNode json nodeType p) :
    ∃ q, decodeNodeValue json (encodeNodeValue json nodeType p) = some (nodeType, q) ∧ Same q p := by
  obtain ⟨q, decoded, same⟩ := decode_encodeProperties storable.properties
  refine ⟨q, ?_, same⟩
  rw [decodeNodeValue, encodeNodeValue, readLengthFirst_append storable.type_length, Option.bind_some]
  dsimp only
  rw [Str.fromUtf8_some.mpr rfl, Option.bind_some, decoded]
  rfl

structure StorableRecord (r : RecordId) : Prop where
  fits : Fits r
  readable : Readable r
  text_length : r.display.length < 256 ^ 2

structure StorableEdge (json : Json V) (source : RecordId) (edgeType : Str) (target : RecordId)
    (p : Properties V) : Prop where
  source : StorableRecord source
  target : StorableRecord target
  type_length : edgeType.bytes.length < 256 ^ 2
  properties : StorableProperties json p

theorem readRecordId_display {r : RecordId} {rest after : Bytes} :
    readRecordId (lengthFirst 2 r.display ++ rest) = some (r, after) ↔
      Readable r ∧ r.display.length < 256 ^ 2 ∧ after = rest := by
  constructor
  · intro read
    obtain ⟨⟨text, last⟩, pieces, rest⟩ := Option.bind_eq_some_iff.mp read
    obtain ⟨again, parsed, same⟩ := Option.map_eq_some_iff.mp rest
    obtain ⟨rfl, rfl⟩ := Prod.mk.inj same
    have short : again.display.length < 256 ^ 2 := by
      have most := display_length_le parsed
      rw [readLengthFirst_lengthFirst] at pieces
      rw [← (Prod.mk.inj (Option.some.inj pieces)).1, length_take] at most
      omega
    rw [readLengthFirst_append short] at pieces
    obtain ⟨rfl, rfl⟩ := Prod.mk.inj (Option.some.inj pieces)
    exact ⟨parse_display_iff.mp parsed, short, rfl⟩
  · rintro ⟨readable, short, rfl⟩
    rw [readRecordId, readLengthFirst_append short, Option.bind_some]
    dsimp only
    rw [parse_display_iff.mpr readable]
    rfl

/-- What an edge value keeps: record ids that are read back from their texts, and lengths that fit. -/
structure Kept (json : Json V) (source : RecordId) (edgeType : Str) (target : RecordId) (p : Properties V) :
    Prop where
  source : Readable source ∧ source.display.length < 256 ^ 2
  target : Readable target ∧ target.display.length < 256 ^ 2
  type_length : edgeType.bytes.length < 256 ^ 2
  properties : StorableProperties json p

theorem decode_encodeEdgeValue {source target : RecordId} {edgeType : Str}
    (kept : Kept json source edgeType target p) :
    ∃ q, decodeEdgeValue json (encodeEdgeValue json source edgeType target p) =
      some ⟨source, edgeType, target, q⟩ ∧ Same q p := by
  obtain ⟨q, decoded, same⟩ := decode_encodeProperties kept.properties
  refine ⟨q, ?_, same⟩
  rw [decodeEdgeValue, encodeEdgeValue, readLengthFirst_append kept.type_length, Option.bind_some]
  dsimp only
  rw [Str.fromUtf8_some.mpr rfl, Option.bind_some,
    readRecordId_display.mpr ⟨kept.source.1, kept.source.2, rfl⟩, Option.bind_some]
  rw [readRecordId_display.mpr ⟨kept.target.1, kept.target.2, rfl⟩, Option.bind_some]
  rw [decoded]
  rfl

/-- Values come back from their texts. A text that is too long for its field is that of a
    string, an array or an object, and is not read when it is cut. -/
structure Json.Faithful (json : Json V) : Prop where
  inverse : ∀ v, json.decode (json.encode v) = some v
  cut : ∀ v n, 256 ^ 4 ≤ (json.encode v).length → n < 256 ^ 4 → json.decode ((json.encode v).take n) = none

theorem decodeEntries_succ {n : Nat} {data : Bytes} (read : decodeEntries json (n + 1) data p = some q) :
    ∃ key rest text after value, readLengthFirst 2 data = some (Str.bytes key, rest) ∧
      readLengthFirst 4 rest = some (text, after) ∧ json.decode text = some value ∧
        decodeEntries json n after (p.insert key value) = some q := by
  obtain ⟨⟨_, rest⟩, named, read⟩ := Option.bind_eq_some_iff.mp read
  obtain ⟨key, isKey, read⟩ := Option.bind_eq_some_iff.mp read
  obtain ⟨⟨text, after⟩, isText, read⟩ := Option.bind_eq_some_iff.mp read
  obtain ⟨value, decoded, read⟩ := Option.bind_eq_some_iff.mp read
  rw [Str.fromUtf8_some.mp isKey] at named
  exact ⟨key, rest, text, after, value, named, isText, decoded, read⟩

theorem decodeEntries_bounds {n : Nat} {data : Bytes} (read : decodeEntries json n data p = some q) :
    (pairs q).length ≤ (pairs p).length + n ∧
      ∀ k v, get q k = some v → get p k = some v ∨ k.bytes.length < 256 ^ 2 := by
  induction n generalizing data p with
  | zero =>
    cases read
    exact ⟨le_rfl, fun _ _ known => .inl known⟩
  | succ n ih =>
    obtain ⟨key, _, _, _, value, named, _, _, read⟩ := decodeEntries_succ read
    obtain ⟨most, short⟩ := ih read
    have size := pairs_length_insert p key value
    refine ⟨by omega, fun k v known => ?_⟩
    rcases short k v known with before | small
    · rw [get_insert] at before
      split_ifs at before with same
      · exact .inr (same ▸ readLengthFirst_length named)
      · exact .inl before
    · exact .inr small

theorem text_length_of_decoded (faithful : json.Faithful) (entries : List (Str × V))
    (short : ∀ e ∈ entries, e.1.bytes.length < 256 ^ 2)
    (read : decodeEntries json entries.length
      (entries.flatMap fun e => lengthFirst 2 e.1.bytes ++ lengthFirst 4 (json.encode e.2)) p = some q) :
    ∀ e ∈ entries, (json.encode e.2).length < 256 ^ 4 := by
  induction entries generalizing p with
  | nil => simp
  | cons e entries ih =>
    rw [length_cons, flatMap_cons, append_assoc] at read
    obtain ⟨key, _, text, after, value, named, isText, decoded, read⟩ := decodeEntries_succ read
    rw [readLengthFirst_append (short e mem_cons_self)] at named
    obtain ⟨_, rfl⟩ := Prod.mk.inj (Option.some.inj named)
    have fits : (json.encode e.2).length < 256 ^ 4 := by
      by_contra long
      rw [readLengthFirst_lengthFirst, take_append_of_le_length (Nat.mod_le _ _)] at isText
      obtain ⟨rfl, _⟩ := Prod.mk.inj (Option.some.inj isText)
      rw [faithful.cut e.2 _ (Nat.le_of_not_lt long) (Nat.mod_lt _ (by omega))] at decoded
      cases decoded
    rw [readLengthFirst_append fits] at isText
    obtain ⟨_, rfl⟩ := Prod.mk.inj (Option.some.inj isText)
    have others := ih (fun e member => short e (mem_cons_of_mem _ member)) read
    exact forall_mem_cons.mpr ⟨fits, others⟩

theorem storable_of_decoded (faithful : json.Faithful)
    (read : decodeProperties json (encodeProperties json p) = some q) (same : Same q p) :
    StorableProperties json p := by
  unfold decodeProperties encodeProperties at read
  rw [if_neg (by simp), take_left' (beBytes_length 4 _), drop_left' (beBytes_length 4 _)] at read
  obtain ⟨most, keys⟩ := decodeEntries_bounds read
  have count : (pairs p).length < 256 ^ 4 := by
    have field : ofBe (beBytes 4 (pairs p).length) < 256 ^ 4 := by
      simpa [ofBe] using LittleEndian.ofLe_lt (beBytes 4 (pairs p).length).reverse
    rw [pairs_length_of_same same] at most
    exact (most.trans (Nat.zero_add _).le).trans_lt field
  have short : ∀ k v, get p k = some v → k.bytes.length < 256 ^ 2 := fun k v known =>
    (keys k v ((same k).trans known)).resolve_left (by simp)
  rw [ofBe_beBytes count] at read
  have texts := text_length_of_decoded faithful (pairs p)
    (fun e member => short e.1 e.2 (mem_pairs.mp member)) read
  exact ⟨count, fun k v known => ⟨short k v known, texts (k, v) (mem_pairs.mpr known), faithful.inverse v⟩⟩

/-- A text id that is a number comes back as that number, a table name is read up to its first
colon, and lengths are cut to their fields. -/
theorem round_trips_iff (faithful : json.Faithful) (r source target : RecordId) (edgeType : Str)
    (p : Properties V) :
    (RecordId.parse r.display = some r ↔ Readable r) ∧
      ((∃ q, decodeEdgeValue json (encodeEdgeValue json source edgeType target p) =
        some ⟨source, edgeType, target, q⟩ ∧ Same q p) ↔ Kept json source edgeType target p) := by
  refine ⟨parse_display_iff, ?_, decode_encodeEdgeValue⟩
  rintro ⟨q, read, same⟩
  obtain ⟨⟨_, rest⟩, isType, read⟩ := Option.bind_eq_some_iff.mp read
  obtain ⟨again, typed, read⟩ := Option.bind_eq_some_iff.mp read
  obtain ⟨⟨_, _⟩, isSource, read⟩ := Option.bind_eq_some_iff.mp read
  obtain ⟨⟨_, _⟩, isTarget, read⟩ := Option.bind_eq_some_iff.mp read
  obtain ⟨props, decoded, edge⟩ := Option.map_eq_some_iff.mp read
  obtain ⟨rfl, rfl, rfl, rfl⟩ := GraphEdge.mk.inj edge
  obtain rfl := Str.fromUtf8_some.mp typed
  have short := readLengthFirst_length isType
  rw [encodeEdgeValue, readLengthFirst_append short] at isType
  obtain ⟨_, rfl⟩ := Prod.mk.inj (Option.some.inj isType)
  obtain ⟨readable, fits, rfl⟩ := readRecordId_display.mp isSource
  obtain ⟨readable', fits', rfl⟩ := readRecordId_display.mp isTarget
  exact ⟨⟨readable, fits⟩, ⟨readable', fits'⟩, short, storable_of_decoded faithful decoded same⟩

end Codec

def noJson : Json Unit := ⟨fun _ => [], fun _ => some ()⟩

theorem noJson_faithful : noJson.Faithful := ⟨fun _ => rfl, fun _ _ long => absurd long (by simp [noJson])⟩

theorem number_text_becomes_number :
    let user : RecordId := ⟨.ascii "user", .string (.ascii "42")⟩
    RecordId.parse user.display = some ⟨.ascii "user", .integer 42⟩ ∧
      (decodeEdgeValue noJson (encodeEdgeValue noJson user (.ascii "owns") user ∅)).map GraphEdge.source =
        some ⟨.ascii "user", .integer 42⟩ := by
  decide +kernel

/-- An id, and an edge with one property. -/
theorem number_ids_round_trip :
    let user : RecordId := ⟨.ascii "user", .integer 42⟩
    let since : Properties Unit := AList.insert (.ascii "since") () ∅
    RecordId.parse user.display = some user ∧
    ∃ q, decodeEdgeValue noJson (encodeEdgeValue noJson user (.ascii "owns") user since) =
      some ⟨user, .ascii "owns", user, q⟩ ∧ Same q since := by
  intro user since
  have readable : Readable user := ⟨by decide, by decide, by simp [user]⟩
  have laws := round_trips_iff noJson_faithful user user user (.ascii "owns") since
  refine ⟨laws.1.mpr readable, laws.2.mpr
    ⟨⟨readable, by decide +kernel⟩, ⟨readable, by decide +kernel⟩, by decide, by decide, ?_⟩⟩
  intro k v known
  rw [get_insert] at known
  split at known
  · rename_i named
    rw [named]
    exact ⟨by decide, Nat.zero_lt_succ _, rfl⟩
  · cases known

end EdgeEncoding
