import SochDB.GraphOverlay

/-!
Which graphs are kept apart: the keys of two namespaces, tables or edge types differ if the
hashes of their names do, and an overlay touches only keys with the hash of its namespace.
-/
namespace GraphIsolation
open KeyedMaps Utf8 RecordIds EdgeEncoding PrefixScans GraphOverlay List

section Frame
variable {V : Type} {json : Json V} {ns : Str} {store other : Store} {key : List UInt8}

def Own (ns : Str) (key : List UInt8) : Prop := ∃ tag rest, key = tag :: (nameHash ns ++ rest)

theorem own_of_key {a : Item} (isKey : a.key = some key) : Own a.ns key := by
  obtain ⟨rest, shape⟩ := key_starts isKey
  exact ⟨a.tag, rest, shape⟩

theorem own_of_starts {tag : UInt8} {start rest : List UInt8} (shape : start = tag :: (nameHash ns ++ rest))
    (starts : start <+: key) : Own ns key := by
  obtain ⟨tail, rfl⟩ := starts
  rw [shape]
  exact ⟨tag, rest ++ tail, by simp⟩

theorem own_nodeKey (r : RecordId) : Own ns (nodeKey ns r) := ⟨tagNode, r.toKey, rfl⟩

def Agree (ns : Str) (store other : Store) : Prop := ∀ key, Own ns key → get store key = get other key

section
variable (agree : Agree ns store other)
include agree

theorem agree_insert (key value : List UInt8) :
    Agree ns (store.insert key value) (other.insert key value) := by
  intro k own
  rw [get_insert, get_insert, agree k own]

theorem agree_erase (key : List UInt8) :
    Agree ns (store.erase key) (other.erase key) := by
  intro k own
  rw [get_erase, get_erase, agree k own]

theorem scan_agree {tag : UInt8} {start rest : List UInt8}
    (shape : start = tag :: (nameHash ns ++ rest)) : scan store start = scan other start :=
  scan_congr fun k starts => agree k (own_of_starts shape starts)

theorem getNode_agree (r : RecordId) :
    getNode json ns r store = getNode json ns r other := by
  rw [getNode, getNode, agree _ (own_nodeKey r)]

theorem getEdge_agree (source : RecordId) (edgeType : Str) (target : RecordId) :
    getEdge json ns source edgeType target store = getEdge json ns source edgeType target other := by
  unfold getEdge
  cases isKey : edgeKey ns source edgeType target with
  | none => rfl
  | some key =>
    have own : Own ns key := own_of_key (a := .edge ns source edgeType target) isKey
    dsimp only
    rw [agree key own]

theorem getEdges_agree (source : RecordId) (edgeType : Option Str) :
    getEdges json ns source edgeType store = getEdges json ns source edgeType other := by
  cases edgeType with
  | none =>
    unfold getEdges
    cases isStart : edgeFromPrefix ns source with
    | none => rfl
    | some start =>
      obtain ⟨_, shape⟩ := edgeFromPrefix_eq_some.mp isStart
      dsimp only
      rw [scan_agree agree shape.symm]
  | some edgeType =>
    unfold getEdges
    dsimp only
    cases isStart : edgeFromTypePrefix ns source edgeType with
    | none => rfl
    | some start =>
      obtain ⟨_, shape⟩ := edgeFromTypePrefix_eq_some.mp isStart
      dsimp only
      rw [scan_agree agree shape.symm]

theorem getIncomingEdges_agree (target : RecordId) (edgeType : Option Str) :
    getIncomingEdges json ns target edgeType store = getIncomingEdges json ns target edgeType other := by
  cases edgeType with
  | none =>
    have entry : incomingOfAny json ns target store = incomingOfAny json ns target other := by
      funext revKey
      simp only [incomingOfAny, getEdges_agree agree]
    have whole : reversePrefix ns = tagReverse :: (nameHash ns ++ []) := by simp [reversePrefix]
    rw [getIncomingEdges, getIncomingEdges, entry, scan_agree agree whole]
  | some edgeType =>
    have entry : incomingOfType json ns edgeType target store = incomingOfType json ns edgeType target other := by
      funext revKey
      simp only [incomingOfType, getEdge_agree agree]
    unfold getIncomingEdges
    dsimp only
    cases isStart : reverseTypeToPrefix ns edgeType target with
    | none => rfl
    | some start =>
      obtain ⟨_, shape⟩ := reverseTypeToPrefix_eq_some.mp isStart
      dsimp only
      rw [entry, scan_agree agree shape.symm]

end

def Together (ns : Str) {α : Type} (a b : Except Failure α × Store) : Prop :=
  a.1 = b.1 ∧ Agree ns a.2 b.2

def Keeps (ns : Str) (store after : Store) : Prop := ∀ key, ¬Own ns key → get after key = get store key

theorem keeps_insert (own : Own ns key) (value : List UInt8) : Keeps ns store (store.insert key value) := by
  intro k foreign
  rw [get_insert, if_neg]
  rintro rfl
  exact foreign own

theorem keeps_erase (own : Own ns key) : Keeps ns store (store.erase key) := by
  intro k foreign
  rw [get_erase, if_neg]
  rintro rfl
  exact foreign own

theorem Keeps.trans {a b c : Store} (first : Keeps ns a b) (second : Keeps ns b c) : Keeps ns a c :=
  fun key foreign => (second key foreign).trans (first key foreign)

/-- An operation that reads and writes only keys of the namespace. -/
structure Framed (ns : Str) {α : Type} (f : Store → Except Failure α × Store) : Prop where
  together : ∀ {store other}, Agree ns store other → Together ns (f store) (f other)
  keeps : ∀ store, Keeps ns store (f store).2

namespace Framed
variable {α β : Type}

theorem reads {f : Store → Except Failure α} (alike : ∀ {store other}, Agree ns store other → f store = f other) :
    Framed ns fun store => (f store, store) :=
  ⟨fun agree => ⟨alike agree, agree⟩, fun _ _ _ => rfl⟩

theorem answers (result : Except Failure α) : Framed ns fun store => (result, store) := reads fun _ => rfl

theorem andThen {f : Store → Except Failure α × Store} {g : α → Store → Except Failure β × Store}
    (first : Framed ns f) (next : ∀ x, Framed ns (g x)) : Framed ns fun store => GraphOverlay.andThen (f store) g where
  together {store other} agree := by
    have both := first.together agree
    revert both
    obtain ⟨result, store⟩ := f store
    obtain ⟨_, other⟩ := f other
    rintro ⟨rfl, agree⟩
    cases result with
    | error e => exact ⟨rfl, agree⟩
    | ok x => exact (next x).together agree
  keeps store := by
    have kept := first.keeps store
    revert kept
    obtain ⟨result, after⟩ := f store
    intro kept
    cases result with
    | error e => exact kept
    | ok x => exact kept.trans ((next x).keeps after)

end Framed

theorem deleteEdge_framed (source : RecordId) (edgeType : Str) (target : RecordId) :
    Framed ns (deleteEdge ns source edgeType target) := by
  unfold deleteEdge
  cases isKey : edgeKey ns source edgeType target with
  | none => exact .answers _
  | some key =>
    cases isRev : reverseKey ns edgeType target source with
    | none => exact .answers _
    | some revKey =>
      have own : Own ns key := own_of_key (a := .edge ns source edgeType target) isKey
      have ownRev : Own ns revKey := own_of_key (a := .reverse ns source edgeType target) isRev
      constructor
      · intro store other agree
        dsimp only
        rw [agree key own]
        cases get other key with
        | none => exact ⟨rfl, agree⟩
        | some value => exact ⟨rfl, agree_erase (agree_erase agree key) revKey⟩
      · intro store
        dsimp only
        cases get store key with
        | none => exact fun _ _ => rfl
        | some value => exact (keeps_erase own).trans (keeps_erase ownRev)

theorem deleteEdges_framed (edges : List (GraphEdge V)) : Framed ns (deleteEdges ns edges) := by
  induction edges with
  | nil => exact .answers _
  | cons edge rest ih => exact (deleteEdge_framed edge.source edge.edgeType edge.target).andThen fun _ => ih

theorem deleteIncident_framed (r : RecordId) : Framed ns (deleteIncident json ns r) := by
  refine (Framed.reads fun agree => getEdges_agree agree r none).andThen fun outgoing => ?_
  refine (deleteEdges_framed outgoing).andThen fun _ => ?_
  exact (Framed.reads fun agree => getIncomingEdges_agree agree r none).andThen deleteEdges_framed

theorem deleteNode_framed (r : RecordId) (cascade : Bool) : Framed ns (deleteNode json ns r cascade) := by
  refine (Framed.reads fun agree => getNode_agree agree r).andThen fun node => ?_
  cases node with
  | none => exact .answers _
  | some node =>
    have incident : Framed ns fun s => if cascade then deleteIncident json ns r s else (.ok (), s) := by
      cases cascade with
      | true => exact deleteIncident_framed r
      | false => exact .answers _
    exact incident.andThen fun _ => ⟨fun agree => ⟨rfl, agree_erase agree _⟩, fun _ => keeps_erase (own_nodeKey r)⟩

theorem insert_framed {α : Type} (r : RecordId) (value : List UInt8) (a : α) :
    Framed ns fun store => (.ok a, store.insert (nodeKey ns r) value) :=
  ⟨fun agree => ⟨rfl, agree_insert agree _ _⟩, fun _ => keeps_insert (own_nodeKey r) value⟩

theorem updateNode_framed (r : RecordId) (properties : Option (Properties V)) (nodeType : Option Str) :
    Framed ns (updateNode json ns r properties nodeType) := by
  refine (Framed.reads fun agree => getNode_agree agree r).andThen fun node => ?_
  cases node with
  | none => exact .answers _
  | some node => exact insert_framed r _ _

theorem addEdge_framed (source : RecordId) (edgeType : Str) (target : RecordId)
    (properties : Option (Properties V)) : Framed ns (addEdge json ns source edgeType target properties) := by
  unfold addEdge
  split
  · rename_i key revKey isKey isRev
    have own : Own ns key := own_of_key (a := .edge ns source edgeType target) isKey
    have ownRev : Own ns revKey := own_of_key (a := .reverse ns source edgeType target) isRev
    exact ⟨fun agree => ⟨rfl, agree_insert (agree_insert agree _ _) _ _⟩,
      fun _ => (keeps_insert own _).trans (keeps_insert ownRev _)⟩
  · exact .answers _

theorem perform_framed (call : Call V) : Framed ns fun store => perform json ns store call := by
  cases call with
  | addNode r nodeType properties => exact insert_framed r _ _
  | getNode r => exact .reads fun agree => congrArg _ (getNode_agree agree r)
  | updateNode r properties nodeType => exact (updateNode_framed r properties nodeType).andThen fun _ => .answers _
  | deleteNode r cascade => exact (deleteNode_framed r cascade).andThen fun _ => .answers _
  | addEdge source edgeType target properties =>
    exact (addEdge_framed source edgeType target properties).andThen fun _ => .answers _
  | getEdge source edgeType target =>
    exact .reads fun agree => congrArg (Except.map _) (getEdge_agree agree source edgeType target)
  | getEdges source edgeType => exact .reads fun agree => congrArg (Except.map _) (getEdges_agree agree source edgeType)
  | getIncomingEdges target edgeType =>
    exact .reads fun agree => congrArg (Except.map _) (getIncomingEdges_agree agree target edgeType)
  | deleteEdge source edgeType target =>
    exact (deleteEdge_framed source edgeType target).andThen fun _ => .answers _

end Frame

structure Names where
  namespaces : Set Str
  tables : Set Str
  edgeTypes : Set Str

structure Named (names : Names) (a : Item) : Prop where
  ns : a.ns ∈ names.namespaces
  tables : ∀ t ∈ a.tables, t ∈ names.tables
  edgeTypes : ∀ e ∈ a.edgeTypes, e ∈ names.edgeTypes

def nameOf (name : Str) : UInt32 := fnv1a32 name.bytes

structure HashesDistinct (names : Names) : Prop where
  namespaces : Set.InjOn nameOf names.namespaces
  tables : Set.InjOn nameOf names.tables
  edgeTypes : Set.InjOn nameOf names.edgeTypes

/-- Keys and beginnings of keys tell what they were built for, and the overlay of one namespace
    neither changes what another one stored nor answers differently because of it. -/
structure KeptApart (names : Names) : Prop where
  injective : ∀ a b : Item, Named names a → Named names b → ∀ key, a.key = some key → b.key = some key → a = b
  nodes : ∀ n ∈ names.namespaces, ∀ a : Item, Named names a → ∀ key, a.key = some key →
    nodePrefix n <+: key → ∃ r, a = .node n r
  ofTable : ∀ n ∈ names.namespaces, ∀ t ∈ names.tables, ∀ a : Item, Named names a → ∀ key, a.key = some key →
    nodeTablePrefix n t <+: key → ∃ r, a = .node n r ∧ r.table = t
  edges : ∀ n ∈ names.namespaces, ∀ a : Item, Named names a → ∀ key, a.key = some key →
    edgePrefix n <+: key → ∃ source edgeType target, a = .edge n source edgeType target
  ofType : ∀ n ∈ names.namespaces, ∀ source : RecordId, source.table ∈ names.tables → ∀ e ∈ names.edgeTypes,
    ∀ a : Item, Named names a → ∀ key start, a.key = some key →
    edgeFromTypePrefix n source e = some start → start <+: key → ∃ target, a = .edge n source e target
  unchanged : ∀ (V : Type) (json : Json V) (n : Str) (call : Call V) (store : Store), n ∈ names.namespaces →
    ∀ a : Item, Named names a → a.ns ≠ n → ∀ key, a.key = some key →
    get (perform json n store call).2 key = get store key
  unread : ∀ (V : Type) (json : Json V) (n : Str) (call : Call V) (store other : Store), n ∈ names.namespaces →
    (∀ key, get store key ≠ get other key → ∃ a : Item, Named names a ∧ a.ns ≠ n ∧ a.key = some key) →
    (perform json n store call).1 = (perform json n other call).1

section Separation
variable {names : Names} {a b : Item} {key : List UInt8} {n : Str}

variable (distinct : HashesDistinct names)
include distinct

theorem record_eq {r s : RecordId} (first : r.table ∈ names.tables) (second : s.table ∈ names.tables)
    (keys : r.toKey = s.toKey) : r = s := by
  obtain ⟨hashes, ids⟩ := toKey_eq_iff.mp keys
  obtain ⟨table, id⟩ := r
  obtain ⟨table', id'⟩ := s
  obtain rfl : table = table' := distinct.tables first second hashes
  obtain rfl : id = id' := ids
  rfl

theorem eq_of_alike (first : Named names a) (second : Named names b) (alike : a.Alike b) : a = b := by
  have arguments : ∀ {ns ns' edgeType edgeType' : Str} {source source' target target' : RecordId},
      Named names (.edge ns source edgeType target) → Named names (.edge ns' source' edgeType' target') →
      Item.Alike (.edge ns source edgeType target) (.edge ns' source' edgeType' target') →
      ns = ns' ∧ source = source' ∧ edgeType = edgeType' ∧ target = target' := by
    intro ns ns' edgeType edgeType' source source' target target' first second alike
    obtain ⟨spaces, sources, types, targets⟩ := alike
    exact ⟨distinct.namespaces first.ns second.ns spaces,
      record_eq distinct (first.tables _ (.head _)) (second.tables _ (.head _)) sources,
      distinct.edgeTypes (first.edgeTypes _ (.head _)) (second.edgeTypes _ (.head _)) types,
      record_eq distinct (first.tables _ (.tail _ (.head _))) (second.tables _ (.tail _ (.head _))) targets⟩
  cases a <;> cases b
  case node.node ns r ns' r' =>
    obtain ⟨spaces, keys⟩ := alike
    obtain rfl : ns = ns' := distinct.namespaces first.ns second.ns spaces
    obtain rfl : r = r' := record_eq distinct (first.tables _ (.head _)) (second.tables _ (.head _)) keys
    rfl
  case edge.edge =>
    obtain ⟨rfl, rfl, rfl, rfl⟩ := arguments first second alike
    rfl
  case reverse.reverse =>
    obtain ⟨rfl, rfl, rfl, rfl⟩ := arguments ⟨first.ns, first.tables, first.edgeTypes⟩
      ⟨second.ns, second.tables, second.edgeTypes⟩ alike
    rfl
  all_goals exact alike.elim

theorem of_starts (named : Named names a) (isKey : a.key = some key) (inUse : n ∈ names.namespaces)
    {tag : UInt8} {rest : List UInt8} (starts : tag :: (nameHash n ++ rest) <+: key) :
    a.tag = tag ∧ a.ns = n := by
  obtain ⟨tail, rfl⟩ := starts
  obtain ⟨more, shape⟩ := key_starts isKey
  rw [cons_append, append_assoc] at shape
  obtain ⟨tags, after⟩ := List.cons.inj shape
  obtain ⟨hashes, _⟩ := append_inj after (by simp)
  exact ⟨tags.symm, (distinct.namespaces inUse named.ns (nameHash_injective hashes)).symm⟩

theorem not_own (named : Named names a) (isKey : a.key = some key) (inUse : n ∈ names.namespaces)
    (other : a.ns ≠ n) : ¬Own n key := by
  rintro ⟨tag, rest, shape⟩
  have starts : tag :: (nameHash n ++ rest) <+: key := shape ▸ prefix_rfl
  exact other (of_starts distinct named isKey inUse starts).2

theorem keptApart_of_distinct : KeptApart names where
  injective a b first second key isFirst isSecond :=
    eq_of_alike distinct first second (alike_of_key isFirst isSecond)
  nodes n inUse a named key isKey starts := by
    have whole : tagNode :: (nameHash n ++ []) <+: key := by
      rw [append_nil]
      exact starts
    obtain ⟨tags, rfl⟩ := of_starts distinct named isKey inUse whole
    cases a with
    | node ns r => exact ⟨r, rfl⟩
    | edge | reverse => cases tags
  ofTable n inUse t known a named key isKey starts := by
    obtain ⟨tags, rfl⟩ := of_starts distinct named isKey inUse starts
    cases a with
    | node ns r =>
      refine ⟨r, rfl, ?_⟩
      obtain ⟨tail, shape⟩ := starts
      have keys : nodePrefix ns ++ r.toKey = nodeTablePrefix ns t ++ tail :=
        (Option.some.inj isKey).trans shape.symm
      rw [nodeTablePrefix, append_assoc] at keys
      obtain ⟨hashes, _⟩ := append_inj (append_cancel_left keys) (by simp [RecordId.tablePrefix])
      exact distinct.tables (named.tables _ (.head _)) known (hash_injective hashes)
    | edge | reverse => cases tags
  edges n inUse a named key isKey starts := by
    have whole : tagEdge :: (nameHash n ++ []) <+: key := by
      rw [append_nil]
      exact starts
    obtain ⟨tags, rfl⟩ := of_starts distinct named isKey inUse whole
    cases a with
    | node => cases tags
    | edge ns source edgeType target => exact ⟨source, edgeType, target, rfl⟩
    | reverse => cases tags
  ofType n inUse source known e used a named key start isKey isStart starts := by
    obtain ⟨fits, rfl⟩ := edgeFromTypePrefix_eq_some.mp isStart
    obtain ⟨tags, rfl⟩ := of_starts distinct named isKey inUse starts
    cases a with
    | node => cases tags
    | edge ns source' edgeType target =>
      obtain ⟨fits', _, shape⟩ := edgeKey_eq_some.mp isKey
      obtain ⟨tail, same⟩ := starts
      rw [← shape, append_assoc, append_assoc] at same
      obtain ⟨sources, rest⟩ := BigEndian.lengthFirst_injective (length_lt_of_fits fits)
        (length_lt_of_fits fits') (append_cancel_left same)
      obtain ⟨types, _⟩ := append_inj rest (by simp)
      obtain rfl : source = source' := record_eq distinct known (named.tables _ (.head _)) sources
      obtain rfl : e = edgeType :=
        distinct.edgeTypes used (named.edgeTypes _ (.head _)) (nameHash_injective types)
      exact ⟨target, rfl⟩
    | reverse => cases tags
  unchanged V json n call store inUse a named other key isKey :=
    (perform_framed call).keeps store key (not_own distinct named isKey inUse other)
  unread V json n call store other inUse foreign := by
    have agree : Agree n store other := by
      intro key own
      by_contra differ
      obtain ⟨a, named, elsewhere, isKey⟩ := foreign key differ
      exact not_own distinct named isKey inUse elsewhere own
    exact ((perform_framed call).together agree).1

end Separation

section Examples

def agents : Names where
  namespaces := {Str.ascii "agent_001", Str.ascii "agent_002"}
  tables := {Str.ascii "user"}
  edgeTypes := {Str.ascii "KNOWS"}

end Examples

end GraphIsolation
