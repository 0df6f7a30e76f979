import SochDB.Library.Runs
import SochDB.GraphIsolation

/-!
The overlay as a labelled directed graph. Beside the store runs the graph that the calls are
meant to build; the store holds every node and every edge of it, and the calls answer from it,
except that incoming edges are not found.
-/
namespace GraphRefinement
open KeyedMaps Utf8 RecordIds EdgeEncoding PrefixScans GraphOverlay GraphIsolation Runs List Function

@[ext] structure Graph (V : Type) where
  nodes : RecordId → Option (Str × Properties V)
  edges : RecordId → Str → RecordId → Option (Properties V)

namespace Graph
variable {V : Type} (g : Graph V)

def empty : Graph V := ⟨fun _ => none, fun _ _ _ => none⟩

def setNode (r : RecordId) (node : Option (Str × Properties V)) : Graph V :=
  { g with nodes := Function.update g.nodes r node }

def setEdge (source : RecordId) (edgeType : Str) (target : RecordId) (props : Option (Properties V)) : Graph V :=
  { g with edges := fun s e t => if s = source ∧ e = edgeType ∧ t = target then props else g.edges s e t }

def dropIncident (r : RecordId) : Graph V :=
  { g with edges := fun s e t => if s = r ∨ t = r then none else g.edges s e t }

def apply : Call V → Graph V
  | .addNode r nodeType properties => g.setNode r (some (nodeType, properties.getD ∅))
  | .updateNode r properties nodeType =>
    g.setNode r ((g.nodes r).map fun node =>
      (nodeType.getD node.1, mergeProperties node.2 (properties.getD ∅)))
  | .deleteNode r cascade =>
    match g.nodes r with
    | none => g
    | some _ => (if cascade then g.dropIncident r else g).setNode r none
  | .addEdge source edgeType target properties => g.setEdge source edgeType target (some (properties.getD ∅))
  | .deleteEdge source edgeType target => g.setEdge source edgeType target none
  | _ => g

end Graph

section Answers
variable {V : Type}

def NodeIs (r : RecordId) (node : Option (Str × Properties V)) : Option (GraphNode V) → Prop
  | none => node = none
  | some shown => shown.id = r ∧ ∃ p, node = some (shown.nodeType, p) ∧ Same shown.properties p

structure EdgesAre (g : Graph V) (selected : RecordId → Str → RecordId → Prop) (edges : List (GraphEdge V)) :
    Prop where
  once : (edges.map fun edge => (edge.source, edge.edgeType, edge.target)).Nodup
  sound : ∀ edge ∈ edges, selected edge.source edge.edgeType edge.target ∧
    ∃ p, g.edges edge.source edge.edgeType edge.target = some p ∧ Same edge.properties p
  complete : ∀ s e t, selected s e t → g.edges s e t ≠ none →
    ∃ edge ∈ edges, edge.source = s ∧ edge.edgeType = e ∧ edge.target = t

def Answers (g : Graph V) : Call V → Answer V → Prop
  | .addNode r nodeType properties, .node shown => NodeIs r (some (nodeType, properties.getD ∅)) shown
  | .getNode r, .node shown => NodeIs r (g.nodes r) shown
  | .updateNode r properties nodeType, .node shown =>
    NodeIs r ((g.apply (.updateNode r properties nodeType)).nodes r) shown
  | .deleteNode r _, .done changed => changed = (g.nodes r).isSome
  | .addEdge source edgeType target properties, .edges edges =>
    EdgesAre (g.apply (.addEdge source edgeType target properties))
      (fun s e t => s = source ∧ e = edgeType ∧ t = target) edges
  | .getEdge source edgeType target, .edges edges =>
    EdgesAre g (fun s e t => s = source ∧ e = edgeType ∧ t = target) edges
  | .getEdges source edgeType, .edges edges => EdgesAre g (fun s e _ => s = source ∧ ∀ et ∈ edgeType, e = et) edges
  | .getIncomingEdges target edgeType, .edges edges =>
    EdgesAre g (fun _ e t => t = target ∧ ∀ et ∈ edgeType, e = et) edges
  | .deleteEdge source edgeType target, .done changed => changed = (g.edges source edgeType target).isSome
  | _, _ => False

end Answers

structure World (V : Type) where
  store : Store
  graphs : Str → Graph V

namespace World
variable {V : Type} (json : Json V)

def new : World V := ⟨∅, fun _ => .empty⟩

def step (w : World V) (op : Str × Call V) : World V :=
  ⟨(perform json op.1 w.store op.2).2, Function.update w.graphs op.1 ((w.graphs op.1).apply op.2)⟩

end World

/-- The call answers from the graph, and after a cascading deletion no edge of the record is left
    under either of its keys. -/
structure Right {V : Type} (json : Json V) (w : World V) (op : Str × Call V) : Prop where
  answers : ∃ answer, (perform json op.1 w.store op.2).1 = .ok answer ∧ Answers (w.graphs op.1) op.2 answer
  cascades : ∀ r, op.2 = .deleteNode r true → ∀ s e t, s = r ∨ t = r → ∀ key,
    edgeKey op.1 s e t = some key ∨ reverseKey op.1 e t s = some key →
    get (perform json op.1 w.store op.2).2 key = none

section Conditions
variable {V : Type}

def records : Call V → List RecordId
  | .addNode r _ _ | .getNode r | .updateNode r _ _ | .deleteNode r _ | .getEdges r _ | .getIncomingEdges r _ => [r]
  | .addEdge s _ t _ | .getEdge s _ t | .deleteEdge s _ t => [s, t]

def types : Call V → List Str
  | .addEdge _ e _ _ | .getEdge _ e _ | .deleteEdge _ e _ => [e]
  | .getEdges _ e | .getIncomingEdges _ e => e.toList
  | _ => []

structure Within (names : Names) (op : Str × Call V) : Prop where
  ns : op.1 ∈ names.namespaces
  tables : ∀ r ∈ records op.2, r.table ∈ names.tables
  edgeTypes : ∀ e ∈ types op.2, e ∈ names.edgeTypes

/-- What is written can be read back, keys can be built, and nobody looks for incoming edges where
    there are some. -/
def Sound (json : Json V) (g : Graph V) : Call V → Prop
  | .addNode _ nodeType properties => StorableNode json nodeType (properties.getD ∅)
  | .getNode _ => True
  | .updateNode r properties nodeType => ∀ node, g.nodes r = some node →
    StorableNode json (nodeType.getD node.1) (mergeProperties node.2 (properties.getD ∅))
  | .deleteNode r cascade => cascade = true →
    Fits r ∧ (∀ s e, s ≠ r → g.edges s e r = none) ∧ (g.nodes r = none → ∀ e t, g.edges r e t = none)
  | .addEdge s e t properties => StorableEdge json s e t (properties.getD ∅)
  | .getEdge s _ t => Fits s ∧ Fits t
  | .getEdges s _ => Fits s
  | .getIncomingEdges t edgeType => Fits t ∧ ∀ s e, (∀ et ∈ edgeType, e = et) → g.edges s e t = none
  | .deleteEdge s _ t => Fits s ∧ Fits t

end Conditions

section Representation
variable {V : Type} {json : Json V} {names : Names} {w : World V}

def Holds (json : Json V) (graphs : Str → Graph V) (value : Option (List UInt8)) : Item → Prop
  | .node ns r =>
    match (graphs ns).nodes r with
    | none => value = none
    | some (nodeType, p) => ∃ q, Same q p ∧ value = some (encodeNodeValue json nodeType q)
  | .edge ns s e t =>
    match (graphs ns).edges s e t with
    | none => value = none
    | some p => ∃ q, Same q p ∧ value = some (encodeEdgeValue json s e t q)
  | .reverse ns s e t => value = if ((graphs ns).edges s e t).isSome then some [] else none

structure Represents (json : Json V) (names : Names) (w : World V) : Prop where
  holds : ∀ a, Named names a → ∀ key, a.key = some key → Holds json w.graphs (get w.store key) a
  items : ∀ key value, get w.store key = some value → ∃ a, Named names a ∧ a.key = some key
  nodes : ∀ ns r node, (w.graphs ns).nodes r = some node →
    Named names (.node ns r) ∧ StorableNode json node.1 node.2
  edges : ∀ ns s e t p, (w.graphs ns).edges s e t = some p →
    Named names (.edge ns s e t) ∧ StorableEdge json s e t p

theorem Represents.new (json : Json V) (names : Names) : Represents json names World.new where
  holds a _ key _ := by
    cases a <;> rfl
  items key value known := by cases known
  nodes ns r node known := by cases known
  edges ns s e t p known := by cases known

variable {ns : Str} {r s t : RecordId} {e : Str} {key : List UInt8} {a : Item} {edgeType : Option Str}
  {α β : Type} {op : Str × Call V}

theorem built (fitsSource : Fits s) (fitsTarget : Fits t) (ns e : Str) :
    ∃ key, edgeKey ns s e t = some key := ⟨_, edgeKey_eq_some.mpr ⟨fitsSource, fitsTarget, rfl⟩⟩

theorem built_reverse (fitsSource : Fits s) (fitsTarget : Fits t) (ns e : Str) :
    ∃ key, reverseKey ns e t s = some key := ⟨_, reverseKey_eq_some.mpr ⟨fitsSource, fitsTarget, rfl⟩⟩

def edgesStart (ns : Str) (s : RecordId) : Option Str → Option (List UInt8)
  | some e => edgeFromTypePrefix ns s e
  | none => edgeFromPrefix ns s

theorem getEdges_eq (ns : Str) (s : RecordId) (edgeType : Option Str) (store : Store) :
    getEdges json ns s edgeType store =
      match edgesStart ns s edgeType with
      | none => .error .panicked
      | some start => .ok ((scan store start).filterMap fun entry => decodeEdgeValue json entry.2) := by
  cases edgeType <;> rfl

variable {l : List α} {p q : Properties V} {g : Graph V} {store : Store}
  {properties : Option (Properties V)}

theorem map_filterMap_of_some {γ : Type} {f : α → Option β} {g : β → γ} {h : α → γ}
    (each : ∀ x ∈ l, ∃ y, f x = some y ∧ g y = h x) : (l.filterMap f).map g = l.map h := by
  rw [map_filterMap, ← filterMap_eq_map]
  refine filterMap_congr fun x member => ?_
  obtain ⟨y, shown, same⟩ := each x member
  simp [shown, same]

theorem collect_none {f : α → Except Failure (List β)} (each : ∀ a ∈ l, f a = .ok []) :
    collect f l = .ok [] := by
  induction l with
  | nil => rfl
  | cons a rest ih =>
    rw [collect, each a mem_cons_self, ih fun a member => each a (mem_cons_of_mem _ member)]
    rfl

theorem andThen_ok {first : Except Failure α × Store} {next : α → Store → Except Failure β × Store} {a : α}
    (result : first.1 = .ok a) : andThen first next = next a first.2 := by
  obtain ⟨_, store⟩ := first
  cases result
  rfl

theorem same_merge (same : Same p q) (updates : Properties V) :
    Same (mergeProperties p updates) (mergeProperties q updates) := by
  unfold mergeProperties
  induction pairs updates generalizing p q with
  | nil => exact same
  | cons e rest ih =>
    apply ih
    intro k
    rw [get_insert, get_insert, same k]

theorem setEdge_absent (absent : g.edges s e t = none) :
    g.setEdge s e t none = g := by
  unfold Graph.setEdge
  congr 1
  funext s' e' t'
  split
  · rename_i same
    obtain ⟨rfl, rfl, rfl⟩ := same
    exact absent.symm
  · rfl

def dropEdges : List (GraphEdge V) → Graph V → Graph V
  | [], g => g
  | edge :: rest, g => dropEdges rest (g.setEdge edge.source edge.edgeType edge.target none)

theorem dropEdges_nodes (l : List (GraphEdge V)) (g : Graph V) : (dropEdges l g).nodes = g.nodes := by
  induction l generalizing g with
  | nil => rfl
  | cons edge rest ih => exact ih _

theorem dropEdges_edges (l : List (GraphEdge V)) (g : Graph V) (s : RecordId) (e : Str) (t : RecordId) :
    (dropEdges l g).edges s e t =
      if ∃ edge ∈ l, edge.source = s ∧ edge.edgeType = e ∧ edge.target = t then none else g.edges s e t := by
  induction l generalizing g with
  | nil => simp [dropEdges]
  | cons edge rest ih =>
    rw [dropEdges, ih]
    by_cases later : ∃ edge ∈ rest, edge.source = s ∧ edge.edgeType = e ∧ edge.target = t
    · rw [if_pos later, if_pos (by simpa using Or.inr later)]
    · rw [if_neg later]
      by_cases first : edge.source = s ∧ edge.edgeType = e ∧ edge.target = t
      · obtain ⟨rfl, rfl, rfl⟩ := first
        simp [Graph.setEdge]
      · have other : ¬(s = edge.source ∧ e = edge.edgeType ∧ t = edge.target) :=
          fun same => first ⟨same.1.symm, same.2.1.symm, same.2.2.symm⟩
        have nowhere : ¬∃ edge' ∈ edge :: rest, edge'.source = s ∧ edge'.edgeType = e ∧ edge'.target = t := by
          rw [exists_mem_cons_iff]
          exact not_or.mpr ⟨first, later⟩
        rw [if_neg nowhere]
        exact if_neg other

theorem edgesAre_nil {selected : RecordId → Str → RecordId → Prop}
    (absent : ∀ s e t, selected s e t → g.edges s e t = none) : EdgesAre g selected [] where
  once := nodup_nil
  sound _ impossible := by cases impossible
  complete s e t chosen present := absurd (absent s e t chosen) present

theorem edgesAre_singleton (known : g.edges s e t = some p) (same : Same q p) :
    EdgesAre g (fun s' e' t' => s' = s ∧ e' = e ∧ t' = t) [⟨s, e, t, q⟩] where
  once := nodup_singleton _
  sound edge member := by
    rw [mem_singleton.mp member]
    exact ⟨⟨rfl, rfl, rfl⟩, p, known, same⟩
  complete := by
    rintro _ _ _ ⟨rfl, rfl, rfl⟩ _
    exact ⟨_, mem_singleton_self _, rfl, rfl, rfl⟩

theorem dropIncident_eq {outgoing : List (GraphEdge V)}
    (listed : EdgesAre g (fun s e _ => s = r ∧ ∀ et ∈ (none : Option Str), e = et) outgoing)
    (absent : ∀ s e, s ≠ r → g.edges s e r = none) : dropEdges outgoing g = g.dropIncident r := by
  have edges : (dropEdges outgoing g).edges = (g.dropIncident r).edges := by
    funext s e t
    rw [dropEdges_edges]
    by_cases found : ∃ edge ∈ outgoing, edge.source = s ∧ edge.edgeType = e ∧ edge.target = t
    · obtain ⟨edge, member, rfl, rfl, rfl⟩ := found
      have leaves := (listed.sound edge member).1.1
      rw [if_pos ⟨edge, member, rfl, rfl, rfl⟩]
      exact (if_pos (Or.inl leaves)).symm
    · rw [if_neg found]
      by_cases touches : s = r ∨ t = r
      · have gone : g.edges s e t = none := by
          by_contra present
          by_cases leaves : s = r
          · exact found (listed.complete s e t ⟨leaves, fun _ member => (Option.not_mem_none _ member).elim⟩ present)
          · obtain rfl := touches.resolve_left leaves
            exact present (absent s e leaves)
        rw [gone]
        exact (if_pos touches).symm
      · exact (if_neg touches).symm
  have nodes : (dropEdges outgoing g).nodes = (g.dropIncident r).nodes := dropEdges_nodes outgoing g
  exact Graph.ext nodes edges

section Lookups
variable (graphs : Str → Graph V) (ns : Str)

theorem nodes_setNode (r : RecordId) (node : Option (Str × Properties V)) (ns' : Str) (r' : RecordId) :
    (Function.update graphs ns ((graphs ns).setNode r node) ns').nodes r' =
      if Item.node ns' r' = .node ns r then node else (graphs ns').nodes r' := by
  by_cases here : ns' = ns
  · subst here
    simp [Graph.setNode, update_apply]
  · simp [here]

theorem edges_setNode (r : RecordId) (node : Option (Str × Properties V)) (ns' : Str) :
    (Function.update graphs ns ((graphs ns).setNode r node) ns').edges = (graphs ns').edges := by
  by_cases here : ns' = ns
  · subst here
    simp [Graph.setNode]
  · simp [here]

theorem nodes_setEdge (s : RecordId) (e : Str) (t : RecordId) (p : Option (Properties V)) (ns' : Str) :
    (Function.update graphs ns ((graphs ns).setEdge s e t p) ns').nodes = (graphs ns').nodes := by
  by_cases here : ns' = ns
  · subst here
    simp [Graph.setEdge]
  · simp [here]

theorem edges_setEdge (s : RecordId) (e : Str) (t : RecordId) (p : Option (Properties V)) (ns' : Str)
    (s' : RecordId) (e' : Str) (t' : RecordId) :
    (Function.update graphs ns ((graphs ns).setEdge s e t p) ns').edges s' e' t' =
      if Item.edge ns' s' e' t' = .edge ns s e t then p else (graphs ns').edges s' e' t' := by
  by_cases here : ns' = ns
  · subst here
    simp [Graph.setEdge]
  · simp [here]

end Lookups

theorem Within.node (within : Within names op) (member : r ∈ records op.2) :
    Named names (.node op.1 r) where
  ns := within.ns
  tables t isTable := mem_singleton.mp isTable ▸ within.tables r member
  edgeTypes _ impossible := by cases impossible

theorem Within.edge (within : Within names op) (source : s ∈ records op.2) (target : t ∈ records op.2)
    (edgeType : e ∈ types op.2) :
    Named names (.edge op.1 s e t) where
  ns := within.ns
  tables table isTable := by
    have ends : table = s.table ∨ table = t.table := by simpa [Item.tables] using isTable
    rcases ends with rfl | rfl
    · exact within.tables s source
    · exact within.tables t target
  edgeTypes e' isType := mem_singleton.mp isType ▸ within.edgeTypes e edgeType

section Keys
variable (distinct : HashesDistinct names)
include distinct

theorem from_of_starts {start : List UInt8} (inUse : ns ∈ names.namespaces)
    (known : s.table ∈ names.tables) (isStart : edgeFromPrefix ns s = some start)
    (named : Named names a) (isKey : a.key = some key) (starts : start <+: key) :
    ∃ e t, a = .edge ns s e t := by
  obtain ⟨fits, rfl⟩ := edgeFromPrefix_eq_some.mp isStart
  obtain ⟨tags, rfl⟩ := of_starts distinct named isKey inUse starts
  cases a with
  | node | reverse => cases tags
  | edge ns s' e t =>
    obtain ⟨fits', _, rfl⟩ := edgeKey_eq_some.mp isKey
    obtain ⟨tail, shape⟩ := starts
    rw [append_assoc] at shape
    have keys := BigEndian.lengthFirst_injective (length_lt_of_fits fits) (length_lt_of_fits fits')
      (append_cancel_left shape)
    obtain rfl := record_eq distinct known (named.tables _ (.head _)) keys.1
    exact ⟨e, t, rfl⟩

theorem starts_iff {start : List UInt8} (inUse : ns ∈ names.namespaces) (known : s.table ∈ names.tables)
    (used : ∀ e ∈ edgeType, e ∈ names.edgeTypes) (isStart : edgesStart ns s edgeType = some start)
    (named : Named names a) (isKey : a.key = some key) :
    start <+: key ↔ ∃ e t, a = .edge ns s e t ∧ ∀ et ∈ edgeType, e = et := by
  cases edgeType with
  | none =>
    constructor
    · intro starts
      obtain ⟨e, t, rfl⟩ := from_of_starts distinct inUse known isStart named isKey starts
      exact ⟨e, t, rfl, fun _ member => by cases member⟩
    · rintro ⟨e, t, rfl, _⟩
      obtain ⟨_, rfl⟩ := edgeFromPrefix_eq_some.mp isStart
      obtain ⟨_, _, rfl⟩ := edgeKey_eq_some.mp isKey
      rw [← append_assoc]
      exact prefix_append _ _
  | some et =>
    constructor
    · intro starts
      obtain ⟨t, rfl⟩ := (keptApart_of_distinct distinct).ofType ns inUse s known et (used et rfl) a named key start
        isKey isStart starts
      exact ⟨et, t, rfl, fun _ member => Option.some.inj member⟩
    · rintro ⟨e, t, rfl, typed⟩
      obtain rfl := typed et rfl
      obtain ⟨_, rfl⟩ := edgeFromTypePrefix_eq_some.mp isStart
      obtain ⟨_, _, rfl⟩ := edgeKey_eq_some.mp isKey
      rw [← append_assoc, ← append_assoc, ← append_assoc]
      exact prefix_append _ _

theorem key_eq_iff {b : Item} {other : List UInt8} (first : Named names a) (second : Named names b)
    (isKey : a.key = some key) (isOther : b.key = some other) : key = other ↔ a = b := by
  constructor
  · rintro rfl
    exact eq_of_alike distinct first second (alike_of_key isKey isOther)
  · rintro rfl
    exact Option.some.inj (isKey.symm.trans isOther)

end Keys

structure Follows (json : Json V) (names : Names) (w : World V) (op : Str × Call V) : Prop where
  answers : ∃ answer, (perform json op.1 w.store op.2).1 = .ok answer ∧ Answers (w.graphs op.1) op.2 answer
  represents : Represents json names (w.step json op)

theorem Follows.of_write {first : Except Failure α × Store} {a : α} {answer : α → Answer V}
    (performed : perform json op.1 w.store op.2 = andThen first fun x store => (.ok (answer x), store))
    (result : first.1 = .ok a) (answers : Answers (w.graphs op.1) op.2 (answer a))
    (after : Represents json names ⟨first.2, Function.update w.graphs op.1 ((w.graphs op.1).apply op.2)⟩) :
    Follows json names w op := by
  rw [andThen_ok result] at performed
  refine ⟨⟨_, congrArg Prod.fst performed, answers⟩, ?_⟩
  rw [World.step, performed]
  exact after

section Reads
variable (represents : Represents json names w)
include represents

theorem getNode_spec (named : Named names (.node ns r)) :
    ∃ shown, getNode json ns r w.store = .ok shown ∧ NodeIs r ((w.graphs ns).nodes r) shown := by
  have holds := represents.holds _ named _ rfl
  unfold Holds at holds
  unfold getNode
  cases known : (w.graphs ns).nodes r with
  | none =>
    simp only [known] at holds
    rw [holds]
    exact ⟨none, rfl, rfl⟩
  | some node =>
    obtain ⟨nodeType, p⟩ := node
    simp only [known] at holds
    obtain ⟨q, same, stored⟩ := holds
    have storable := (represents.nodes ns r _ known).2
    obtain ⟨decoded, read, like⟩ := decode_encodeNodeValue
      ⟨storable.type_length, storable.properties.of_same same.symm⟩
    rw [stored]
    dsimp only
    rw [read]
    exact ⟨_, rfl, rfl, p, rfl, like.trans same⟩

theorem decode_stored (named : Named names (.edge ns s e t)) {value : List UInt8}
    (isKey : edgeKey ns s e t = some key) (stored : get w.store key = some value) :
    ∃ q p, decodeEdgeValue json value = some ⟨s, e, t, q⟩ ∧ (w.graphs ns).edges s e t = some p ∧ Same q p := by
  have holds := represents.holds _ named _ isKey
  unfold Holds at holds
  cases known : (w.graphs ns).edges s e t with
  | none =>
    simp only [known] at holds
    rw [stored] at holds
    cases holds
  | some p =>
    simp only [known] at holds
    obtain ⟨q, same, isValue⟩ := holds
    have storable := (represents.edges ns s e t p known).2
    obtain ⟨decoded, read, like⟩ := decode_encodeEdgeValue
      (p := q) ⟨⟨storable.source.readable, storable.source.text_length⟩,
        ⟨storable.target.readable, storable.target.text_length⟩, storable.type_length,
        storable.properties.of_same same.symm⟩
    rw [stored] at isValue
    rw [Option.some.inj isValue]
    exact ⟨decoded, p, read, rfl, like.trans same⟩

theorem stored_iff (named : Named names (.edge ns s e t)) (isKey : edgeKey ns s e t = some key) :
    get w.store key = none ↔ (w.graphs ns).edges s e t = none := by
  have holds := represents.holds _ named _ isKey
  unfold Holds at holds
  cases known : (w.graphs ns).edges s e t with
  | none =>
    simp only [known] at holds
    simp [holds]
  | some p =>
    simp only [known] at holds
    obtain ⟨q, _, isValue⟩ := holds
    simp [isValue]

theorem getEdge_spec (named : Named names (.edge ns s e t)) (fitsSource : Fits s) (fitsTarget : Fits t) :
    ∃ found, getEdge json ns s e t w.store = .ok found ∧
      EdgesAre (w.graphs ns) (fun s' e' t' => s' = s ∧ e' = e ∧ t' = t) found.toList := by
  obtain ⟨key, isKey⟩ := built fitsSource fitsTarget ns e
  unfold getEdge
  rw [isKey]
  dsimp only
  cases stored : get w.store key with
  | none =>
    refine ⟨none, rfl, edgesAre_nil ?_⟩
    rintro _ _ _ ⟨rfl, rfl, rfl⟩
    exact (stored_iff represents named isKey).mp stored
  | some value =>
    obtain ⟨q, p, read, known, same⟩ := decode_stored represents named isKey stored
    dsimp only
    rw [read]
    exact ⟨_, rfl, edgesAre_singleton known same⟩

theorem reverse_stored (named : Named names (.reverse ns s e t)) {value : List UInt8}
    (isKey : reverseKey ns e t s = some key) (stored : get w.store key = some value) :
    (w.graphs ns).edges s e t ≠ none := by
  have holds : get w.store key = if ((w.graphs ns).edges s e t).isSome then some [] else none :=
    represents.holds _ named _ isKey
  intro absent
  rw [stored, absent] at holds
  cases holds

theorem Follows.of_read (store : (perform json op.1 w.store op.2).2 = w.store)
    (graph : (w.graphs op.1).apply op.2 = w.graphs op.1)
    (answers : ∃ answer, (perform json op.1 w.store op.2).1 = .ok answer ∧ Answers (w.graphs op.1) op.2 answer) :
    Follows json names w op where
  answers := answers
  represents := by
    rw [World.step, store, graph, update_eq_self]
    exact represents

end Reads

variable (distinct : HashesDistinct names) (represents : Represents json names w)
include distinct represents

theorem getEdges_spec (inUse : ns ∈ names.namespaces) (known : s.table ∈ names.tables)
    (used : ∀ e ∈ edgeType, e ∈ names.edgeTypes) (fits : Fits s) :
    ∃ edges, getEdges json ns s edgeType w.store = .ok edges ∧
      EdgesAre (w.graphs ns) (fun s' e' _ => s' = s ∧ ∀ et ∈ edgeType, e' = et) edges := by
  have starts : ∃ start, edgesStart ns s edgeType = some start := by
    cases edgeType with
    | none => exact ⟨_, edgeFromPrefix_eq_some.mpr ⟨fits, rfl⟩⟩
    | some e => exact ⟨_, edgeFromTypePrefix_eq_some.mpr ⟨fits, rfl⟩⟩
  obtain ⟨start, isStart⟩ := starts
  -- every entry under the beginning is an edge of the graph and decodes to itself
  have entries : ∀ entry ∈ scan w.store start, ∃ e t q p, decodeEdgeValue json entry.2 = some ⟨s, e, t, q⟩ ∧
      edgeKey ns s e t = some entry.1 ∧ (∀ et ∈ edgeType, e = et) ∧
      (w.graphs ns).edges s e t = some p ∧ Same q p := by
    intro entry member
    obtain ⟨stored, begins⟩ := mem_scan.mp member
    obtain ⟨a, named, isKey⟩ := represents.items _ _ stored
    obtain ⟨e, t, rfl, typed⟩ := (starts_iff distinct inUse known used isStart named isKey).mp begins
    obtain ⟨q, p, read, present, same⟩ := decode_stored represents named isKey stored
    exact ⟨e, t, q, p, read, isKey, typed, present, same⟩
  rw [getEdges_eq, isStart]
  refine ⟨_, rfl, ?_, ?_, ?_⟩
  · -- the keys of a scan differ, so do the edges
    apply List.Nodup.of_map fun ends : RecordId × Str × RecordId => edgeKey ns ends.1 ends.2.1 ends.2.2
    rw [map_map, map_filterMap_of_some (h := some ∘ Prod.fst)]
    · rw [← map_map]
      exact (scan_keys_nodup w.store start).map (Option.some_injective _)
    · intro entry member
      obtain ⟨e, t, q, p, decoded, isKey, _⟩ := entries entry member
      exact ⟨_, decoded, isKey⟩
  · intro edge member
    obtain ⟨entry, inside, read⟩ := mem_filterMap.mp member
    obtain ⟨e, t, q, p, decoded, _, typed, present, same⟩ := entries entry inside
    rw [decoded] at read
    obtain rfl := Option.some.inj read
    exact ⟨⟨rfl, typed⟩, p, present, same⟩
  · rintro s' e t ⟨rfl, typed⟩ present
    obtain ⟨p, isEdge⟩ := Option.ne_none_iff_exists'.mp present
    obtain ⟨named, storable⟩ := represents.edges ns s' e t p isEdge
    obtain ⟨key, isKey⟩ := built storable.source.fits storable.target.fits ns e
    have shown : get w.store key ≠ none := fun absent => present ((stored_iff represents named isKey).mp absent)
    obtain ⟨value, stored⟩ := Option.ne_none_iff_exists'.mp shown
    obtain ⟨q, _, read, _⟩ := decode_stored represents named isKey stored
    have begins := (starts_iff distinct inUse known used isStart named isKey).mpr ⟨e, t, rfl, typed⟩
    exact ⟨_, mem_filterMap.mpr ⟨(key, value), mem_scan.mpr ⟨stored, begins⟩, read⟩, rfl, rfl, rfl⟩

theorem getIncomingEdges_none (inUse : ns ∈ names.namespaces) (known : t.table ∈ names.tables)
    (used : ∀ e ∈ edgeType, e ∈ names.edgeTypes) (fits : Fits t)
    (absent : ∀ s e, (∀ et ∈ edgeType, e = et) → (w.graphs ns).edges s e t = none) :
    getIncomingEdges json ns t edgeType w.store = .ok [] := by
  cases edgeType with
  | some et =>
    have isStart := reverseTypeToPrefix_eq_some.mpr ⟨fits, Eq.refl (reversePrefix ns ++
      (nameHash et ++ BigEndian.lengthFirst 2 t.toKey))⟩
    rw [getIncomingEdges, isStart]
    apply collect_none
    intro revKey member
    obtain ⟨entry, inside, rfl⟩ := mem_map.mp member
    obtain ⟨stored, begins⟩ := mem_scan.mp inside
    obtain ⟨a, named, isKey⟩ := represents.items _ _ stored
    obtain ⟨tags, rfl⟩ := of_starts distinct named isKey inUse begins
    cases a with
    | node | edge => cases tags
    | reverse ns s e t' =>
      obtain ⟨_, fits', shape⟩ := reverseKey_eq_some.mp isKey
      obtain ⟨tail, shape'⟩ := begins
      rw [← shape, append_assoc] at shape'
      obtain ⟨types, rest⟩ := append_inj (by simpa using append_cancel_left shape') (by simp)
      have keys := BigEndian.lengthFirst_injective (length_lt_of_fits fits) (length_lt_of_fits fits') rest
      obtain rfl := record_eq distinct known (named.tables _ (.tail _ (.head _))) keys.1
      obtain rfl : et = e := distinct.edgeTypes (used et rfl) (named.edgeTypes _ (.head _)) (nameHash_injective types)
      exact absurd (absent s et fun _ member => Option.some.inj member)
        (reverse_stored represents named isKey stored)
  | none =>
    rw [getIncomingEdges]
    apply collect_none
    intro revKey member
    obtain ⟨entry, inside, rfl⟩ := mem_map.mp member
    obtain ⟨stored, begins⟩ := mem_scan.mp inside
    obtain ⟨a, named, isKey⟩ := represents.items _ _ stored
    have whole : tagReverse :: (nameHash ns ++ []) <+: entry.1 := by
      rw [append_nil]
      exact begins
    obtain ⟨tags, rfl⟩ := of_starts distinct named isKey inUse whole
    cases a with
    | node | edge => cases tags
    | reverse ns s e t' =>
      have other : ¬t'.toKey = t.toKey := by
        intro keys
        obtain rfl := record_eq distinct (named.tables _ (.tail _ (.head _))) known keys
        exact reverse_stored represents named isKey stored (absent s e fun _ member => by cases member)
      rw [incomingOfAny, decode_reverseKey isKey]
      simp [Option.filter, other]

theorem Represents.setNode (named : Named names (.node ns r)) {node : Option (Str × Properties V)}
    {value : Option (List UInt8)}
    (changed : ∀ k, get store k = if k = nodeKey ns r then value else get w.store k)
    (holds : Holds json (Function.update w.graphs ns ((w.graphs ns).setNode r node)) value (.node ns r))
    (storable : ∀ n, node = some n → StorableNode json n.1 n.2) :
    Represents json names ⟨store, Function.update w.graphs ns ((w.graphs ns).setNode r node)⟩ where
  holds a namedA key isKey := by
    have read : get store key = if a = .node ns r then value else get w.store key := by
      simp only [changed, key_eq_iff distinct namedA named isKey rfl]
    have before := represents.holds a namedA key isKey
    rw [read]
    cases a with
    | node ns' r' =>
      by_cases same : Item.node ns' r' = .node ns r
      · rw [if_pos same, same]
        exact holds
      · have unchanged := nodes_setNode w.graphs ns r node ns' r'
        rw [if_neg same] at unchanged ⊢
        simpa only [Holds, unchanged] using before
    | edge | reverse =>
      rw [if_neg (by simp)]
      simpa only [Holds, edges_setNode] using before
  items key other stored := by
    rw [changed] at stored
    split at stored
    · rename_i same
      exact ⟨_, named, congrArg some same.symm⟩
    · exact represents.items key other stored
  nodes ns' r' n known := by
    rw [nodes_setNode] at known
    split at known
    · rename_i same
      exact ⟨same ▸ named, storable n known⟩
    · exact represents.nodes ns' r' n known
  edges ns' s e t p known := by
    rw [edges_setNode] at known
    exact represents.edges ns' s e t p known

theorem Represents.setEdge (named : Named names (.edge ns s e t)) {revKey : List UInt8}
    (isKey : edgeKey ns s e t = some key) (isRev : reverseKey ns e t s = some revKey)
    {p : Option (Properties V)} (value : Option (List UInt8))
    (changed : ∀ k, get store k = if k = revKey then p.map fun _ => [] else
      if k = key then value else get w.store k)
    (holds : Holds json (Function.update w.graphs ns ((w.graphs ns).setEdge s e t p)) value (.edge ns s e t))
    (storable : ∀ q, p = some q → StorableEdge json s e t q) :
    Represents json names ⟨store, Function.update w.graphs ns ((w.graphs ns).setEdge s e t p)⟩ where
  holds a namedA k isK := by
    have namedRev : Named names (.reverse ns s e t) := ⟨named.ns, named.tables, named.edgeTypes⟩
    have read : get store k = if a = .reverse ns s e t then p.map fun _ => [] else
        if a = .edge ns s e t then value else get w.store k := by
      simp only [changed, key_eq_iff distinct namedA named isK isKey, key_eq_iff distinct namedA namedRev isK isRev]
    have before := represents.holds a namedA k isK
    rw [read]
    cases a with
    | node =>
      rw [if_neg (by simp), if_neg (by simp)]
      simpa only [Holds, nodes_setEdge] using before
    | edge ns' s' e' t' =>
      rw [if_neg (by simp)]
      by_cases same : Item.edge ns' s' e' t' = .edge ns s e t
      · rw [if_pos same, same]
        exact holds
      · have unchanged := edges_setEdge w.graphs ns s e t p ns' s' e' t'
        rw [if_neg same] at unchanged ⊢
        simpa only [Holds, unchanged] using before
    | reverse ns' s' e' t' =>
      have now := edges_setEdge w.graphs ns s e t p ns' s' e' t'
      by_cases same : Item.edge ns' s' e' t' = .edge ns s e t
      · cases same
        rw [if_pos rfl] at now ⊢
        rw [Holds, now]
        cases p <;> rfl
      · have other : ¬Item.reverse ns' s' e' t' = .reverse ns s e t := by
          simpa using same
        rw [if_neg same] at now
        rw [if_neg other, if_neg (by simp), Holds, now]
        exact before
  items k other stored := by
    rw [changed] at stored
    split at stored
    · rename_i same
      exact ⟨.reverse ns s e t, ⟨named.ns, named.tables, named.edgeTypes⟩, same ▸ isRev⟩
    · split at stored
      · rename_i same
        exact ⟨.edge ns s e t, named, same ▸ isKey⟩
      · exact represents.items k other stored
  nodes ns' r n known := by
    rw [nodes_setEdge] at known
    exact represents.nodes ns' r n known
  edges ns' s' e' t' q known := by
    rw [edges_setEdge] at known
    split at known
    · rename_i same
      cases same
      exact ⟨named, storable q known⟩
    · exact represents.edges ns' s' e' t' q known

theorem writeNode_represents (named : Named names (.node ns r)) {nodeType : Str} (same : Same q p)
    (storable : StorableNode json nodeType p) :
    Represents json names ⟨w.store.insert (nodeKey ns r) (encodeNodeValue json nodeType q),
      Function.update w.graphs ns ((w.graphs ns).setNode r (some (nodeType, p)))⟩ := by
  refine represents.setNode distinct named (fun k => get_insert _ _ k _) ?_ ?_
  · have now := nodes_setNode w.graphs ns r (some (nodeType, p)) ns r
    rw [if_pos rfl] at now
    simp only [Holds, now]
    exact ⟨q, same, rfl⟩
  · intro n isNode
    cases isNode
    exact storable

theorem eraseNode_represents (named : Named names (.node ns r)) :
    Represents json names ⟨w.store.erase (nodeKey ns r),
      Function.update w.graphs ns ((w.graphs ns).setNode r none)⟩ := by
  refine represents.setNode distinct named (fun k => get_erase _ _ k) ?_ ?_
  · have now := nodes_setNode w.graphs ns r none ns r
    rw [if_pos rfl] at now
    simp only [Holds, now]
  · rintro _ impossible
    cases impossible

theorem updateNode_spec (named : Named names (.node ns r)) {nodeType : Option Str}
    (sound : Sound json (w.graphs ns) (.updateNode r properties nodeType)) :
    ∃ shown, (updateNode json ns r properties nodeType w.store).1 = .ok shown ∧
      NodeIs r (((w.graphs ns).apply (.updateNode r properties nodeType)).nodes r) shown ∧
      Represents json names ⟨(updateNode json ns r properties nodeType w.store).2,
        Function.update w.graphs ns ((w.graphs ns).apply (.updateNode r properties nodeType))⟩ := by
  obtain ⟨shown, read, is⟩ := getNode_spec represents named
  unfold updateNode
  rw [read]
  cases shown with
  | none =>
    have absent : (w.graphs ns).nodes r = none := is
    have unchanged : (w.graphs ns).apply (.updateNode r properties nodeType) = w.graphs ns := by
      simp only [Graph.apply, Graph.setNode, absent, Option.map_none]
      rw [← absent, update_eq_self]
    refine ⟨none, rfl, ?_, ?_⟩
    · rw [unchanged]
      exact is
    · rw [unchanged, update_eq_self]
      exact represents
  | some node =>
    obtain ⟨isId, p, known, same⟩ := is
    have applied : (w.graphs ns).apply (.updateNode r properties nodeType) = (w.graphs ns).setNode r
        (some (nodeType.getD node.nodeType, mergeProperties p (properties.getD ∅))) := by
      simp [Graph.apply, known]
    have merged := same_merge same (properties.getD ∅)
    refine ⟨_, rfl, ⟨isId, _, ?_, merged⟩, ?_⟩
    · rw [applied]
      simp [Graph.setNode]
    · rw [applied]
      exact writeNode_represents distinct represents named merged (sound _ known)

theorem addEdge_spec (named : Named names (.edge ns s e t))
    (storable : StorableEdge json s e t (properties.getD ∅)) :
    (addEdge json ns s e t properties w.store).1 = .ok ⟨s, e, t, properties.getD ∅⟩ ∧
      Represents json names ⟨(addEdge json ns s e t properties w.store).2,
        Function.update w.graphs ns ((w.graphs ns).setEdge s e t (some (properties.getD ∅)))⟩ := by
  obtain ⟨key, isKey⟩ := built storable.source.fits storable.target.fits ns e
  obtain ⟨revKey, isRev⟩ := built_reverse storable.source.fits storable.target.fits ns e
  unfold addEdge
  rw [isKey, isRev]
  refine ⟨rfl, represents.setEdge distinct named isKey isRev
    (some (encodeEdgeValue json s e t (properties.getD ∅))) (fun k => ?_) ?_ ?_⟩
  · rw [get_insert, get_insert]
    rfl
  · have now := edges_setEdge w.graphs ns s e t (some (properties.getD ∅)) ns s e t
    rw [if_pos rfl] at now
    simp only [Holds, now]
    exact ⟨_, fun _ => rfl, rfl⟩
  · intro q isProps
    cases isProps
    exact storable

theorem deleteEdge_spec (named : Named names (.edge ns s e t)) (fitsSource : Fits s)
    (fitsTarget : Fits t) :
    (deleteEdge ns s e t w.store).1 = .ok ((w.graphs ns).edges s e t).isSome ∧
      Represents json names ⟨(deleteEdge ns s e t w.store).2,
        Function.update w.graphs ns ((w.graphs ns).setEdge s e t none)⟩ := by
  obtain ⟨key, isKey⟩ := built fitsSource fitsTarget ns e
  obtain ⟨revKey, isRev⟩ := built_reverse fitsSource fitsTarget ns e
  have present := stored_iff represents named isKey
  unfold deleteEdge
  rw [isKey, isRev]
  dsimp only
  cases stored : get w.store key with
  | none =>
    have absent := present.mp stored
    rw [setEdge_absent absent, update_eq_self, absent]
    exact ⟨rfl, represents⟩
  | some value =>
    have known : ((w.graphs ns).edges s e t).isSome := by
      rw [Option.isSome_iff_ne_none, ne_eq, ← present, stored]
      simp
    refine ⟨congrArg Except.ok known.symm, represents.setEdge distinct named isKey isRev none (fun k => ?_) ?_ ?_⟩
    · rw [get_erase, get_erase]
      rfl
    · have now := edges_setEdge w.graphs ns s e t none ns s e t
      rw [if_pos rfl] at now
      simp only [Holds, now]
    · rintro _ impossible
      cases impossible

theorem deleteEdges_spec {l : List (GraphEdge V)}
    (each : ∀ edge ∈ l, Named names (.edge ns edge.source edge.edgeType edge.target) ∧ Fits edge.source ∧
      Fits edge.target) :
    (deleteEdges ns l w.store).1 = .ok () ∧
      Represents json names ⟨(deleteEdges ns l w.store).2,
        Function.update w.graphs ns (dropEdges l (w.graphs ns))⟩ := by
  induction l generalizing w with
  | nil =>
    rw [dropEdges, update_eq_self]
    exact ⟨rfl, represents⟩
  | cons edge rest ih =>
    obtain ⟨named, fitsSource, fitsTarget⟩ := each edge mem_cons_self
    obtain ⟨result, after⟩ := deleteEdge_spec distinct represents named fitsSource fitsTarget
    have others := ih after fun edge member => each edge (mem_cons_of_mem _ member)
    dsimp only at others
    rw [update_self, update_idem] at others
    rw [deleteEdges, andThen_ok result]
    exact others

theorem deleteIncident_spec (inUse : ns ∈ names.namespaces) (known : r.table ∈ names.tables)
    (fits : Fits r) (absent : ∀ s e, s ≠ r → (w.graphs ns).edges s e r = none) :
    (deleteIncident json ns r w.store).1 = .ok () ∧
      Represents json names ⟨(deleteIncident json ns r w.store).2,
        Function.update w.graphs ns ((w.graphs ns).dropIncident r)⟩ := by
  have untyped : ∀ e ∈ (none : Option Str), e ∈ names.edgeTypes := fun _ member => (Option.not_mem_none _ member).elim
  obtain ⟨outgoing, read, listed⟩ := getEdges_spec distinct represents inUse known untyped fits
  have each : ∀ edge ∈ outgoing, Named names (.edge ns edge.source edge.edgeType edge.target) ∧
      Fits edge.source ∧ Fits edge.target := by
    intro edge member
    obtain ⟨_, p, present, _⟩ := listed.sound edge member
    obtain ⟨named, storable⟩ := represents.edges ns _ _ _ p present
    exact ⟨named, storable.source.fits, storable.target.fits⟩
  obtain ⟨removed, after⟩ := deleteEdges_spec distinct represents each
  rw [dropIncident_eq listed absent] at after
  have incoming := getIncomingEdges_none distinct after inUse known untyped fits (by
    intro s e _
    dsimp only
    rw [update_self]
    exact if_pos (Or.inr rfl))
  unfold deleteIncident
  rw [read, andThen_ok rfl, andThen_ok removed, incoming, andThen_ok rfl]
  exact ⟨rfl, after⟩

theorem deleteNode_spec {cascade : Bool} (named : Named names (.node ns r))
    (sound : Sound json (w.graphs ns) (.deleteNode r cascade)) :
    (deleteNode json ns r cascade w.store).1 = .ok ((w.graphs ns).nodes r).isSome ∧
      Represents json names ⟨(deleteNode json ns r cascade w.store).2,
        Function.update w.graphs ns ((w.graphs ns).apply (.deleteNode r cascade))⟩ := by
  obtain ⟨shown, read, is⟩ := getNode_spec represents named
  unfold deleteNode
  rw [read, andThen_ok rfl]
  cases shown with
  | none =>
    have absent : (w.graphs ns).nodes r = none := is
    simp only [Graph.apply, absent, update_eq_self]
    exact ⟨rfl, represents⟩
  | some node =>
    obtain ⟨_, p, present, _⟩ := is
    simp only [Graph.apply, present]
    cases cascade with
    | false => exact ⟨rfl, eraseNode_represents distinct represents named⟩
    | true =>
      obtain ⟨fits, absent, _⟩ := sound rfl
      have inUse : ns ∈ names.namespaces := named.ns
      obtain ⟨removed, after⟩ := deleteIncident_spec distinct represents inUse (named.tables _ (.head _)) fits absent
      have erased := eraseNode_represents distinct after named
      dsimp only at erased
      rw [update_self, update_idem] at erased
      simp only [if_true]
      rw [andThen_ok removed]
      exact ⟨rfl, erased⟩

theorem no_edge_keys (inUse : ns ∈ names.namespaces) (known : r.table ∈ names.tables)
    (absent : ∀ s e t, s = r ∨ t = r → (w.graphs ns).edges s e t = none) (touches : s = r ∨ t = r)
    (isKey : edgeKey ns s e t = some key ∨ reverseKey ns e t s = some key) : get w.store key = none := by
  by_contra present
  obtain ⟨value, stored⟩ := Option.ne_none_iff_exists'.mp present
  obtain ⟨a, named, isItem⟩ := represents.items key value stored
  -- the item under the key has the same ends, up to names with the same hash
  have ends : ∀ {ns' s' e' t'}, Named names (.edge ns' s' e' t') →
      Item.Alike (.edge ns s e t) (.edge ns' s' e' t') → ns' = ns ∧ (s' = r ∨ t' = r) := by
    intro ns' s' e' t' named alike
    obtain ⟨spaces, sources, _, targets⟩ := alike
    refine ⟨(distinct.namespaces inUse named.ns spaces).symm, ?_⟩
    rcases touches with rfl | rfl
    · exact Or.inl (record_eq distinct (named.tables _ (.head _)) known sources.symm)
    · exact Or.inr (record_eq distinct (named.tables _ (.tail _ (.head _))) known targets.symm)
  rcases isKey with isKey | isKey
  · have alike := alike_of_key (a := .edge ns s e t) isKey isItem
    cases a with
    | edge ns' s' e' t' =>
      obtain ⟨rfl, touches'⟩ := ends named alike
      exact present ((stored_iff represents named isItem).mpr (absent _ _ _ touches'))
    | node | reverse => exact alike
  · have alike := alike_of_key (a := .reverse ns s e t) isKey isItem
    cases a with
    | reverse ns' s' e' t' =>
      obtain ⟨rfl, touches'⟩ := ends ⟨named.ns, named.tables, named.edgeTypes⟩ alike
      exact reverse_stored represents named isItem stored (absent _ _ _ touches')
    | node | edge => exact alike

theorem perform_follows (within : Within names op) (sound : Sound json (w.graphs op.1) op.2) :
    Follows json names w op := by
  obtain ⟨ns, call⟩ := op
  have inUse : ns ∈ names.namespaces := within.ns
  cases call with
  | addNode r nodeType properties =>
    have named := within.node (r := r) (.head _)
    exact ⟨⟨_, rfl, rfl, _, rfl, fun _ => rfl⟩,
      writeNode_represents distinct represents named (fun _ => rfl) sound⟩
  | getNode r =>
    obtain ⟨shown, read, is⟩ := getNode_spec represents (within.node (r := r) (.head _))
    apply Follows.of_read represents rfl rfl
    exact ⟨.node shown, congrArg (Except.map Answer.node) read, is⟩
  | updateNode r properties nodeType =>
    obtain ⟨shown, result, is, after⟩ := updateNode_spec distinct represents (within.node (r := r) (.head _)) sound
    exact .of_write rfl result is after
  | deleteNode r cascade =>
    obtain ⟨result, after⟩ := deleteNode_spec distinct represents (within.node (r := r) (.head _)) sound
    exact .of_write rfl result rfl after
  | addEdge s e t properties =>
    have named := within.edge (s := s) (t := t) (e := e) (.head _) (.tail _ (.head _)) (.head _)
    obtain ⟨result, after⟩ := addEdge_spec distinct represents named sound
    exact .of_write rfl result (edgesAre_singleton (if_pos ⟨rfl, rfl, rfl⟩) fun _ => rfl) after
  | getEdge s e t =>
    have named := within.edge (s := s) (t := t) (e := e) (.head _) (.tail _ (.head _)) (.head _)
    obtain ⟨found, read, listed⟩ := getEdge_spec represents named sound.1 sound.2
    apply Follows.of_read represents rfl rfl
    refine ⟨.edges found.toList, ?_, listed⟩
    rw [perform, read]
    rfl
  | getEdges s edgeType =>
    have used : ∀ e ∈ edgeType, e ∈ names.edgeTypes := fun e member =>
      within.edgeTypes e (Option.mem_toList.mpr member)
    obtain ⟨edges, read, listed⟩ := getEdges_spec distinct represents inUse (within.tables s (.head _)) used sound
    apply Follows.of_read represents rfl rfl
    exact ⟨_, congrArg (Except.map Answer.edges) read, listed⟩
  | getIncomingEdges t edgeType =>
    obtain ⟨fits, absent⟩ := sound
    have used : ∀ e ∈ edgeType, e ∈ names.edgeTypes := fun e member =>
      within.edgeTypes e (Option.mem_toList.mpr member)
    have read := getIncomingEdges_none distinct represents inUse (within.tables t (.head _)) used fits absent
    apply Follows.of_read represents rfl rfl
    refine ⟨_, congrArg (Except.map Answer.edges) read, edgesAre_nil ?_⟩
    rintro s e _ ⟨rfl, typed⟩
    exact absent s e typed
  | deleteEdge s e t =>
    have named := within.edge (s := s) (t := t) (e := e) (.head _) (.tail _ (.head _)) (.head _)
    obtain ⟨result, after⟩ := deleteEdge_spec distinct represents named sound.1 sound.2
    exact .of_write rfl result rfl after

theorem perform_right (within : Within names op) (sound : Sound json (w.graphs op.1) op.2) :
    Right json w op := by
  have follows := perform_follows distinct represents within sound
  refine ⟨follows.answers, ?_⟩
  obtain ⟨ns, call⟩ := op
  rintro r rfl s e t touches key isKey
  refine no_edge_keys distinct follows.represents within.ns (within.tables r (.head _)) ?_ touches isKey
  obtain ⟨_, absent, alone⟩ := sound rfl
  intro s e t touches
  simp only [World.step, update_self, Graph.apply]
  cases present : (w.graphs ns).nodes r with
  | none =>
    by_cases leaves : s = r
    · exact leaves ▸ alone present e t
    · exact touches.resolve_left leaves ▸ absent s e leaves
  | some node => exact if_pos touches

end Representation

/-- The overlay answers as the graph does in every run that does not look for incoming edges where
    there are some, and that writes only what it can read back. -/
theorem overlay_refines_graph {V : Type} (json : Json V) (names : Names) (distinct : HashesDistinct names)
    (steps : List (Str × Call V))
    (guarded : Guarded (World.step json) (fun w op => Within names op ∧ Sound json (w.graphs op.1) op.2)
      World.new steps) :
    Guarded (World.step json) (Right json) World.new steps := by
  refine Guarded.entails ?_ ?_ (Represents.new json names) guarded
  · intro w op represents condition
    exact perform_right distinct represents condition.1 condition.2
  · intro w op represents condition
    exact (perform_follows distinct represents condition.1 condition.2).represents

section Examples

def test : Str := Str.ascii "test"
def user (n : UInt64) : RecordId := ⟨Str.ascii "user", .integer n⟩
def conv (n : UInt64) : RecordId := ⟨Str.ascii "conv", .integer n⟩
def owns : Str := Str.ascii "OWNS"

def chats : Names where
  namespaces := {test}
  tables := {Str.ascii "user", Str.ascii "conv"}
  edgeTypes := {owns}

def userRun : List (Str × Call Unit) :=
  [(test, .addNode (user 1) (Str.ascii "User") none),
   (test, .addNode (conv 1) (Str.ascii "Conv") none),
   (test, .addEdge (user 1) owns (conv 1) none),
   (test, .getEdges (user 1) (some owns)),
   (test, .getIncomingEdges (user 1) none),
   (test, .deleteNode (user 1) true)]

theorem chats_distinct : HashesDistinct chats := by
  refine ⟨Set.injOn_singleton _ _, ?_, Set.injOn_singleton _ _⟩
  have differ : nameOf (Str.ascii "user") ≠ nameOf (Str.ascii "conv") := by decide
  intro a inUse b also same
  rcases inUse with rfl | rfl <;> rcases also with rfl | rfl
  · rfl
  · exact absurd same differ
  · exact absurd same.symm differ
  · rfl

theorem storable_none : StorableProperties noJson ∅ where
  count := by decide
  entries k v known := by cases known

theorem owning_storable : StorableEdge noJson (user 1) owns (conv 1) ∅ where
  source := ⟨by decide, ⟨by decide, by decide, fun _ impossible => by cases impossible⟩, by decide⟩
  target := ⟨by decide, ⟨by decide, by decide, fun _ impossible => by cases impossible⟩, by decide⟩
  type_length := by decide
  properties := storable_none

theorem within_chats {call : Call Unit}
    (tables : ∀ r ∈ records call, r.table = Str.ascii "user" ∨ r.table = Str.ascii "conv")
    (edgeTypes : ∀ e ∈ types call, e = owns) : Within chats (test, call) :=
  ⟨rfl, tables, edgeTypes⟩

theorem user_run_refines :
    HashesDistinct chats ∧ Guarded (World.step noJson) (Right noJson) World.new userRun := by
  refine ⟨chats_distinct, overlay_refines_graph noJson chats chats_distinct userRun ?_⟩
  refine ⟨⟨within_chats (by decide) (by decide), by decide, storable_none⟩,
    ⟨within_chats (by decide) (by decide), by decide, storable_none⟩,
    ⟨within_chats (by decide) (by decide), owning_storable⟩,
    ⟨within_chats (by decide) (by decide), owning_storable.source.fits⟩,
    ⟨within_chats (by decide) (by decide), by decide, ?_⟩,
    ⟨within_chats (by decide) (by decide), fun _ => ⟨by decide, ?_, ?_⟩⟩, trivial⟩
  · intro s e _
    exact if_neg fun same => absurd same.2.2 (by decide)
  · intro s e _
    exact if_neg fun same => absurd same.2.2 (by decide)
  · intro absent
    cases absent

/-- An edge that is there is not found from its end, neither with its type nor without, and stays
    when the end is deleted with its edges; a number written as text comes back as a number. -/
theorem incoming_edges_are_lost :
    let nodes := (perform noJson test (perform noJson test ∅ (.addNode (user 1) (Str.ascii "User") none)).2
      (.addNode (conv 1) (Str.ascii "Conv") none)).2
    let store := (perform noJson test nodes (.addEdge (user 1) owns (conv 1) none)).2
    let deleted := deleteNode noJson test (conv 1) true store
    let text : RecordId := ⟨Str.ascii "user", .string (Str.ascii "42")⟩
    let textual := (perform noJson test nodes (.addEdge text owns (conv 1) none)).2
    (getEdges noJson test (user 1) none store).toOption.map List.length = some 1 ∧
    (getIncomingEdges noJson test (conv 1) (some owns) store).toOption.map List.length = some 0 ∧
    (getIncomingEdges noJson test (conv 1) none store).toOption.map List.length = some 0 ∧
    deleted.1.toOption = some true ∧
    (getEdges noJson test (user 1) none deleted.2).toOption.map List.length = some 1 ∧
    (getEdges noJson test text none textual).toOption.map (List.map fun edge => edge.source) = some [user 42] := by
  decide +kernel

end Examples

end GraphRefinement
