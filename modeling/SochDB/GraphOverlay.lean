import SochDB.Library.PrefixScans
import SochDB.EdgeEncoding

/-!
The graph overlay on a key-value connection that is an ordered map. An edge is stored under
two keys; the entry under the second one is empty.
-/
namespace GraphOverlay
open KeyedMaps Utf8 RecordIds EdgeEncoding PrefixScans

structure GraphNode (V : Type) where
  id : RecordId
  nodeType : Str
  properties : Properties V

inductive Failure where
  | serialization (message : String)
  | panicked
  deriving DecidableEq

section Operations
variable {V : Type} (json : Json V) (ns : Str)

/-- The next part of a call runs if the part before it did not fail. -/
def andThen {α β : Type} (first : Except Failure α × Store) (next : α → Store → Except Failure β × Store) :
    Except Failure β × Store :=
  match first with
  | (.error e, store) => (.error e, store)
  | (.ok a, store) => next a store

def addNode (r : RecordId) (nodeType : Str) (properties : Option (Properties V)) (store : Store) :
    GraphNode V × Store :=
  let props := properties.getD ∅
  (⟨r, nodeType, props⟩, store.insert (nodeKey ns r) (encodeNodeValue json nodeType props))

def getNode (r : RecordId) (store : Store) : Except Failure (Option (GraphNode V)) :=
  match get store (nodeKey ns r) with
  | some data =>
    match decodeNodeValue json data with
    | some (nodeType, properties) => .ok (some ⟨r, nodeType, properties⟩)
    | none => .error (.serialization "corrupt node value")
  | none => .ok none

def mergeProperties (properties updates : Properties V) : Properties V :=
  (pairs updates).foldl (fun props e => props.insert e.1 e.2) properties

def updateNode (r : RecordId) (properties : Option (Properties V)) (nodeType : Option Str) (store : Store) :
    Except Failure (Option (GraphNode V)) × Store :=
  andThen (getNode json ns r store, store) fun node store =>
    match node with
    | none => (.ok none, store)
    | some node =>
      let node : GraphNode V :=
        ⟨node.id, nodeType.getD node.nodeType, mergeProperties node.properties (properties.getD ∅)⟩
      (.ok (some node), store.insert (nodeKey ns r) (encodeNodeValue json node.nodeType node.properties))

def addEdge (source : RecordId) (edgeType : Str) (target : RecordId) (properties : Option (Properties V))
    (store : Store) : Except Failure (GraphEdge V) × Store :=
  let props := properties.getD ∅
  match edgeKey ns source edgeType target, reverseKey ns edgeType target source with
  | some key, some revKey =>
    (.ok ⟨source, edgeType, target, props⟩,
      (store.insert key (encodeEdgeValue json source edgeType target props)).insert revKey [])
  | _, _ => (.error .panicked, store)

def getEdge (source : RecordId) (edgeType : Str) (target : RecordId) (store : Store) :
    Except Failure (Option (GraphEdge V)) :=
  match edgeKey ns source edgeType target with
  | none => .error .panicked
  | some key =>
    match get store key with
    | some data =>
      match decodeEdgeValue json data with
      | some edge => .ok (some edge)
      | none => .error (.serialization "corrupt edge value")
    | none => .ok none

def getEdges (source : RecordId) (edgeType : Option Str) (store : Store) : Except Failure (List (GraphEdge V)) :=
  let start := match edgeType with
    | some et => edgeFromTypePrefix ns source et
    | none => edgeFromPrefix ns source
  match start with
  | none => .error .panicked
  | some start => .ok ((scan store start).filterMap fun e => decodeEdgeValue json e.2)

def incomingOfType (edgeType : Str) (target : RecordId) (store : Store) (revKey : List UInt8) :
    Except Failure (List (GraphEdge V)) :=
  match (decodeReverseKey revKey).bind fun decoded => RecordId.fromKey decoded.fromKey with
  | none => .ok []
  | some source => (getEdge json ns source edgeType target store).map Option.toList

def incomingOfAny (target : RecordId) (store : Store) (revKey : List UInt8) : Except Failure (List (GraphEdge V)) :=
  match (decodeReverseKey revKey).filter fun decoded => decoded.toKey = target.toKey with
  | none => .ok []
  | some decoded =>
    match RecordId.fromKey decoded.fromKey with
    | none => .ok []
    | some source => (getEdges json ns source none store).map (·.filter fun edge => edge.target = target)

def collect {α β : Type} (f : α → Except Failure (List β)) : List α → Except Failure (List β)
  | [] => .ok []
  | a :: rest =>
    match f a with
    | .error e => .error e
    | .ok found => (collect f rest).map (found ++ ·)

def getIncomingEdges (target : RecordId) (edgeType : Option Str) (store : Store) :
    Except Failure (List (GraphEdge V)) :=
  match edgeType with
  | some et =>
    match reverseTypeToPrefix ns et target with
    | none => .error .panicked
    | some start => collect (incomingOfType json ns et target store) ((scan store start).map Prod.fst)
  | none => collect (incomingOfAny json ns target store) ((scan store (reversePrefix ns)).map Prod.fst)

def deleteEdge (source : RecordId) (edgeType : Str) (target : RecordId) (store : Store) :
    Except Failure Bool × Store :=
  match edgeKey ns source edgeType target, reverseKey ns edgeType target source with
  | some key, some revKey =>
    match get store key with
    | none => (.ok false, store)
    | some _ => (.ok true, (store.erase key).erase revKey)
  | _, _ => (.error .panicked, store)

def deleteEdges : List (GraphEdge V) → Store → Except Failure Unit × Store
  | [], store => (.ok (), store)
  | edge :: rest, store =>
    andThen (deleteEdge ns edge.source edge.edgeType edge.target store) fun _ store => deleteEdges rest store

/-- Outgoing edges first, then what the reverse index gives. -/
def deleteIncident (r : RecordId) (store : Store) : Except Failure Unit × Store :=
  andThen (getEdges json ns r none store, store) fun outgoing store =>
    andThen (deleteEdges ns outgoing store) fun _ store =>
      andThen (getIncomingEdges json ns r none store, store) fun incoming store =>
        deleteEdges ns incoming store

def deleteNode (r : RecordId) (cascade : Bool) (store : Store) : Except Failure Bool × Store :=
  andThen (getNode json ns r store, store) fun node store =>
    match node with
    | none => (.ok false, store)
    | some _ =>
      andThen (if cascade then deleteIncident json ns r store else (.ok (), store)) fun _ store =>
        (.ok true, store.erase (nodeKey ns r))

end Operations

inductive Call (V : Type) where
  | addNode (r : RecordId) (nodeType : Str) (properties : Option (Properties V))
  | getNode (r : RecordId)
  | updateNode (r : RecordId) (properties : Option (Properties V)) (nodeType : Option Str)
  | deleteNode (r : RecordId) (cascade : Bool)
  | addEdge (source : RecordId) (edgeType : Str) (target : RecordId) (properties : Option (Properties V))
  | getEdge (source : RecordId) (edgeType : Str) (target : RecordId)
  | getEdges (source : RecordId) (edgeType : Option Str)
  | getIncomingEdges (target : RecordId) (edgeType : Option Str)
  | deleteEdge (source : RecordId) (edgeType : Str) (target : RecordId)

inductive Answer (V : Type) where
  | node (node : Option (GraphNode V))
  | edges (edges : List (GraphEdge V))
  | done (changed : Bool)

def perform {V : Type} (json : Json V) (ns : Str) (store : Store) : Call V → Except Failure (Answer V) × Store
  | .addNode r nodeType properties =>
    let (node, store) := addNode json ns r nodeType properties store
    (.ok (.node (some node)), store)
  | .getNode r => ((getNode json ns r store).map .node, store)
  | .updateNode r properties nodeType =>
    andThen (updateNode json ns r properties nodeType store) fun node store => (.ok (.node node), store)
  | .deleteNode r cascade =>
    andThen (deleteNode json ns r cascade store) fun changed store => (.ok (.done changed), store)
  | .addEdge source edgeType target properties =>
    andThen (addEdge json ns source edgeType target properties store) fun edge store => (.ok (.edges [edge]), store)
  | .getEdge source edgeType target =>
    ((getEdge json ns source edgeType target store).map fun edge => .edges edge.toList, store)
  | .getEdges source edgeType => ((getEdges json ns source edgeType store).map .edges, store)
  | .getIncomingEdges target edgeType => ((getIncomingEdges json ns target edgeType store).map .edges, store)
  | .deleteEdge source edgeType target =>
    andThen (deleteEdge ns source edgeType target store) fun changed store => (.ok (.done changed), store)

end GraphOverlay
