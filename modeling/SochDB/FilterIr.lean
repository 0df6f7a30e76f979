import SochDB.Library.Utf8

/-!
Filters in conjunctive normal form, and the two scopes that every query carries: what the
caller is authorized for, and the namespaces that the query names.
-/
namespace FilterIr
open Utf8

/-- Floats are bit patterns. -/
inductive FilterValue where
  | string (s : Str)
  | int64 (i : Int64)
  | uint64 (u : UInt64)
  | float64 (bits : UInt64)
  | bool (b : Bool)
  | null
  deriving DecidableEq

inductive FilterAtom where
  | eq (field : Str) (value : FilterValue)
  | ne (field : Str) (value : FilterValue)
  | inSet (field : Str) (values : List FilterValue)
  | notIn (field : Str) (values : List FilterValue)
  | range (field : Str) (min max : Option FilterValue) (minInclusive maxInclusive : Bool)
  | startsWith (field start : Str)
  | contains (field substring : Str)
  | hasTag (tag : Str)
  | true
  | false
  deriving DecidableEq

namespace FilterAtom

def isTriviallyTrue (atom : FilterAtom) : Bool := atom = .true

def isTriviallyFalse (atom : FilterAtom) : Bool := atom = .false

end FilterAtom

structure Disjunction where
  atoms : List FilterAtom

namespace Disjunction

def single (atom : FilterAtom) : Disjunction := ⟨[atom]⟩

def isTriviallyTrue (d : Disjunction) : Bool := d.atoms.any FilterAtom.isTriviallyTrue

def isTriviallyFalse (d : Disjunction) : Bool := d.atoms.isEmpty || d.atoms.all FilterAtom.isTriviallyFalse

end Disjunction

structure FilterIR where
  clauses : List Disjunction

namespace FilterIR

def all : FilterIR := ⟨[]⟩

def fromAtom (atom : FilterAtom) : FilterIR := ⟨[.single atom]⟩

def and (f g : FilterIR) : FilterIR := ⟨f.clauses ++ g.clauses⟩

def andAtom (f : FilterIR) (atom : FilterAtom) : FilterIR := ⟨f.clauses ++ [.single atom]⟩

def isAll (f : FilterIR) : Bool := f.clauses.isEmpty || f.clauses.all Disjunction.isTriviallyTrue

def isNone (f : FilterIR) : Bool := f.clauses.any Disjunction.isTriviallyFalse

end FilterIR

structure AuthCapabilities where
  canRead : Bool
  canWrite : Bool
  canDelete : Bool
  canAdmin : Bool
  deriving DecidableEq

structure AuthScope where
  allowedNamespaces : List Str
  tenantId : Option Str
  projectId : Option Str
  expiresAt : Option UInt64
  capabilities : AuthCapabilities
  aclTags : List Str
  deriving DecidableEq

namespace AuthScope
variable (auth : AuthScope)

def isExpired (now : UInt64) : Bool := auth.expiresAt.any fun expiresAt => expiresAt < now

def isNamespaceAllowed (name : Str) : Bool := auth.allowedNamespaces.any (· = name)

def namespaceField : Str := Str.ascii "namespace"

def tenantField : Str := Str.ascii "tenant_id"

def projectField : Str := Str.ascii "project_id"

/-- Without allowed namespaces there is no constraint on the namespace. -/
def namespaceClauses : List Disjunction :=
  match auth.allowedNamespaces with
  | [] => []
  | [name] => [.single (.eq namespaceField (.string name))]
  | names => [.single (.inSet namespaceField (names.map .string))]

def toFilterIr : FilterIR :=
  let filter : FilterIR := ⟨auth.namespaceClauses⟩
  let filter := match auth.tenantId with
    | some tenant => filter.andAtom (.eq tenantField (.string tenant))
    | none => filter
  match auth.projectId with
  | some project => filter.andAtom (.eq projectField (.string project))
  | none => filter

end AuthScope

/-- A name that has passed the checks on its text. -/
structure Namespace where
  name : Str
  deriving DecidableEq

inductive NamespaceScope where
  | single (ns : Namespace)
  | multiple (nss : List Namespace)

inductive ScopeError where
  | namespaceNotAllowed (ns : Namespace)
  | authExpired
  deriving DecidableEq

namespace NamespaceScope

def namespaces : NamespaceScope → List Namespace
  | .single ns => [ns]
  | .multiple nss => nss

def validateAgainst (scope : NamespaceScope) (auth : AuthScope) : Except ScopeError Unit :=
  match scope.namespaces.find? fun ns => !auth.isNamespaceAllowed ns.name with
  | some ns => .error (.namespaceNotAllowed ns)
  | none => .ok ()

def toFilterIr : NamespaceScope → FilterIR
  | .single ns => .fromAtom (.eq AuthScope.namespaceField (.string ns.name))
  | .multiple nss => .fromAtom (.inSet AuthScope.namespaceField (nss.map fun ns => .string ns.name))

end NamespaceScope

/-- The query operation itself stays abstract. -/
structure ScopedQuery (Q : Type) where
  scope : NamespaceScope
  query : Q
  filters : FilterIR

namespace ScopedQuery
variable {Q : Type} (q : ScopedQuery Q)

def effectiveFilter : FilterIR := q.scope.toFilterIr.and q.filters

def validate (auth : AuthScope) (now : UInt64) : Except ScopeError Unit :=
  if auth.isExpired now then .error .authExpired else q.scope.validateAgainst auth

end ScopedQuery

structure QueryRequest (Q : Type) where
  query : ScopedQuery Q
  auth : AuthScope

namespace QueryRequest
variable {Q : Type}

def new (query : ScopedQuery Q) (auth : AuthScope) (now : UInt64) : Except ScopeError (QueryRequest Q) :=
  match query.validate auth now with
  | .ok _ => .ok ⟨query, auth⟩
  | .error e => .error e

def effectiveFilter (request : QueryRequest Q) : FilterIR :=
  request.auth.toFilterIr.and request.query.effectiveFilter

end QueryRequest

end FilterIr
