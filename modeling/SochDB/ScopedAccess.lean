import SochDB.MetadataIndex

/-!
The filter of a request confines its documents to the namespaces of the query and to the
tenant and project of the caller, as far as these fields are indexed.
-/
namespace ScopedAccess
open Utf8 CandidateGate FilterIr MetadataIndexes AuthScope List

section Clauses
variable {Q : Type} {query : ScopedQuery Q} {auth : AuthScope} {now : UInt64}
variable {request : QueryRequest Q}

theorem new_eq_ok :
    QueryRequest.new query auth now = .ok request ↔
      request = ⟨query, auth⟩ ∧ auth.isExpired now = false ∧
        ∀ ns ∈ query.scope.namespaces, ns.name ∈ auth.allowedNamespaces := by
  have allowed : ∀ ns : Namespace,
      (!auth.isNamespaceAllowed ns.name) = false ↔ ns.name ∈ auth.allowedNamespaces := by
    intro ns
    simp [isNamespaceAllowed]
  unfold QueryRequest.new ScopedQuery.validate NamespaceScope.validateAgainst
  cases expired : auth.isExpired now with
  | true => simp
  | false =>
    rw [if_neg Bool.false_ne_true]
    cases found : query.scope.namespaces.find? fun ns => !auth.isNamespaceAllowed ns.name with
    | some ns =>
      have refused : ns.name ∉ auth.allowedNamespaces := by
        have hit : (!auth.isNamespaceAllowed ns.name) = true :=
          List.find?_some (p := fun ns : Namespace => !auth.isNamespaceAllowed ns.name) found
        rw [← allowed ns, hit]
        exact Bool.false_ne_true.symm
      have member := mem_of_find?_eq_some found
      simp only [reduceCtorEq, false_iff]
      exact fun all => refused (all.2.2 ns member)
    | none =>
      rw [List.find?_eq_none] at found
      have all : ∀ ns ∈ query.scope.namespaces, ns.name ∈ auth.allowedNamespaces := fun ns member =>
        (allowed ns).mp (Bool.not_eq_true _ ▸ found ns member)
      simp only [Except.ok.injEq, true_and]
      exact ⟨fun same => ⟨same.symm, all⟩, fun same => same.1.symm⟩

def Passes (additions : List Addition) (doc : DocId) (clause : Disjunction) : Prop :=
  ∃ result, (build additions).evaluateDisjunction clause = some result ∧ result.contains doc = true

variable {additions : List Addition} {doc : DocId} {field value : Str}

theorem passes_eq : Passes additions doc (.single (.eq field (.string value))) ↔
    (Indexed additions field → Recorded additions field value doc) :=
  contains_eq_string

theorem passes_in {names : List Str} : Passes additions doc (.single (.inSet field (names.map .string))) ↔
    (Indexed additions field → ∃ name ∈ names, Recorded additions field name doc) :=
  contains_in_strings

theorem namespace_clauses_pass : (∀ clause ∈ auth.namespaceClauses, Passes additions doc clause) ↔
    (auth.allowedNamespaces ≠ [] → Indexed additions namespaceField →
      ∃ name ∈ auth.allowedNamespaces, Recorded additions namespaceField name doc) := by
  unfold namespaceClauses
  split
  · rename_i empty
    simp [empty]
  · rename_i name names
    simp [names, passes_eq]
  · rename_i empty _
    simp only [mem_singleton, forall_eq, passes_in]
    exact ⟨fun pass _ => pass, fun pass => pass empty⟩

theorem scope_clauses_pass (scope : NamespaceScope) :
    (∀ clause ∈ scope.toFilterIr.clauses, Passes additions doc clause) ↔
      (Indexed additions namespaceField →
        ∃ ns ∈ scope.namespaces, Recorded additions namespaceField ns.name doc) := by
  cases scope with
  | single ns => simp [NamespaceScope.toFilterIr, FilterIR.fromAtom, NamespaceScope.namespaces, passes_eq]
  | multiple nss =>
    have names : nss.map (fun ns => FilterValue.string ns.name) = (nss.map Namespace.name).map .string := by
      rw [map_map]
      rfl
    rw [NamespaceScope.toFilterIr, names]
    simp [FilterIR.fromAtom, passes_in, NamespaceScope.namespaces, -map_map]

theorem auth_clauses_pass : (∀ clause ∈ auth.toFilterIr.clauses, Passes additions doc clause) ↔
    (∀ clause ∈ auth.namespaceClauses, Passes additions doc clause) ∧
      (∀ tenant ∈ auth.tenantId,
        Indexed additions tenantField → Recorded additions tenantField tenant doc) ∧
      ∀ project ∈ auth.projectId,
        Indexed additions projectField → Recorded additions projectField project doc := by
  unfold toFilterIr FilterIR.andAtom
  cases auth.tenantId <;> cases auth.projectId <;>
    simp only [forall_mem_append, forall_mem_singleton, passes_eq, Option.mem_def, reduceCtorEq,
      false_imp_iff, implies_true, and_true, true_and, Option.some.injEq, forall_eq', and_assoc]

theorem not_passes_of_triviallyFalse {clause : Disjunction} (never : clause.isTriviallyFalse = true) :
    ¬Passes additions doc clause := by
  have noneOf : ∀ atoms : List FilterAtom, atoms.all FilterAtom.isTriviallyFalse = true →
      (build additions).unionAtoms .none atoms = some .none := by
    intro atoms allFalse
    induction atoms with
    | nil => rfl
    | cons atom atoms ih =>
      obtain ⟨first, rest⟩ := Bool.and_eq_true_iff.mp allFalse
      rw [of_decide_eq_true first]
      exact ih rest
  have allFalse : clause.atoms.all FilterAtom.isTriviallyFalse = true := by
    rcases Bool.or_eq_true_iff.mp never with empty | all
    · rw [isEmpty_iff.mp empty]
      rfl
    · exact all
  rintro ⟨result, evaluated, contained⟩
  have nothing : result = .none := by
    unfold MetadataIndex.evaluateDisjunction at evaluated
    split at evaluated
    · rename_i atom single
      rw [single] at allFalse
      rw [of_decide_eq_true (Bool.and_eq_true_iff.mp allFalse).1] at evaluated
      exact (Option.some.inj evaluated).symm
    · rw [noneOf _ allFalse] at evaluated
      exact (Option.some.inj evaluated).symm
  rw [nothing] at contained
  cases contained

theorem scope_not_all (scope : NamespaceScope) (before after : List Disjunction) :
    FilterIR.isAll ⟨before ++ (scope.toFilterIr.clauses ++ after)⟩ = false := by
  cases scope <;>
    simp [FilterIR.isAll, NamespaceScope.toFilterIr, FilterIR.fromAtom, Disjunction.isTriviallyTrue,
      Disjunction.single, FilterAtom.isTriviallyTrue]

theorem allowed_iff_passes : (∃ allowed, (build additions).evaluate request.effectiveFilter = some allowed ∧
    allowed.contains doc = true) ↔ ∀ clause ∈ request.effectiveFilter.clauses, Passes additions doc clause := by
  have notAll : request.effectiveFilter.isAll = false := scope_not_all request.query.scope _ _
  have start : AllowedSet.all.Listed := trivial
  unfold MetadataIndex.evaluate
  rw [notAll, if_neg Bool.false_ne_true]
  split
  · rename_i isNone
    obtain ⟨clause, member, never⟩ := any_eq_true.mp isNone
    exact iff_of_false (by simp [AllowedSet.contains])
      fun pass => not_passes_of_triviallyFalse never (pass clause member)
  · exact (intersectClauses_iff start).trans (and_iff_right rfl)

end Clauses

/-- The document lies in a namespace that the query names and the caller may use, and has the
    tenant and the project of the caller. -/
def InScope {Q : Type} (request : QueryRequest Q) (additions : List Addition) (doc : DocId) : Prop :=
  (∃ ns ∈ request.query.scope.namespaces, ns.name ∈ request.auth.allowedNamespaces ∧
    Recorded additions namespaceField ns.name doc) ∧
  (∀ tenant ∈ request.auth.tenantId, Recorded additions tenantField tenant doc) ∧
  ∀ project ∈ request.auth.projectId, Recorded additions projectField project doc

structure ScopeIndexed {Q : Type} (query : ScopedQuery Q) (auth : AuthScope) (fields : List Str) : Prop where
  namespaces : namespaceField ∈ fields
  tenant : query.scope.namespaces ≠ [] → auth.tenantId.isSome → tenantField ∈ fields
  project : query.scope.namespaces ≠ [] → auth.projectId.isSome → projectField ∈ fields

section Necessity
variable {Q : Type} {query : ScopedQuery Q} {auth : AuthScope} {now : UInt64} {request : QueryRequest Q}

def wanted (auth : AuthScope) (name field : Str) : Str :=
  if field = namespaceField then name
  else if field = tenantField then auth.tenantId.getD .empty
  else auth.projectId.getD .empty

def oneDocument (auth : AuthScope) (fields : List Str) (name : Str) : List Addition :=
  fields.map fun field => .equality field (.string (wanted auth name field)) 0

variable {fields : List Str} {name : Str}

theorem recorded_oneDocument {field value : Str} :
    Recorded (oneDocument auth fields name) field value 0 ↔ field ∈ fields ∧ wanted auth name field = value := by
  simp [Recorded, oneDocument]

theorem indexed_oneDocument {field : Str} :
    Indexed (oneDocument auth fields name) field ↔ field ∈ fields := by
  simp [Indexed, oneDocument]

theorem oneDocument_passes (within : ∀ ns ∈ query.scope.namespaces, ns.name ∈ auth.allowedNamespaces)
    (asked : namespaceField ∈ fields → ∃ ns ∈ query.scope.namespaces, ns.name = name) :
    ∀ clause ∈ (QueryRequest.effectiveFilter ⟨{ query with filters := .all }, auth⟩).clauses,
      Passes (oneDocument auth fields name) 0 clause := by
  have tenantValue : ∀ tenant ∈ auth.tenantId, wanted auth name tenantField = tenant := by
    intro tenant known
    rw [wanted, if_neg (by decide), if_pos rfl, Option.mem_def.mp known]
    rfl
  have projectValue : ∀ project ∈ auth.projectId, wanted auth name projectField = project := by
    intro project known
    rw [wanted, if_neg (by decide), if_neg (by decide), Option.mem_def.mp known]
    rfl
  have named : namespaceField ∈ fields → ∃ ns ∈ query.scope.namespaces,
      Recorded (oneDocument auth fields name) namespaceField ns.name 0 := by
    intro inside
    obtain ⟨ns, member, rfl⟩ := asked inside
    exact ⟨ns, member, recorded_oneDocument.mpr ⟨inside, if_pos rfl⟩⟩
  have scopePass := (scope_clauses_pass query.scope).mpr fun indexed => named (indexed_oneDocument.mp indexed)
  have namespacePass : ∀ clause ∈ auth.namespaceClauses, Passes (oneDocument auth fields name) 0 clause := by
    rw [namespace_clauses_pass]
    intro _ indexed
    obtain ⟨ns, member, recorded⟩ := named (indexed_oneDocument.mp indexed)
    exact ⟨ns.name, within ns member, recorded⟩
  have authPass := auth_clauses_pass.mpr ⟨namespacePass,
    fun tenant known indexed =>
      recorded_oneDocument.mpr ⟨indexed_oneDocument.mp indexed, tenantValue tenant known⟩,
    fun project known indexed =>
      recorded_oneDocument.mpr ⟨indexed_oneDocument.mp indexed, projectValue project known⟩⟩
  exact forall_mem_append.mpr ⟨authPass, forall_mem_append.mpr ⟨scopePass, forall_mem_nil _⟩⟩

end Necessity

/-- Whatever the caller filters for, only documents in scope are allowed, if and only if the
    fields that decide it are indexed. -/
theorem scope_enforced_iff {Q : Type} (query : ScopedQuery Q) (auth : AuthScope) (now : UInt64)
    (fields : List Str) (accepted : QueryRequest.new query auth now = .ok ⟨query, auth⟩) :
    (∀ (filters : FilterIR) (request : QueryRequest Q) (additions : List Addition) (allowed : AllowedSet)
      (doc : DocId),
      QueryRequest.new { query with filters := filters } auth now = .ok request →
      (∀ field, Indexed additions field ↔ field ∈ fields) →
      (build additions).evaluate request.effectiveFilter = some allowed →
      allowed.contains doc = true → InScope request additions doc) ↔
      ScopeIndexed query auth fields := by
  obtain ⟨_, unexpired, within⟩ := new_eq_ok.mp accepted
  constructor
  · intro enforced
    have confined : ∀ name, (namespaceField ∈ fields → ∃ ns ∈ query.scope.namespaces, ns.name = name) →
        InScope ⟨{ query with filters := .all }, auth⟩ (oneDocument auth fields name) 0 := by
      intro name asked
      obtain ⟨allowed, evaluated, contained⟩ := allowed_iff_passes.mpr (oneDocument_passes within asked)
      exact enforced .all _ _ allowed 0 (new_eq_ok.mpr ⟨rfl, unexpired, within⟩)
        (fun _ => indexed_oneDocument) evaluated contained
    have namespaces : namespaceField ∈ fields := by
      by_contra absent
      obtain ⟨⟨ns, _, _, recorded⟩, _⟩ := confined .empty (fun inside => absurd inside absent)
      exact absent (recorded_oneDocument.mp recorded).1
    refine ⟨namespaces, fun named known => ?_, fun named known => ?_⟩
    · obtain ⟨ns, member⟩ := exists_mem_of_ne_nil _ named
      obtain ⟨tenant, isTenant⟩ := Option.isSome_iff_exists.mp known
      have inScope := confined ns.name fun _ => ⟨ns, member, rfl⟩
      exact (recorded_oneDocument.mp (inScope.2.1 tenant isTenant)).1
    · obtain ⟨ns, member⟩ := exists_mem_of_ne_nil _ named
      obtain ⟨project, isProject⟩ := Option.isSome_iff_exists.mp known
      have inScope := confined ns.name fun _ => ⟨ns, member, rfl⟩
      exact (recorded_oneDocument.mp (inScope.2.2 project isProject)).1
  · intro decided filters request additions allowed doc isRequest fieldsOf evaluated contained
    obtain ⟨rfl, _⟩ := new_eq_ok.mp isRequest
    have pass := allowed_iff_passes.mp ⟨_, evaluated, contained⟩
    have authPass := auth_clauses_pass.mp fun clause member => pass clause (mem_append_left _ member)
    have scopePass := (scope_clauses_pass query.scope).mp fun clause member =>
      pass clause (mem_append_right _ (mem_append_left _ member))
    obtain ⟨ns, member, recorded⟩ := scopePass ((fieldsOf _).mpr decided.namespaces)
    have named : query.scope.namespaces ≠ [] := ne_nil_of_mem member
    refine ⟨⟨ns, member, within ns member, recorded⟩, ?_, ?_⟩
    · intro tenant known
      exact authPass.2.1 tenant known
        ((fieldsOf _).mpr (decided.tenant named (Option.isSome_iff_exists.mpr ⟨tenant, known⟩)))
    · intro project known
      exact authPass.2.2 project known
        ((fieldsOf _).mpr (decided.project named (Option.isSome_iff_exists.mpr ⟨project, known⟩)))

section Examples

def acme : AuthScope where
  allowedNamespaces := [Str.ascii "prod"]
  tenantId := some (Str.ascii "acme")
  projectId := none
  expiresAt := none
  capabilities := ⟨true, false, false, false⟩
  aclTags := []

def prodQuery : ScopedQuery Unit := ⟨.single ⟨Str.ascii "prod"⟩, (), .all⟩

/-- With all three fields indexed a document of another tenant stays out of reach. -/
theorem acme_confined :
    QueryRequest.new prodQuery acme 0 = .ok ⟨prodQuery, acme⟩ ∧
    ∀ (request : QueryRequest Unit) (additions : List Addition) (allowed : AllowedSet) (doc : DocId),
      QueryRequest.new prodQuery acme 0 = .ok request →
      (∀ field, Indexed additions field ↔ field ∈ [namespaceField, tenantField, projectField]) →
      (build additions).evaluate request.effectiveFilter = some allowed →
      allowed.contains doc = true → InScope request additions doc := by
  have accepted : QueryRequest.new prodQuery acme 0 = .ok ⟨prodQuery, acme⟩ := by
    exact new_eq_ok.mpr ⟨rfl, by decide⟩
  refine ⟨accepted, ?_⟩
  exact (scope_enforced_iff prodQuery acme 0 [namespaceField, tenantField, projectField] accepted).mpr
    ⟨by simp, by simp, by simp⟩ .all

/-- A document without an entry under `tenant_id` is allowed when nobody has one, and an index
    that knows no namespaces allows everything, even to a query that names none. -/
theorem unindexed_fields_are_open :
    let untagged := [Addition.equality namespaceField (.string (Str.ascii "prod")) 7]
    let empty : ScopedQuery Unit := ⟨.multiple [], (), .all⟩
    (QueryRequest.new prodQuery acme 0 = .ok ⟨prodQuery, acme⟩ ∧
      (∃ allowed, (build untagged).evaluate (QueryRequest.effectiveFilter ⟨prodQuery, acme⟩) = some allowed ∧
        allowed.contains 7 = true) ∧
      ¬InScope ⟨prodQuery, acme⟩ untagged 7) ∧
    (QueryRequest.new empty acme 0 = .ok ⟨empty, acme⟩ ∧
      (∃ allowed, (build []).evaluate (QueryRequest.effectiveFilter ⟨empty, acme⟩) = some allowed ∧
        allowed.contains 7 = true) ∧
      ¬InScope ⟨empty, acme⟩ [] 7) := by
  intro untagged empty
  refine ⟨⟨?_, ⟨_, rfl, rfl⟩, ?_⟩, ?_, ⟨_, rfl, rfl⟩, ?_⟩
  · exact new_eq_ok.mpr ⟨rfl, by decide⟩
  · intro inScope
    have recorded := inScope.2.1 (Str.ascii "acme") rfl
    simp only [Recorded, untagged, mem_singleton, Addition.equality.injEq] at recorded
    exact absurd recorded.1 (by decide)
  · exact new_eq_ok.mpr ⟨rfl, by decide⟩
  · rintro ⟨⟨ns, member, _⟩, _⟩
    cases member

end Examples

end ScopedAccess
