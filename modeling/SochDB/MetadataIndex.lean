import SochDB.Library.KeyedMaps
import SochDB.CandidateGate
import SochDB.FilterIr

/-!
Inverted indexes over the metadata of documents, and the evaluation of a filter by them. A
field without an index does not constrain anything.
-/
namespace MetadataIndexes
open KeyedMaps Utf8 SortedKeys CandidateGate FilterIr

abbrev PostingSet := SortedIds

def Posted {κ : Type} [DecidableEq κ] (postings : Map κ PostingSet) (value : κ) (doc : DocId) : Prop :=
  ∃ posting, get postings value = some posting ∧ doc ∈ posting.ids

def toAllowedSet (posting : PostingSet) : AllowedSet :=
  if posting.ids.isEmpty then .none else .fromSortedVec posting.ids

structure EqualityIndex where
  stringPostings : Map Str PostingSet
  intPostings : Map Int64 PostingSet
  uintPostings : Map UInt64 PostingSet

namespace EqualityIndex
variable (index : EqualityIndex)

def new : EqualityIndex := ⟨∅, ∅, ∅⟩

def addString (value : Str) (doc : DocId) : EqualityIndex :=
  { index with stringPostings := upsert index.stringPostings value .new (·.add doc) }

def addInt (value : Int64) (doc : DocId) : EqualityIndex :=
  { index with intPostings := upsert index.intPostings value .new (·.add doc) }

def addUint (value : UInt64) (doc : DocId) : EqualityIndex :=
  { index with uintPostings := upsert index.uintPostings value .new (·.add doc) }

def lookup {κ : Type} [DecidableEq κ] (postings : Map κ PostingSet) (value : κ) : AllowedSet :=
  ((get postings value).map toAllowedSet).getD .none

def lookupIn {κ : Type} [DecidableEq κ] (postings : Map κ PostingSet) (values : List κ) : AllowedSet :=
  match values.filterMap (get postings) with
  | [] => .none
  | first :: rest => toAllowedSet (rest.foldl SortedIds.union first)

def lookupString (value : Str) : AllowedSet := lookup index.stringPostings value

def lookupInt (value : Int64) : AllowedSet := lookup index.intPostings value

def lookupUint (value : UInt64) : AllowedSet := lookup index.uintPostings value

def lookupStringIn (values : List Str) : AllowedSet := lookupIn index.stringPostings values

def lookupUintIn (values : List UInt64) : AllowedSet := lookupIn index.uintPostings values

end EqualityIndex

structure RangeIndex where
  entries : Map Int64 PostingSet

namespace RangeIndex

def new : RangeIndex := ⟨∅⟩

def add (index : RangeIndex) (value : Int64) (doc : DocId) : RangeIndex :=
  ⟨upsert index.entries value .new (·.add doc)⟩

/-- The ordered map refuses a range whose end lies before its start, and an empty open one. -/
def refused (min max : Option Int64) (minInclusive maxInclusive : Bool) : Bool :=
  match min, max with
  | some low, some high => high < low || low = high && !minInclusive && !maxInclusive
  | _, _ => false

def inRange (min max : Option Int64) (minInclusive maxInclusive : Bool) (value : Int64) : Bool :=
  (min.all fun low => low < value || minInclusive && low = value) &&
    max.all fun high => value < high || maxInclusive && high = value

def rangeQuery (index : RangeIndex) (min max : Option Int64) (minInclusive maxInclusive : Bool) :
    Option AllowedSet :=
  if refused min max minInclusive maxInclusive then none
  else
    let hits := (pairs index.entries).filter fun e => inRange min max minInclusive maxInclusive e.1
    some (toAllowedSet ((hits.map Prod.snd).foldl SortedIds.union .new))

end RangeIndex

structure MetadataIndex where
  equalityIndexes : Map Str EqualityIndex
  rangeIndexes : Map Str RangeIndex

namespace MetadataIndex
variable (index : MetadataIndex)

def new : MetadataIndex := ⟨∅, ∅⟩

/-- Values of other types create the index of the field but no posting. -/
def addValue (value : FilterValue) (doc : DocId) (field : EqualityIndex) : EqualityIndex :=
  match value with
  | .string s => field.addString s doc
  | .int64 i => field.addInt i doc
  | .uint64 u => field.addUint u doc
  | _ => field

def addEquality (field : Str) (value : FilterValue) (doc : DocId) : MetadataIndex :=
  { index with equalityIndexes := upsert index.equalityIndexes field .new (addValue value doc) }

def addRange (field : Str) (value : Int64) (doc : DocId) : MetadataIndex :=
  { index with rangeIndexes := upsert index.rangeIndexes field .new (·.add value doc) }

def stringOf : FilterValue → Option Str
  | .string s => some s
  | _ => none

def uintOf : FilterValue → Option UInt64
  | .uint64 u => some u
  | _ => none

def boundOf : FilterValue → Option Int64
  | .int64 i => some i
  | .uint64 u => some u.toInt64
  | _ => none

/-- The evaluation stops on a range that the ordered map refuses. -/
def evaluateAtom : FilterAtom → Option AllowedSet
  | .eq field value => some <|
    match get index.equalityIndexes field with
    | some equality =>
      match value with
      | .string s => equality.lookupString s
      | .int64 i => equality.lookupInt i
      | .uint64 u => equality.lookupUint u
      | _ => .all
    | none => .all
  | .inSet field values => some <|
    match get index.equalityIndexes field with
    | some equality =>
      let strings := values.filterMap stringOf
      let uints := values.filterMap uintOf
      if strings.length = values.length then equality.lookupStringIn strings
      else if uints.length = values.length then equality.lookupUintIn uints
      else .all
    | none => .all
  | .range field min max minInclusive maxInclusive =>
    match get index.rangeIndexes field with
    | some entries => entries.rangeQuery (min.bind boundOf) (max.bind boundOf) minInclusive maxInclusive
    | none => some .all
  | .true => some .all
  | .false => some .none
  | _ => some .all

def unionAtoms (result : AllowedSet) : List FilterAtom → Option AllowedSet
  | [] => some result
  | atom :: rest =>
    (index.evaluateAtom atom).bind fun atomResult =>
      let result := result.union atomResult
      if result.isAll then some .all else unionAtoms result rest

def evaluateDisjunction (clause : Disjunction) : Option AllowedSet :=
  match clause.atoms with
  | [atom] => index.evaluateAtom atom
  | atoms => index.unionAtoms .none atoms

def intersectClauses (result : AllowedSet) : List Disjunction → Option AllowedSet
  | [] => some result
  | clause :: rest =>
    (index.evaluateDisjunction clause).bind fun clauseResult =>
      let result := result.intersect clauseResult
      if result.isEmpty then some .none else intersectClauses result rest

def evaluate (filter : FilterIR) : Option AllowedSet :=
  if filter.isAll then some .all
  else if filter.isNone then some .none
  else index.intersectClauses .all filter.clauses

end MetadataIndex

section Evaluation
open MetadataIndex
variable {index : MetadataIndex} {doc : DocId}

@[simp] theorem contains_toAllowedSet (posting : PostingSet) :
    (toAllowedSet posting).contains doc = true ↔ doc ∈ posting.ids := by
  unfold toAllowedSet
  split
  · rename_i empty
    rw [List.isEmpty_iff.mp empty]
    simp
  · simp

theorem listed_toAllowedSet (posting : PostingSet) : (toAllowedSet posting).Listed := by
  unfold toAllowedSet
  split
  · trivial
  · exact AllowedSet.listed_fromSortedVec _

variable {κ : Type} {result start : AllowedSet} (postings : Map κ PostingSet)

theorem listed_lookup [DecidableEq κ] (value : κ) :
    (EqualityIndex.lookup postings value).Listed := by
  unfold EqualityIndex.lookup
  cases get postings value with
  | none => trivial
  | some posting => exact listed_toAllowedSet posting

theorem listed_lookupIn [DecidableEq κ] (values : List κ) :
    (EqualityIndex.lookupIn postings values).Listed := by
  unfold EqualityIndex.lookupIn
  split
  · trivial
  · exact listed_toAllowedSet _

theorem contains_lookup [DecidableEq κ] (value : κ) :
    (EqualityIndex.lookup postings value).contains doc = true ↔
      Posted postings value doc := by
  unfold EqualityIndex.lookup Posted
  cases get postings value with
  | none => simp
  | some posting => simp

theorem mem_foldl_union (first : PostingSet) (rest : List PostingSet) :
    doc ∈ (rest.foldl SortedIds.union first).ids ↔ ∃ posting ∈ first :: rest, doc ∈ posting.ids := by
  induction rest generalizing first with
  | nil => simp
  | cons next rest ih =>
    rw [List.foldl_cons, ih]
    simp only [List.mem_cons, exists_eq_or_imp, SortedIds.union, mem_merge, or_assoc]

theorem contains_lookupIn [DecidableEq κ] (values : List κ) :
    (EqualityIndex.lookupIn postings values).contains doc = true ↔
      ∃ value ∈ values, Posted postings value doc := by
  have found : (∃ posting ∈ values.filterMap (get postings), doc ∈ posting.ids) ↔
      ∃ value ∈ values, Posted postings value doc := by
    simp only [List.mem_filterMap]
    constructor
    · rintro ⟨posting, ⟨value, member, known⟩, inside⟩
      exact ⟨value, member, posting, known, inside⟩
    · rintro ⟨value, member, posting, known, inside⟩
      exact ⟨posting, ⟨value, member, known⟩, inside⟩
  rw [← found]
  unfold EqualityIndex.lookupIn
  split
  · rename_i empty
    simp [empty]
  · rename_i first rest shape
    rw [contains_toAllowedSet, mem_foldl_union, shape]

theorem listed_rangeQuery {entries : RangeIndex} {min max : Option Int64} {minInclusive maxInclusive : Bool}
    (evaluated : entries.rangeQuery min max minInclusive maxInclusive = some result) :
    result.Listed := by
  unfold RangeIndex.rangeQuery at evaluated
  split at evaluated
  · cases evaluated
  · obtain rfl := Option.some.inj evaluated
    exact listed_toAllowedSet _

theorem listed_evaluateAtom {atom : FilterAtom} (evaluated : index.evaluateAtom atom = some result) :
    result.Listed := by
  cases atom with
  | eq field value =>
    obtain rfl := Option.some.inj evaluated
    split
    · split
      all_goals first | exact listed_lookup _ _ | trivial
    · trivial
  | inSet field values =>
    obtain rfl := Option.some.inj evaluated
    split
    · dsimp only
      split
      · exact listed_lookupIn _ _
      · split
        · exact listed_lookupIn _ _
        · trivial
    · trivial
  | range field min max minInclusive maxInclusive =>
    dsimp only [evaluateAtom] at evaluated
    split at evaluated
    · exact listed_rangeQuery evaluated
    · obtain rfl := Option.some.inj evaluated
      trivial
  | _ =>
    obtain rfl := Option.some.inj evaluated
    trivial

theorem listed_unionAtoms {atoms : List FilterAtom} (listed : start.Listed)
    (evaluated : index.unionAtoms start atoms = some result) : result.Listed := by
  induction atoms generalizing start with
  | nil =>
    obtain rfl := Option.some.inj evaluated
    exact listed
  | cons atom rest ih =>
    obtain ⟨atomResult, isAtom, evaluated⟩ := Option.bind_eq_some_iff.mp evaluated
    dsimp only at evaluated
    split at evaluated
    · obtain rfl := Option.some.inj evaluated
      trivial
    · exact ih (AllowedSet.listed_union listed (listed_evaluateAtom isAtom)) evaluated

theorem listed_evaluateDisjunction {clause : Disjunction}
    (evaluated : index.evaluateDisjunction clause = some result) : result.Listed := by
  unfold evaluateDisjunction at evaluated
  have start : AllowedSet.none.Listed := trivial
  split at evaluated
  · exact listed_evaluateAtom evaluated
  · exact listed_unionAtoms start evaluated

theorem intersectClauses_iff {clauses : List Disjunction} (listed : start.Listed) :
    (∃ result, index.intersectClauses start clauses = some result ∧ result.contains doc = true) ↔
      start.contains doc = true ∧ ∀ clause ∈ clauses, ∃ clauseResult,
        index.evaluateDisjunction clause = some clauseResult ∧ clauseResult.contains doc = true := by
  induction clauses generalizing start with
  | nil => simp [intersectClauses]
  | cons clause rest ih =>
    rw [intersectClauses, List.forall_mem_cons]
    cases isClause : index.evaluateDisjunction clause with
    | none => simp
    | some clauseResult =>
      have second := listed_evaluateDisjunction isClause
      simp only [Option.bind_some, Option.some.injEq, exists_eq_left', ← and_assoc,
        ← AllowedSet.contains_intersect listed second]
      split
      · rename_i empty
        rw [AllowedSet.isEmpty_iff.mp empty]
        simp [AllowedSet.contains]
      · exact ih (AllowedSet.listed_intersect listed second)

end Evaluation

section Contents

inductive Addition where
  | equality (field : Str) (value : FilterValue) (doc : DocId)
  | range (field : Str) (value : Int64) (doc : DocId)

def addEntry (index : MetadataIndex) : Addition → MetadataIndex
  | .equality field value doc => index.addEquality field value doc
  | .range field value doc => index.addRange field value doc

def build (additions : List Addition) : MetadataIndex := additions.foldl addEntry .new

def Indexed (additions : List Addition) (field : Str) : Prop :=
  ∃ value doc, .equality field value doc ∈ additions

def Recorded (additions : List Addition) (field value : Str) (doc : DocId) : Prop :=
  .equality field (.string value) doc ∈ additions

variable {additions : List Addition} {field value : Str} {doc : DocId}

theorem posted_upsert {κ : Type} [DecidableEq κ] (postings : Map κ PostingSet) (k j : κ) (d : DocId) :
    Posted (upsert postings k .new (·.add d)) j doc ↔ Posted postings j doc ∨ j = k ∧ doc = d := by
  unfold Posted
  rw [get_upsert]
  by_cases same : j = k
  · subst same
    rw [if_pos rfl]
    cases get postings j with
    | none => simp [SortedIds.add, SortedIds.new]
    | some posting => simp [SortedIds.add, or_comm]
  · simp [same]

theorem posted_addValue (equality : EqualityIndex) (v : FilterValue) (d : DocId) :
    Posted (MetadataIndex.addValue v d equality).stringPostings value doc ↔
      Posted equality.stringPostings value doc ∨ v = .string value ∧ doc = d := by
  cases v with
  | string s =>
    refine (posted_upsert equality.stringPostings s value d).trans ?_
    rw [FilterValue.string.injEq, eq_comm (a := value)]
  | _ => simp [MetadataIndex.addValue, EqualityIndex.addInt, EqualityIndex.addUint]

def Faithful (additions : List Addition) (field : Str) : Option EqualityIndex → Prop
  | none => ¬Indexed additions field
  | some equality => Indexed additions field ∧
    ∀ value doc, Posted equality.stringPostings value doc ↔ Recorded additions field value doc

theorem Faithful.addEquality {before : Option EqualityIndex} (faithful : Faithful additions field before)
    (v : FilterValue) (d : DocId) :
    Faithful (additions ++ [.equality field v d]) field
      (some (MetadataIndex.addValue v d (before.getD .new))) := by
  have last : Addition.equality field v d ∈ additions ++ [.equality field v d] := by simp
  refine ⟨⟨v, d, last⟩, fun value doc => ?_⟩
  have old : Posted (before.getD .new).stringPostings value doc ↔ Recorded additions field value doc := by
    cases before with
    | none =>
      constructor
      · rintro ⟨_, known, _⟩
        cases known
      · intro recorded
        exact absurd ⟨_, _, recorded⟩ faithful
    | some equality => exact faithful.2 value doc
  rw [posted_addValue, old]
  simp [Recorded, eq_comm]

theorem Faithful.other {before : Option EqualityIndex} (faithful : Faithful additions field before)
    {addition : Addition} (elsewhere : ∀ v d, addition ≠ .equality field v d) :
    Faithful (additions ++ [addition]) field before := by
  have recorded : ∀ v d, .equality field v d ∈ additions ++ [addition] ↔ .equality field v d ∈ additions := by
    intro v d
    rw [List.mem_append, List.mem_singleton]
    exact or_iff_left fun same => elsewhere v d same.symm
  have indexed : Indexed (additions ++ [addition]) field ↔ Indexed additions field := by
    simp only [Indexed, recorded]
  cases before with
  | none => exact fun now => faithful (indexed.mp now)
  | some equality =>
    exact ⟨indexed.mpr faithful.1, fun value doc => (faithful.2 value doc).trans (recorded _ doc).symm⟩

theorem build_faithful (additions : List Addition) (field : Str) :
    Faithful additions field (get (build additions).equalityIndexes field) := by
  induction additions using List.reverseRecOn with
  | nil => exact fun ⟨_, _, member⟩ => by cases member
  | append_singleton additions addition ih =>
    have last : build (additions ++ [addition]) = addEntry (build additions) addition := by
      rw [build, List.foldl_append]
      rfl
    rw [last]
    cases addition with
    | equality f v d =>
      dsimp only [addEntry, MetadataIndex.addEquality]
      rw [get_upsert]
      by_cases same : field = f
      · subst same
        rw [if_pos rfl]
        exact ih.addEquality v d
      · rw [if_neg same]
        refine ih.other fun v' d' equal => same ?_
        cases equal
        rfl
    | range f v d => exact ih.other fun _ _ equal => by cases equal

theorem contains_eq_string : (∃ result, (build additions).evaluateAtom (.eq field (.string value)) = some result ∧
      result.contains doc = true) ↔ (Indexed additions field → Recorded additions field value doc) := by
  have faithful := build_faithful additions field
  dsimp only [MetadataIndex.evaluateAtom]
  cases known : get (build additions).equalityIndexes field with
  | none =>
    rw [known] at faithful
    simp [show ¬Indexed additions field from faithful]
  | some equality =>
    rw [known] at faithful
    obtain ⟨indexed, postings⟩ := faithful
    simp [indexed, EqualityIndex.lookupString, contains_lookup, postings]

theorem contains_in_strings {names : List Str} :
    (∃ result, (build additions).evaluateAtom (.inSet field (names.map .string)) = some result ∧
      result.contains doc = true) ↔
      (Indexed additions field → ∃ name ∈ names, Recorded additions field name doc) := by
  have faithful := build_faithful additions field
  have strings : (names.map FilterValue.string).filterMap MetadataIndex.stringOf = names := by
    rw [List.filterMap_map]
    exact List.filterMap_some
  dsimp only [MetadataIndex.evaluateAtom]
  cases known : get (build additions).equalityIndexes field with
  | none =>
    rw [known] at faithful
    simp [show ¬Indexed additions field from faithful]
  | some equality =>
    rw [known] at faithful
    obtain ⟨indexed, postings⟩ := faithful
    simp [indexed, strings, EqualityIndex.lookupStringIn, contains_lookupIn, postings]

end Contents

end MetadataIndexes
