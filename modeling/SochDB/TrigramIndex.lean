import SochDB.Library.KeyedMaps
import SochDB.Library.Runs
import SochDB.CandidateGate

/-!
The trigram index: the documents, and for each three consecutive characters of a document in
lower case the ids of the documents that contain them. Texts are lists of characters.
-/
namespace TrigramIndexes
open KeyedMaps SortedKeys CandidateGate Runs List

abbrev Text := List Char

abbrev Trigram := Char ×ₗ Char ×ₗ Char

/-- The lower-case form of a character has one or more characters. -/
structure Lowercase where
  lower : Char → List Char
  nonempty : ∀ c, lower c ≠ []

def windows : List Char → List Trigram
  | a :: b :: c :: rest => toLex (a, toLex (b, c)) :: windows (b :: c :: rest)
  | _ => []

def trigramsOf (fold : Lowercase) (text : Text) : List Trigram :=
  let chars := text.flatMap fold.lower
  if chars.length < 3 then [] else sortDedup (windows chars)

abbrev Postings := Map Trigram SortedIds

structure TrigramIndex where
  postings : Postings
  docs : Map DocId Text

def addPosting (doc : DocId) (postings : Postings) (tri : Trigram) : Postings :=
  upsert postings tri (SortedIds.new.add doc) (·.add doc)

def dropId (doc : DocId) (s : SortedIds) : SortedIds :=
  ⟨s.ids.filter (· ≠ doc), s.increasing.sublist List.filter_sublist⟩

/-- A list that becomes empty is dropped. -/
def dropPosting (doc : DocId) (postings : Postings) (tri : Trigram) : Postings :=
  match get postings tri with
  | none => postings
  | some ids => if (dropId doc ids).ids.isEmpty then postings.erase tri else postings.insert tri (dropId doc ids)

def gather (postings : Postings) : List Trigram → Option (List SortedIds)
  | [] => some []
  | tri :: rest =>
    match get postings tri with
    | none => none
    | some list => (gather postings rest).map (list :: ·)

/-- Stops when nothing is left. -/
def intersectAll (acc : List DocId) : List SortedIds → List DocId
  | [] => acc
  | list :: rest =>
    if (common acc list.ids).isEmpty then common acc list.ids else intersectAll (common acc list.ids) rest

namespace TrigramIndex
variable (fold : Lowercase) (index : TrigramIndex)

def new : TrigramIndex := ⟨∅, ∅⟩

def len : Nat := (pairs index.docs).length

def remove (doc : DocId) : TrigramIndex × Bool :=
  match get index.docs doc with
  | none => (index, false)
  | some text => (⟨(trigramsOf fold text).foldl (dropPosting doc) index.postings, index.docs.erase doc⟩, true)

/-- What stood under the id is removed first. -/
def insert (doc : DocId) (text : Text) : TrigramIndex :=
  let index := if (get index.docs doc).isSome then (index.remove fold doc).1 else index
  ⟨(trigramsOf fold text).foldl (addPosting doc) index.postings, index.docs.insert doc text⟩

/-- The shortest list is intersected with the others. -/
def candidates (required : List Trigram) : List DocId :=
  if required.isEmpty then []
  else
    match gather index.postings required with
    | none => []
    | some lists =>
      match lists.insertionSort fun a b => a.ids.length ≤ b.ids.length with
      | [] => []
      | first :: rest => intersectAll first.ids rest

end TrigramIndex

section Postings
variable {postings : Postings} {tri other : Trigram} {doc id : DocId}

def Posted (postings : Postings) (tri : Trigram) (id : DocId) : Prop :=
  ∃ ids, get postings tri = some ids ∧ id ∈ ids.ids

theorem posted_addPosting :
    Posted (addPosting doc postings other) tri id ↔ Posted postings tri id ∨ tri = other ∧ id = doc := by
  unfold Posted addPosting
  rw [get_upsert]
  by_cases same : tri = other
  · subst same
    cases known : get postings tri with
    | none => simp [SortedIds.add, SortedIds.new]
    | some ids => simp [SortedIds.add, or_comm]
  · simp [same]

theorem posted_dropPosting :
    Posted (dropPosting doc postings other) tri id ↔ Posted postings tri id ∧ ¬(tri = other ∧ id = doc) := by
  unfold dropPosting
  cases known : get postings other with
  | none =>
    constructor
    · intro posted
      refine ⟨posted, ?_⟩
      rintro ⟨rfl, _⟩
      obtain ⟨ids, listed, _⟩ := posted
      rw [known] at listed
      cases listed
    · exact fun both => both.1
  | some ids =>
    by_cases same : tri = other
    · subst same
      have kept : id ∈ (dropId doc ids).ids ↔ id ∈ ids.ids ∧ id ≠ doc := by simp [dropId]
      have before : Posted postings tri id ↔ id ∈ ids.ids := by simp [Posted, known]
      dsimp only
      rw [before]
      split
      · rename_i empty
        rw [isEmpty_iff.mp empty] at kept
        simpa [Posted, get_erase] using kept
      · simpa [Posted, get_insert] using kept
    · dsimp only
      split <;> simp [Posted, get_erase, get_insert, same]

theorem posted_adds (tris : List Trigram) :
    Posted (tris.foldl (addPosting doc) postings) tri id ↔ Posted postings tri id ∨ tri ∈ tris ∧ id = doc := by
  induction tris generalizing postings with
  | nil => simp
  | cons other rest ih =>
    rw [foldl_cons, ih, posted_addPosting, mem_cons]
    tauto

theorem posted_drops (tris : List Trigram) :
    Posted (tris.foldl (dropPosting doc) postings) tri id ↔
      Posted postings tri id ∧ ¬(tri ∈ tris ∧ id = doc) := by
  induction tris generalizing postings with
  | nil => simp
  | cons other rest ih =>
    rw [foldl_cons, ih, posted_dropPosting, mem_cons]
    tauto

end Postings

section Candidates
variable {index : TrigramIndex} {id : DocId}

theorem mem_intersectAll {acc : List DocId} (increasing : Increasing acc) (lists : List SortedIds) :
    id ∈ intersectAll acc lists ↔ id ∈ acc ∧ ∀ list ∈ lists, id ∈ list.ids := by
  induction lists generalizing acc with
  | nil => simp [intersectAll]
  | cons list rest ih =>
    have both : id ∈ common acc list.ids ↔ id ∈ acc ∧ id ∈ list.ids := mem_common increasing list.increasing
    rw [intersectAll, forall_mem_cons, ← and_assoc, ← both]
    split
    · rename_i empty
      simp [isEmpty_iff.mp empty]
    · exact ih (common_increasing increasing list.ids)

theorem intersectAll_increasing {acc : List DocId} (increasing : Increasing acc) (lists : List SortedIds) :
    Increasing (intersectAll acc lists) := by
  induction lists generalizing acc with
  | nil => exact increasing
  | cons list rest ih =>
    rw [intersectAll]
    split
    · exact common_increasing increasing list.ids
    · exact ih (common_increasing increasing list.ids)

theorem candidates_increasing (required : List Trigram) : Increasing (index.candidates required) := by
  unfold TrigramIndex.candidates
  split
  · exact List.Pairwise.nil
  · split
    · exact List.Pairwise.nil
    · split
      · exact List.Pairwise.nil
      · exact intersectAll_increasing (SortedIds.increasing _) _

variable {postings : Postings} {required : List Trigram}

theorem gather_map {lists : List SortedIds} (found : gather postings required = some lists) :
    required.map (get postings) = lists.map some := by
  induction required generalizing lists with
  | nil =>
    cases found
    rfl
  | cons tri rest ih =>
    rw [gather] at found
    split at found
    · cases found
    · rename_i list known
      obtain ⟨others, later, rfl⟩ := Option.map_eq_some_iff.mp found
      rw [map_cons, map_cons, known, ih later]

theorem gather_some {lists : List SortedIds} (found : gather postings required = some lists) :
    (∀ list ∈ lists, id ∈ list.ids) ↔ ∀ tri ∈ required, Posted postings tri id := by
  have each : (∀ list ∈ lists, id ∈ list.ids) ↔ ∀ o ∈ lists.map some, ∃ ids, o = some ids ∧ id ∈ ids.ids := by simp
  rw [each, ← gather_map found, forall_mem_map]
  rfl

theorem gather_length {lists : List SortedIds} (found : gather postings required = some lists) :
    lists.length = required.length := by
  simpa using (congrArg List.length (gather_map found)).symm

theorem gather_none (missing : gather postings required = none) (id : DocId) :
    ∃ tri ∈ required, ¬Posted postings tri id := by
  induction required with
  | nil => cases missing
  | cons tri rest ih =>
    rw [gather] at missing
    cases known : get postings tri with
    | none =>
      refine ⟨tri, mem_cons_self, ?_⟩
      rintro ⟨ids, listed, _⟩
      rw [known] at listed
      cases listed
    | some list =>
      rw [known] at missing
      obtain ⟨tri, member, absent⟩ := ih (Option.map_eq_none_iff.mp missing)
      exact ⟨tri, mem_cons_of_mem _ member, absent⟩

theorem mem_candidates :
    id ∈ index.candidates required ↔ required ≠ [] ∧ ∀ tri ∈ required, Posted index.postings tri id := by
  unfold TrigramIndex.candidates
  split
  · rename_i empty
    simp [isEmpty_iff.mp empty]
  · rename_i filled
    have required_ne : required ≠ [] := fun empty => filled (isEmpty_iff.mpr empty)
    cases found : gather index.postings required with
    | none =>
      obtain ⟨tri, member, absent⟩ := gather_none found id
      constructor
      · exact fun impossible => absurd impossible not_mem_nil
      · exact fun posted => absurd (posted.2 tri member) absent
    | some lists =>
      have sorted := perm_insertionSort (fun a b : SortedIds => a.ids.length ≤ b.ids.length) lists
      dsimp only
      rw [← gather_some found]
      split
      · rename_i empty
        have lengths := sorted.length_eq
        rw [empty, gather_length found] at lengths
        exact absurd (length_eq_zero_iff.mp lengths.symm) required_ne
      · rename_i first rest shape
        have each : (∀ list ∈ first :: rest, id ∈ list.ids) ↔ ∀ list ∈ lists, id ∈ list.ids := by
          simp only [← shape, mem_insertionSort]
        rw [mem_intersectAll first.increasing, ← each, forall_mem_cons]
        exact (and_iff_right required_ne).symm

end Candidates

section Runs

inductive Op where
  | insert (doc : DocId) (text : Text)
  | remove (doc : DocId)

def step (fold : Lowercase) (index : TrigramIndex) : Op → TrigramIndex
  | .insert doc text => index.insert fold doc text
  | .remove doc => (index.remove fold doc).1

def change (docs : DocId → Option Text) : Op → DocId → Option Text
  | .insert doc text => Function.update docs doc (some text)
  | .remove doc => Function.update docs doc none

def documents (ops : List Op) : DocId → Option Text := run change (fun _ => none) ops

def Exact (fold : Lowercase) (index : TrigramIndex) : Prop :=
  ∀ tri id, Posted index.postings tri id ↔ ∃ text, get index.docs id = some text ∧ tri ∈ trigramsOf fold text

variable {fold : Lowercase} {index : TrigramIndex}

theorem remove_exact (exact : Exact fold index) (doc : DocId) : Exact fold (index.remove fold doc).1 := by
  unfold TrigramIndex.remove
  cases known : get index.docs doc with
  | none => exact exact
  | some old =>
    intro tri id
    rw [posted_drops, exact tri id, get_erase]
    by_cases same : id = doc
    · subst same
      simp [known]
    · simp [same]

theorem get_docs_remove (doc id : DocId) :
    get (index.remove fold doc).1.docs id = if id = doc then none else get index.docs id := by
  unfold TrigramIndex.remove
  cases known : get index.docs doc with
  | none =>
    by_cases same : id = doc
    · rw [if_pos same, same]
      exact known
    · rw [if_neg same]
  | some old => exact get_erase index.docs doc id

theorem insert_exact (exact : Exact fold index) (doc : DocId) (text : Text) :
    Exact fold (index.insert fold doc text) := by
  -- nothing is posted for the id once its document is gone
  have cleared : ∃ base, Exact fold base ∧ get base.docs doc = none ∧
      (if (get index.docs doc).isSome then (index.remove fold doc).1 else index) = base := by
    split
    · exact ⟨_, remove_exact exact doc, (get_docs_remove doc doc).trans (if_pos rfl), rfl⟩
    · rename_i absent
      exact ⟨_, exact, Option.not_isSome_iff_eq_none.mp absent, rfl⟩
  obtain ⟨base, kept, free, isBase⟩ := cleared
  intro tri id
  unfold TrigramIndex.insert
  rw [isBase]
  rw [posted_adds, kept tri id, get_insert]
  by_cases same : id = doc
  · subst same
    simp [free]
  · simp [same]

theorem get_docs_insert (doc : DocId) (text : Text) (id : DocId) :
    get (index.insert fold doc text).docs id = if id = doc then some text else get index.docs id := by
  unfold TrigramIndex.insert
  rw [get_insert]
  split
  · rfl
  · rename_i other
    split
    · rw [get_docs_remove, if_neg other]
    · rfl

theorem step_exact (exact : Exact fold index) (op : Op) : Exact fold (step fold index op) := by
  cases op with
  | insert doc text => exact insert_exact exact doc text
  | remove doc => exact remove_exact exact doc

theorem run_exact (fold : Lowercase) (ops : List Op) : Exact fold (run (step fold) .new ops) := by
  have start : Exact fold .new := by
    intro tri id
    simp [Posted, TrigramIndex.new]
  induction ops using List.reverseRecOn with
  | nil => exact start
  | append_singleton ops op ih =>
    rw [run_append]
    exact step_exact ih op

theorem run_documents (fold : Lowercase) (ops : List Op) (id : DocId) :
    get (run (step fold) .new ops).docs id = documents ops id := by
  induction ops using List.reverseRecOn with
  | nil => rfl
  | append_singleton ops op ih =>
    rw [documents] at ih ⊢
    rw [run_append, run_append]
    cases op with
    | insert doc text =>
      refine (get_docs_insert doc text id).trans ?_
      rw [ih]
      exact (Function.update_apply _ doc (some text) id).symm
    | remove doc =>
      refine (get_docs_remove doc id).trans ?_
      rw [ih]
      exact (Function.update_apply _ doc none id).symm

theorem candidates_exact (fold : Lowercase) (ops : List Op) (required : List Trigram) (id : DocId) :
    id ∈ (run (step fold) .new ops).candidates required ↔ required ≠ [] ∧
      ∀ tri ∈ required, ∃ text, documents ops id = some text ∧ tri ∈ trigramsOf fold text := by
  simp only [mem_candidates, run_exact fold ops _ id, run_documents]

end Runs

end TrigramIndexes
