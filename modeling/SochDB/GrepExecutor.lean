import SochDB.TrigramIndex

/-!
Search by a regular expression. The characters of the pattern that look like literals give the
trigrams that a document has to contain; the documents that do are checked with the engine, which
is a parameter. The scoring of ranked results is left out.
-/
namespace GrepExecutor
open KeyedMaps SortedKeys CandidateGate TrigramIndexes Runs List

section Literals

def flush (cur : Text) (runs : List Text) : List Text := if cur.isEmpty then runs else runs ++ [cur]

/-- Alternation, groups, classes and counted repetition. -/
def complexChars : List Char := ['|', '(', ')', '[', ']', '{', '}']

def scanLiterals : Text → Text → List Text → Option (List Text)
  | [], cur, runs => some (flush cur runs)
  | c :: rest, cur, runs =>
    if c ∈ complexChars then none
    else if c = '\\' then
      match rest with
      | [] => some (flush cur runs)
      | n :: rest =>
        -- an escaped letter or digit is taken for a class
        if n.isAlphanum then scanLiterals rest [] (flush cur runs) else scanLiterals rest (cur ++ [n]) runs
    else if c = '*' ∨ c = '?' then scanLiterals rest [] (flush cur.dropLast runs)
    else if c ∈ ['.', '^', '$', '+'] then scanLiterals rest [] (flush cur runs)
    else scanLiterals rest (cur ++ [c]) runs

def requiredLiterals (pattern : Text) : Option (List Text) :=
  (scanLiterals pattern [] []).bind fun runs =>
    let mandatory := runs.filter fun run => 3 ≤ run.length
    if mandatory.isEmpty then none else some mandatory

def branchLiterals : List Text → Option (List Text)
  | [] => some []
  | raw :: rest =>
    match requiredLiterals raw with
    | some [run] => (branchLiterals rest).map (run :: ·)
    | _ => none

def literalAlternation (pattern : Text) : Option (List Text) :=
  if '|' ∉ pattern then none
  else if pattern.any fun c => c ∈ ['(', ')', '[', ']', '{', '}'] then none
  else
    match branchLiterals (pattern.splitOn '|') with
    | none | some [] => none
    | some branches => some branches

def literalTerms (pattern : Text) : List Text × Bool :=
  match literalAlternation pattern with
  | some branches => (branches, true)
  | none =>
    match requiredLiterals pattern with
    | some runs => (runs, false)
    | none => ([], false)

def stripLeadingInlineFlags (pattern : Text) : Text :=
  match pattern with
  | '(' :: '?' :: rest =>
    let flags := rest.takeWhile (· ≠ ')')
    if ')' ∈ rest ∧ flags ≠ [] ∧ flags.all fun c => c.isAlpha || c = '-' then rest.drop (flags.length + 1)
    else pattern
  | _ => pattern

end Literals

/-- `Regex::new`: a message, or whether a text has a match. -/
abbrev Engine := Text → Except String (Text → Bool)

/-- The score holds the bits of an `f32`. -/
structure GrepHit where
  docId : DocId
  score : UInt32
  matchCount : Nat

structure GrepResults where
  hits : List GrepHit
  usedIndex : Bool

inductive GrepError where
  | invalidRegex (message : String)
  | degeneratePattern (corpus maxScan : Nat)

section Search
variable (fold : Lowercase) (index : TrigramIndex) (maxScan : Nat)

def plan (pattern : Text) : Except GrepError (List DocId × Bool) :=
  let (terms, isAlternation) := literalTerms (stripLeadingInlineFlags pattern)
  if terms.isEmpty then
    if maxScan < index.len then .error (.degeneratePattern index.len maxScan)
    else .ok ((pairs index.docs).map Prod.fst, false)
  else if isAlternation then
    .ok (sortDedup (terms.flatMap fun term => index.candidates (trigramsOf fold term)), true)
  else .ok (index.candidates (sortDedup (terms.flatMap (trigramsOf fold))), true)

def scoreOne : UInt32 := 0x3f800000

def verify (isMatch : Text → Bool) (allowed : AllowedSet) (doc : DocId) : Option GrepHit :=
  if allowed.contains doc then
    match get index.docs doc with
    | some text => if isMatch text then some ⟨doc, scoreOne, 1⟩ else none
    | none => none
  else none

def search (engine : Engine) (pattern : Text) (allowed : AllowedSet) (limit : Nat) :
    Except GrepError GrepResults :=
  match engine pattern with
  | .error message => .error (.invalidRegex message)
  | .ok isMatch =>
    if allowed.isEmpty then .ok ⟨[], false⟩
    else
      match plan fold index maxScan pattern with
      | .error e => .error e
      | .ok (candidates, usedIndex) =>
        let hits := (candidates.filterMap (verify index isMatch allowed)).insertionSort
          fun a b => a.docId ≤ b.docId
        .ok ⟨if 0 < limit ∧ limit < hits.length then hits.take limit else hits, usedIndex⟩

end Search

section Plans
variable {fold : Lowercase} {index : TrigramIndex} {maxScan : Nat} {pattern : Text}

def Contains (fold : Lowercase) (term text : Text) : Prop :=
  ∀ tri ∈ trigramsOf fold term, tri ∈ trigramsOf fold text

def Planned (fold : Lowercase) (pattern text : Text) : Prop :=
  let (terms, isAlternation) := literalTerms (stripLeadingInlineFlags pattern)
  if isAlternation then ∃ term ∈ terms, Contains fold term text else ∀ term ∈ terms, Contains fold term text

theorem requiredLiterals_long {raw : Text} {runs : List Text} (found : requiredLiterals raw = some runs) :
    runs ≠ [] ∧ ∀ run ∈ runs, 3 ≤ run.length := by
  obtain ⟨all, _, kept⟩ := Option.bind_eq_some_iff.mp found
  dsimp only at kept
  split at kept
  · cases kept
  · rename_i filled
    cases kept
    refine ⟨fun empty => filled (isEmpty_iff.mpr empty), ?_⟩
    intro run member
    simpa using (mem_filter.mp member).2

theorem branchLiterals_long {raws branches : List Text} (found : branchLiterals raws = some branches) :
    ∀ branch ∈ branches, 3 ≤ branch.length := by
  induction raws generalizing branches with
  | nil =>
    cases found
    simp
  | cons raw rest ih =>
    rw [branchLiterals] at found
    split at found
    · rename_i run single
      obtain ⟨others, later, rfl⟩ := Option.map_eq_some_iff.mp found
      rw [forall_mem_cons]
      exact ⟨(requiredLiterals_long single).2 run mem_cons_self, ih later⟩
    · cases found

theorem literalAlternation_some {branches : List Text} (found : literalAlternation pattern = some branches) :
    branches ≠ [] ∧ branchLiterals (pattern.splitOn '|') = some branches := by
  unfold literalAlternation at found
  split at found
  · cases found
  · split at found
    · cases found
    · split at found
      · cases found
      · cases found
      · rename_i filled read
        cases found
        exact ⟨filled, read⟩

theorem literalTerms_long (pattern : Text) {term : Text} (member : term ∈ (literalTerms pattern).1) :
    3 ≤ term.length := by
  unfold literalTerms at member
  split at member
  · rename_i found
    exact branchLiterals_long (literalAlternation_some found).2 term member
  · split at member
    · rename_i found
      exact (requiredLiterals_long found).2 term member
    · cases member

theorem literalTerms_alternation (pattern : Text) (alternation : (literalTerms pattern).2 = true) :
    (literalTerms pattern).1 ≠ [] := by
  unfold literalTerms at alternation ⊢
  split at alternation
  · rename_i found
    exact (literalAlternation_some found).1
  · split at alternation <;> cases alternation

theorem trigramsOf_ne_nil {term : Text} (long : 3 ≤ term.length) : trigramsOf fold term ≠ [] := by
  have grows : term.length ≤ (term.flatMap fold.lower).length := by
    rw [length_flatMap]
    have each : ∀ n ∈ term.map fun c => (fold.lower c).length, 1 ≤ n := by
      intro n member
      obtain ⟨c, _, rfl⟩ := mem_map.mp member
      exact length_pos_iff.mpr (fold.nonempty c)
    simpa using length_le_sum_of_one_le _ each
  obtain ⟨a, b, c, rest, shape⟩ : ∃ a b c rest, term.flatMap fold.lower = a :: b :: c :: rest := by
    match known : term.flatMap fold.lower with
    | a :: b :: c :: rest => exact ⟨a, b, c, rest, rfl⟩
    | [] | [_] | [_, _] =>
      rw [known] at grows
      simp only [length_cons, length_nil] at grows
      omega
  have member : toLex (a, toLex (b, c)) ∈ trigramsOf fold term := by
    unfold trigramsOf
    rw [shape, if_neg (by simp), mem_sortDedup]
    exact mem_cons_self
  exact ne_nil_of_mem member

theorem plan_spec (exact : Exact fold index) (budget : index.len ≤ maxScan) (pattern : Text) :
    ∃ candidates usedIndex, plan fold index maxScan pattern = .ok (candidates, usedIndex) ∧ candidates.Nodup ∧
      ∀ doc text, get index.docs doc = some text → (doc ∈ candidates ↔ Planned fold pattern text) := by
  have nodup : ∀ {l : List DocId}, Increasing l → l.Nodup := fun increasing =>
    increasing.imp fun less => ne_of_lt less
  have posted : ∀ tri doc text, get index.docs doc = some text →
      (Posted index.postings tri doc ↔ tri ∈ trigramsOf fold text) := by
    intro tri doc text known
    rw [exact tri doc, known]
    simp
  unfold plan Planned
  obtain ⟨terms, isAlternation, read⟩ : ∃ terms isAlternation,
    literalTerms (stripLeadingInlineFlags pattern) = (terms, isAlternation) := ⟨_, _, rfl⟩
  have long : ∀ term ∈ terms, trigramsOf fold term ≠ [] := fun term member =>
    trigramsOf_ne_nil (literalTerms_long (stripLeadingInlineFlags pattern) (read ▸ member))
  have branched : isAlternation = true → terms ≠ [] := by
    intro alternation
    have filled := literalTerms_alternation (stripLeadingInlineFlags pattern) (by rw [read]; exact alternation)
    rwa [read] at filled
  simp only [read]
  by_cases empty : terms = []
  · have linear : isAlternation = false := by
      cases isAlternation with
      | true => exact absurd empty (branched rfl)
      | false => rfl
    subst empty linear
    rw [if_pos isEmpty_nil, if_neg (by omega)]
    refine ⟨_, _, rfl, pairs_keys_nodup index.docs, ?_⟩
    intro doc text known
    have listed : doc ∈ (pairs index.docs).map Prod.fst :=
      mem_map.mpr ⟨(doc, text), mem_pairs.mpr known, rfl⟩
    simp [listed]
  · rw [if_neg (by simpa using empty)]
    cases isAlternation with
    | true =>
      rw [if_pos rfl]
      refine ⟨_, _, rfl, nodup (sortDedup_increasing _), ?_⟩
      intro doc text known
      simp only [mem_sortDedup, mem_flatMap, mem_candidates, if_true]
      apply exists_congr
      intro term
      apply and_congr_right
      intro member
      rw [and_iff_right (long term member)]
      exact forall₂_congr fun tri _ => posted tri doc text known
    | false =>
      rw [if_neg (by simp)]
      refine ⟨_, _, rfl, nodup (candidates_increasing _), ?_⟩
      intro doc text known
      have filled : sortDedup (terms.flatMap (trigramsOf fold)) ≠ [] := by
        obtain ⟨term, member⟩ := exists_mem_of_ne_nil terms empty
        obtain ⟨tri, inside⟩ := exists_mem_of_ne_nil _ (long term member)
        exact ne_nil_of_mem (mem_sortDedup.mpr (mem_flatMap.mpr ⟨term, member, inside⟩))
      rw [mem_candidates, and_iff_right filled]
      simp only [mem_sortDedup, mem_flatMap, posted _ doc text known, Contains, Bool.false_eq_true, if_false]
      constructor
      · intro each term member tri inside
        exact each tri ⟨term, member, inside⟩
      · rintro each tri ⟨term, member, inside⟩
        exact each term member tri inside

end Plans

section Searches
variable {fold : Lowercase} {engine : Engine} {pattern : Text} {isMatch : Text → Bool}

def Returns (result : Except GrepError GrepResults) (expected : DocId → Prop) : Prop :=
  ∃ results, result = .ok results ∧ Increasing (results.hits.map GrepHit.docId) ∧
    ∀ doc, doc ∈ results.hits.map GrepHit.docId ↔ expected doc

variable {index : TrigramIndex}

theorem verify_eq_some {allowed : AllowedSet} {doc : DocId} {hit : GrepHit} :
    verify index isMatch allowed doc = some hit ↔ hit = ⟨doc, scoreOne, 1⟩ ∧
      ∃ text, get index.docs doc = some text ∧ allowed.contains doc = true ∧ isMatch text = true := by
  unfold verify
  split
  · rename_i inside
    cases known : get index.docs doc with
    | none => simp
    | some text =>
      cases found : isMatch text with
      | true => simp [inside, found, eq_comm (a := hit)]
      | false => simp [found]
  · rename_i outside
    simp [outside]

theorem verify_isSome {allowed : AllowedSet} {doc : DocId} :
    (verify index isMatch allowed doc).isSome = true ↔
      ∃ text, get index.docs doc = some text ∧ allowed.contains doc = true ∧ isMatch text = true := by
  simp [Option.isSome_iff_exists, verify_eq_some]

theorem verified_ids (index : TrigramIndex) (isMatch : Text → Bool) (allowed : AllowedSet)
    (candidates : List DocId) :
    (candidates.filterMap (verify index isMatch allowed)).map GrepHit.docId =
      candidates.filter fun doc => (verify index isMatch allowed doc).isSome := by
  induction candidates with
  | nil => rfl
  | cons doc rest ih =>
    cases shown : verify index isMatch allowed doc with
    | none => rw [filterMap_cons_none shown, ih, filter_cons_of_neg (by simp [shown])]
    | some hit =>
      have isDoc : hit.docId = doc := by rw [(verify_eq_some.mp shown).1]
      rw [filterMap_cons_some shown, map_cons, ih, isDoc, filter_cons_of_pos (by simp [shown])]

theorem search_spec (accepted : engine pattern = .ok isMatch) (exact : Exact fold index) {maxScan : Nat}
    (budget : index.len ≤ maxScan) (allowed : AllowedSet) :
    Returns (search fold index maxScan engine pattern allowed 0) fun doc =>
      ∃ text, get index.docs doc = some text ∧ allowed.contains doc = true ∧ isMatch text = true ∧
        Planned fold pattern text := by
  unfold search
  rw [accepted]
  dsimp only
  by_cases empty : allowed.isEmpty = true
  · rw [if_pos empty]
    obtain rfl := AllowedSet.isEmpty_iff.mp empty
    exact ⟨_, rfl, List.Pairwise.nil, by simp⟩
  · obtain ⟨candidates, usedIndex, planned, nodup, spec⟩ := plan_spec exact budget pattern
    rw [if_neg empty, planned]
    dsimp only
    rw [if_neg (by simp)]
    have ids := verified_ids index isMatch allowed candidates
    have sorted := map_insertionSort (fun a b : GrepHit => a.docId ≤ b.docId) (· ≤ ·) GrepHit.docId
      (candidates.filterMap (verify index isMatch allowed)) fun _ _ _ _ => .rfl
    rw [ids] at sorted
    refine ⟨_, rfl, ?_, ?_⟩
    · rw [sorted]
      have distinct := (perm_insertionSort (· ≤ ·) _).nodup_iff.mpr
        (nodup.filter fun doc => (verify index isMatch allowed doc).isSome)
      exact ((pairwise_insertionSort (· ≤ ·) _).and distinct).imp fun both => lt_of_le_of_ne both.1 both.2
    · intro doc
      rw [sorted, mem_insertionSort, mem_filter, verify_isSome]
      constructor
      · rintro ⟨member, text, known, inside, found⟩
        exact ⟨text, known, inside, found, (spec doc text known).mp member⟩
      · rintro ⟨text, known, inside, found, through⟩
        exact ⟨(spec doc text known).mpr through, text, known, inside, found⟩

def Matching (ops : List Op) (allowed : AllowedSet) (isMatch : Text → Bool) (doc : DocId) : Prop :=
  ∃ text, documents ops doc = some text ∧ allowed.contains doc = true ∧ isMatch text = true

theorem search_exact (accepted : engine pattern = .ok isMatch)
    (mandatory : ∀ text, isMatch text = true → Planned fold pattern text) (ops : List Op) (allowed : AllowedSet)
    {maxScan : Nat} (budget : (run (step fold) .new ops).len ≤ maxScan) :
    Returns (search fold (run (step fold) .new ops) maxScan engine pattern allowed 0)
      (Matching ops allowed isMatch) := by
  obtain ⟨results, isOk, increasing, members⟩ := search_spec accepted (run_exact fold ops) budget allowed
  refine ⟨results, isOk, increasing, ?_⟩
  intro doc
  rw [members]
  apply exists_congr
  intro text
  rw [run_documents]
  constructor
  · exact fun all => ⟨all.1, all.2.1, all.2.2.1⟩
  · exact fun all => ⟨all.1, all.2.1, all.2.2, mandatory text all.2.2⟩

end Searches

end GrepExecutor
