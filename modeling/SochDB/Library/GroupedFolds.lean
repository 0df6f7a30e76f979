import Mathlib

/-!
Hash aggregation over arbitrary types. Rows are folded into one state per key, the keys in
the order in which they were first seen; partial results of chunks are merged key by key.
-/
namespace GroupedFolds
open List
variable {α κ σ : Type} [DecidableEq κ]

section Groups

def change (k : κ) (new : σ) (f : σ → σ) : List (κ × σ) → List (κ × σ)
  | [] => [(k, new)]
  | group :: rest => if group.1 = k then (k, f group.2) :: rest else group :: change k new f rest

def stateOf (k : κ) : List (κ × σ) → Option σ
  | [] => none
  | group :: rest => if group.1 = k then some group.2 else stateOf k rest

theorem stateOf_change (k j : κ) (new : σ) (f : σ → σ) (groups : List (κ × σ)) :
    stateOf j (change k new f groups) =
      if j = k then some (((stateOf k groups).map f).getD new) else stateOf j groups := by
  induction groups with
  | nil =>
    by_cases same : j = k
    · simp [change, stateOf, same]
    · simp [change, stateOf, same, Ne.symm same]
  | cons group rest ih =>
    by_cases here : group.1 = k
    · by_cases same : j = k
      · simp [change, stateOf, here, same]
      · have other : ¬group.1 = j := fun found => same (found.symm.trans here)
        simp [change, stateOf, here, same, Ne.symm same]
    · by_cases there : group.1 = j
      · have other : ¬j = k := fun same => here (there.trans same)
        simp [change, stateOf, there, other]
      · simp [change, stateOf, here, there, ih]

theorem keys_change (k : κ) (new : σ) (f : σ → σ) (groups : List (κ × σ)) :
    (change k new f groups).map Prod.fst =
      if k ∈ groups.map Prod.fst then groups.map Prod.fst else groups.map Prod.fst ++ [k] := by
  induction groups with
  | nil => rfl
  | cons group rest ih =>
    by_cases here : group.1 = k
    · simp [change, here]
    · by_cases later : k ∈ rest.map Prod.fst
      · rw [if_pos later] at ih
        rw [change, if_neg here, map_cons, ih, map_cons, if_pos (mem_cons_of_mem _ later)]
      · have absent : k ∉ group.1 :: rest.map Prod.fst := by
          rintro member
          rcases mem_cons.mp member with same | inside
          · exact here same.symm
          · exact later inside
        rw [if_neg later] at ih
        rw [change, if_neg here, map_cons, ih, map_cons, if_neg absent]
        rfl

variable {groups : List (κ × σ)}

theorem keys_change_nodup (nodup : (groups.map Prod.fst).Nodup) (k : κ) (new : σ) (f : σ → σ) :
    ((change k new f groups).map Prod.fst).Nodup := by
  rw [keys_change]
  split
  · exact nodup
  · rename_i absent
    exact nodup_append.mpr ⟨nodup, nodup_singleton k, by
      intro a member b single
      rw [mem_singleton.mp single]
      exact fun same => absent (same ▸ member)⟩

theorem mem_keys_iff {k : κ} :
    k ∈ groups.map Prod.fst ↔ (stateOf k groups).isSome := by
  induction groups with
  | nil => simp [stateOf]
  | cons group rest ih =>
    by_cases here : group.1 = k
    · simp [stateOf, here]
    · rw [map_cons, mem_cons, ih, stateOf, if_neg here]
      exact or_iff_right (Ne.symm here)

theorem stateOf_of_mem (nodup : (groups.map Prod.fst).Nodup) {k : κ} {s : σ} (member : (k, s) ∈ groups) :
    stateOf k groups = some s := by
  induction groups with
  | nil => cases member
  | cons group rest ih =>
    rw [map_cons, nodup_cons] at nodup
    rcases mem_cons.mp member with rfl | inside
    · simp [stateOf]
    · have other : ¬group.1 = k := by
        intro same
        exact nodup.1 (same ▸ mem_map.mpr ⟨_, inside, rfl⟩)
      rw [stateOf, if_neg other]
      exact ih nodup.2 inside

end Groups

section Accumulation
variable (key : α → κ) (fresh : α → σ) (step : σ → α → σ)

def addRow (groups : List (κ × σ)) (row : α) : List (κ × σ) :=
  change (key row) (step (fresh row) row) (fun s => step s row) groups

def accumulate (rows : List α) : List (κ × σ) := rows.foldl (addRow key fresh step) []

def foldRows : List α → Option σ
  | [] => none
  | first :: rest => some ((first :: rest).foldl step (fresh first))

theorem accumulate_append (rows : List α) (row : α) : accumulate key fresh step (rows ++ [row]) =
    addRow key fresh step (accumulate key fresh step rows) row := by
  unfold accumulate
  rw [foldl_append]
  rfl

theorem foldRows_append (rows : List α) (row : α) : foldRows fresh step (rows ++ [row]) =
    some (((foldRows fresh step rows).map fun s => step s row).getD (step (fresh row) row)) := by
  cases rows with
  | nil => rfl
  | cons first rest =>
    simp only [foldRows, cons_append, foldl_cons, foldl_append, foldl_nil, Option.map_some,
      Option.getD_some]

theorem stateOf_accumulate (k : κ) (rows : List α) : stateOf k (accumulate key fresh step rows) =
    foldRows fresh step (rows.filter fun row => key row = k) := by
  induction rows using List.reverseRecOn with
  | nil => rfl
  | append_singleton rows row ih =>
    rw [accumulate_append, addRow, stateOf_change, filter_append]
    by_cases mine : k = key row
    · subst mine
      rw [if_pos rfl, ih, filter_cons_of_pos (by simp), filter_nil, foldRows_append]
    · rw [if_neg mine, ih, filter_cons_of_neg (by simpa using Ne.symm mine), filter_nil,
        append_nil]

theorem accumulate_nodup (rows : List α) : ((accumulate key fresh step rows).map Prod.fst).Nodup := by
  induction rows using List.reverseRecOn with
  | nil => exact nodup_nil
  | append_singleton rows row ih =>
    rw [accumulate_append]
    exact keys_change_nodup ih ..

theorem foldRows_eq_none {rows : List α} : foldRows fresh step rows = none ↔ rows = [] := by
  cases rows with
  | nil | cons => simp [foldRows]

theorem foldRows_const (start : σ) {rows : List α} (nonempty : rows ≠ []) :
    foldRows (fun _ => start) step rows = some (rows.foldl step start) := by
  cases rows with
  | nil => exact absurd rfl nonempty
  | cons first rest => rfl

end Accumulation

section Merging
variable (combine : σ → σ → σ)

def mergeInto (groups partials : List (κ × σ)) : List (κ × σ) :=
  partials.foldl (fun groups group => change group.1 group.2 (fun s => combine s group.2) groups) groups

def join : Option σ → Option σ → Option σ
  | none, later => later
  | some s, none => some s
  | some s, some t => some (combine s t)

variable {groups : List (κ × σ)}

theorem mergeInto_nodup (nodup : (groups.map Prod.fst).Nodup) (partials : List (κ × σ)) :
    ((mergeInto combine groups partials).map Prod.fst).Nodup := by
  induction partials generalizing groups with
  | nil => exact nodup
  | cons group rest ih => exact ih (keys_change_nodup nodup ..)

theorem stateOf_mergeInto (k : κ) {partials : List (κ × σ)} (nodup : (partials.map Prod.fst).Nodup)
    (groups : List (κ × σ)) : stateOf k (mergeInto combine groups partials) =
      join combine (stateOf k groups) (stateOf k partials) := by
  induction partials generalizing groups with
  | nil =>
    show stateOf k groups = join combine (stateOf k groups) none
    cases stateOf k groups <;> rfl
  | cons group rest ih =>
    rw [map_cons, nodup_cons] at nodup
    have now := ih nodup.2 (change group.1 group.2 (fun s => combine s group.2) groups)
    rw [stateOf_change] at now
    rw [mergeInto, foldl_cons]
    refine now.trans ?_
    by_cases mine : k = group.1
    · subst mine
      have gone : stateOf group.1 rest = none := by
        rw [← Option.not_isSome_iff_eq_none, ← mem_keys_iff]
        exact nodup.1
      rw [if_pos rfl, gone, stateOf, if_pos rfl]
      cases stateOf group.1 groups <;> rfl
    · rw [if_neg mine, stateOf, if_neg (Ne.symm mine)]

theorem change_absent {k : κ} (new : σ) (f : σ → σ) (absent : k ∉ groups.map Prod.fst) :
    change k new f groups = groups ++ [(k, new)] := by
  induction groups with
  | nil => rfl
  | cons group rest ih =>
    rw [map_cons, mem_cons, not_or] at absent
    rw [change, if_neg (Ne.symm absent.1), ih absent.2]
    rfl

theorem mergeInto_apart {partials : List (κ × σ)} (nodup : ((groups ++ partials).map Prod.fst).Nodup) :
    mergeInto combine groups partials = groups ++ partials := by
  induction partials generalizing groups with
  | nil => exact (append_nil groups).symm
  | cons group rest ih =>
    have absent : group.1 ∉ groups.map Prod.fst := by
      rw [map_append, map_cons, nodup_append] at nodup
      intro member
      exact nodup.2.2 group.1 member group.1 mem_cons_self rfl
    have step : mergeInto combine groups (group :: rest) = mergeInto combine (groups ++ [group]) rest := by
      rw [mergeInto, foldl_cons, change_absent _ _ absent]
      rfl
    rw [step, ih (by rwa [append_assoc]), append_assoc]
    rfl

variable (key : α → κ) (fresh : α → σ) (step : σ → α → σ)

def accumulateChunks (chunks : List (List α)) : List (κ × σ) :=
  chunks.foldl (fun groups chunk => mergeInto combine groups (accumulate key fresh step chunk)) []

theorem accumulateChunks_append (chunks : List (List α)) (chunk : List α) :
    accumulateChunks combine key fresh step (chunks ++ [chunk]) =
      mergeInto combine (accumulateChunks combine key fresh step chunks) (accumulate key fresh step chunk) := by
  unfold accumulateChunks
  rw [foldl_append]
  rfl

theorem accumulateChunks_single (rows : List α) :
    accumulateChunks combine key fresh step [rows] = accumulate key fresh step rows :=
  mergeInto_apart combine (accumulate_nodup key fresh step rows)

theorem accumulateChunks_nodup (chunks : List (List α)) :
    ((accumulateChunks combine key fresh step chunks).map Prod.fst).Nodup := by
  induction chunks using List.reverseRecOn with
  | nil => exact nodup_nil
  | append_singleton chunks chunk ih =>
    rw [accumulateChunks_append]
    exact mergeInto_nodup combine ih _

def foldParts (parts : List (List α)) : Option σ :=
  (parts.map (foldRows fresh step)).foldl (join combine) none

theorem foldParts_append (parts : List (List α)) (part : List α) :
    foldParts combine fresh step (parts ++ [part]) =
      join combine (foldParts combine fresh step parts) (foldRows fresh step part) := by
  unfold foldParts
  rw [map_append, foldl_append]
  rfl

theorem stateOf_accumulateChunks (k : κ) (chunks : List (List α)) :
    stateOf k (accumulateChunks combine key fresh step chunks) =
      foldParts combine fresh step (chunks.map fun chunk => chunk.filter fun row => key row = k) := by
  induction chunks using List.reverseRecOn with
  | nil => rfl
  | append_singleton chunks chunk ih =>
    rw [accumulateChunks_append, stateOf_mergeInto combine k (accumulate_nodup ..), ih, stateOf_accumulate,
      map_append, map_singleton, foldParts_append]

theorem foldParts_eq_none {parts : List (List α)} :
    foldParts combine fresh step parts = none ↔ parts.flatten = [] := by
  induction parts using List.reverseRecOn with
  | nil => simp [foldParts]
  | append_singleton parts part ih =>
    rw [foldParts_append, flatten_append, flatten_singleton, append_eq_nil_iff, ← ih,
      ← foldRows_eq_none fresh step]
    cases foldParts combine fresh step parts <;> cases foldRows fresh step part <;> simp [join]

end Merging

section Summaries
variable {fresh : α → σ} {step : σ → α → σ} {combine : σ → σ → σ} (Describes : List α → σ → Prop)

theorem describes_foldRows (first : ∀ row, Describes [row] (step (fresh row) row))
    (next : ∀ rows s row, Describes rows s → Describes (rows ++ [row]) (step s row)) {rows : List α} {s : σ}
    (folded : foldRows fresh step rows = some s) : Describes rows s := by
  induction rows using List.reverseRecOn generalizing s with
  | nil => cases folded
  | append_singleton rows row ih =>
    rw [foldRows_append] at folded
    cases earlier : foldRows fresh step rows with
    | none =>
      rw [earlier] at folded
      cases folded
      rw [(foldRows_eq_none fresh step).mp earlier]
      exact first row
    | some t =>
      rw [earlier] at folded
      cases folded
      exact next rows t row (ih earlier)

theorem describes_foldParts (folds : ∀ rows s, foldRows fresh step rows = some s → Describes rows s)
    (merge : ∀ rows s more t, Describes rows s → foldRows fresh step more = some t →
      Describes (rows ++ more) (combine s t))
    {parts : List (List α)} {s : σ} (folded : foldParts combine fresh step parts = some s) :
    Describes parts.flatten s := by
  induction parts using List.reverseRecOn generalizing s with
  | nil => cases folded
  | append_singleton parts part ih =>
    rw [foldParts_append] at folded
    rw [flatten_append, flatten_singleton]
    cases before : foldParts combine fresh step parts with
    | none =>
      rw [before] at folded
      rw [(foldParts_eq_none combine fresh step).mp before, nil_append]
      exact folds part s folded
    | some t =>
      rw [before] at folded
      cases last : foldRows fresh step part with
      | none =>
        rw [last] at folded
        cases folded
        rw [(foldRows_eq_none fresh step).mp last, append_nil]
        exact ih before
      | some u =>
        rw [last] at folded
        cases folded
        exact merge _ _ _ _ (ih before) last

theorem foldRows_map {τ : Type} (φ : σ → τ) {fresh' : α → τ} {step' : τ → α → τ}
    (opens : ∀ row, φ (fresh row) = fresh' row) (steps : ∀ s row, φ (step s row) = step' (φ s) row)
    (rows : List α) : (foldRows fresh step rows).map φ = foldRows fresh' step' rows := by
  induction rows using List.reverseRecOn with
  | nil => rfl
  | append_singleton rows row ih =>
    rw [foldRows_append, foldRows_append, ← ih]
    cases foldRows fresh step rows <;> simp [opens, steps]

theorem foldParts_map {τ : Type} (φ : σ → τ) {fresh' : α → τ} {step' : τ → α → τ} {combine' : τ → τ → τ}
    (opens : ∀ row, φ (fresh row) = fresh' row) (steps : ∀ s row, φ (step s row) = step' (φ s) row)
    (merges : ∀ s t, φ (combine s t) = combine' (φ s) (φ t)) (parts : List (List α)) :
    (foldParts combine fresh step parts).map φ = foldParts combine' fresh' step' parts := by
  induction parts using List.reverseRecOn with
  | nil => rfl
  | append_singleton parts part ih =>
    rw [foldParts_append, foldParts_append, ← ih, ← foldRows_map φ opens steps]
    cases foldParts combine fresh step parts <;> cases foldRows fresh step part <;> simp [join, merges]

end Summaries
end GroupedFolds
