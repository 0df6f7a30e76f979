import SochDB.AggregateCalls

/-!
Grouped queries: one output row for each class of rows with equal group values, on the
plain-column path in any division of the rows and on the general path, and for which inputs
the rows do not depend on the path, the order and the division.
-/
namespace AggregateExactness
open KeyedMaps Utf8 PackedRows RowKeys SqlConnection SqlBridge GroupedFolds Aggregates List
open AggregateValues AggregateCalls
open SqlExpressions hiding compareValues

section Queries

/-- What a query shows: a column that it groups by, or a call. -/
inductive Item where
  | column (ref : ColumnRef)
  | call (call : Call)
  deriving DecidableEq

def Item.name : Item → Str
  | .column ref => columnName ref
  | .call c => c.key

def Item.expr : Item → Expr
  | .column ref => .column ref
  | .call c => c.expr

/-- `SELECT g₁, …, gₙ, call₁, …, callₘ FROM … GROUP BY g₁, …, gₙ`, where no column is called
    `*` and items with one name are one item. -/
structure Query where
  groupBy : List ColumnRef
  calls : List Call
  columns : ∀ call ∈ calls, ∀ ref ∈ call.arg, ref.column ≠ star
  apart : ∀ a ∈ groupBy.map Item.column ++ calls.map Item.call,
    ∀ b ∈ groupBy.map Item.column ++ calls.map Item.call, a.name = b.name → a = b

namespace Query
variable (q : Query)

def items : List Item := q.groupBy.map .column ++ q.calls.map .call

def select : SelectStmt where
  columns := q.items.map fun item => .expr item.expr none
  tables := none
  whereClause := none
  groupBy := q.groupBy.map .column
  having := none
  orderBy := []
  limit := none
  offset := none

def groupValues (row : Row) : List SochValue := q.groupBy.map fun ref => normal (colGet row ref)

/-- The group values that occur. A query without GROUP BY has one class, even without rows. -/
def classKeys (rows : List Row) : List (List SochValue) :=
  if q.groupBy = [] then [[]] else (rows.map q.groupValues).dedup

def classRows (rows : List Row) (key : List SochValue) : List Row :=
  rows.filter fun row => q.groupValues row = key

def view (row : Row) : List SochValue := q.items.map fun item => normal ((get row item.name).getD .null)

def views : ExecutionResult → List (List SochValue)
  | .rows _ rows => rows.map q.view
  | _ => []

def SimpleRows (rows : List Row) : Prop :=
  ∀ row ∈ rows, (∀ ref ∈ q.groupBy, Simple (colGet row ref)) ∧
    ∀ call ∈ q.calls, ∀ ref ∈ call.arg, Simple (colGet row ref)

end Query

end Queries

section Statement
variable (host : Numerics) (sort : SortBy) (params : List SochValue) (q : Query)

def specs : List AggSpec := collectAggSpecs host.toHost q.select

def finish (states : List GroupState) : ExecutionResult :=
  finishGroups host sort q.select (specs host q) params none none states

/-- Each class has one answer, which is what its calls should return, and for every order of
    the rows the output is the classes with their answers: in the result, on the
    plain-column path in every division into chunks, and on the general path. -/
def IsExact (rows : List Row) : Prop :=
  ∃ answer : List SochValue → List SochValue,
    (∀ key ∈ q.classKeys rows, List.Forall₂ (fun call => Meets call (q.classRows rows key)) q.calls (answer key)) ∧
    ∀ order : List Row, order.Perm rows →
      let expected := (q.classKeys rows).map fun key => key ++ answer key
      (∀ threads, ∃ result, executeAggregate host sort threads q.select order params none none = .ok result ∧
        (q.views result).Perm expected) ∧
      (∀ chunks, chunks.flatten = order → ∃ states,
        accumulateDivided host q.select (specs host q) chunks = some states ∧
          (q.views (finish host sort params q states)).Perm expected) ∧
      (q.views (finish host sort params q (accumulateGeneral host q.select (specs host q) params order))).Perm expected

/-- Rows with the same key atoms have the same group values, and on every class every call is
    settled. -/
structure Unambiguous (rows : List Row) : Prop where
  keys : ∀ a ∈ rows, ∀ b ∈ rows, makeGroupKey q.groupBy a = makeGroupKey q.groupBy b →
    q.groupValues a = q.groupValues b
  calls : ∀ key ∈ q.classKeys rows, ∀ call ∈ q.calls, Settled host call (q.classRows rows key)

end Statement

section Specs
variable (host : Host) {q : Query}

theorem fromName_funcName (func : AggFn) : AggFn.fromName (Str.ascii (funcName func)) = some func := by
  cases func <;> decide

variable {call : Call} {calls : List Call}

section
variable (named : ∀ ref ∈ call.arg, ref.column ≠ star)
include named

theorem arg_of_call :
    (if isStar [Expr.column (call.arg.getD ⟨none, star⟩)].head? then none
      else [Expr.column (call.arg.getD ⟨none, star⟩)].head?) = call.arg.map Expr.column := by
  cases found : call.arg with
  | none => rfl
  | some ref =>
    have other := named ref found
    simp [isStar, other]

theorem renderExprName_call :
    renderExprName host call.expr = call.key := by
  rw [Call.expr, renderExprName, fromName_funcName]
  unfold Call.key
  cases found : call.arg with
  | none => rfl
  | some ref =>
    have other := named ref found
    simp [isStar, other, renderAll, renderExprName]

theorem collectFromExpr_call (specs : List AggSpec) :
    collectFromExpr host specs call.expr =
      if specs.any fun spec => spec.key = call.key then specs else specs ++ [call.spec] := by
  have rendered : (call.arg.map Expr.column).map (renderExprName host) = call.arg.map columnName := by
    rw [Option.map_map]
    rfl
  rw [Call.expr, collectFromExpr, fromName_funcName]
  dsimp only
  rw [arg_of_call named, rendered]
  rfl

end

def addCall (seen : List Call) (call : Call) : List Call :=
  if seen.any fun other => other.key = call.key then seen else seen ++ [call]

def Query.firsts (q : Query) : List Call := q.calls.foldl addCall []

theorem collectAll_calls (named : ∀ call ∈ calls, ∀ ref ∈ call.arg, ref.column ≠ star) (seen : List Call) :
    collectAll host (seen.map Call.spec) (calls.map Call.expr) = (calls.foldl addCall seen).map Call.spec := by
  induction calls generalizing seen with
  | nil => rfl
  | cons call calls ih =>
    have step : collectFromExpr host (seen.map Call.spec) call.expr = (addCall seen call).map Call.spec := by
      rw [collectFromExpr_call host (named call mem_cons_self), any_map, addCall]
      have same : ((fun spec : AggSpec => decide (spec.key = call.key)) ∘ Call.spec) =
          fun other => decide (other.key = call.key) := rfl
      rw [same]
      split
      · rfl
      · rw [map_append]
        rfl
    rw [map_cons, collectAll, step, foldl_cons]
    exact ih (fun other member => named other (mem_cons_of_mem call member)) _

theorem collectAll_columns (refs : List ColumnRef) (specs : List AggSpec) (rest : List Expr) :
    collectAll host specs (refs.map Expr.column ++ rest) = collectAll host specs rest := by
  induction refs with
  | nil => rfl
  | cons ref refs ih =>
    have same : collectFromExpr host specs (.column ref) = specs := by simp [collectFromExpr]
    rw [map_cons, cons_append, collectAll, same]
    exact ih

theorem specs_eq (host : Numerics) (q : Query) : specs host q = q.firsts.map Call.spec := by
  have columns : q.select.columns.filterMap itemExpr = q.groupBy.map Expr.column ++ q.calls.map Call.expr := by
    have all : ∀ {α β : Type} (f : α → β) (l : List α), l.filterMap (fun a => some (f a)) = l.map f :=
      fun f l => congrFun filterMap_eq_map l
    show (q.items.map fun item => SelectItem.expr item.expr none).filterMap itemExpr = _
    rw [filterMap_map, Query.items, filterMap_append, filterMap_map, filterMap_map]
    exact congrArg₂ (· ++ ·) (all Expr.column q.groupBy) (all Call.expr q.calls)
  have found : specs host q = collectAll host.toHost [] (q.groupBy.map Expr.column ++ q.calls.map Call.expr) := by
    unfold specs collectAggSpecs
    rw [columns]
    show collectAll host.toHost [] (_ ++ [] ++ []) = _
    rw [append_nil, append_nil]
  rw [found, collectAll_columns]
  exact collectAll_calls host.toHost q.columns []

theorem mem_foldl_addCall {seen : List Call} (member : call ∈ calls.foldl addCall seen) :
    call ∈ seen ∨ call ∈ calls := by
  induction calls generalizing seen with
  | nil => exact .inl member
  | cons other calls ih =>
    rcases ih member with earlier | later
    · unfold addCall at earlier
      split at earlier
      · exact .inl earlier
      · rcases mem_append.mp earlier with before | now
        · exact .inl before
        · exact .inr (mem_singleton.mp now ▸ mem_cons_self)
    · exact .inr (mem_cons_of_mem other later)

theorem keys_foldl_addCall {seen : List Call} {key : Str} :
    key ∈ (calls.foldl addCall seen).map Call.key ↔ key ∈ seen.map Call.key ∨ key ∈ calls.map Call.key := by
  induction calls generalizing seen with
  | nil => simp
  | cons first calls ih =>
    have added : key ∈ (addCall seen first).map Call.key ↔ key ∈ seen.map Call.key ∨ key = first.key := by
      unfold addCall
      split
      · rename_i known
        refine (or_iff_left_of_imp ?_).symm
        rintro rfl
        simpa using known
      · simp
    rw [foldl_cons, ih, added, map_cons, mem_cons, or_assoc]

theorem column_item {ref : ColumnRef} (member : ref ∈ q.groupBy) : Item.column ref ∈ q.items :=
  mem_append_left _ (mem_map_of_mem member)

theorem call_item (member : call ∈ q.calls) : Item.call call ∈ q.items :=
  mem_append_right _ (mem_map_of_mem member)

theorem mem_firsts : call ∈ q.firsts ↔ call ∈ q.calls := by
  constructor
  · intro member
    exact (mem_foldl_addCall member).resolve_left not_mem_nil
  · intro member
    have reached : call.key ∈ q.firsts.map Call.key := keys_foldl_addCall.mpr (.inr (mem_map_of_mem member))
    obtain ⟨other, found, same⟩ := mem_map.mp reached
    have inside : other ∈ q.calls := (mem_foldl_addCall found).resolve_left not_mem_nil
    cases q.apart _ (call_item inside) _ (call_item member) same
    exact found

theorem mapM_eq_some {α β : Type} {f : α → Option β} {g : α → β} {l : List α}
    (each : ∀ a ∈ l, f a = some (g a)) : l.mapM f = some (l.map g) := by
  induction l with
  | nil => rfl
  | cons a l ih =>
    have rest := ih fun b member => each b (mem_cons_of_mem a member)
    rw [mapM_cons, each a mem_cons_self, rest]
    rfl

theorem plainColumns_eq (host : Numerics) (q : Query) :
    plainColumns q.select (specs host q) = some (q.groupBy, q.firsts.map Call.arg) := by
  have groups : q.select.groupBy.mapM asPlainCol = some q.groupBy := by
    have plain : q.groupBy.mapM (asPlainCol ∘ Expr.column) = some (q.groupBy.map id) :=
      mapM_eq_some fun _ _ => rfl
    show (q.groupBy.map Expr.column).mapM asPlainCol = _
    rw [mapM_map, plain, map_id]
  unfold plainColumns
  rw [groups, specs_eq, mapM_map, Option.bind_some, mapM_eq_some (g := Call.arg)]
  · rfl
  · intro call _
    unfold Call.spec
    simp only [Function.comp_apply]
    cases call.arg <;> rfl

end Specs

section Groups
variable (host : Numerics) (q : Query)

def Query.values (row : Row) : List SochValue := q.groupBy.map (colGet row)

theorem normal_values (row : Row) : (q.values row).map normal = q.groupValues row := by
  rw [Query.values, map_map]
  rfl

def stateFor (t : List SochValue × Row × (Call → Acc)) : GroupState := ⟨t.1, t.2.1, q.firsts.map t.2.2⟩

theorem group_parts {parts : List (List Row)} {s : GroupState}
    (folded : foldParts (mergeStates host) (openGroup (q.firsts.map Call.spec) q.values)
      (takeRow host (q.firsts.map Call.arg) colGet) parts = some s) :
    s.accs = q.firsts.map (fun call => accParts host call parts) ∧
      ∃ row ∈ parts.flatten, s.keyValues = q.values row := by
  let opened (row : Row) : List SochValue × Row × (Call → Acc) := (q.values row, row, fun call => Acc.new call.spec)
  let stepped (t : List SochValue × Row × (Call → Acc)) (row : Row) : List SochValue × Row × (Call → Acc) :=
    (t.1, t.2.1, fun call => accStep host call (t.2.2 call) row)
  let merged (t u : List SochValue × Row × (Call → Acc)) : List SochValue × Row × (Call → Acc) :=
    (t.1, t.2.1, fun call => (t.2.2 call).merge host (u.2.2 call))
  have whole_fold : (foldParts merged opened stepped parts).map (stateFor q) = some s := by
    rw [← folded]
    apply foldParts_map
    · intro row
      simp only [stateFor, openGroup, opened, map_map]
      rfl
    · intro t row
      simp only [stateFor, takeRow, stepped, zipWith_map, zipWith_self]
      rfl
    · intro t u
      simp only [stateFor, mergeStates, merged, zipWith_map, zipWith_self]
  obtain ⟨t, inner, rfl⟩ := Option.map_eq_some_iff.mp whole_fold
  constructor
  · apply map_congr_left
    intro call _
    have component : (foldParts merged opened stepped parts).map (fun t => t.2.2 call) =
        foldParts (Acc.merge host) (fun _ => Acc.new call.spec) (accStep host call) parts :=
      foldParts_map _ (fun _ => rfl) (fun _ _ => rfl) (fun _ _ => rfl) parts
    rw [inner] at component
    rw [accParts, ← component]
    rfl
  · apply describes_foldParts (fun rows t => ∃ row ∈ rows, t.1 = q.values row) _ _ inner
    · intro rows u done
      apply describes_foldRows (fun rows t => ∃ row ∈ rows, t.1 = q.values row) _ _ done
      · exact fun row => ⟨row, mem_cons_self, rfl⟩
      · rintro rows u row ⟨first, member, same⟩
        exact ⟨first, mem_append_left _ member, same⟩
    · rintro rows u more v ⟨first, member, same⟩ _
      exact ⟨first, mem_append_left _ member, same⟩

def shownRow (params : List SochValue) (state : GroupState) : Row :=
  (projections host q.select (q.select.groupBy.map (renderExprName host.toHost)) (specs host q)).foldl
    (fun out e => out.insert e.1 (evalScalar host.toHost
      (groupRow host (q.select.groupBy.map (renderExprName host.toHost)) (specs host q) state) params e.2)) ∅

/-- The groups that are shown: one without rows, if there is no GROUP BY and no other. -/
def shownStates (states : List GroupState) : List GroupState :=
  if q.select.groupBy.isEmpty && states.isEmpty then [⟨[], ∅, (specs host q).map Acc.new⟩] else states

theorem views_finish (sort : SortBy) (params : List SochValue) (states : List GroupState) :
    q.views (finish host sort params q states) =
      (shownStates host q states).map fun state => q.view (shownRow host q params state) := by
  show ((((shownStates host q states).map _).drop 0).map _).map q.view = _
  rw [drop_zero, map_map, map_map]
  rfl

theorem projections_eq : projections host q.select (q.select.groupBy.map (renderExprName host.toHost))
    (specs host q) = q.items.map fun item => (item.name, item.expr) := by
  have named : ∀ item ∈ q.items, (renderExprName host.toHost item.expr, item.expr) = (item.name, item.expr) := by
    refine forall_mem_append.mpr ⟨forall_mem_map.mpr fun _ _ => rfl, forall_mem_map.mpr ?_⟩
    intro c inside
    show (renderExprName host.toHost c.expr, c.expr) = (c.key, c.expr)
    rw [renderExprName_call host.toHost (q.columns c inside)]
  show (q.items.map fun item => SelectItem.expr item.expr none).flatMap _ = _
  rw [flatMap_map, ← map_congr_left named]
  exact map_eq_flatMap.symm

variable {q}
variable {ref : ColumnRef} {row : Row} {state : GroupState} {acc : Call → Acc}

theorem groupRow_finds (keyed : state.keyValues = q.values row) (accs : state.accs = q.firsts.map acc) :
    let names := q.select.groupBy.map (renderExprName host.toHost)
    (∀ ref ∈ q.groupBy, get (groupRow host names (specs host q) state) (columnName ref) = some (colGet row ref)) ∧
      ∀ call ∈ q.calls, get (groupRow host names (specs host q) state) call.key = some ((acc call).finalize host) := by
  have keys : (q.select.groupBy.map (renderExprName host.toHost)).zip state.keyValues =
      q.groupBy.map fun ref => (columnName ref, colGet row ref) := by
    rw [keyed, Query.values]
    show ((q.groupBy.map Expr.column).map _).zip _ = _
    rw [map_map, zip_map']
    rfl
  have calls : (specs host q).zip state.accs = q.firsts.map fun call => (call.spec, acc call) := by
    rw [specs_eq, accs, zip_map']
  intro names
  unfold groupRow
  rw [keys, calls, foldl_map, foldl_map]
  constructor
  · intro ref member
    have apart : ∀ call ∈ q.firsts, call.spec.key ≠ columnName ref := by
      intro call inside same
      cases q.apart _ (call_item (mem_firsts.mp inside)) _ (column_item member) same
    rw [get_inserts_absent _ _ apart]
    apply get_inserts _ member
    intro other inside same
    cases q.apart _ (column_item inside) _ (column_item member) same
    rfl
  · intro call member
    apply get_inserts _ (mem_firsts.mpr member)
    intro other inside same
    cases q.apart _ (call_item (mem_firsts.mp inside)) _ (call_item member) same
    rfl

theorem colGet_of_get {v : SochValue} (found : get row (columnName ref) = some v) :
    colGet row ref = v := by
  unfold columnName at found
  unfold colGet lookupColumn
  cases table : ref.table with
  | none =>
    rw [table] at found
    simp [found]
  | some t =>
    rw [table] at found
    dsimp only at found
    simp [found]

theorem view_of_group (params : List SochValue) (keyed : state.keyValues = q.values row)
    (accs : state.accs = q.firsts.map acc) :
    q.view (shownRow host q params state) =
      q.groupValues row ++ q.calls.map fun call => normal ((acc call).finalize host) := by
  obtain ⟨columns, calls⟩ := groupRow_finds host keyed accs
  have shown : ∀ item ∈ q.items, get (shownRow host q params state) item.name =
      some (evalScalar host.toHost (groupRow host (q.select.groupBy.map (renderExprName host.toHost))
        (specs host q) state) params item.expr) := by
    intro item member
    unfold shownRow
    rw [projections_eq, foldl_map]
    apply get_inserts _ member
    intro other inside same
    cases q.apart _ inside _ member same
    rfl
  unfold Query.view
  rw [map_congr_left (fun item member => by rw [shown item member, Option.getD_some]), Query.items,
    map_append, map_map, map_map]
  congr 1
  · apply map_congr_left
    intro ref member
    show normal (colGet _ ref) = normal (colGet row ref)
    rw [colGet_of_get (columns ref member)]
  · apply map_congr_left
    intro call member
    show normal (evalScalar host.toHost _ params call.expr) = _
    have found := calls call member
    rw [← renderExprName_call host.toHost (q.columns call member)] at found
    unfold Call.expr evalScalar
    rw [← Call.expr, found]
    rfl

end Groups

section Paths
variable (host : Numerics) (q : Query) {κ : Type} [DecidableEq κ] (key : Row → κ)

def grouped (chunks : List (List Row)) : List (κ × GroupState) :=
  accumulateChunks (mergeStates host) key (openGroup (q.firsts.map Call.spec) q.values)
    (takeRow host (q.firsts.map Call.arg) colGet) chunks

def textKey (row : Row) : List Str := (q.values row).map (keyRepr host.toHost)

variable {k : κ} (params : List SochValue) (chunks : List (List Row))

theorem accumulateDivided_eq :
    accumulateDivided host q.select (specs host q) chunks =
      some ((grouped host q (makeGroupKey q.groupBy) chunks).map Prod.snd) := by
  unfold accumulateDivided
  rw [plainColumns_eq, specs_eq]
  rfl

theorem accumulateGeneral_eq (rows : List Row) :
    accumulateGeneral host q.select (specs host q) params rows =
      (grouped host q (textKey host q) [rows]).map Prod.snd := by
  have values : (fun row => q.select.groupBy.map (evalScalar host.toHost row params)) = q.values := by
    funext row
    show (q.groupBy.map Expr.column).map _ = _
    rw [map_map]
    rfl
  have steps : takeRow host ((q.firsts.map Call.spec).map AggSpec.arg) (fun row => evalScalar host.toHost row params) =
      takeRow host (q.firsts.map Call.arg) colGet := by
    funext state row
    unfold takeRow
    rw [map_map, zipWith_map_right, zipWith_map_right]
    congr 2
    funext acc call
    show acc.update host ((call.arg.map Expr.column).map _) = _
    rw [Option.map_map]
    rfl
  have keys : (fun row => (q.select.groupBy.map (evalScalar host.toHost row params)).map (keyRepr host.toHost)) =
      textKey host q := by
    funext row
    rw [textKey, ← congrFun values row]
  unfold accumulateGeneral grouped
  dsimp only
  rw [accumulateChunks_single, values, keys, specs_eq, steps]

theorem foldParts_without_empty {α σ : Type} (combine : σ → σ → σ) (fresh : α → σ) (step : σ → α → σ)
    (parts : List (List α)) :
    foldParts combine fresh step parts = foldParts combine fresh step (parts.filter (· ≠ [])) := by
  induction parts using List.reverseRecOn with
  | nil => rfl
  | append_singleton parts part ih =>
    rw [foldParts_append, filter_append]
    by_cases empty : part = []
    · have dropped : [part].filter (· ≠ []) = [] := by simp [empty]
      rw [dropped, append_nil, ← ih, empty]
      cases foldParts combine fresh step parts <;> rfl
    · have kept : [part].filter (· ≠ []) = [part] := by simp [empty]
      rw [kept, foldParts_append, ← ih]

theorem accParts_without_empty (call : Call) (parts : List (List Row)) :
    accParts host call parts = accParts host call (parts.filter (· ≠ [])) := by
  unfold accParts
  rw [foldParts_without_empty]

def answers (parts : List (List Row)) : List SochValue :=
  q.calls.map fun call => normal ((accParts host call parts).finalize host)

theorem answers_without_empty (parts : List (List Row)) :
    answers host q parts = answers host q (parts.filter (· ≠ [])) :=
  map_congr_left fun call _ => by rw [← accParts_without_empty]

def share (chunks : List (List Row)) (k : κ) : List (List Row) :=
  chunks.map fun chunk => chunk.filter fun row => key row = k

theorem flatten_share (k : κ) :
    (share key chunks k).flatten = chunks.flatten.filter fun row => key row = k := by
  unfold share
  rw [filter_flatten]

variable {q key}

theorem group_shows {chunks : List (List Row)} {state : GroupState}
    (found : stateOf k (grouped host q key chunks) = some state) :
    ∃ row ∈ chunks.flatten, key row = k ∧ state.keyValues.map normal = q.groupValues row ∧
      q.view (shownRow host q params state) = q.groupValues row ++ answers host q (share key chunks k) := by
  rw [grouped, stateOf_accumulateChunks] at found
  obtain ⟨accs, row, member, keyed⟩ := group_parts host q found
  rw [← share, flatten_share, mem_filter, decide_eq_true_eq] at member
  exact ⟨row, member.1, member.2, by rw [keyed, normal_values], view_of_group host params keyed accs⟩

theorem key_grouped {chunks : List (List Row)} :
    k ∈ (grouped host q key chunks).map Prod.fst ↔ ∃ row ∈ chunks.flatten, key row = k := by
  rw [mem_keys_iff, grouped, stateOf_accumulateChunks, Option.isSome_iff_ne_none, Ne, foldParts_eq_none,
    ← share, flatten_share, filter_eq_nil_iff]
  push Not
  simp only [decide_eq_true_eq]

end Paths

section Classes
variable (host : Numerics) {q : Query} {κ : Type} [DecidableEq κ] {key : Row → κ} {rows : List Row}

def TellsClasses (q : Query) (key : Row → κ) (rows : List Row) : Prop :=
  ∀ a ∈ rows, ∀ b ∈ rows, key a = key b ↔ q.groupValues a = q.groupValues b

theorem textKey_tells (simple : q.SimpleRows rows) : TellsClasses q (textKey host q) rows := by
  intro a inA b inB
  unfold textKey Query.values Query.groupValues
  rw [map_map, map_map, map_inj_left, map_inj_left]
  apply forall₂_congr
  intro ref member
  exact keyRepr_eq_iff host.toHost ((simple a inA).1 ref member) ((simple b inB).1 ref member)

theorem makeGroupKey_of_values {a b : Row} (same : q.groupValues a = q.groupValues b) :
    makeGroupKey q.groupBy a = makeGroupKey q.groupBy b := by
  have atoms : ∀ ref ∈ q.groupBy, KeyAtom.fromValue (colGet a ref) = KeyAtom.fromValue (colGet b ref) :=
    fun ref member => fromValue_of_normal (map_inj_left.mp same ref member)
  unfold makeGroupKey
  split
  · rfl
  · rename_i ref found
    rw [atoms ref (by rw [found]; exact mem_cons_self)]
  · rw [map_congr_left atoms]

theorem groupValues_length (row : Row) : (q.groupValues row).length = q.groupBy.length := List.length_map ..

theorem classKeys_nodup (rows : List Row) : (q.classKeys rows).Nodup := by
  unfold Query.classKeys
  split
  · exact nodup_singleton []
  · exact nodup_dedup _

theorem mem_classKeys (some_row : ¬(q.groupBy = [] ∧ rows = [])) {values : List SochValue} :
    values ∈ q.classKeys rows ↔ ∃ row ∈ rows, q.groupValues row = values := by
  unfold Query.classKeys
  split
  case isTrue ungrouped =>
    have empty : ∀ row, q.groupValues row = [] := fun row => by rw [Query.groupValues, ungrouped]; rfl
    simp only [mem_singleton, empty]
    constructor
    · rintro rfl
      obtain ⟨row, member⟩ := exists_mem_of_ne_nil rows fun none_left => some_row ⟨ungrouped, none_left⟩
      exact ⟨row, member, rfl⟩
    · rintro ⟨_, _, rfl⟩
      rfl
  case isFalse => rw [mem_dedup, mem_map]

variable {chunks : List (List Row)} (sort : SortBy)

theorem share_perm (tells : TellsClasses q key rows) (divided : chunks.flatten.Perm rows) {row : Row}
    (member : row ∈ rows) :
    (share key chunks (key row)).flatten.Perm (q.classRows rows (q.groupValues row)) := by
  rw [flatten_share]
  have same : chunks.flatten.filter (fun other => key other = key row) =
      chunks.flatten.filter fun other => q.groupValues other = q.groupValues row := by
    apply filter_congr
    intro other inside
    simp only [tells other (divided.subset inside) row member]
  rw [same]
  exact divided.filter _

variable (params : List SochValue)

variable (q) in
theorem views_of_states (some_row : ¬(q.groupBy = [] ∧ chunks.flatten = [])) :
    q.views (finish host sort params q ((grouped host q key chunks).map Prod.snd)) =
      (grouped host q key chunks).map fun group => q.view (shownRow host q params group.2) := by
  have shown : shownStates host q ((grouped host q key chunks).map Prod.snd) =
      (grouped host q key chunks).map Prod.snd := by
    unfold shownStates
    rw [if_neg]
    intro both
    obtain ⟨ungrouped, stateless⟩ := Bool.and_eq_true_iff.mp both
    apply some_row
    constructor
    · exact map_eq_nil_iff.mp (isEmpty_iff.mp ungrouped)
    · by_contra nonempty
      obtain ⟨row, member⟩ := exists_mem_of_ne_nil _ nonempty
      have present : key row ∈ (grouped host q key chunks).map Prod.fst :=
        (key_grouped host).mpr ⟨row, member, rfl⟩
      rw [map_eq_nil_iff.mp (isEmpty_iff.mp stateless)] at present
      cases present
  rw [views_finish, shown, map_map]
  rfl

theorem views_rowless (ungrouped : q.groupBy = []) (rowless : chunks.flatten = []) :
    q.views (finish host sort params q ((grouped host q key chunks).map Prod.snd)) = [answers host q []] := by
  have none_left : grouped host q key chunks = [] := by
    have keyless : (grouped host q key chunks).map Prod.fst = [] := by
      apply eq_nil_iff_forall_not_mem.mpr
      intro k present
      obtain ⟨row, member, _⟩ := (key_grouped host).mp present
      rw [rowless] at member
      cases member
    exact map_eq_nil_iff.mp keyless
  have shown : shownStates host q [] = [⟨[], ∅, (specs host q).map Acc.new⟩] := by
    unfold shownStates
    rw [if_pos]
    show ((q.groupBy.map Expr.column).isEmpty && true) = true
    rw [ungrouped]
    rfl
  have values : ([] : List SochValue) = q.values ∅ := by rw [Query.values, ungrouped]; rfl
  have accs : (specs host q).map Acc.new = q.firsts.map fun call => accParts host call [] := by
    rw [specs_eq, map_map]
    rfl
  have view : q.view (shownRow host q params ⟨[], ∅, (specs host q).map Acc.new⟩) =
      q.groupValues ∅ ++ answers host q [] := view_of_group host params values accs
  have empty : q.groupValues ∅ = [] := by rw [Query.groupValues, ungrouped]; rfl
  rw [views_finish, none_left, map_nil, shown, map_singleton, view, empty]
  rfl

theorem views_perm (tells : TellsClasses q key rows) {answer : List SochValue → List SochValue}
    (stable : ∀ values ∈ q.classKeys rows, ∀ parts : List (List Row), [] ∉ parts →
      parts.flatten.Perm (q.classRows rows values) → answers host q parts = answer values)
    (divided : chunks.flatten.Perm rows) :
    (q.views (finish host sort params q ((grouped host q key chunks).map Prod.snd))).Perm
      ((q.classKeys rows).map fun values => values ++ answer values) := by
  by_cases some_row : q.groupBy = [] ∧ rows = []
  case pos =>
    obtain ⟨ungrouped, rowless⟩ := some_row
    subst rowless
    have classes : q.classKeys [] = [[]] := if_pos ungrouped
    rw [views_rowless host sort params ungrouped (perm_nil.mp divided), classes,
      stable [] (by rw [classes]; exact mem_singleton_self []) [] not_mem_nil (.refl _)]
    exact .refl _
  case neg =>
    have chunk_row : ¬(q.groupBy = [] ∧ chunks.flatten = []) := by
      rintro ⟨ungrouped, rowless⟩
      rw [rowless] at divided
      exact some_row ⟨ungrouped, nil_perm.mp divided⟩
    have nodup : ((grouped host q key chunks).map Prod.fst).Nodup := accumulateChunks_nodup ..
    have shows : ∀ group ∈ grouped host q key chunks, ∃ row ∈ rows, key row = group.1 ∧
        group.2.keyValues.map normal = q.groupValues row ∧
        q.view (shownRow host q params group.2) = q.groupValues row ++ answer (q.groupValues row) := by
      intro group member
      obtain ⟨row, inside, isKey, keyed, view⟩ := group_shows host params (stateOf_of_mem nodup member)
      have present : row ∈ rows := divided.subset inside
      have classRows := share_perm tells divided present
      rw [isKey, ← flatten_filter_ne_nil] at classRows
      have settled := stable (q.groupValues row) ((mem_classKeys some_row).mpr ⟨row, present, rfl⟩) _
        (by simp) classRows
      rw [answers_without_empty, settled] at view
      exact ⟨row, present, isKey, keyed, view⟩
    have views : (grouped host q key chunks).map (fun group => q.view (shownRow host q params group.2)) =
        ((grouped host q key chunks).map fun group => group.2.keyValues.map normal).map
          fun values => values ++ answer values := by
      rw [map_map]
      apply map_congr_left
      intro group member
      obtain ⟨row, _, _, keyed, view⟩ := shows group member
      rw [view, Function.comp, keyed]
    have classes : ((grouped host q key chunks).map fun group => group.2.keyValues.map normal).Perm
        (q.classKeys rows) := by
      rw [perm_ext_iff_of_nodup _ (classKeys_nodup rows)]
      · intro values
        rw [mem_map, mem_classKeys some_row]
        constructor
        · rintro ⟨group, member, rfl⟩
          obtain ⟨row, present, _, keyed, _⟩ := shows group member
          exact ⟨row, present, keyed.symm⟩
        · rintro ⟨row, present, rfl⟩
          have known : key row ∈ (grouped host q key chunks).map Prod.fst :=
            (key_grouped host).mpr ⟨row, divided.symm.subset present, rfl⟩
          obtain ⟨group, member, isKey⟩ := mem_map.mp known
          obtain ⟨other, inside, otherKey, keyed, _⟩ := shows group member
          exact ⟨group, member, keyed.trans ((tells other inside row present).mp (otherKey.trans isKey))⟩
      · apply List.Nodup.map_on _ (List.Nodup.of_map _ nodup)
        intro a inA b inB same
        obtain ⟨rowA, presentA, keyA, keyedA, _⟩ := shows a inA
        obtain ⟨rowB, presentB, keyB, keyedB, _⟩ := shows b inB
        have keys : a.1 = b.1 := by
          rw [← keyA, ← keyB]
          exact (tells rowA presentA rowB presentB).mpr (keyedA.symm.trans (same.trans keyedB))
        exact inj_on_of_nodup_map nodup inA inB keys
    rw [views_of_states host q sort params chunk_row, views]
    exact classes.map _

end Classes

section Exactness
variable {host : Numerics} {sort : SortBy} {params : List SochValue} {q : Query} {rows : List Row}
variable {α : Type} {chunks : List (List Row)} (n : Nat)

theorem flatten_go (xs : List α) (chunk : Array α) (chunks : Array (List α)) :
    (List.toChunks.go n xs chunk chunks).flatten = chunks.toList.flatten ++ chunk.toList ++ xs := by
  induction xs generalizing chunk chunks with
  | nil => simp [List.toChunks.go]
  | cons x xs ih =>
    unfold List.toChunks.go
    split
    · rw [ih]
      simp
    · rw [ih]
      simp

theorem flatten_toChunks (xs : List α) : (xs.toChunks n).flatten = xs := by
  unfold List.toChunks
  split
  · rfl
  · exact append_nil _
  · exact flatten_go ..

variable (host sort params q rows) in
theorem executeAggregate_eq (threads : Nat) : ∃ chunks : List (List Row), chunks.flatten = rows ∧
    executeAggregate host sort threads q.select rows params none none =
      .ok (finish host sort params q ((grouped host q (makeGroupKey q.groupBy) chunks).map Prod.snd)) := by
  refine ⟨if parallelThreshold ≤ rows.length then rows.toChunks (chunkSize threads rows) else [rows], ?_, ?_⟩
  · split
    · exact flatten_toChunks ..
    · exact append_nil rows
  · unfold executeAggregate
    dsimp only
    rw [accumulateFast_eq, ← specs, accumulateDivided_eq]
    rfl

theorem simpleIn_class (simple : q.SimpleRows rows) (values : List SochValue) {call : Call} (member : call ∈ q.calls) :
    SimpleIn call (q.classRows rows values) :=
  fun row inside => (simple row (mem_of_mem_filter inside)).2 call member

theorem exact_of_unambiguous (simple : q.SimpleRows rows) (clear : Unambiguous host q rows) :
    IsExact host sort params q rows := by
  have each : ∀ values ∈ q.classKeys rows, ∀ call ∈ q.calls,
      ∃ v, Stable host call (q.classRows rows values) v ∧ Meets call (q.classRows rows values) v :=
    fun values known call member =>
      (stable_iff_settled host (simpleIn_class simple values member)).mpr (clear.calls values known call member)
  have : Nonempty SochValue := ⟨.null⟩
  choose! value stable meets using each
  have fixed : ∀ values ∈ q.classKeys rows, ∀ parts : List (List Row), [] ∉ parts →
      parts.flatten.Perm (q.classRows rows values) → answers host q parts = q.calls.map (value values) :=
    fun values known parts nonempty divided =>
      map_congr_left fun call member => stable values known call member parts nonempty divided
  have plain : TellsClasses q (makeGroupKey q.groupBy) rows :=
    fun a inA b inB => ⟨clear.keys a inA b inB, makeGroupKey_of_values⟩
  refine ⟨fun values => q.calls.map (value values), ?_, ?_⟩
  · intro values known
    rw [forall₂_map_right_iff, forall₂_same]
    exact meets values known
  · intro order reordered
    refine ⟨?_, ?_, ?_⟩
    · intro threads
      obtain ⟨chunks, divided, result⟩ := executeAggregate_eq host sort params q order threads
      exact ⟨_, result, views_perm host sort params plain fixed (divided ▸ reordered)⟩
    · intro chunks divided
      exact ⟨_, accumulateDivided_eq host q chunks, views_perm host sort params plain fixed (divided ▸ reordered)⟩
    · rw [accumulateGeneral_eq]
      apply views_perm host sort params (textKey_tells host simple) fixed
      rw [flatten_singleton]
      exact reordered

variable {answer : List SochValue → List SochValue}

theorem exact_group
    (output : (q.views (finish host sort params q ((grouped host q (makeGroupKey q.groupBy) chunks).map Prod.snd))).Perm
      ((q.classKeys rows).map fun values => values ++ answer values)) (divided : chunks.flatten.Perm rows)
    {row : Row} (member : row ∈ rows) :
    ∃ state, stateOf (makeGroupKey q.groupBy row) (grouped host q (makeGroupKey q.groupBy) chunks) = some state ∧
      q.view (shownRow host q params state) = q.groupValues row ++ answer (q.groupValues row) := by
  have some_row : ¬(q.groupBy = [] ∧ rows = []) := fun both => ne_nil_of_mem member both.2
  have chunk_row : ¬(q.groupBy = [] ∧ chunks.flatten = []) :=
    fun both => ne_nil_of_mem (divided.symm.subset member) both.2
  have known := (mem_classKeys some_row).mpr ⟨row, member, rfl⟩
  rw [views_of_states host q sort params chunk_row] at output
  have shown := output.symm.subset (mem_map.mpr ⟨q.groupValues row, known, rfl⟩)
  obtain ⟨group, inside, view⟩ := mem_map.mp shown
  have nodup : ((grouped host q (makeGroupKey q.groupBy) chunks).map Prod.fst).Nodup := accumulateChunks_nodup ..
  have found := stateOf_of_mem nodup inside
  obtain ⟨other, _, isKey, _, split⟩ := group_shows host params found
  have same : q.groupValues other = q.groupValues row := by
    rw [split] at view
    exact (append_inj view (by rw [groupValues_length, groupValues_length])).1
  rw [← isKey, makeGroupKey_of_values same] at found
  exact ⟨group.2, found, view⟩

theorem exact_divided
    (states : ∃ states, accumulateDivided host q.select (specs host q) chunks = some states ∧
      (q.views (finish host sort params q states)).Perm
        ((q.classKeys rows).map fun values => values ++ answer values)) :
    (q.views (finish host sort params q ((grouped host q (makeGroupKey q.groupBy) chunks).map Prod.snd))).Perm
      ((q.classKeys rows).map fun values => values ++ answer values) := by
  obtain ⟨states, accumulated, output⟩ := states
  rw [accumulateDivided_eq] at accumulated
  cases accumulated
  exact output

theorem keys_of_exact (exact_output : IsExact host sort params q rows) :
    ∀ a ∈ rows, ∀ b ∈ rows, makeGroupKey q.groupBy a = makeGroupKey q.groupBy b →
      q.groupValues a = q.groupValues b := by
  obtain ⟨answer, _, outputs⟩ := exact_output
  have output := exact_divided ((outputs rows (List.Perm.refl rows)).2.1 [rows] (append_nil rows))
  have divided : [rows].flatten.Perm rows := by rw [flatten_singleton]
  intro a inA b inB same
  obtain ⟨stateA, foundA, viewA⟩ := exact_group output divided inA
  obtain ⟨stateB, foundB, viewB⟩ := exact_group output divided inB
  rw [same, foundB] at foundA
  cases foundA
  exact (append_inj (viewA.symm.trans viewB) (by rw [groupValues_length, groupValues_length])).1

theorem answers_of_exact (tells : TellsClasses q (makeGroupKey q.groupBy) rows)
    (outputs : ∀ order : List Row, order.Perm rows → ∀ chunks, chunks.flatten = order → ∃ states,
      accumulateDivided host q.select (specs host q) chunks = some states ∧
        (q.views (finish host sort params q states)).Perm
          ((q.classKeys rows).map fun values => values ++ answer values)) {values : List SochValue}
    (known : values ∈ q.classKeys rows) {parts : List (List Row)} (nonempty : [] ∉ parts)
    (collected : parts.flatten.Perm (q.classRows rows values)) : answers host q parts = answer values := by
  let others := rows.filter fun row => !decide (q.groupValues row = values)
  have divided : (parts ++ [others]).flatten.Perm rows := by
    rw [flatten_append, flatten_singleton]
    exact (collected.append_right others).trans (filter_append_perm _ rows)
  have output := exact_divided (outputs _ divided _ rfl)
  by_cases some_row : q.groupBy = [] ∧ rows = []
  case pos =>
    obtain ⟨ungrouped, rowless⟩ := some_row
    subst rowless
    have classes : q.classKeys [] = [[]] := if_pos ungrouped
    rw [classes, mem_singleton] at known
    subst known
    have none_left : parts = [] := by
      apply eq_nil_iff_forall_not_mem.mpr
      intro part inside
      have empty := flatten_eq_nil_iff.mp (perm_nil.mp collected) part inside
      exact nonempty (empty ▸ inside)
    rw [views_rowless host sort params ungrouped (perm_nil.mp divided), classes] at output
    rw [none_left]
    exact singleton_inj.mp (singleton_perm_singleton.mp output ▸ rfl)
  case neg =>
    obtain ⟨row, member, isClass⟩ := (mem_classKeys some_row).mp known
    obtain ⟨state, found, view⟩ := exact_group output divided member
    obtain ⟨other, _, isKey, _, split⟩ := group_shows host params found
    rw [split] at view
    have same := (append_inj view (by rw [groupValues_length, groupValues_length])).2
    have kept : ∀ part ∈ parts, part.filter (fun other => makeGroupKey q.groupBy other = makeGroupKey q.groupBy row) = part := by
      intro part inside
      apply filter_eq_self.mpr
      intro other within
      have ofClass := collected.subset (mem_flatten.mpr ⟨part, inside, within⟩)
      obtain ⟨present, sameClass⟩ := mem_filter.mp ofClass
      rw [decide_eq_true_eq] at sameClass
      exact decide_eq_true ((tells other present row member).mpr (sameClass.trans isClass.symm))
    have dropped : others.filter (fun other => makeGroupKey q.groupBy other = makeGroupKey q.groupBy row) = [] := by
      apply filter_eq_nil_iff.mpr
      intro other within sameKey
      obtain ⟨present, otherClass⟩ := mem_filter.mp within
      have equal := (tells other present row member).mp (of_decide_eq_true sameKey)
      rw [isClass] at equal
      simp [equal] at otherClass
    have shared : share (makeGroupKey q.groupBy) (parts ++ [others]) (makeGroupKey q.groupBy row) = parts ++ [[]] := by
      rw [share, map_append, map_congr_left kept, map_id', map_singleton, dropped]
    have cleaned : (parts ++ [[]]).filter (· ≠ []) = parts := by
      rw [filter_append, filter_eq_self.mpr]
      · exact append_nil parts
      · intro part inside
        exact decide_eq_true fun empty => nonempty (empty ▸ inside)
    rw [shared, answers_without_empty, cleaned, isClass] at same
    exact same

theorem unambiguous_of_exact (simple : q.SimpleRows rows) (exact_output : IsExact host sort params q rows) :
    Unambiguous host q rows := by
  have keys := keys_of_exact exact_output
  obtain ⟨answer, meets, outputs⟩ := exact_output
  have tells : TellsClasses q (makeGroupKey q.groupBy) rows :=
    fun a inA b inB => ⟨keys a inA b inB, makeGroupKey_of_values⟩
  have fixed : ∀ values ∈ q.classKeys rows, ∀ parts : List (List Row), [] ∉ parts →
      parts.flatten.Perm (q.classRows rows values) → answers host q parts = answer values :=
    fun values known parts nonempty collected =>
      answers_of_exact tells (fun order reordered => (outputs order reordered).2.1) known nonempty collected
  refine ⟨keys, ?_⟩
  intro values known call member
  let together := [q.classRows rows values].filter (· ≠ [])
  have collected : together.flatten.Perm (q.classRows rows values) := by
    rw [flatten_filter_ne_nil, flatten_singleton]
  have answered := fixed values known together (by simp [together]) collected
  apply (stable_iff_settled host (simpleIn_class simple values member)).mp
  refine ⟨normal ((accParts host call together).finalize host), ?_, ?_⟩
  · intro parts nonempty divided
    have equal := (fixed values known parts nonempty divided).trans answered.symm
    exact map_inj_left.mp equal call member
  · have met := meets values known
    rw [← answered, answers, forall₂_map_right_iff, forall₂_same] at met
    exact met call member

/-- The output is one row for each class with what the calls should return, for every order
    of the rows, division and path, if and only if key atoms do not confuse classes and
    every call is settled on every class. -/
theorem aggregation_exact_iff (host : Numerics) (sort : SortBy) (params : List SochValue) (q : Query) (rows : List Row)
    (simple : q.SimpleRows rows) : IsExact host sort params q rows ↔ Unambiguous host q rows :=
  ⟨unambiguous_of_exact simple, exact_of_unambiguous simple⟩

end Exactness

section Confusions

def xColumn : ColumnRef := ⟨none, Str.ascii "x"⟩

def rowOf (v : SochValue) : Row := AList.insert xColumn.column v ∅

def sums : Query where
  groupBy := []
  calls := [.sum xColumn]
  columns := by decide
  apart := by decide

def minima : Query where
  groupBy := []
  calls := [.best .least xColumn]
  columns := by decide
  apart := by decide

def counts : Query where
  groupBy := [xColumn]
  calls := [.countStar, .sum xColumn]
  columns := by decide
  apart := by decide

def overflowing : List Row := [.int 9223372036854775807, .int 1, .int (-1)].map rowOf

def cancelling : List Row := [.int 9223372036854775807, .int (-1), .int 1].map rowOf

/-- Both integers are 2^53 as floats. -/
def neighbours : List Row := [.int 9007199254740993, .int 9007199254740992].map rowOf

/-- Both integers are -1 as i64. -/
def wrapped : List Row := [.int (-1), .uint 18446744073709551615].map rowOf

theorem simple_rowOf {q : Query} {values : List SochValue} (simple : ∀ v ∈ values, Simple v)
    (only : (∀ ref ∈ q.groupBy, ref = xColumn) ∧ ∀ call ∈ q.calls, ∀ ref ∈ call.arg, ref = xColumn) :
    q.SimpleRows (values.map rowOf) := by
  intro row member
  obtain ⟨v, inside, rfl⟩ := mem_map.mp member
  have found : colGet (rowOf v) xColumn = v := colGet_of_get (by rw [rowOf]; exact AList.lookup_insert _)
  constructor
  · intro ref grouping
    rw [only.1 ref grouping, found]
    exact simple v inside
  · intro call called ref argument
    rw [only.2 call called ref argument, found]
    exact simple v inside

/-- Small integers in both types: the groups are the integers, and their sums are settled. -/
theorem small_integers_aggregate_exactly :
    IsExact ⟨Host.plain, id⟩ SortBy.insertion [] counts
      ([.int 1, .uint 1, .null, .int (-2)].map rowOf) := by
  apply (aggregation_exact_iff _ _ _ _ _ (simple_rowOf (by decide) (by decide))).mpr
  constructor
  · decide
  · intro values known call member
    have classes : counts.classKeys ([.int 1, .uint 1, .null, .int (-2)].map rowOf) =
        [[.int 1], [.null], [.int (-2)]] := by decide
    rw [classes] at known
    fin_cases member
    · trivial
    · left
      fin_cases known <;> decide

/-- The sum of three integers is a float in one order and exact in another, the least of two
    neighbours is the first, and two numbers that wrap to one atom share a group. -/
theorem order_and_width_change_results :
    let host : Numerics := ⟨Host.plain, id⟩
    (overflowing.Perm cancelling ∧ (∃ f, answers host sums [overflowing] = [.float f]) ∧
      answers host sums [cancelling] = [.int 9223372036854775807] ∧
      ∀ sort params, ¬IsExact host sort params sums overflowing) ∧
    (answers host minima [neighbours] = [.int 9007199254740993] ∧
      answers host minima [neighbours.reverse] = [.int 9007199254740992] ∧
      ∀ sort params, ¬IsExact host sort params minima neighbours) ∧
    ((grouped host counts (makeGroupKey counts.groupBy) [wrapped]).length = 1 ∧
      (counts.classKeys wrapped).length = 2 ∧ ∀ sort params, ¬IsExact host sort params counts wrapped) := by
  intro host
  have wide : sums.SimpleRows overflowing := simple_rowOf (by decide) (by decide)
  have close : minima.SimpleRows neighbours := simple_rowOf (by decide) (by decide)
  have swapped : [SochValue.int 9223372036854775807, .int 1, .int (-1)].Perm [.int 9223372036854775807, .int (-1), .int 1] := by
    decide
  refine ⟨⟨swapped.map rowOf, ⟨0, by decide +kernel⟩, by decide +kernel, ?_⟩, ⟨by decide +kernel, by decide +kernel, ?_⟩,
    by decide +kernel, by decide +kernel, ?_⟩
  · intro sort params exact_output
    have settled := (unambiguous_of_exact wide exact_output).calls [] (by decide) (.sum xColumn) (by decide)
    rcases settled with fits | ⟨outside, _⟩
    · exact absurd fits (by decide)
    · exact absurd (show InI64 _ from ⟨by decide, by decide⟩) outside
  · intro sort params exact_output
    obtain ⟨_, one⟩ := (unambiguous_of_exact close exact_output).calls [] (by decide) (.best .least xColumn) (by decide)
    have unbeaten : ∀ v ∈ [SochValue.int 9007199254740993, .int 9007199254740992],
        Selection.Unbeaten (beats .least) (arguments xColumn (minima.classRows neighbours [])) v := by
      unfold Selection.Unbeaten
      decide +kernel
    have same := one (.int 9007199254740993) (by decide) (.int 9007199254740992) (by decide)
      (unbeaten _ (by decide)) (unbeaten _ (by decide))
    exact absurd same (by decide)
  · intro sort params exact_output
    have same := keys_of_exact exact_output (rowOf (.int (-1))) (mem_map_of_mem (by decide))
      (rowOf (.uint 18446744073709551615)) (mem_map_of_mem (by decide)) (by decide)
    exact absurd same (by decide)

end Confusions

end AggregateExactness
