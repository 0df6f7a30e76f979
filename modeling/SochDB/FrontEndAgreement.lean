import SochDB.FrontEnds

/-!
When the three front ends of a query agree. They scan different prefixes, drop different
rows and read different columns of one name, so agreement is a condition on the entries
below the path; where it fails, the unlimited query shows it.
-/
namespace FrontEndAgreement
open KeyedMaps Utf8 WalRecords BloomFilter PackedRows RowKeys DatabaseKernel Queries FrontEnds Option

section Statement
variable {H : KeyHashes} (db : Database H) (order : RowOrder) (q : QueryBuilder)

def names : List Str :=
  q.columns.getD (((q.packedSchema db).map fun s => s.columns.map PackedColumnDef.name).getD [])

def executeRows : Option (List (List SochValue)) :=
  (q.execute db order).toOption.map fun result =>
    result.rows.map fun row => (names db q).map fun name => (get row name).getD .null

def iterRows : Option (List (List SochValue)) :=
  (q.executeIter db).toOption.bind fun iter =>
    (iter.items (iter.results.length + 1)).mapM Except.toOption

def columnarRows : Option (List (List SochValue)) :=
  (q.asColumnar db).toOption.bind fun result => (List.range result.rowCount).mapM result.rowValues

def candidates : List Entry := rowEntries (below db q.txn q.pathPrefix)

def InsertedInto (table : Str) (entry : Entry) : Prop :=
  ∃ insertion ∈ db.inserted, insertion.table = table ∧
    KeyBuffer.formatRowKey table insertion.rowId = entry.1.bytes ∧ insertion.row = entry.2

def rendered (entry : Entry) : Option (List SochValue) :=
  (q.packedSchema db).bind fun packedSchema =>
    (decode packedSchema entry).map fun packed => (names db q).map (cell packedSchema packed)

structure Agree : Prop where
  iter : iterRows db q = executeRows db order q
  columnar : columnarRows db q = executeRows db order q
  inserted : ∀ rows, executeRows db order q = some rows → ∃ origin : List Entry,
    origin.Sublist (candidates db q) ∧ (∀ entry ∈ origin, InsertedInto db q.pathPrefix entry) ∧
      origin.mapM (rendered db q) = some rows

def Shows (packedSchema : PackedTableSchema) (columns : Option (List Str)) (packed : PackedRow) : Prop :=
  match columns with
  | some cols => ∃ name ∈ cols, (packed.getByName packedSchema name).isSome
  | none => ∃ idx col value, packedSchema.columns[idx]? = some col ∧
      packed.getColumn idx col.colType = some value ∧ (value ≠ .null ∨ col.nullable = true)

structure RowAgrees (packedSchema : PackedTableSchema) (columns : Option (List Str)) (packed : PackedRow) :
    Prop where
  shows : Shows packedSchema columns packed
  oneValue : columns = none → PackedRow.OneValuePerName packedSchema packed

def legacyColumn (columns : Option (List Str)) (entry : Entry) : Bool :=
  match entry.1.split slash with
  | _ :: _ :: third :: rest => columns.all fun cols => cols.contains (Str.join slashText (third :: rest))
  | _ => false

/-- The entries below the path are packed rows of the table, and each of them can be shown
    in one way only; or no front end may scan at all. -/
def FrontEndsMeet : Prop :=
  match q.packedSchema db with
  | some packedSchema =>
    (Scannable db q.txn q.pathPrefix ∧
      (∀ entry ∈ candidates db q, InsertedInto db q.pathPrefix entry ∧
        ∃ packed, decode packedSchema entry = some packed ∧ RowAgrees packedSchema q.columns packed) ∧
      ∀ name ∈ names db q, (columnBytes packedSchema
        ((candidates db q).filterMap (decode packedSchema)) name).length < 2 ^ 32) ∨
    (names db q ≠ [] ∧ ¬Scannable db q.txn (q.scanText db))
  | none =>
    Scannable db q.txn q.pathPrefix ∧
      ∀ entry ∈ below db q.txn q.pathPrefix, isRowPath entry.1 = false ∧ legacyColumn q.columns entry = false

end Statement

section Windows
variable {α β : Type} (offset limit : Option Nat)

theorem skip_eq (list : List α) : skip offset list = list.drop (offset.getD 0) := by
  cases offset <;> rfl

theorem window_map (f : α → β) (list : List α) :
    truncate limit (skip offset (list.map f)) = (truncate limit (skip offset list)).map f := by
  cases offset <;> cases limit <;> simp [truncate, skip]

theorem window_sublist (list : List α) : (truncate limit (skip offset list)).Sublist list := by
  have dropped : (skip offset list).Sublist list := by
    cases offset with
    | none => exact List.Sublist.refl list
    | some n => exact List.drop_sublist n list
  cases limit with
  | none => exact dropped
  | some n => exact (List.take_sublist n _).trans dropped

end Windows

section Decoded
variable {α β : Type} {f : α → Option β} {list : List α}

theorem map_of_all_some (all : ∀ a ∈ list, (f a).isSome) : list.map f = (list.filterMap f).map some := by
  rw [List.map_filterMap, ← List.filterMap_eq_map]
  refine List.filterMap_congr fun a member => ?_
  obtain ⟨b, made⟩ := isSome_iff_exists.mp (all a member)
  simp [made]

theorem all_some_of_length (same : (list.filterMap f).length = list.length) :
    ∀ a ∈ list, (f a).isSome := by
  rwa [List.length_filterMap_eq_countP, List.countP_eq_length] at same

theorem window_filterMap (offset limit : Option Nat) (all : ∀ a ∈ list, (f a).isSome) :
    truncate limit (skip offset (list.filterMap f)) = (truncate limit (skip offset list)).filterMap f := by
  have inside : ∀ a ∈ truncate limit (skip offset list), (f a).isSome :=
    fun a member => all a ((window_sublist offset limit list).subset member)
  apply List.map_injective_iff.mpr (some_injective β)
  rw [← window_map, ← map_of_all_some all, window_map, map_of_all_some inside]

theorem mapM_of_all_some {γ : Type} (g : β → γ) (all : ∀ a ∈ list, (f a).isSome) :
    (list.mapM fun a => (f a).map g) = some ((list.filterMap f).map g) := by
  have mapped := congrArg (List.map (Option.map g)) (map_of_all_some all)
  rw [List.map_map, List.map_map] at mapped
  rw [mapM_eq_some, List.map_map]
  exact mapped

end Decoded

section Shown
variable {packedSchema : PackedTableSchema} {columns : Option (List Str)} {packed : PackedRow}

theorem shows_iff : isEmpty (shownColumns packedSchema columns packed) = false ↔
    Shows packedSchema columns packed := by
  cases columns with
  | none => exact PackedRow.isEmpty_unpack
  | some cols =>
    rw [← Bool.not_eq_true, KeyedMaps.isEmpty_iff, not_forall]
    simp only [shownColumns, Database.get_project, Shows]
    constructor
    · rintro ⟨name, held⟩
      split at held
      · rename_i member
        exact ⟨name, member, isSome_iff_ne_none.mpr held⟩
      · exact absurd rfl held
    · rintro ⟨name, member, held⟩
      exact ⟨name, by rw [if_pos member]; exact isSome_iff_ne_none.mp held⟩

theorem shown_cells (one : columns = none → PackedRow.OneValuePerName packedSchema packed) :
    let listed := columns.getD (packedSchema.columns.map PackedColumnDef.name)
    (listed.map fun name => (get (shownColumns packedSchema columns packed) name).getD .null) =
        listed.map (cell packedSchema packed) ∧
      QueryRowIterator.rowValues packedSchema columns packed = listed.map (cell packedSchema packed) := by
  cases columns with
  | none =>
    constructor
    · apply List.map_congr_left
      intro name member
      exact PackedRow.unpack_value (one rfl) member
    · rw [QueryRowIterator.rowValues, PackedRow.oneValuePerName_iff.mp (one rfl), getD_none,
        List.map_map]
      rfl
  | some cols =>
    constructor
    · apply List.map_congr_left
      intro name member
      rw [getD_some] at member
      rw [shownColumns, Database.get_project, if_pos member]
      rfl
    · rfl

end Shown

section Outcomes
variable {H : KeyHashes} {db : Database H} {order : RowOrder} {q : QueryBuilder}
variable {packedSchema : PackedTableSchema}

theorem scanText_starts : q.pathPrefix.bytes <+: (q.scanText db).bytes := by
  unfold QueryBuilder.scanText
  split
  · exact List.prefix_append _ _
  · exact List.prefix_rfl

theorem scannable_scanText (scannable : Scannable db q.txn q.pathPrefix) :
    Scannable db q.txn (q.scanText db) := by
  have longer : q.pathPrefix.bytes.length ≤ (q.scanText db).bytes.length := scanText_starts.length_le
  exact ⟨scannable.1, Nat.le_trans scannable.2 longer⟩

theorem schema_of_packed (found : q.packedSchema db = some packedSchema) :
    ∃ schema, q.schema db = some schema ∧ toPackedSchema schema = packedSchema := by
  have both : (q.schema db).map toPackedSchema = some packedSchema := by
    rw [← found]
    exact (db.catalog.inSync _).symm
  exact map_eq_some_iff.mp both

theorem no_schema (missing : q.packedSchema db = none) : q.schema db = none := by
  have both : (q.schema db).map toPackedSchema = none := by
    rw [← missing]
    exact (db.catalog.inSync _).symm
  exact map_eq_none_iff.mp both

theorem names_eq (found : q.packedSchema db = some packedSchema) :
    names db q = q.columns.getD (packedSchema.columns.map PackedColumnDef.name) := by
  rw [names, found, map_some, getD_some]

variable (db q packedSchema) in
def shownRow (entry : Entry) : Option Row :=
  if (q.scanText db).bytes.isPrefixOf entry.1.bytes then rowOf packedSchema q.columns entry else none

variable (db q) in
def flat (row : Row) : List SochValue := (names db q).map fun name => (get row name).getD .null

theorem scanned_rows : (below db q.txn (q.scanText db)).filterMap (rowOf packedSchema q.columns) =
    (candidates db q).filterMap (shownRow db q packedSchema) := by
  have nested : below db q.txn (q.scanText db) = (below db q.txn q.pathPrefix).filter fun entry =>
      (q.scanText db).bytes.isPrefixOf entry.1.bytes := by
    rw [below, below, List.filter_filter]
    apply List.filter_congr
    intro entry _
    by_cases starts : (q.scanText db).bytes.isPrefixOf entry.1.bytes
    · have shorter : q.pathPrefix.bytes.isPrefixOf entry.1.bytes :=
        List.isPrefixOf_iff_prefix.mpr (scanText_starts.trans (List.isPrefixOf_iff_prefix.mp starts))
      rw [starts, shorter]
      rfl
    · simp [starts]
  rw [nested, candidates, rowEntries, List.filterMap_filter, List.filterMap_filter]
  apply List.filterMap_congr
  intro entry _
  by_cases shape : isRowPath entry.1 <;> simp [shownRow, rowOf, shape]

theorem execute_rows (found : q.packedSchema db = some packedSchema)
    (scannable : Scannable db q.txn (q.scanText db)) :
    executeRows db order q = some ((truncate q.limit (skip q.offset
      ((candidates db q).filterMap (shownRow db q packedSchema)))).map (flat db q)) := by
  obtain ⟨schema, registered, _⟩ := schema_of_packed found
  rw [executeRows, QueryBuilder.execute, scanPath_ok scannable, registered, found]
  simp only [Except.map, Except.toOption, map_some, getD_some, QueryBuilder.finish, packed_rows,
    List.nil_append, scanned_rows]
  rfl

theorem item_value (columns : Option (List Str)) (entry : Entry) :
    (itemOf (some packedSchema) columns entry).toOption =
      (decode packedSchema entry).map (QueryRowIterator.rowValues packedSchema columns) := by
  dsimp only [itemOf, decode]
  cases PackedRow.fromBytes entry.2 packedSchema.numColumns <;> rfl

theorem counted_iff (columns : Option (List Str)) (entry : Entry) :
    counted (itemOf (some packedSchema) columns entry) = 1 ↔ (decode packedSchema entry).isSome := by
  rw [counted, item_value, isSome_map]
  cases (decode packedSchema entry).isSome <;> simp

theorem items_all (scannable : Scannable db q.txn q.pathPrefix)
    (counts : q.limit = none ∨ ∀ entry ∈ candidates db q, counted (itemOf (q.packedSchema db) q.columns entry) = 1) :
    iterRows db q = (truncate q.limit (skip q.offset (candidates db q))).mapM fun entry =>
      (itemOf (q.packedSchema db) q.columns entry).toOption := by
  rw [iterRows, QueryBuilder.executeIter, scanPath_ok scannable]
  simp only [Except.map, Except.toOption, bind_some]
  have left : ∀ iter : QueryRowIterator, iter.offset = q.offset.getD 0 → iter.skipped = 0 →
      iter.results = below db q.txn q.pathPrefix → remaining iter iter.results = skip q.offset (candidates db q) := by
    intro iter offset skipped results
    rw [remaining, offset, skipped, results, skip_eq, Nat.sub_zero]
    rfl
  rw [items_eq]
  · rw [left _ rfl rfl rfl, List.mapM_map]
    cases q.limit <;> rfl
  · have shorter := (window_sublist q.offset none (candidates db q)).length_le
    have filtered : (candidates db q).length ≤ (below db q.txn q.pathPrefix).length := List.length_filter_le _ _
    rw [left _ rfl rfl rfl]
    simp only [truncate] at shorter
    omega
  · rw [left _ rfl rfl rfl]
    exact counts.imp id fun all entry member => all entry ((window_sublist q.offset none _).subset member)

variable (found : q.packedSchema db = some packedSchema)
include found

theorem iter_rows (scannable : Scannable db q.txn q.pathPrefix)
    (counts : q.limit = none ∨ ∀ entry ∈ candidates db q, (decode packedSchema entry).isSome) :
    iterRows db q = (truncate q.limit (skip q.offset (candidates db q))).mapM fun entry =>
      (decode packedSchema entry).map (QueryRowIterator.rowValues packedSchema q.columns) := by
  rw [items_all scannable, found]
  · simp only [item_value]
  · rw [found]
    exact counts.imp id fun all entry member => (counted_iff q.columns entry).mpr (all entry member)

theorem columnar_result :
    q.asColumnar db = if (names db q).isEmpty then .ok ColumnarQueryResult.empty
      else (db.scanPath q.txn q.pathPrefix).map fun results =>
        ColumnarQueryResult.collect packedSchema q.offset q.limit 0
          ⟨names db q, (names db q).map (newColumn packedSchema), 0, 0⟩ results := by
  obtain ⟨schema, registered, packs⟩ := schema_of_packed found
  have listed : q.columns.getD (((q.schema db).map fun s => s.columns.map ColumnDef.name).getD []) =
      names db q := by
    rw [names_eq found, registered, ← packs]
    simp [toPackedSchema, Function.comp_def]
  rw [QueryBuilder.asColumnar, found]
  simp only [listed]

theorem columnar_rows (scannable : Scannable db q.txn q.pathPrefix)
    (counts : q.limit = none ∨ ∀ entry ∈ candidates db q, (decode packedSchema entry).isSome)
    (listed : names db q ≠ []) :
    let rows := (truncate q.limit (skip q.offset (candidates db q))).filterMap (decode packedSchema)
    columnarRows db q =
      if ∀ name ∈ names db q, (columnBytes packedSchema rows name).length < 2 ^ 32 then
        some (rows.map fun packed => (names db q).map (cell packedSchema packed))
      else none := by
  intro rows
  rw [columnarRows, columnar_result found, if_neg (by simpa using listed), scanPath_ok scannable]
  obtain ⟨data, rowCount⟩ := collect_eq packedSchema q.offset q.limit 0
    ⟨names db q, (names db q).map (newColumn packedSchema), 0, 0⟩ (below db q.txn q.pathPrefix)
    (counts.imp id fun all entry member => all entry ((List.drop_sublist _ _).subset member))
  have window : (truncate (q.limit.map (· - 0)) ((rowEntries (below db q.txn q.pathPrefix)).drop
      (q.offset.getD 0 - 0))).filterMap (decode packedSchema) = rows := by
    simp only [rows, candidates, skip_eq, Nat.sub_zero]
    cases q.limit <;> rfl
  rw [window] at data rowCount
  rw [pushed_columns] at data
  rw [Nat.zero_add] at rowCount
  exact columns_read data rowCount

theorem columnar_unlisted (unlisted : names db q = []) :
    columnarRows db q = some [] := by
  rw [columnarRows, columnar_result found, unlisted]
  rfl

end Outcomes

section Legacy
variable {columns : Option (List Str)}

theorem legacyStep_passes {entry : Entry} (unshown : legacyColumn columns entry = false)
    (acc : Map Bytes Row × Nat) : legacyStep columns acc entry = acc := by
  unfold legacyColumn at unshown
  unfold legacyStep
  split
  · rename_i pieces
    rw [pieces] at unshown
    cases columns with
    | none => cases unshown
    | some cols =>
      simp only [all_some] at unshown
      simp only [any_some, unshown, Bool.not_false, if_true]
  · rfl

theorem legacyStep_inserts {entry : Entry} (shown : legacyColumn columns entry = true)
    (acc : Map Bytes Row × Nat) : isEmpty (legacyStep columns acc entry).1 = false := by
  unfold legacyColumn at shown
  unfold legacyStep
  split
  · rename_i first second third rest pieces
    rw [pieces] at shown
    have kept : (columns.any fun cols => !cols.contains (Str.join slashText (third :: rest))) = false := by
      cases columns with
      | none => rfl
      | some cols =>
        simp only [all_some] at shown
        rw [any_some, shown, Bool.not_true]
    simp only [kept, Bool.false_eq_true, if_false]
    rw [← Bool.not_eq_true, KeyedMaps.isEmpty_iff]
    intro none
    have held := none (first.bytes ++ slash :: second.bytes)
    rw [get_upsert, if_pos rfl] at held
    cases held
  · rename_i other
    split at shown
    · rename_i first second third rest pieces
      exact absurd pieces (other first second third rest)
    · cases shown

theorem legacy_empty_iff (found : List Entry) (acc : Map Bytes Row × Nat) :
    isEmpty (found.foldl (legacyStep columns) acc).1 = true ↔
      isEmpty acc.1 = true ∧ ∀ entry ∈ found, legacyColumn columns entry = false := by
  induction found generalizing acc with
  | nil => simp
  | cons entry found ih =>
    rw [List.foldl_cons, ih, List.forall_mem_cons]
    cases shown : legacyColumn columns entry with
    | true => simp [legacyStep_inserts shown acc]
    | false => simp [legacyStep_passes shown acc]

theorem intoValues_nil (order : RowOrder) (m : Map Bytes Row) :
    order.intoValues m = [] ↔ isEmpty m = true := by
  rw [isEmpty, List.isEmpty_iff, ← List.length_eq_zero_iff, (order.perm m).length_eq, List.length_map,
    pairs, List.length_map, List.length_eq_zero_iff]

end Legacy

section Directions
variable {H : KeyHashes} {db : Database H} {order : RowOrder} {q : QueryBuilder}

theorem inserted_below {entry : Entry} (inserted : InsertedInto db q.pathPrefix entry)
    (member : entry ∈ candidates db q) : (q.scanText db).bytes <+: entry.1.bytes := by
  have starts : q.pathPrefix.bytes <+: entry.1.bytes :=
    List.isPrefixOf_iff_prefix.mp (List.mem_filter.mp (List.mem_filter.mp member).1).2
  unfold QueryBuilder.scanText
  split
  · rename_i bare
    have plain : slash ∉ q.pathPrefix.bytes := by
      rw [Bool.and_eq_true] at bare
      simpa using bare.2
    obtain ⟨insertion, _, _, key, _⟩ := inserted
    obtain ⟨digits, formatted⟩ : ∃ digits, entry.1.bytes =
        q.pathPrefix.bytes.take 43 ++ slash :: digits := by
      rw [← key, KeyBuffer.formatRowKey, KeyBuffer.writeU64]
      split
      · exact ⟨[], rfl⟩
      · exact ⟨decimal insertion.rowId.toNat, by simp [maxKeyLength]⟩
    have short : q.pathPrefix.bytes.length ≤ 43 := by
      by_contra long
      have separator : q.pathPrefix.bytes[43]? = some slash := by
        obtain ⟨rest, whole⟩ := starts
        have at_cut : entry.1.bytes[43]? = some slash := by
          rw [formatted, List.getElem?_append_right (by rw [List.length_take]; omega), List.length_take,
            Nat.min_eq_left (by omega), Nat.sub_self, List.getElem?_cons_zero]
        rw [← whole, List.getElem?_append_left (by omega)] at at_cut
        exact at_cut
      exact plain (List.mem_of_getElem? separator)
    rw [formatted, List.take_of_length_le short]
    exact ⟨digits, by simp [Str.append, show slashText.bytes = [slash] from rfl]⟩
  · exact starts

variable {packedSchema : PackedTableSchema}

theorem shows_listed {packed : PackedRow} (found : q.packedSchema db = some packedSchema)
    (shows : Shows packedSchema q.columns packed) :
    names db q ≠ [] := by
  rw [names_eq found]
  cases given : q.columns with
  | some cols =>
    rw [given] at shows
    obtain ⟨name, member, _⟩ := shows
    exact List.ne_nil_of_mem member
  | none =>
    rw [given] at shows
    obtain ⟨idx, col, _, here, _⟩ := shows
    exact List.ne_nil_of_mem (List.mem_map_of_mem (List.mem_of_getElem? here))

theorem agree_of_meet_rows (found : q.packedSchema db = some packedSchema)
    (scannable : Scannable db q.txn q.pathPrefix)
    (entries : ∀ entry ∈ candidates db q, InsertedInto db q.pathPrefix entry ∧
      ∃ packed, decode packedSchema entry = some packed ∧ RowAgrees packedSchema q.columns packed)
    (fits : ∀ name ∈ names db q, (columnBytes packedSchema
      ((candidates db q).filterMap (decode packedSchema)) name).length < 2 ^ 32) :
    Agree db order q := by
  have decoded : ∀ entry ∈ candidates db q, (decode packedSchema entry).isSome := by
    intro entry member
    obtain ⟨_, packed, read, _⟩ := entries entry member
    rw [read]
    rfl
  have shownAs : ∀ entry ∈ candidates db q, shownRow db q packedSchema entry =
      (decode packedSchema entry).map (shownColumns packedSchema q.columns) := by
    intro entry member
    obtain ⟨inserted, packed, read, agrees⟩ := entries entry member
    have shape : isRowPath entry.1 = true := (List.mem_filter.mp member).2
    have below := List.isPrefixOf_iff_prefix.mpr (inserted_below inserted member)
    have shows := shows_iff.mpr agrees.shows
    simp [shownRow, below, rowOf, shape, read, Option.filter, shows]
  let window := truncate q.limit (skip q.offset (candidates db q))
  have inside : ∀ entry ∈ window, entry ∈ candidates db q :=
    fun entry member => (window_sublist q.offset q.limit _).subset member
  have windowDecoded : ∀ entry ∈ window, (decode packedSchema entry).isSome :=
    fun entry member => decoded entry (inside entry member)
  let rows := (window.filterMap (decode packedSchema)).map fun packed =>
    (names db q).map (cell packedSchema packed)
  have one : ∀ packed ∈ window.filterMap (decode packedSchema), q.columns = none →
      PackedRow.OneValuePerName packedSchema packed := by
    intro packed member
    obtain ⟨entry, here, read⟩ := List.mem_filterMap.mp member
    obtain ⟨_, other, same, agrees⟩ := entries entry (inside entry here)
    rw [read] at same
    cases same
    exact agrees.oneValue
  have executed : executeRows db order q = some rows := by
    rw [execute_rows found (scannable_scanText scannable), List.filterMap_congr shownAs,
      ← List.map_filterMap, window_map, window_filterMap q.offset q.limit decoded, List.map_map]
    congr 1
    apply List.map_congr_left
    intro packed member
    rw [Function.comp_apply, flat, names_eq found]
    exact (shown_cells (one packed member)).1
  have iterated : iterRows db q = some rows := by
    rw [iter_rows found scannable (.inr decoded), mapM_of_all_some _ windowDecoded]
    congr 1
    apply List.map_congr_left
    intro packed member
    rw [names_eq found]
    exact (shown_cells (one packed member)).2
  have columnar : columnarRows db q = some rows := by
    by_cases listed : names db q = []
    · have empty : candidates db q = [] := by
        rw [List.eq_nil_iff_forall_not_mem]
        intro entry member
        obtain ⟨_, packed, _, agrees⟩ := entries entry member
        exact shows_listed found agrees.shows listed
      have none_shown : rows = [] := by
        simp only [rows, window, empty]
        cases q.offset <;> cases q.limit <;> simp [skip, truncate]
      rw [columnar_unlisted found listed, none_shown]
    · rw [columnar_rows found scannable (.inr decoded) listed, if_pos]
      intro name member
      have shorter : (columnBytes packedSchema (window.filterMap (decode packedSchema)) name).length ≤
          (columnBytes packedSchema ((candidates db q).filterMap (decode packedSchema)) name).length :=
        ((((window_sublist q.offset q.limit _).filterMap _).map _).flatMap _).length_le
      have whole := fits name member
      exact Nat.lt_of_le_of_lt shorter whole
  refine ⟨iterated.trans executed.symm, columnar.trans executed.symm, ?_⟩
  intro others same
  rw [executed] at same
  cases same
  refine ⟨window, window_sublist q.offset q.limit _,
    fun entry member => (entries entry (inside entry member)).1, ?_⟩
  have rendering : rendered db q = fun entry => (decode packedSchema entry).map fun packed =>
      (names db q).map (cell packedSchema packed) := by
    funext entry
    rw [rendered, found, bind_some]
  rw [rendering]
  exact mapM_of_all_some _ windowDecoded

theorem execute_refused (refused : ¬Scannable db q.txn (q.scanText db)) : executeRows db order q = none := by
  obtain ⟨e, failed⟩ := scanPath_refused refused
  rw [executeRows, QueryBuilder.execute, failed]
  rfl

theorem iter_refused (refused : ¬Scannable db q.txn q.pathPrefix) : iterRows db q = none := by
  obtain ⟨e, failed⟩ := scanPath_refused refused
  rw [iterRows, QueryBuilder.executeIter, failed]
  rfl

theorem columnar_refused (found : q.packedSchema db = some packedSchema) (listed : names db q ≠ [])
    (refused : ¬Scannable db q.txn q.pathPrefix) : columnarRows db q = none := by
  obtain ⟨e, failed⟩ := scanPath_refused refused
  rw [columnarRows, columnar_result found, if_neg (by simpa using listed), failed]
  rfl

section Unregistered
variable (missing : q.packedSchema db = none)
include missing

theorem scanText_unregistered : q.scanText db = q.pathPrefix := by
  rw [QueryBuilder.scanText, no_schema missing]
  rfl

theorem columnar_unregistered : columnarRows db q = some [] := by
  rw [columnarRows, QueryBuilder.asColumnar, missing]
  rfl

theorem execute_unregistered (scannable : Scannable db q.txn q.pathPrefix) :
    executeRows db order q = some ((truncate q.limit (skip q.offset (order.intoValues
      ((below db q.txn q.pathPrefix).foldl (legacyStep q.columns) (∅, 0)).1))).map (flat db q)) := by
  rw [executeRows, QueryBuilder.execute, scanText_unregistered missing, scanPath_ok scannable,
    no_schema missing]
  rfl

theorem agree_unregistered (scannable : Scannable db q.txn q.pathPrefix)
    (nothing : ∀ entry ∈ below db q.txn q.pathPrefix,
      isRowPath entry.1 = false ∧ legacyColumn q.columns entry = false) : Agree db order q := by
  have empty : candidates db q = [] := by
    rw [candidates, rowEntries, List.filter_eq_nil_iff]
    intro entry member
    rw [(nothing entry member).1]
    exact Bool.false_ne_true
  have executed : executeRows db order q = some [] := by
    have none_found : order.intoValues ((below db q.txn q.pathPrefix).foldl (legacyStep q.columns) (∅, 0)).1 =
        [] := by
      rw [intoValues_nil, legacy_empty_iff]
      exact ⟨rfl, fun entry member => (nothing entry member).2⟩
    rw [execute_unregistered missing scannable, none_found]
    cases q.offset <;> cases q.limit <;> simp [skip, truncate]
  have iterated : iterRows db q = some [] := by
    rw [items_all scannable (.inr (by simp [empty])), empty]
    cases q.offset <;> cases q.limit <;> simp [skip, truncate]
  refine ⟨iterated.trans executed.symm, (columnar_unregistered missing).trans executed.symm, ?_⟩
  intro rows same
  rw [executed] at same
  cases same
  exact ⟨[], List.nil_sublist _, by simp, rfl⟩

end Unregistered

theorem agree_of_meet (meet : FrontEndsMeet db q) : Agree db order q := by
  cases found : q.packedSchema db with
  | none =>
    simp only [FrontEndsMeet, found] at meet
    exact agree_unregistered found meet.1 meet.2
  | some packedSchema =>
    simp only [FrontEndsMeet, found] at meet
    rcases meet with ⟨scannable, entries, fits⟩ | ⟨listed, refused⟩
    · exact agree_of_meet_rows found scannable entries fits
    · have bare : ¬Scannable db q.txn q.pathPrefix := fun scannable => refused (scannable_scanText scannable)
      have executed : executeRows db order q = none := execute_refused refused
      refine ⟨(iter_refused bare).trans executed.symm, (columnar_refused found listed bare).trans executed.symm, ?_⟩
      intro rows same
      rw [executed] at same
      cases same

section Unlimited
variable (unlimited : q.limit = none) (whole : q.offset = none)
include unlimited whole

theorem whole_window {α : Type} (list : List α) : truncate q.limit (skip q.offset list) = list := by
  rw [unlimited, whole]
  rfl

theorem meet_rows_of_agree {packedSchema : PackedTableSchema} (found : q.packedSchema db = some packedSchema)
    (scannable : Scannable db q.txn q.pathPrefix) (agree : Agree db order q) : FrontEndsMeet db q := by
  let shown := ((candidates db q).filterMap (shownRow db q packedSchema)).map (flat db q)
  have executed : executeRows db order q = some shown := by
    rw [execute_rows found (scannable_scanText scannable), whole_window unlimited whole]
  have iterated := agree.iter
  rw [executed, iter_rows found scannable (.inl unlimited), whole_window unlimited whole,
    mapM_eq_some] at iterated
  -- the iterator makes an item of every candidate, so `execute` shows them all
  have count : shown.length = (candidates db q).length := by
    have lengths := congrArg List.length iterated
    rw [List.length_map, List.length_map] at lengths
    exact lengths.symm
  have allShown : ∀ entry ∈ candidates db q, (shownRow db q packedSchema entry).isSome := by
    apply all_some_of_length
    rw [← count, List.length_map]
  have decoded : ∀ entry ∈ candidates db q, ∃ packed, decode packedSchema entry = some packed ∧
      Shows packedSchema q.columns packed := by
    intro entry member
    obtain ⟨row, made⟩ := isSome_iff_exists.mp (allShown entry member)
    unfold shownRow at made
    split at made
    · unfold rowOf at made
      split at made
      · obtain ⟨read, held⟩ := filter_eq_some_iff.mp made
        obtain ⟨packed, here, rfl⟩ := map_eq_some_iff.mp read
        refine ⟨packed, here, shows_iff.mp ?_⟩
        simpa using held
      · cases made
    · cases made
  have allDecoded : ∀ entry ∈ candidates db q, (decode packedSchema entry).isSome := by
    intro entry member
    obtain ⟨packed, read, _⟩ := decoded entry member
    rw [read]
    rfl
  have iterShown : ((candidates db q).filterMap (decode packedSchema)).map
      (QueryRowIterator.rowValues packedSchema q.columns) = shown := by
    rw [← mapM_eq_some, mapM_of_all_some _ allDecoded] at iterated
    exact some.inj iterated
  have columnarShown : names db q ≠ [] →
      (∀ name ∈ names db q, (columnBytes packedSchema
        ((candidates db q).filterMap (decode packedSchema)) name).length < 2 ^ 32) ∧
      ((candidates db q).filterMap (decode packedSchema)).map (fun packed =>
        (names db q).map (cell packedSchema packed)) = shown := by
    intro listed
    have columnar := agree.columnar
    rw [executed, columnar_rows found scannable (.inl unlimited) listed,
      whole_window unlimited whole] at columnar
    split at columnar
    · rename_i fits
      exact ⟨fits, some.inj columnar⟩
    · cases columnar
  obtain ⟨origin, sublist, inserted, renders⟩ := agree.inserted shown executed
  have everything : origin = candidates db q := by
    apply sublist.eq_of_length
    have lengths := congrArg List.length (mapM_eq_some.mp renders)
    rw [List.length_map, List.length_map] at lengths
    rw [lengths, count]
  simp only [FrontEndsMeet, found]
  refine .inl ⟨scannable, ?_, ?_⟩
  · intro entry member
    obtain ⟨packed, read, shows⟩ := decoded entry member
    refine ⟨inserted entry (everything ▸ member), packed, read, shows, ?_⟩
    intro all
    have cells := iterShown.trans (columnarShown (shows_listed found shows)).2.symm
    have here := List.map_inj_left.mp cells packed (List.mem_filterMap.mpr ⟨entry, member, read⟩)
    rw [names_eq found, all, getD_none, List.map_map] at here
    exact PackedRow.oneValuePerName_iff.mpr here
  · by_cases listed : names db q = []
    · rw [listed]
      exact fun name member => absurd member List.not_mem_nil
    · exact (columnarShown listed).1

theorem meet_of_agree (agree : Agree db order q) : FrontEndsMeet db q := by
  cases found : q.packedSchema db with
  | none =>
    simp only [FrontEndsMeet, found]
    have executed : executeRows db order q = some [] := by
      rw [← agree.columnar, columnar_unregistered found]
    have iterated : iterRows db q = some [] := agree.iter.trans executed
    have scannable : Scannable db q.txn q.pathPrefix := by
      by_contra refused
      rw [iter_refused refused] at iterated
      cases iterated
    refine ⟨scannable, ?_⟩
    rw [items_all scannable (.inl unlimited), whole_window unlimited whole, mapM_eq_some,
      List.map_nil, List.map_eq_nil_iff, candidates, rowEntries, List.filter_eq_nil_iff] at iterated
    rw [execute_unregistered found scannable, whole_window unlimited whole, some.injEq,
      List.map_eq_nil_iff, intoValues_nil, legacy_empty_iff] at executed
    intro entry member
    exact ⟨Bool.eq_false_iff.mpr (iterated entry member), executed.2 entry member⟩
  | some packedSchema =>
    by_cases scannable : Scannable db q.txn q.pathPrefix
    · exact meet_rows_of_agree unlimited whole found scannable agree
    · simp only [FrontEndsMeet, found]
      right
      have executed : executeRows db order q = none := by
        rw [← agree.iter, iter_refused scannable]
      constructor
      · intro unlisted
        have columnar := agree.columnar
        rw [columnar_unlisted found unlisted, executed] at columnar
        cases columnar
      · intro longer
        rw [execute_rows found longer] at executed
        cases executed

end Unlimited

/-- The front ends agree for every offset and limit exactly if the entries below the path
    are shown by all three in one way. -/
theorem front_ends_agree_iff {H : KeyHashes} (db : Database H) (order : RowOrder) (q : QueryBuilder) :
    (∀ offset limit, Agree db order { q with offset := offset, limit := limit }) ↔ FrontEndsMeet db q := by
  constructor
  · intro agree
    have meet : FrontEndsMeet db { q with offset := none, limit := none } :=
      meet_of_agree rfl rfl (agree none none)
    exact meet
  · intro meet offset limit
    have same : FrontEndsMeet db { q with offset := offset, limit := limit } := meet
    exact agree_of_meet same

end Directions

def siblings : Database lengthHashes × Nat :=
  let schema := fun name => TableSchema.mk (Str.ascii name) [⟨Str.ascii "name", .text, false⟩]
  let db := (Database.openWith ieee 1 [] .standard true).1
  let db := (db.registerTable (schema "user")).1
  let db := (db.registerTable (schema "users")).1
  let (db, txn) := db.beginTransaction ieee 0
  let row : Row := AList.insert (Str.ascii "name") (.text (Str.ascii "in_users")) ∅
  let db := (db.insertRow ieee txn 0 (Str.ascii "users") 1 row).1
  let db := (db.commit ieee txn true 0).1
  db.beginReadOnlyFast

theorem longer_named_table_bleeds :
    let (db, txn) := siblings
    let q : QueryBuilder := ⟨txn, Str.ascii "user", none, none, none⟩
    (db.getTableSchema (Str.ascii "user")).isSome ∧
    executeRows db RowOrder.insertion q = some [] ∧
    iterRows db q = some [[.text (Str.ascii "in_users")]] ∧
    columnarRows db q = some [[.text (Str.ascii "in_users")]] := by
  decide +kernel

end FrontEndAgreement
