import SochDB.Queries
import SochDB.Scans

/-!
The three front ends of a query against the visible keys below its path. Each loop is
first turned into an expression over one list of entries; what the front ends return is
then compared entry by entry.
-/
namespace FrontEnds
open KeyedMaps Utf8 WalRecords BloomFilter StorageEngine Scans PackedRows Option
open Columnar DatabaseKernel Queries

abbrev Entry := Str × Bytes

section Visible
variable {H : KeyHashes} (db : Database H) (txn : Nat)

def paths : List Entry :=
  ((db.storage.mvcc.getSnapshotTs txn).map fun snapshotTs =>
    (entries db.storage.memtable snapshotTs (some txn)).filterMap fun pair =>
      (Str.fromUtf8 pair.1).map fun path => (path, pair.2)).getD []

def below (pre : Str) : List Entry := (paths db txn).filter fun entry => pre.bytes.isPrefixOf entry.1.bytes

def rowEntries (found : List Entry) : List Entry := found.filter fun entry => isRowPath entry.1

def Scannable (pre : Str) : Prop :=
  (db.storage.mvcc.getSnapshotTs txn).isSome ∧ minScanPrefixLen ≤ pre.bytes.length

instance (pre : Str) : Decidable (Scannable db txn pre) := inferInstanceAs (Decidable (_ ∧ _))

variable {db txn}

theorem scanPath_ok {pre : Str} (scannable : Scannable db txn pre) :
    db.scanPath txn pre = .ok (below db txn pre) := by
  obtain ⟨active, long⟩ := scannable
  obtain ⟨snapshotTs, found⟩ := isSome_iff_exists.mp active
  have scanned : db.scan txn pre.bytes = .ok ((entries db.storage.memtable snapshotTs (some txn)).filter
      fun pair => pre.bytes.isPrefixOf pair.1) := by
    rw [Database.scan, if_neg (by omega), DurableStorage.scan, found]
    exact congrArg Except.ok (scanPrefix_eq ..)
  rw [Database.scanPath, scanned, below, paths, found]
  simp only [Except.map, map_some, getD_some]
  rw [List.filterMap_filter, List.filter_filterMap]
  congr 2
  funext pair
  cases read : Str.fromUtf8 pair.1 with
  | none => simp
  | some path =>
    have bytes : pair.1 = path.bytes := Str.fromUtf8_some.mp read
    by_cases starts : pre.bytes.isPrefixOf path.bytes <;> simp [bytes, starts, Option.filter]

theorem scanPath_refused {pre : Str} (refused : ¬Scannable db txn pre) :
    ∃ e, db.scanPath txn pre = .error e := by
  by_cases short : pre.bytes.length < minScanPrefixLen
  · exact ⟨_, by rw [Database.scanPath, Database.scan, if_pos short]; rfl⟩
  · have inactive : db.storage.mvcc.getSnapshotTs txn = none := by
      rw [← not_isSome_iff_eq_none]
      exact fun active => refused ⟨active, by omega⟩
    exact ⟨_, by rw [Database.scanPath, Database.scan, if_neg short, DurableStorage.scan, inactive]; rfl⟩

end Visible

section Rows
variable (packedSchema : PackedTableSchema) (columns : Option (List Str))

def decode (entry : Entry) : Option PackedRow :=
  (PackedRow.fromBytes entry.2 packedSchema.numColumns).toOption

def rowOf (entry : Entry) : Option Row :=
  if isRowPath entry.1 then
    ((decode packedSchema entry).map (shownColumns packedSchema columns)).filter fun row => !isEmpty row
  else none

theorem packedStep_eq (acc : List Row × Nat) (entry : Entry) :
    (packedStep packedSchema columns acc entry).1 =
      acc.1 ++ (rowOf packedSchema columns entry).toList := by
  unfold packedStep rowOf decode
  by_cases shape : isRowPath entry.1
  · simp only [shape, if_true]
    cases PackedRow.fromBytes entry.2 packedSchema.numColumns with
    | error e => simp [Except.toOption]
    | ok packed =>
      by_cases empty : isEmpty (shownColumns packedSchema columns packed) <;>
        simp [Except.toOption, empty, Option.filter]
  · simp [shape]

theorem packed_rows (found : List Entry) (acc : List Row × Nat) :
    (found.foldl (packedStep packedSchema columns) acc).1 =
      acc.1 ++ found.filterMap (rowOf packedSchema columns) := by
  induction found generalizing acc with
  | nil => simp
  | cons entry found ih =>
    rw [List.foldl_cons, ih, packedStep_eq]
    cases made : rowOf packedSchema columns entry <;> simp [made]

end Rows

section Iterator
open QueryRowIterator

def itemOf (packedSchema : Option PackedTableSchema) (columns : Option (List Str)) (entry : Entry) :
    Except SochDBError (List SochValue) :=
  match packedSchema with
  | none => .ok [.binary entry.2]
  | some packedSchema =>
    (PackedRow.fromBytes entry.2 packedSchema.numColumns).map
      (QueryRowIterator.rowValues packedSchema columns)

def remaining (iter : QueryRowIterator) (found : List Entry) : List Entry :=
  (rowEntries found).drop (iter.offset - iter.skipped)

def counted (item : Except SochDBError (List SochValue)) : Nat := if item.toOption.isSome then 1 else 0

theorem advance_item {iter : QueryRowIterator} {entry : Entry} (found : List Entry)
    (shape : isRowPath entry.1 = true) (kept : ¬iter.skipped < iter.offset) :
    iter.advance (entry :: found) = (some (itemOf iter.packedSchema iter.columns entry),
      { iter with
        results := found
        yielded := iter.yielded + counted (itemOf iter.packedSchema iter.columns entry) }) := by
  obtain ⟨results, packedSchema, columns, offset, limit, yielded, skipped⟩ := iter
  simp only [advance, shape, kept, Bool.not_true, Bool.false_eq_true, if_false, itemOf]
  cases packedSchema with
  | none => rfl
  | some packedSchema =>
    dsimp only
    cases PackedRow.fromBytes entry.2 packedSchema.numColumns <;> rfl

theorem advance_takes (iter : QueryRowIterator) (found : List Entry) :
    (remaining iter found = [] ∧ (iter.advance found).1 = none) ∨
    ∃ entry rest results skipped, remaining iter found = entry :: rest ∧
      iter.advance found = (some (itemOf iter.packedSchema iter.columns entry),
        { iter with
          results := results
          yielded := iter.yielded + counted (itemOf iter.packedSchema iter.columns entry)
          skipped := skipped }) ∧
      (rowEntries results).drop (iter.offset - skipped) = rest := by
  induction found generalizing iter with
  | nil =>
    left
    exact ⟨by simp [remaining, rowEntries], rfl⟩
  | cons entry found ih =>
    by_cases shape : isRowPath entry.1
    · have head : rowEntries (entry :: found) = entry :: rowEntries found := by simp [rowEntries, shape]
      by_cases skips : iter.skipped < iter.offset
      · have same : remaining iter (entry :: found) =
            remaining { iter with skipped := iter.skipped + 1 } found := by
          rw [remaining, head, show iter.offset - iter.skipped = (iter.offset - (iter.skipped + 1)) + 1 by
            omega, List.drop_succ_cons]
          rfl
        have passes : iter.advance (entry :: found) =
            QueryRowIterator.advance { iter with skipped := iter.skipped + 1 } found := by
          simp [advance, shape, skips]
        rw [same, passes]
        exact ih { iter with skipped := iter.skipped + 1 }
      · have none_left : iter.offset - iter.skipped = 0 := by omega
        right
        refine ⟨entry, rowEntries found, found, iter.skipped, by simp [remaining, none_left, head], ?_, ?_⟩
        · exact advance_item found shape skips
        · simp [none_left]
    · have same : remaining iter (entry :: found) = remaining iter found := by
        simp [remaining, rowEntries, shape]
      have passes : iter.advance (entry :: found) = iter.advance found := by simp [advance, shape]
      rw [same, passes]
      exact ih iter

section Limits
variable {α : Type} {limit : Option Nat} {taken : Nat}

theorem truncate_full (full : limit.any (· ≤ taken)) (list : List α) :
    truncate (limit.map (· - taken)) list = [] := by
  cases limit with
  | none => cases full
  | some n => simp [truncate, Nat.sub_eq_zero_of_le (of_decide_eq_true full)]

theorem truncate_cons (room : ¬limit.any (· ≤ taken)) (a : α) (list : List α) :
    truncate (limit.map (· - taken)) (a :: list) = a :: truncate (limit.map (· - (taken + 1))) list := by
  cases limit with
  | none => rfl
  | some n =>
    rw [any_some, decide_eq_true_eq] at room
    simp only [map_some, truncate]
    rw [show n - taken = (n - (taken + 1)) + 1 by omega, List.take_succ_cons]

end Limits

/-- A limit counts the rows that were yielded. It cuts the entries themselves when no row
    on the way is undecodable. -/
theorem items_eq {calls : Nat} {iter : QueryRowIterator}
    (enough : (remaining iter iter.results).length < calls)
    (counts : iter.limit = none ∨ ∀ entry ∈ remaining iter iter.results,
      counted (itemOf iter.packedSchema iter.columns entry) = 1) :
    iter.items calls = (truncate (iter.limit.map (· - iter.yielded)) (remaining iter iter.results)).map
      (itemOf iter.packedSchema iter.columns) := by
  induction calls generalizing iter with
  | zero => omega
  | succ calls ih =>
    rw [items, next]
    by_cases full : iter.limit.any (· ≤ iter.yielded)
    · simp [full, truncate_full full]
    · rw [if_neg full]
      obtain ⟨done, stops⟩ | ⟨entry, rest, results, skipped, here, item, left⟩ :=
        advance_takes iter iter.results
      · rw [done]
        cases h : iter.advance iter.results with
        | mk first after =>
          rw [h] at stops
          subst stops
          cases iter.limit <;> simp [truncate]
      · rw [item, here]
        simp only
        rw [here, List.length_cons] at enough
        rw [here] at counts
        have rest_left : remaining { iter with
            results := results
            yielded := iter.yielded + counted (itemOf iter.packedSchema iter.columns entry)
            skipped := skipped } results = rest := left
        rw [ih]
        · rw [rest_left, truncate_cons full, List.map_cons]
          rcases counts with unlimited | counts
          · simp [unlimited]
          · rw [counts entry List.mem_cons_self]
        · rw [rest_left]
          omega
        · rcases counts with unlimited | counts
          · exact Or.inl unlimited
          · rw [rest_left]
            exact Or.inr fun later member => counts later (List.mem_cons_of_mem entry member)

end Iterator

section Columns
open ColumnarQueryResult
variable (packedSchema : PackedTableSchema)

def pushInto (names : List Str) (data : List TypedColumn) (packed : PackedRow) : List TypedColumn :=
  List.zipWith (fun column name => column.pushValue (packed.getByName packedSchema name)) data names

theorem any_lt_iff {offset : Option Nat} {n : Nat} : offset.any (n < ·) ↔ n < offset.getD 0 := by
  cases offset <;> simp

theorem collect_eq (offset limit : Option Nat) (skipped : Nat) (result : ColumnarQueryResult)
    (found : List Entry)
    (counts : limit = none ∨ ∀ entry ∈ (rowEntries found).drop (offset.getD 0 - skipped),
      (decode packedSchema entry).isSome) :
    let rows := (truncate (limit.map (· - result.rowCount))
      ((rowEntries found).drop (offset.getD 0 - skipped))).filterMap (decode packedSchema)
    (collect packedSchema offset limit skipped result found).data =
      rows.foldl (pushInto packedSchema result.columns) result.data ∧
    (collect packedSchema offset limit skipped result found).rowCount = result.rowCount + rows.length := by
  induction found generalizing skipped result with
  | nil => cases limit <;> simp [collect, rowEntries, truncate]
  | cons entry found ih =>
    by_cases shape : isRowPath entry.1
    · have head : rowEntries (entry :: found) = entry :: rowEntries found := by simp [rowEntries, shape]
      rw [head] at counts ⊢
      by_cases skips : offset.any (skipped < ·)
      · have more : offset.getD 0 - skipped = (offset.getD 0 - (skipped + 1)) + 1 := by
          have before := any_lt_iff.mp skips
          omega
        rw [more, List.drop_succ_cons] at counts ⊢
        have passes : collect packedSchema offset limit skipped result (entry :: found) =
            collect packedSchema offset limit (skipped + 1) result found := by
          simp [collect, shape, skips]
        rw [passes]
        exact ih _ _ counts
      · have none_left : offset.getD 0 - skipped = 0 := by
          have reached := mt any_lt_iff.mpr skips
          omega
        rw [none_left, List.drop_zero] at counts ⊢
        have later : limit = none ∨ ∀ entry ∈ (rowEntries found).drop (offset.getD 0 - skipped),
            (decode packedSchema entry).isSome := by
          rw [none_left, List.drop_zero]
          exact counts.imp id fun all entry member => all entry (List.mem_cons_of_mem _ member)
        by_cases full : limit.any (· ≤ result.rowCount)
        · have stops : collect packedSchema offset limit skipped result (entry :: found) = result := by
            simp [collect, shape, skips, full]
          rw [stops, truncate_full full]
          exact ⟨rfl, rfl⟩
        · cases read : PackedRow.fromBytes entry.2 packedSchema.numColumns with
          | error e =>
            have undecoded : decode packedSchema entry = none := by simp [decode, read, Except.toOption]
            have unlimited : limit = none := by
              rcases counts with unlimited | all
              · exact unlimited
              · have decoded := all entry List.mem_cons_self
                rw [undecoded] at decoded
                cases decoded
            subst unlimited
            have passes : collect packedSchema offset none skipped result (entry :: found) =
                collect packedSchema offset none skipped
                  { result with bytesRead := result.bytesRead + entry.2.length } found := by
              simp [collect, shape, skips, read]
            rw [passes]
            have rest := ih skipped { result with bytesRead := result.bytesRead + entry.2.length } later
            rw [none_left, List.drop_zero] at rest
            simpa [truncate, undecoded] using rest
          | ok packed =>
            have decoded : decode packedSchema entry = some packed := by simp [decode, read, Except.toOption]
            have passes : collect packedSchema offset limit skipped result (entry :: found) =
                collect packedSchema offset limit skipped (pushRow
                  { result with bytesRead := result.bytesRead + entry.2.length } packedSchema packed) found := by
              simp [collect, shape, skips, read, full]
            rw [passes]
            have rest := ih skipped (pushRow
              { result with bytesRead := result.bytesRead + entry.2.length } packedSchema packed) later
            rw [none_left, List.drop_zero] at rest
            obtain ⟨data, rowCount⟩ := rest
            rw [truncate_cons full, List.filterMap_cons_some decoded]
            constructor
            · exact data
            · rw [rowCount, List.length_cons]
              simp only [pushRow]
              omega
    · have same : rowEntries (entry :: found) = rowEntries found := by simp [rowEntries, shape]
      have passes : collect packedSchema offset limit skipped result (entry :: found) =
          collect packedSchema offset limit skipped result found := by
        simp [collect, shape]
      rw [same] at counts ⊢
      rw [passes]
      exact ih _ _ counts

def cell (packed : PackedRow) (name : Str) : SochValue := (packed.getByName packedSchema name).getD .null

def columnType (name : Str) : PackedColumnType :=
  (((packedSchema.columnIndex name).bind packedSchema.column).map PackedColumnDef.colType).getD .text

theorem pushed_columns (names : List Str) (rows : List PackedRow) :
    rows.foldl (pushInto packedSchema names) (names.map (newColumn packedSchema)) =
      names.map fun name => fill (columnType packedSchema name)
        (rows.map fun packed => cell packedSchema packed name) := by
  have folded : ∀ columns : Str → TypedColumn,
      rows.foldl (pushInto packedSchema names) (names.map columns) = names.map fun name =>
        (rows.map fun packed => cell packedSchema packed name).foldl
          (fun column value => column.pushValue (some value)) (columns name) := by
    induction rows with
    | nil => exact fun columns => rfl
    | cons packed rows ih =>
      intro columns
      have pushed : pushInto packedSchema names (names.map columns) packed =
          names.map fun name => (columns name).pushValue (some (cell packedSchema packed name)) := by
        rw [pushInto, List.zipWith_map_left, List.zipWith_self]
        apply List.map_congr_left
        intro name _
        cases value : packed.getByName packedSchema name with
        | none => rw [pushValue_none, cell, value, getD_none]
        | some v => rw [cell, value, getD_some]
      rw [List.foldl_cons, pushed, ih]
      rfl
  exact folded (newColumn packedSchema)

theorem cell_hasType (packed : PackedRow) (name : Str) :
    HasType (columnType packedSchema name) (cell packedSchema packed name) := by
  cases found : packedSchema.columnIndex name with
  | none => simp [cell, PackedRow.getByName, found, HasType]
  | some idx =>
    obtain ⟨col, here, _⟩ := PackedRow.columnIndex_spec found
    have typed : columnType packedSchema name = col.colType := by
      simp [columnType, found, PackedTableSchema.column, here]
    rw [typed, cell, PackedRow.getByName_eq found here]
    cases read : packed.getColumn idx col.colType with
    | none => simp [HasType]
    | some value => exact PackedRow.getColumn_hasType read

theorem readValue_block (data : Bytes) (colType : PackedColumnType) :
    (block (readValue data colType)).length < 2 ^ 32 := by
  cases colType with
  | text =>
    cases read : readBlock data with
    | none => simp [readValue, read, block]
    | some b =>
      cases text : Str.fromUtf8 b with
      | none => simp [readValue, read, text, block]
      | some s =>
        have short := readBlock_short read
        rw [Str.fromUtf8_some.mp text] at short
        simpa [readValue, read, text, block] using short
  | binary =>
    cases read : readBlock data with
    | none => simp [readValue, read, block]
    | some b => simpa [readValue, read, block] using readBlock_short read
  | null => simp [readValue, block]
  | bool => cases data <;> simp [readValue, block]
  | int64 | uint64 | float64 => cases word : readWord data <;> simp [readValue, word, block]

theorem cell_block (packed : PackedRow) (name : Str) :
    (block (cell packedSchema packed name)).length < 2 ^ 32 := by
  cases found : packedSchema.columnIndex name with
  | none => simp [cell, PackedRow.getByName, found, block]
  | some idx =>
    obtain ⟨col, here, _⟩ := PackedRow.columnIndex_spec found
    rw [cell, PackedRow.getByName_eq found here]
    unfold PackedRow.getColumn
    split
    · simp [block]
    · split
      · simp [block]
      · simp only
        split
        · simp [block]
        · exact readValue_block _ _

def columnBytes (rows : List PackedRow) (name : Str) : Bytes :=
  (rows.map fun packed => cell packedSchema packed name).flatMap block

theorem mapM_eq_some {α β : Type} {f : α → Option β} {list : List α} {results : List β} :
    list.mapM f = some results ↔ list.map f = results.map some := by
  induction list generalizing results with
  | nil =>
    cases results <;> simp
  | cons a list ih =>
    cases results with
    | nil =>
      rw [List.mapM_cons]
      cases f a <;> cases list.mapM f <;> simp
    | cons b results =>
      rw [List.mapM_cons, List.map_cons, List.map_cons, List.cons.injEq, ← ih]
      cases f a <;> cases list.mapM f <;> simp

theorem mapM_of_none {α β : Type} {f : α → Option β} {list : List α} {a : α} (member : a ∈ list)
    (missing : f a = none) : list.mapM f = none := by
  refine eq_none_iff_forall_ne_some.mpr fun results whole => ?_
  have inside : f a ∈ list.map f := List.mem_map_of_mem member
  rw [mapM_eq_some.mp whole, missing] at inside
  simp at inside

variable {packedSchema} {result : ColumnarQueryResult} {rows : List PackedRow} {names : List Str}

theorem columns_read (data : result.data = names.map fun name => fill (columnType packedSchema name)
      (rows.map fun packed => cell packedSchema packed name))
    (rowCount : result.rowCount = rows.length) :
    (List.range result.rowCount).mapM result.rowValues =
      if ∀ name ∈ names, (columnBytes packedSchema rows name).length < 2 ^ 32 then
        some (rows.map fun packed => names.map (cell packedSchema packed))
      else none := by
  have typed : ∀ name, ∀ value ∈ rows.map fun packed => cell packedSchema packed name,
      HasType (columnType packedSchema name) value := by
    intro name value inside
    obtain ⟨packed, _, rfl⟩ := List.mem_map.mp inside
    exact cell_hasType packedSchema packed name
  split
  · rename_i fits
    rw [mapM_eq_some, rowCount]
    apply List.ext_getElem?
    intro idx
    by_cases within : idx < rows.length
    · have read : result.rowValues idx = some (names.map (cell packedSchema rows[idx])) := by
        rw [ColumnarQueryResult.rowValues, mapM_eq_some, data, List.map_map, List.map_map]
        apply List.map_congr_left
        intro name member
        apply column_reads (typed name) (fits name member)
        rw [List.getElem?_map, List.getElem?_eq_getElem within, map_some]
      simp [within, read]
    · simp [within]
  · rename_i overflows
    rw [not_forall] at overflows
    obtain ⟨name, overflows⟩ := overflows
    rw [Classical.not_imp, Nat.not_lt] at overflows
    obtain ⟨member, long⟩ := overflows
    have short : ∀ value ∈ rows.map fun packed => cell packedSchema packed name,
        (block value).length < 2 ^ 32 := by
      intro value inside
      obtain ⟨packed, _, rfl⟩ := List.mem_map.mp inside
      exact cell_block packedSchema packed name
    obtain ⟨idx, within, panics⟩ := column_panics (typed name) short long
    rw [List.length_map, ← rowCount] at within
    have inside : _ ∈ result.data := data ▸ List.mem_map_of_mem member
    have row : result.rowValues idx = none := mapM_of_none inside panics
    exact mapM_of_none (List.mem_range.mpr within) row

end Columns
end FrontEnds
