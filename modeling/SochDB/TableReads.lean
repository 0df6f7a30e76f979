import SochDB.FrontEnds
import SochDB.KernelViews
import SochDB.SqlConnection

/-!
What a query in a transaction of its own reads: the text keys with their newest committed
values, those below the scanned path, and the rows made of them in either format.
-/
namespace TableReads
open List
open KeyedMaps Utf8 WalRecords BloomFilter TxnManager StorageEngine Scans PackedRows RowKeys DatabaseKernel
open MemTables Queries FrontEnds EngineSteps KernelViews SqlConnection

section Reading
variable {H : KeyHashes} (platform : Platform) (db : Database H)

def visible : List Entry := paths db.beginReadOnlyFast.1 db.beginReadOnlyFast.2

def scanned (pre : Str) : List Entry := (visible db).filter fun entry => pre.bytes.isPrefixOf entry.1.bytes

theorem begun_active : (db.beginReadOnlyFast.1.storage.mvcc.getSnapshotTs db.beginReadOnlyFast.2).isSome := by
  have found := active_begunFast db.storage db.storage.wal.nextTxnId
  rw [if_pos rfl] at found
  show ((active db.storage.beginReadOnlyFast.1 db.storage.wal.nextTxnId).map MvccTransaction.snapshotTs).isSome
  rw [found]
  rfl

theorem scanPath_begun {pre : Str} (long : minScanPrefixLen ≤ pre.bytes.length) :
    db.beginReadOnlyFast.1.scanPath db.beginReadOnlyFast.2 pre = .ok (scanned db pre) :=
  scanPath_ok ⟨begun_active db, long⟩

def scanTextOf (table : Str) : Str :=
  if (db.getTableSchema (tableName table)).isSome && !table.bytes.contains slash then table.append slashText
  else table

theorem queryAlone_short {table : Str} (short : (scanTextOf db table).bytes.length < minScanPrefixLen)
    (columns : Option (List Str)) : ∃ e, (queryAlone platform db table columns).2 = .error e := by
  let q : QueryBuilder := ⟨db.beginReadOnlyFast.2, table, columns, none, none⟩
  have refused : ¬Scannable db.beginReadOnlyFast.1 q.txn (q.scanText db.beginReadOnlyFast.1) :=
    fun scannable => absurd scannable.2 (Nat.not_le.mpr short)
  obtain ⟨e, failed⟩ := scanPath_refused refused
  refine ⟨e, ?_⟩
  show q.execute db.beginReadOnlyFast.1 platform.order = _
  rw [QueryBuilder.execute, failed]
  rfl

theorem queryAlone_packed {table : Str} {schema : TableSchema}
    (registered : db.getTableSchema (tableName table) = some schema)
    (long : minScanPrefixLen ≤ (scanTextOf db table).bytes.length) (columns : Option (List Str)) :
    (queryAlone platform db table columns).2.map QueryResult.rows =
      .ok ((scanned db (scanTextOf db table)).filterMap (rowOf (toPackedSchema schema) columns)) := by
  have packed : get db.catalog.packedSchemas (tableName table) = some (toPackedSchema schema) := by
    rw [db.catalog.inSync]
    exact congrArg (Option.map toPackedSchema) registered
  let q : QueryBuilder := ⟨db.beginReadOnlyFast.2, table, columns, none, none⟩
  have scan : db.beginReadOnlyFast.1.scanPath q.txn (q.scanText db.beginReadOnlyFast.1) = _ :=
    scanPath_begun db long
  have isSchema : q.schema db.beginReadOnlyFast.1 = some schema := registered
  have isPacked : q.packedSchema db.beginReadOnlyFast.1 = some (toPackedSchema schema) := packed
  show (q.execute db.beginReadOnlyFast.1 platform.order).map QueryResult.rows = _
  rw [QueryBuilder.execute, scan, isSchema, isPacked]
  simp only [Except.map, Option.getD_some, QueryBuilder.finish, packed_rows, nil_append]
  rfl

theorem queryAlone_legacy {table : Str} (unregistered : db.getTableSchema (tableName table) = none)
    (long : minScanPrefixLen ≤ table.bytes.length) (columns : Option (List Str)) :
    (queryAlone platform db table columns).2.map QueryResult.rows =
      .ok (platform.order.intoValues ((scanned db table).foldl (legacyStep columns) (∅, 0)).1) := by
  let q : QueryBuilder := ⟨db.beginReadOnlyFast.2, table, columns, none, none⟩
  have isSchema : q.schema db.beginReadOnlyFast.1 = none := unregistered
  have text : q.scanText db.beginReadOnlyFast.1 = table := by
    rw [QueryBuilder.scanText, isSchema]
    rfl
  show (q.execute db.beginReadOnlyFast.1 platform.order).map QueryResult.rows = _
  rw [QueryBuilder.execute, text, scanPath_begun db long, isSchema]
  rfl

def selectStar (table : Str) : Option (List Row) :=
  match (select platform db table [star] none [] none none []).2 with
  | .ok (.rows _ rows) => some rows
  | _ => none

theorem selectStar_eq (table : Str) :
    selectStar platform db table = ((queryAlone platform db table none).2.map QueryResult.rows).toOption := by
  have all : requested [star] = none := by decide
  unfold selectStar select
  rw [all]
  dsimp only
  cases (queryAlone platform db table none).2 with
  | error e => rfl
  | ok result => simp [satisfies, sortRows, truncate, skip, Except.map, Except.toOption]

end Reading

section Names
variable {table path : Str}

theorem split_plain (plain : slash ∉ path.bytes) : (path.split slash).map Str.bytes = [path.bytes] := by
  rw [Str.split_bytes path (by decide)]
  exact splitOn_eq_singleton plain

variable {before rest : Bytes} {acc : Map Bytes Row × Nat} {k : Bytes} {entries : List Entry}

theorem parts_slash (plain : slash ∉ before) (after : Bytes) :
    parts (before ++ slash :: after) = before :: parts after :=
  splitOn_append_cons_self_of_not_mem plain after

theorem split_slash {after : Bytes} (plain : slash ∉ before) (whole : path.bytes = before ++ slash :: after) :
    (path.split slash).map Str.bytes = before :: parts after := by
  rw [Str.split_bytes path (by decide), whole]
  exact parts_slash plain after

theorem tableName_plain (plain : slash ∉ table.bytes) : tableName table = table := by
  have pieces := split_plain plain
  unfold tableName
  cases split : table.split slash with
  | nil => rfl
  | cons first rest =>
    rw [split, map_cons] at pieces
    exact Str.ext_bytes (List.cons.inj pieces).1

theorem tableName_ne (slashed : slash ∈ table.bytes) : tableName table ≠ table := by
  obtain ⟨before, after, whole, plain⟩ := eq_append_cons_of_mem slashed
  have pieces := split_slash plain whole
  unfold tableName
  cases split : table.split slash with
  | nil =>
    rw [split] at pieces
    cases pieces
  | cons first rest =>
    rw [split, map_cons] at pieces
    intro same
    have bytes := congrArg Str.bytes same
    rw [List.head?_cons, Option.getD_some, (List.cons.inj pieces).1] at bytes
    exact plain (bytes ▸ slashed)

theorem isRowPath_iff : isRowPath path = true ↔
    ∃ before after, slash ∉ before ∧ slash ∉ after ∧ path.bytes = before ++ slash :: after := by
  have length : (path.split slash).length = ((path.split slash).map Str.bytes).length := by
    rw [length_map]
  unfold isRowPath
  rw [decide_eq_true_eq, length]
  constructor
  · intro two
    have slashed : slash ∈ path.bytes := by
      by_contra plain
      rw [split_plain plain] at two
      cases two
    obtain ⟨before, after, whole, plain⟩ := eq_append_cons_of_mem slashed
    rw [split_slash plain whole, length_cons] at two
    refine ⟨before, after, plain, fun again => ?_, whole⟩
    obtain ⟨middle, last, rest, plainMiddle⟩ := eq_append_cons_of_mem again
    have more : parts after = middle :: parts last := by
      rw [rest]
      exact parts_slash plainMiddle last
    have some_last : parts last ≠ [] := splitOn_ne_nil slash last
    rw [more, length_cons] at two
    exact some_last (length_eq_zero_iff.mp (by omega))
  · rintro ⟨before, after, plain, plainAfter, whole⟩
    rw [split_slash plain whole, parts_plain plainAfter]
    rfl

theorem isRowPath_below (plain : slash ∉ table.bytes) (whole : path.bytes = table.bytes ++ slash :: rest) :
    isRowPath path = true ↔ slash ∉ rest := by
  rw [isRowPath_iff]
  constructor
  · rintro ⟨before, after, plainBefore, plainAfter, other⟩
    have pieces := parts_slash plain rest
    rw [← whole, other, parts_slash plainBefore] at pieces
    have same : before = table.bytes := (List.cons.inj pieces).1
    rw [whole, same] at other
    rw [(List.cons.inj (append_cancel_left other)).2]
    exact plainAfter
  · intro plainRest
    exact ⟨table.bytes, rest, plain, plainRest, whole⟩

def rowKeyOf (path : Str) : Option Bytes :=
  match parts path.bytes with
  | first :: second :: _ :: _ => some (first ++ slash :: second)
  | _ => none

theorem rowKeyOf_below (plain : slash ∉ rest) (whole : path.bytes = table.bytes ++ slash :: rest) :
    rowKeyOf path =
      match parts table.bytes with
      | first :: second :: _ => some (first ++ slash :: second)
      | _ => none := by
  have pieces : parts path.bytes = parts table.bytes ++ [rest] := by
    rw [whole, parts_append, parts_plain plain]
  unfold rowKeyOf
  rw [pieces]
  rcases parts table.bytes with _ | ⟨first, _ | ⟨second, more⟩⟩
  · rfl
  · rfl
  · cases more with
    | nil => rfl
    | cons third others => rfl

variable {columns : Option (List Str)}

theorem key_of_legacyStep {entry : Entry} (found : (get (legacyStep columns acc entry).1 k).isSome) :
    (get acc.1 k).isSome ∨ rowKeyOf entry.1 = some k := by
  unfold legacyStep at found
  have pieces : (entry.1.split slash).map Str.bytes = parts entry.1.bytes := Str.split_bytes entry.1 (by decide)
  split at found
  · rename_i first second third rest split
    rw [split] at pieces
    have key : rowKeyOf entry.1 = some (first.bytes ++ slash :: second.bytes) := by
      unfold rowKeyOf
      rw [← pieces]
      rfl
    dsimp only at found
    split at found
    · exact .inl found
    · by_cases same : k = first.bytes ++ slash :: second.bytes
      · exact .inr (same ▸ key)
      · rw [get_upsert, if_neg same] at found
        exact .inl found
  · exact .inl found

theorem key_of_legacy_rows (found : (get (entries.foldl (legacyStep columns) acc).1 k).isSome) :
    (get acc.1 k).isSome ∨ ∃ entry ∈ entries, rowKeyOf entry.1 = some k := by
  induction entries generalizing acc with
  | nil => exact .inl found
  | cons entry entries ih =>
    rcases ih found with earlier | ⟨later, member, key⟩
    · rcases key_of_legacyStep earlier with before | here
      · exact .inl before
      · exact .inr ⟨entry, mem_cons_self, here⟩
    · exact .inr ⟨later, mem_cons_of_mem entry member, key⟩

theorem legacy_rows_le_one (order : RowOrder) {key : Option Bytes}
    (same : ∀ entry ∈ entries, rowKeyOf entry.1 = key) :
    (order.intoValues (entries.foldl (legacyStep columns) (∅, 0)).1).length ≤ 1 := by
  rw [(order.perm _).length_eq, length_map, ← length_map Prod.fst]
  have keys : ∀ k ∈ (pairs (entries.foldl (legacyStep columns) (∅, 0)).1).map Prod.fst, some k = key := by
    intro k member
    obtain ⟨⟨_, row⟩, inside, rfl⟩ := mem_map.mp member
    have found := Option.isSome_iff_exists.mpr ⟨row, mem_pairs.mp inside⟩
    rcases key_of_legacy_rows found with none_there | ⟨entry, present, own⟩
    · cases none_there
    · rw [← own, same entry present]
  have once := pairs_keys_nodup (m := (entries.foldl (legacyStep columns) (∅, 0)).1)
  generalize (pairs (entries.foldl (legacyStep columns) (∅, 0)).1).map Prod.fst = found at keys once
  rcases found with _ | ⟨a, _ | ⟨b, rest⟩⟩
  · exact Nat.zero_le 1
  · exact Nat.le_refl 1
  · have both := (keys a mem_cons_self).trans (keys b (mem_cons_of_mem a mem_cons_self)).symm
    cases both
    exact absurd mem_cons_self (nodup_cons.mp once).1

end Names

section Contents
variable {H : KeyHashes} (crc : Crc32fast)

theorem visible_eq_shown (db : Database H) : visible db =
    (shown db.storage.beginReadOnlyFast.1 db.storage.wal.nextTxnId).filterMap fun pair =>
      (Str.fromUtf8 pair.1).map fun path => (path, pair.2) := by
  have found := active_begunFast db.storage db.storage.wal.nextTxnId
  rw [if_pos rfl] at found
  have stamp : db.beginReadOnlyFast.1.storage.mvcc.getSnapshotTs db.beginReadOnlyFast.2 =
      (active db.storage.beginReadOnlyFast.1 db.storage.wal.nextTxnId).map MvccTransaction.snapshotTs := rfl
  rw [visible, paths, stamp, shown, found]
  rfl

def holding (schema : TableSchema) (writes : List Pair) : Database H :=
  ⟨filled crc writes, Catalog.new.insert schema, []⟩

def textEntry (entry : Entry) : Pair := (entry.1.bytes, entry.2)

theorem visible_holding (schema : TableSchema) {entries : List Entry}
    (sorted : entries.Pairwise fun a b => a.1.bytes < b.1.bytes) :
    visible (holding crc schema (entries.map textEntry) : Database H) = entries := by
  have increasing : (entries.map textEntry).Pairwise fun a b => a.1 < b.1 := pairwise_map.mpr sorted
  have found := active_begunFast (filled crc (entries.map textEntry) : DurableStorage H)
    (filled crc (entries.map textEntry) : DurableStorage H).wal.nextTxnId
  rw [if_pos rfl] at found
  have scan := scan_filled (H := H) crc increasing []
  rw [scan_shown found] at scan
  have all : ∀ l : List Pair, l.filter (fun pair => ([] : Bytes).isPrefixOf pair.1) = l := by
    intro l
    simp
  rw [all, all] at scan
  rw [visible_eq_shown]
  have whole : shown (holding crc schema (entries.map textEntry) : Database H).storage.beginReadOnlyFast.1
      (holding crc schema (entries.map textEntry) : Database H).storage.wal.nextTxnId =
        entries.map textEntry := Except.ok.inj scan
  rw [whole, filterMap_map]
  have texts : ∀ entry ∈ entries, ((fun pair : Pair =>
      (Str.fromUtf8 pair.1).map fun path => (path, pair.2)) ∘ textEntry) entry = some entry := by
    intro entry _
    have text : Str.fromUtf8 entry.1.bytes = some entry.1 := Str.fromUtf8_some.mpr rfl
    simp only [Function.comp_apply, textEntry, text, Option.map_some]
  rw [filterMap_congr texts, filterMap_some]

theorem holding_reachable (schema : TableSchema) (writes : List Pair) :
    Reachable crc (holding crc schema writes : Database H).storage := filled_reachable crc writes

end Contents
end TableReads
