import SochDB.RowLayouts
import SochDB.TableReads

/-!
What ALTER TABLE does to the rows that are stored already. The statement changes the schema
and no row; rows are read by the positions of their columns and found by the table's name.
-/
namespace SchemaChanges
open List
open KeyedMaps Utf8 WalRecords BloomFilter PackedRows RowKeys DatabaseKernel Queries FrontEnds KernelViews
open SqlConnection TableReads RowLayouts

abbrev Tracked := Option Nat × ColumnDef

def atColumn (cols : List Tracked) (name : Str) (change : Nat → List Tracked) : List Tracked :=
  match cols.findIdx? fun e => e.2.name = name with
  | some idx => change idx
  | none => cols

def track (cols : List Tracked) : AlterTableOp → List Tracked
  | .addColumn col => cols ++ [(none, toColumnDef col)]
  | .dropColumn name => atColumn cols name cols.eraseIdx
  | .renameColumn oldName newName =>
    atColumn cols oldName fun idx => cols.modify idx fun e => (e.1, { e.2 with name := newName })
  | _ => cols

def positions (schema : TableSchema) : List Tracked := schema.columns.zipIdx.map fun e => (some e.2, e.1)

def tracked (schema : TableSchema) (ops : List AlterTableOp) : List Tracked := ops.foldl track (positions schema)

def IsStructural : AlterTableOp → Prop
  | .addColumn _ | .dropColumn _ | .renameColumn .. | .renameTable _ => True
  | _ => False

def isRowOf (table : Str) (path : Str) : Bool :=
  (table.append slashText).bytes.isPrefixOf path.bytes &&
    !(path.bytes.drop (table.append slashText).bytes.length).contains slash

section Statement
variable {H : KeyHashes} (platform : Platform) (db : Database H)

/-- The stored rows of a table: the committed values below its name that are long enough for
    its columns. -/
def storedRows (table : Str) (schema : TableSchema) : List PackedRow :=
  (visible db).filterMap fun entry =>
    if isRowOf table entry.1 then decode (toPackedSchema schema) entry else none

def valueAt (schema : TableSchema) (row : PackedRow) (position : Nat) : SochValue :=
  ((schema.columns[position]?).bind fun col => row.getColumn position (packedType col.colType)).getD .null

/-- A row after the statement: columns that were there hold what they held, new ones null. -/
def Carried (schema : TableSchema) (cols : List Tracked) (row : PackedRow) (shown : Row) : Prop :=
  ∀ e ∈ cols, (get shown e.2.name).getD .null = (e.1.map (valueAt schema row)).getD .null

/-- After the statement the table, under its new name, shows one row for each stored one. -/
def Preserves (schema : TableSchema) (ops : List AlterTableOp) (newName : Str) : Prop :=
  ∃ rows, selectStar platform (alterTable db ⟨schema.name, ops⟩).1 newName = some rows ∧
    ∃ stored, stored.Perm (storedRows db schema.name schema) ∧
      List.Forall₂ (Carried schema (tracked schema ops)) stored rows

end Statement

/-- The statement keeps the name of the table, which is neither empty nor has a slash, and
    the number and places of the columns; no two columns that can be read share a name, and
    one of them may be null. -/
structure Keeps (schema altered : TableSchema) (cols : List Tracked) : Prop where
  name : altered.name = schema.name
  plain : schema.name.bytes ≠ [] ∧ slash ∉ schema.name.bytes
  count : altered.columns.length = schema.columns.length
  placed : ∀ i < readable schema.columns.length, ∃ col, cols[i]? = some (some i, col)
  distinct : ∀ i < readable schema.columns.length, ∀ j a b, altered.columns[i]? = some a →
    altered.columns[j]? = some b → a.name = b.name → i = j
  nullable : ∃ i < readable schema.columns.length, ∃ col, altered.columns[i]? = some col ∧ col.nullable = true

section Tracking

theorem findIdx_map (cols : List Tracked) (name : Str) :
    (cols.map Prod.snd).findIdx? (fun col => col.name = name) = cols.findIdx? fun e => e.2.name = name := by
  rw [List.findIdx?_map]
  rfl

theorem map_modify {α β : Type} {f : α → β} {g : α → α} {h : β → β} (commute : ∀ a, f (g a) = h (f a))
    (l : List α) (idx : Nat) : (l.modify idx g).map f = (l.map f).modify idx h := by
  apply ext_getElem?
  intro i
  simp only [List.getElem?_map, List.getElem?_modify]
  cases l[i]? with
  | none => rfl
  | some a =>
    by_cases here : idx = i
    · simp [here, commute]
    · simp [here]

variable {schema altered : TableSchema} {cols : List Tracked}

theorem columns_of_alter {op : AlterTableOp} (structural : IsStructural op)
    (same : schema.columns = cols.map Prod.snd) (done : alterSchema schema op = .ok altered) :
    altered.columns = (track cols op).map Prod.snd := by
  cases op with
  | addColumn col =>
    unfold alterSchema at done
    dsimp only at done
    split at done
    · cases done
    · cases done
      simp [track, same]
  | dropColumn name =>
    unfold alterSchema at done
    dsimp only at done
    rw [same, findIdx_map] at done
    unfold track atColumn
    dsimp only
    cases found : cols.findIdx? fun e => e.2.name = name with
    | none =>
      rw [found] at done
      cases done
    | some idx =>
      rw [found] at done
      cases done
      exact eraseIdx_map ..
  | renameColumn oldName newName =>
    unfold alterSchema changeColumn at done
    dsimp only at done
    rw [same, findIdx_map] at done
    unfold track atColumn
    dsimp only
    cases found : cols.findIdx? fun e => e.2.name = oldName with
    | none =>
      rw [found] at done
      cases done
    | some idx =>
      rw [found] at done
      cases done
      symm
      apply map_modify
      intro e
      rfl
  | renameTable newName =>
    cases done
    exact same
  | alterColumn | addConstraint | dropConstraint => exact structural.elim

theorem columns_of_alters {ops : List AlterTableOp} (structural : ∀ op ∈ ops, IsStructural op)
    (same : schema.columns = cols.map Prod.snd) (done : ops.foldlM alterSchema schema = .ok altered) :
    altered.columns = (ops.foldl track cols).map Prod.snd := by
  induction ops generalizing schema cols with
  | nil =>
    cases done
    exact same
  | cons op ops ih =>
    rw [foldlM_cons] at done
    cases first : alterSchema schema op with
    | error e =>
      rw [first] at done
      cases done
    | ok next =>
      rw [first] at done
      have now := columns_of_alter (structural op mem_cons_self) same first
      exact ih (fun other member => structural other (mem_cons_of_mem _ member)) now done

theorem altered_columns {ops : List AlterTableOp} (structural : ∀ op ∈ ops, IsStructural op)
    (succeeds : ops.foldlM alterSchema schema = .ok altered) :
    altered.columns = (tracked schema ops).map Prod.snd := by
  apply columns_of_alters structural _ succeeds
  rw [positions, map_map]
  exact (zipIdx_map_fst 0 schema.columns).symm

def shape (cols : List Tracked) : List (Option Nat × ColumnType) := cols.map fun e => (e.1, e.2.colType)

structure FromSchema (schema : TableSchema) (cols : List Tracked) : Prop where
  kept : ∀ e ∈ shape cols, ∀ o ∈ e.1, ∃ col, schema.columns[o]? = some col ∧ e.2 = col.colType
  once : ((shape cols).filterMap Prod.fst).Nodup

theorem origins_once (from_schema : FromSchema schema cols) :
    (cols.filterMap Prod.fst).Nodup := by
  have once := from_schema.once
  rwa [shape, filterMap_map] at once

theorem FromSchema.start (schema : TableSchema) : FromSchema schema (positions schema) where
  kept := by
    intro e member o origin
    rw [shape, positions, map_map] at member
    obtain ⟨⟨col, idx⟩, inside, rfl⟩ := mem_map.mp member
    cases origin
    exact ⟨col, mem_zipIdx_iff_getElem?.mp inside, rfl⟩
  once := by
    have indices : (shape (positions schema)).filterMap Prod.fst =
        schema.columns.zipIdx.map Prod.snd := by
      rw [shape, positions, map_map, filterMap_map]
      exact congrFun (filterMap_eq_map (f := Prod.snd)) schema.columns.zipIdx
    rw [indices, zipIdx_map_snd]
    exact nodup_range'

theorem FromSchema.track (from_schema : FromSchema schema cols) (op : AlterTableOp) :
    FromSchema schema (track cols op) := by
  cases op with
  | addColumn col =>
    have added : shape (SchemaChanges.track cols (.addColumn col)) =
        shape cols ++ [(none, (toColumnDef col).colType)] := map_append
    constructor
    · rw [added]
      exact forall_mem_append.mpr ⟨from_schema.kept, forall_mem_singleton.mpr nofun⟩
    · rw [added, filterMap_append]
      simpa using from_schema.once
  | dropColumn name =>
    unfold SchemaChanges.track atColumn
    dsimp only
    split
    · rename_i idx found
      have fewer : (shape (cols.eraseIdx idx)).Sublist (shape cols) := (eraseIdx_sublist ..).map _
      exact ⟨fun e member => from_schema.kept e (fewer.subset member),
        from_schema.once.sublist (fewer.filterMap _)⟩
    · exact from_schema
  | renameColumn oldName newName =>
    unfold SchemaChanges.track atColumn
    dsimp only
    split
    · rename_i idx found
      have same : shape (cols.modify idx fun e => (e.1, { e.2 with name := newName })) = shape cols := by
        have unchanged : (shape cols).modify idx id = shape cols := modify_id ..
        rw [← unchanged]
        apply map_modify
        intro e
        rfl
      exact ⟨same ▸ from_schema.kept, same ▸ from_schema.once⟩
    · exact from_schema
  | _ => exact from_schema

theorem FromSchema.tracked (schema : TableSchema) (ops : List AlterTableOp) :
    FromSchema schema (tracked schema ops) := by
  have folded : ∀ cols, FromSchema schema cols → FromSchema schema (ops.foldl SchemaChanges.track cols) := by
    induction ops with
    | nil => exact fun cols from_schema => from_schema
    | cons op ops ih => exact fun cols from_schema => ih _ (from_schema.track op)
  exact folded _ (.start schema)

end Tracking

section Reading
variable {row : PackedRow}
variable {packedSchema : PackedTableSchema} {i : Nat} {col : PackedColumnDef} {table path : Str}
  {α β : Type} {f : α → Option β}

theorem unpack_of_distinct (here : packedSchema.columns[i]? = some col)
    (distinct : ∀ j other, packedSchema.columns[j]? = some other → col.name = other.name → i = j) :
    (get (row.unpack packedSchema) col.name).getD .null = (row.getColumn i col.colType).getD .null := by
  have found : ∀ value, get (row.unpack packedSchema) col.name = some value →
      row.getColumn i col.colType = some value := by
    intro value read
    rw [PackedRow.get_unpack] at read
    obtain ⟨j, other, there, named, column, _⟩ := PackedRow.mem_unpacked.mp (lastValue_mem col.name read)
    obtain rfl := distinct j other there named.symm
    cases here.symm.trans there
    exact column
  cases read : get (row.unpack packedSchema) col.name with
  | some value => rw [found value read]
  | none =>
    cases column : row.getColumn i col.colType with
    | none => rfl
    | some value =>
      by_cases isNull : value = .null
      · rw [isNull]
        rfl
      · have member := PackedRow.mem_unpacked.mpr ⟨i, col, here, rfl, column, .inl isNull⟩
        have present := (lastValue_isSome col.name).mpr (mem_map.mpr ⟨_, member, rfl⟩)
        rw [← PackedRow.get_unpack, read] at present
        cases present

theorem unpack_of_values (here : packedSchema.columns[i]? = some col) {value : SochValue}
    (column : row.getColumn i col.colType = some value) (holds : value ≠ .null)
    (others : ∀ j other v, packedSchema.columns[j]? = some other → row.getColumn j other.colType = some v →
      v ≠ .null) :
    (get (row.unpack packedSchema) col.name).getD .null ≠ .null := by
  have member := PackedRow.mem_unpacked.mpr ⟨i, col, here, rfl, column, .inl holds⟩
  have present := (lastValue_isSome col.name).mpr (mem_map.mpr ⟨_, member, rfl⟩)
  rw [← PackedRow.get_unpack] at present
  obtain ⟨v, read⟩ := Option.isSome_iff_exists.mp present
  rw [read, Option.getD_some]
  rw [PackedRow.get_unpack] at read
  obtain ⟨j, other, there, _, found, _⟩ := PackedRow.mem_unpacked.mp (lastValue_mem col.name read)
  exact others j other v there found

theorem isRowOf_iff : isRowOf table path = true ↔
    ∃ rest, path.bytes = table.bytes ++ slash :: rest ∧ slash ∉ rest := by
  have text : (table.append slashText).bytes = table.bytes ++ [slash] := rfl
  unfold isRowOf
  rw [text, Bool.and_eq_true, isPrefixOf_iff_prefix, Bool.not_eq_true']
  constructor
  · rintro ⟨⟨rest, whole⟩, plain⟩
    rw [← whole, drop_left] at plain
    exact ⟨rest, by rw [← whole, append_assoc]; rfl, by simpa using plain⟩
  · rintro ⟨rest, whole, plain⟩
    have split : path.bytes = (table.bytes ++ [slash]) ++ rest := by
      rw [whole, append_assoc]
      rfl
    refine ⟨⟨rest, split.symm⟩, ?_⟩
    rw [split, drop_left]
    simpa using plain

theorem isRowOf_plain (plain : slash ∉ table.bytes) : isRowOf table path = true ↔
    (table.append slashText).bytes.isPrefixOf path.bytes = true ∧ isRowPath path = true := by
  rw [isRowOf_iff, isPrefixOf_iff_prefix]
  constructor
  · rintro ⟨rest, whole, plainRest⟩
    refine ⟨⟨rest, ?_⟩, (isRowPath_below plain whole).mpr plainRest⟩
    rw [whole]
    exact append_assoc ..
  · rintro ⟨⟨rest, whole⟩, shape⟩
    have split : path.bytes = table.bytes ++ slash :: rest := by
      rw [← whole]
      exact append_assoc ..
    exact ⟨rest, split, (isRowPath_below plain split).mp shape⟩

theorem forall₂_filterMap {γ : Type} {R : β → γ → Prop} {g : α → Option γ} (l : List α)
    (agree : ∀ a ∈ l, Option.Rel R (f a) (g a)) : List.Forall₂ R (l.filterMap f) (l.filterMap g) := by
  refine rel_filterMap (R := fun a b => a = b ∧ a ∈ l) ?_ (forall₂_same.mpr fun a member => ⟨rfl, member⟩)
  rintro a _ ⟨rfl, member⟩
  exact agree a member

theorem index_unique {l : List α} (once : (l.filterMap f).Nodup) {j : Nat} {a b : α} {x : β}
    (first : l[i]? = some a) (second : l[j]? = some b) (fromA : f a = some x) (fromB : f b = some x) :
    i = j := by
  have apart := pairwise_filterMap.mp once
  rw [pairwise_iff_getElem] at apart
  obtain ⟨inside, rfl⟩ := List.getElem?_eq_some_iff.mp first
  obtain ⟨insideJ, rfl⟩ := List.getElem?_eq_some_iff.mp second
  rcases Nat.lt_trichotomy i j with less | same | more
  · exact absurd rfl (apart i j inside insideJ less x fromA x fromB)
  · exact same
  · exact absurd rfl (apart j i insideJ inside more x fromB x fromA)

end Reading

section Execution

def alteredDb {H : KeyHashes} (db : Database H) (schema altered : TableSchema) : Database H :=
  { db with catalog := (db.catalog.erase schema.name).insert altered }

variable {H : KeyHashes} (platform : Platform) (db : Database H) {schema altered : TableSchema}
  {ops : List AlterTableOp}

theorem alterTable_ok (registered : db.getTableSchema schema.name = some schema)
    (succeeds : ops.foldlM alterSchema schema = .ok altered) :
    alterTable db ⟨schema.name, ops⟩ = (alteredDb db schema altered, .ok .ok) := by
  unfold alterTable
  rw [registered]
  dsimp only
  rw [succeeds]
  dsimp only
  rw [Database.updateTableSchema, registered]
  rfl

theorem getTableSchema_altered (name : Str) :
    (alteredDb db schema altered).getTableSchema name =
      if name = altered.name then some altered
      else if name = schema.name then none else db.getTableSchema name := by
  unfold alteredDb Database.getTableSchema Catalog.insert Catalog.erase
  rw [get_insert, get_erase]

theorem selectStar_plain {table : Str} (plain : slash ∉ table.bytes) (nonempty : table.bytes ≠ [])
    (registered : db.getTableSchema table = some altered) :
    selectStar platform db table = some ((visible db).filterMap fun entry =>
      if isRowOf table entry.1 then rowOf (toPackedSchema altered) none entry else none) := by
  have own : db.getTableSchema (tableName table) = some altered := by
    rw [tableName_plain plain]
    exact registered
  have text : scanTextOf db table = table.append slashText := by
    rw [scanTextOf, own]
    simp [plain]
  have long : minScanPrefixLen ≤ (scanTextOf db table).bytes.length := by
    rw [text]
    show 2 ≤ (table.bytes ++ [slash]).length
    have := length_pos_iff.mpr nonempty
    rw [length_append]
    simp only [length_singleton]
    omega
  rw [selectStar_eq, queryAlone_packed platform db own long, text, scanned, filterMap_filter]
  apply congrArg some
  apply filterMap_congr
  intro entry _
  simp only [isRowOf_plain plain, rowOf]
  by_cases below : (table.append slashText).bytes.isPrefixOf entry.1.bytes = true <;>
    by_cases shape : isRowPath entry.1 = true <;> simp [below, shape]

end Execution

section Sufficiency
variable {schema altered : TableSchema} {cols : List Tracked}
variable {i : Nat} {col : ColumnDef} {k : Nat}

theorem packed_column (here : altered.columns[i]? = some col) :
    (toPackedSchema altered).columns[i]? = some ⟨col.name, packedType col.colType, col.nullable⟩ := by
  show (altered.columns.map _)[i]? = _
  rw [List.getElem?_map, here]
  rfl

theorem column_of_packed {packed : PackedColumnDef}
    (here : (toPackedSchema altered).columns[i]? = some packed) :
    ∃ col, altered.columns[i]? = some col ∧ packed = ⟨col.name, packedType col.colType, col.nullable⟩ := by
  change (altered.columns.map _)[i]? = _ at here
  rw [List.getElem?_map] at here
  obtain ⟨col, found, rfl⟩ := Option.map_eq_some_iff.mp here
  exact ⟨col, found, rfl⟩

theorem getColumn_isSome (data : Bytes) (inside : i < readable k) (colType : PackedColumnType) :
    ∃ value, (rowAs k data).getColumn i colType = some value := by
  unfold PackedRow.getColumn
  rw [if_neg (by rw [rowAs, numCols_toNat]; omega)]
  dsimp only
  repeat' split
  all_goals exact ⟨_, rfl⟩

theorem inside_of_getColumn {data : Bytes} {colType : PackedColumnType} {value : SochValue}
    (read : (rowAs k data).getColumn i colType = some value) : i < readable k := by
  by_contra past
  rw [getColumn_past data (Nat.le_of_not_lt past)] at read
  cases read

theorem read_of_distinct (k : Nat) (data : Bytes) (here : altered.columns[i]? = some col)
    (distinct : ∀ j b, altered.columns[j]? = some b → col.name = b.name → i = j) :
    (get ((rowAs k data).unpack (toPackedSchema altered)) col.name).getD .null =
      ((rowAs k data).getColumn i (packedType col.colType)).getD .null := by
  apply unpack_of_distinct (packed_column here)
  intro j packed there named
  obtain ⟨other, found, rfl⟩ := column_of_packed there
  exact distinct j other found named

theorem unpack_past (data : Bytes) (here : altered.columns[i]? = some col) (past : readable k ≤ i)
    (distinct : ∀ i < readable k, ∀ j a b, altered.columns[i]? = some a →
      altered.columns[j]? = some b → a.name = b.name → i = j) :
    (get ((rowAs k data).unpack (toPackedSchema altered)) col.name).getD .null = .null := by
  cases read : get ((rowAs k data).unpack (toPackedSchema altered)) col.name with
  | none => rfl
  | some value =>
    rw [PackedRow.get_unpack] at read
    obtain ⟨j, packed, there, named, column, _⟩ := PackedRow.mem_unpacked.mp (lastValue_mem col.name read)
    obtain ⟨other, found, rfl⟩ := column_of_packed there
    have inside := inside_of_getColumn column
    have same := distinct j inside i other col found here named
    omega

theorem valueAt_null_of_past (data : Bytes) {o : Nat} (past : readable k ≤ o) :
    valueAt schema (rowAs k data) o = .null := by
  unfold valueAt
  cases schema.columns[o]? with
  | none => rfl
  | some col =>
    rw [Option.bind_some, getColumn_past data past]
    rfl

theorem carried_of_keeps (keeps : Keeps schema altered cols) (from_schema : FromSchema schema cols)
    (columns : altered.columns = cols.map Prod.snd) (data : Bytes) :
    Carried schema cols (rowAs schema.columns.length data)
      ((rowAs schema.columns.length data).unpack (toPackedSchema altered)) := by
  intro e member
  obtain ⟨i, at_i⟩ := mem_iff_getElem?.mp member
  have here : altered.columns[i]? = some e.2 := by
    rw [columns, List.getElem?_map, at_i]
    rfl
  by_cases inside : i < readable schema.columns.length
  · obtain ⟨col, placed⟩ := keeps.placed i inside
    cases at_i.symm.trans placed
    have read := read_of_distinct schema.columns.length data here (keeps.distinct i inside · col · here)
    have kept : ((some i, col.colType) : Option Nat × ColumnType) ∈ shape cols :=
      mem_map.mpr ⟨_, member, rfl⟩
    obtain ⟨original, found, sameType⟩ := from_schema.kept _ kept i rfl
    rw [read, Option.map_some, Option.getD_some, valueAt, found, Option.bind_some, ← sameType]
  · rw [unpack_past data here (Nat.le_of_not_lt inside) keeps.distinct]
    cases origin : e.1 with
    | none => rfl
    | some o =>
      have past : readable schema.columns.length ≤ o := by
        by_contra earlier
        obtain ⟨col, placed⟩ := keeps.placed o (Nat.lt_of_not_le earlier)
        have same := index_unique (origins_once from_schema) at_i placed origin rfl
        omega
      rw [Option.map_some, Option.getD_some, valueAt_null_of_past data past]

theorem shown_of_keeps (keeps : Keeps schema altered cols) (data : Bytes) :
    isEmpty ((rowAs schema.columns.length data).unpack (toPackedSchema altered)) = false := by
  obtain ⟨i, inside, col, here, nullable⟩ := keeps.nullable
  obtain ⟨value, read⟩ := getColumn_isSome data inside (packedType col.colType)
  exact PackedRow.isEmpty_unpack.mpr ⟨i, _, value, packed_column here, read, .inr nullable⟩

theorem decode_eq (schema : TableSchema) (entry : Entry) : decode (toPackedSchema schema) entry =
    if minSize schema.columns.length ≤ entry.2.length then some (rowAs schema.columns.length entry.2)
    else none := by
  rw [decode, PackedTableSchema.numColumns, toPackedSchema, length_map]
  exact fromBytes_eq ..

theorem preserves_of_keeps {H : KeyHashes} (platform : Platform) (db : Database H) {ops : List AlterTableOp}
    (structural : ∀ op ∈ ops, IsStructural op) (succeeds : ops.foldlM alterSchema schema = .ok altered)
    (registered : db.getTableSchema schema.name = some schema)
    (keeps : Keeps schema altered (tracked schema ops)) :
    Preserves platform db schema ops altered.name := by
  have columns := altered_columns structural succeeds
  have nowRegistered : (alteredDb db schema altered).getTableSchema schema.name = some altered := by
    rw [getTableSchema_altered, if_pos keeps.name.symm]
  unfold Preserves
  rw [alterTable_ok db registered succeeds, keeps.name]
  refine ⟨_, selectStar_plain platform _ keeps.plain.2 keeps.plain.1 nowRegistered, _, .refl _, ?_⟩
  apply forall₂_filterMap
  intro entry _
  by_cases isRow : isRowOf schema.name entry.1 = true
  · have shape := ((isRowOf_plain keeps.plain.2).mp isRow).2
    rw [if_pos isRow, if_pos isRow, rowOf, if_pos shape, decode_eq, decode_eq, keeps.count]
    split
    · have shown := shown_of_keeps keeps entry.2
      simp only [Option.map_some, shownColumns, Option.filter, shown]
      exact .some (carried_of_keeps keeps (.tracked schema ops) columns entry.2)
    · exact .none
  · rw [if_neg isRow, if_neg isRow]
    exact .none

end Sufficiency

section Layout
variable {schema altered : TableSchema} {cols : List Tracked}

/-- Every byte string that is long enough for the old schema is a row of the new one too, and
    carries its values over. -/
def CarriesAll (schema altered : TableSchema) (cols : List Tracked) : Prop :=
  ∀ data : Bytes, minSize schema.columns.length ≤ data.length →
    isEmpty ((rowAs altered.columns.length data).unpack (toPackedSchema altered)) = false ∧
    Carried schema cols (rowAs schema.columns.length data)
      ((rowAs altered.columns.length data).unpack (toPackedSchema altered))

def ample (schema altered : TableSchema) : Nat :=
  minSize schema.columns.length + minSize altered.columns.length + 8

theorem ample_holds (schema altered : TableSchema) : base schema.columns.length + 8 ≤ ample schema altered ∧
    base altered.columns.length + 8 ≤ ample schema altered := by
  have := readable_le schema.columns.length
  have := readable_le altered.columns.length
  unfold ample base minSize
  omega

theorem nullable_of_carries (carries : CarriesAll schema altered cols) :
    ∃ i < readable altered.columns.length, ∃ col, altered.columns[i]? = some col ∧ col.nullable = true := by
  have long : minSize schema.columns.length ≤ (bytesOf (fun _ => 255) (ample schema altered)).length := by
    rw [length_bytesOf]
    unfold ample
    omega
  obtain ⟨i, packed, value, there, read, kept⟩ := PackedRow.isEmpty_unpack.mp (carries _ long).1
  obtain ⟨col, here, rfl⟩ := column_of_packed there
  have inside := inside_of_getColumn read
  have set : testBit (bytesOf (fun _ => 255) (ample schema altered)) i = true := by
    have bitmap := bitmap_holds (inside.trans_le (readable_le _))
    have within : i / 8 < ample schema altered := by
      unfold ample minSize
      omega
    unfold testBit
    rw [getD_bytesOf within]
    have small : i % 8 < 8 := Nat.mod_lt _ (by omega)
    generalize i % 8 = a at small
    interval_cases a <;> rfl
  rw [getColumn_null inside set] at read
  cases read
  refine ⟨i, inside, col, here, ?_⟩
  rcases kept with holds | nullable
  · exact absurd rfl holds
  · exact nullable

variable {o column i : Nat} {e : Tracked}

theorem valueAt_zeros {f : Nat → UInt8} {n : Nat} (inside : o < readable schema.columns.length)
    (clear : testBit (bytesOf f n) o = false)
    (zeros : ∀ i, nullBitmapSize schema.columns.length ≤ i → f i = 0)
    (long : base schema.columns.length + 8 ≤ n) :
    valueAt schema (rowAs schema.columns.length (bytesOf f n)) o ≠ .null := by
  have present : o < schema.columns.length := inside.trans_le (readable_le _)
  obtain ⟨value, read, holds⟩ := getColumn_zeros inside clear zeros long (schema.columns[o]).colType
  unfold valueAt
  rw [List.getElem?_eq_getElem present, Option.bind_some, read]
  exact holds

theorem withNull_zeros {k : Nat} (inside : column < k) (i : Nat) (past : nullBitmapSize k ≤ i) :
    withNull column i = 0 := by
  have bitmap := bitmap_holds inside
  exact if_neg (by omega)

theorem ample_carries (carries : CarriesAll schema altered cols) (f : Nat → UInt8) :
    Carried schema cols (rowAs schema.columns.length (bytesOf f (ample schema altered)))
      ((rowAs altered.columns.length (bytesOf f (ample schema altered))).unpack (toPackedSchema altered)) := by
  apply (carries _ _).2
  rw [length_bytesOf]
  unfold ample
  omega

theorem valueAt_withNull (marked : column < schema.columns.length)
    (inside : o < readable schema.columns.length) :
    valueAt schema (rowAs schema.columns.length (bytesOf (withNull column) (ample schema altered))) o = .null ↔
      o = column := by
  have bitmap := bitmap_holds marked
  have bit : testBit (bytesOf (withNull column) (ample schema altered)) o = decide (o = column) := by
    apply testBit_withNull
    unfold ample minSize
    omega
  constructor
  · intro isNull
    by_contra other
    have clear : testBit (bytesOf (withNull column) (ample schema altered)) o = false := by
      rw [bit, decide_eq_false other]
    exact valueAt_zeros inside clear (withNull_zeros marked) (ample_holds ..).1 isNull
  · intro same
    have set : testBit (bytesOf (withNull column) (ample schema altered)) o = true := by
      rw [bit, decide_eq_true same]
    unfold valueAt
    cases schema.columns[o]? with
    | none => rfl
    | some col =>
      rw [Option.bind_some, getColumn_null inside set]
      rfl

variable (columns : altered.columns = cols.map Prod.snd)
include columns

theorem column_at (at_i : cols[i]? = some e) : altered.columns[i]? = some e.2 := by
  rw [columns, List.getElem?_map, at_i]
  rfl

theorem tracked_at (inside : i < readable altered.columns.length) : ∃ e, cols[i]? = some e := by
  have within : i < cols.length := by
    have := inside.trans_le (readable_le _)
    rwa [columns, length_map] at this
  exact ⟨cols[i], List.getElem?_eq_getElem within⟩

variable (carries : CarriesAll schema altered cols) (from_schema : FromSchema schema cols)
include carries

theorem origin_of_carries (inside : i < readable altered.columns.length) (at_i : cols[i]? = some e) :
    ∃ o < readable schema.columns.length, e.1 = some o := by
  have carried := ample_carries carries (fun _ => 0) e (mem_of_getElem? at_i)
  have values : ∀ j colType, j < readable altered.columns.length →
      ∃ value, (rowAs altered.columns.length (bytesOf (fun _ => 0) (ample schema altered))).getColumn j
        (packedType colType) = some value ∧ value ≠ .null :=
    fun j colType inside => getColumn_zeros inside (testBit_zero rfl) (fun _ _ => rfl) (ample_holds ..).2 colType
  obtain ⟨value, read, holds⟩ := values i e.2.colType inside
  have shown := unpack_of_values (packed_column (column_at columns at_i)) read holds (by
    intro j packed v there found
    obtain ⟨other, _, rfl⟩ := column_of_packed there
    obtain ⟨w, again, nonnull⟩ := values j other.colType (inside_of_getColumn found)
    cases found.symm.trans again
    exact nonnull)
  rw [carried] at shown
  cases origin : e.1 with
  | none =>
    rw [origin] at shown
    exact absurd rfl shown
  | some o =>
    refine ⟨o, ?_, rfl⟩
    by_contra past
    rw [origin, Option.map_some, Option.getD_some, valueAt_null_of_past _ (Nat.le_of_not_lt past)] at shown
    exact shown rfl

include from_schema

/-- Two readable columns do not share a name: one of them can be null while the other is not. -/
theorem distinct_of_carries (inside : i < readable altered.columns.length) {j : Nat} {a b : ColumnDef}
    (here : altered.columns[i]? = some a) (there : altered.columns[j]? = some b) (named : a.name = b.name) :
    i = j := by
  rw [columns, List.getElem?_map] at here there
  obtain ⟨e, at_i, rfl⟩ := Option.map_eq_some_iff.mp here
  obtain ⟨e', at_j, rfl⟩ := Option.map_eq_some_iff.mp there
  obtain ⟨o, readableO, origin⟩ := origin_of_carries columns carries inside at_i
  have marked : o < schema.columns.length := readableO.trans_le (readable_le _)
  have together : ∀ f, valueAt schema (rowAs schema.columns.length (bytesOf f (ample schema altered))) o =
      (e'.1.map (valueAt schema (rowAs schema.columns.length (bytesOf f (ample schema altered))))).getD .null := by
    intro f
    have first := ample_carries carries f e (mem_of_getElem? at_i)
    have second := ample_carries carries f e' (mem_of_getElem? at_j)
    rw [named, second, origin] at first
    exact first.symm
  have holds := valueAt_zeros readableO (testBit_zero (f := fun _ => 0) (n := ample schema altered) rfl)
    (fun _ _ => rfl) (ample_holds ..).1
  rw [together] at holds
  cases origin' : e'.1 with
  | none =>
    rw [origin'] at holds
    exact absurd rfl holds
  | some o' =>
    rw [origin', Option.map_some, Option.getD_some] at holds
    have readableO' : o' < readable schema.columns.length := by
      by_contra past
      exact holds (valueAt_null_of_past _ (Nat.le_of_not_lt past))
    have marks := together (withNull o)
    rw [origin', Option.map_some, Option.getD_some, (valueAt_withNull marked readableO).mpr rfl] at marks
    have same := (valueAt_withNull marked readableO').mp marks.symm
    subst same
    exact index_unique (origins_once from_schema) at_i at_j origin origin'

theorem readable_of_carries : readable altered.columns.length ≤ readable schema.columns.length := by
  let origin (i : Nat) : Nat := ((cols[i]?).bind Prod.fst).getD 0
  have origin_eq : ∀ i < readable altered.columns.length, ∃ e o, cols[i]? = some e ∧ e.1 = some o ∧
      origin i = o ∧ o < readable schema.columns.length := by
    intro i inside
    obtain ⟨e, at_i⟩ := tracked_at columns inside
    obtain ⟨o, readableO, from_o⟩ := origin_of_carries columns carries inside at_i
    refine ⟨e, o, at_i, from_o, ?_, readableO⟩
    simp [origin, at_i, from_o]
  have into : Set.MapsTo origin (Finset.range (readable altered.columns.length))
      (Finset.range (readable schema.columns.length)) := by
    intro i member
    obtain ⟨_, o, _, _, same, readableO⟩ := origin_eq i (Finset.mem_range.mp member)
    rw [same]
    exact Finset.mem_coe.mpr (Finset.mem_range.mpr readableO)
  have once : Set.InjOn origin (Finset.range (readable altered.columns.length)) := by
    intro i member j memberJ same
    obtain ⟨e, o, at_i, from_o, rfl, _⟩ := origin_eq i (Finset.mem_range.mp member)
    obtain ⟨e', o', at_j, from_o', rfl, _⟩ := origin_eq j (Finset.mem_range.mp memberJ)
    exact index_unique (origins_once from_schema) at_i at_j from_o (same ▸ from_o')
  have counted := Finset.card_le_card_of_injOn origin into once
  rwa [Finset.card_range, Finset.card_range] at counted

/-- A readable column stays where it was: the bit at its new place is that of its old one. -/
theorem placed_of_carries (inside : i < readable altered.columns.length) :
    ∃ col, cols[i]? = some (some i, col) := by
  obtain ⟨e, at_i⟩ := tracked_at columns inside
  obtain ⟨o, readableO, origin⟩ := origin_of_carries columns carries inside at_i
  have fewer := readable_of_carries columns carries from_schema
  have marked : i < schema.columns.length := by
    have := readable_le schema.columns.length
    omega
  have here := column_at columns at_i
  have carried := ample_carries carries (withNull i) e (mem_of_getElem? at_i)
  have read := read_of_distinct altered.columns.length (bytesOf (withNull i) (ample schema altered)) here
    fun j b there => distinct_of_carries columns carries from_schema inside here there
  have set : testBit (bytesOf (withNull i) (ample schema altered)) i = true := by
    have bitmap := bitmap_holds marked
    rw [testBit_withNull (by unfold ample minSize; omega), decide_eq_true rfl]
  rw [carried, origin, Option.map_some, Option.getD_some, getColumn_null inside set] at read
  have same := (valueAt_withNull marked readableO).mp read
  subst same
  exact ⟨e.2, by rw [at_i, ← origin]⟩

/-- The number of columns stays: rows with more or fewer columns are laid out otherwise. -/
theorem count_of_carries : altered.columns.length = schema.columns.length := by
  by_contra differ
  obtain ⟨i, inside, _⟩ := nullable_of_carries carries
  have first : 0 < readable altered.columns.length := by omega
  have old_first := first.trans_le (readable_of_carries columns carries from_schema)
  obtain ⟨col, placed⟩ := placed_of_carries columns carries from_schema first
  have here := column_at columns placed
  have kept : ((some 0, col.colType) : Option Nat × ColumnType) ∈ shape cols :=
    mem_map.mpr ⟨_, mem_of_getElem? placed, rfl⟩
  obtain ⟨original, found, sameType⟩ := from_schema.kept _ kept 0 rfl
  obtain ⟨data, long, apart⟩ := layouts_differ first old_first differ col.colType (minSize schema.columns.length)
  have carried := (carries data long).2 _ (mem_of_getElem? placed)
  have read := read_of_distinct altered.columns.length data here
    fun j b there => distinct_of_carries columns carries from_schema first here there
  rw [read, Option.map_some, Option.getD_some, valueAt, found, Option.bind_some, ← sameType] at carried
  exact apart carried

end Layout

section Necessity
variable {H : KeyHashes} {platform : Platform} {schema altered : TableSchema} {ops : List AlterTableOp}

def PreservesAll (H : KeyHashes) (platform : Platform) (schema : TableSchema) (ops : List AlterTableOp)
    (newName : Str) : Prop :=
  ∀ db : Database H, Reachable platform.crc db.storage → db.getTableSchema schema.name = some schema →
    Preserves platform db schema ops newName

def rowPath (table name : Str) : Str := (table.append slashText).append name

theorem rowPath_bytes (table name : Str) : (rowPath table name).bytes = table.bytes ++ slash :: name.bytes := by
  show (table.bytes ++ [slash]) ++ name.bytes = _
  rw [append_assoc]
  rfl

theorem isRowOf_rowPath {table name : Str} (plain : slash ∉ name.bytes) :
    isRowOf table (rowPath table name) = true :=
  isRowOf_iff.mpr ⟨name.bytes, rowPath_bytes table name, plain⟩

theorem table_of_row {table other name : Str} (plain : slash ∉ other.bytes)
    (isRow : isRowOf other (rowPath table name) = true) : other = table := by
  obtain ⟨rest, whole, plainRest⟩ := isRowOf_iff.mp isRow
  rw [rowPath_bytes] at whole
  exact Str.ext_bytes ((append_cons_inj_of_notMem plain plainRest).mp whole.symm).1

theorem getTableSchema_holding (crc : Crc32fast) (schema : TableSchema) (writes : List MemTables.Pair)
    (name : Str) : (holding crc schema writes : Database H).getTableSchema name =
      if name = schema.name then some schema else none := by
  unfold holding Database.getTableSchema Catalog.insert
  rw [get_insert]
  rfl

def twoRows (schema : TableSchema) : List Entry :=
  [(rowPath schema.name (Str.ascii "0"), bytesOf (fun _ => 0) (minSize schema.columns.length)),
    (rowPath schema.name (Str.ascii "1"), bytesOf (fun _ => 0) (minSize schema.columns.length))]

theorem twoRows_path {entry : Entry} (member : entry ∈ twoRows schema) :
    ∃ name : Str, slash ∉ name.bytes ∧ entry.1 = rowPath schema.name name ∧
      minSize schema.columns.length ≤ entry.2.length := by
  rcases mem_pair.mp member with rfl | rfl
  · exact ⟨Str.ascii "0", by decide, rfl, (length_bytesOf ..).ge⟩
  · exact ⟨Str.ascii "1", by decide, rfl, (length_bytesOf ..).ge⟩

theorem twoRows_sorted (schema : TableSchema) : (twoRows schema).Pairwise fun a b => a.1.bytes < b.1.bytes := by
  rw [twoRows, pairwise_pair, rowPath_bytes, rowPath_bytes]
  exact append_left_lt (by decide)

variable (succeeds : ops.foldlM alterSchema schema = .ok altered)
  (preserves : PreservesAll H platform schema ops altered.name)
include succeeds preserves

theorem shown_of_preserves {entries : List Entry}
    (sorted : entries.Pairwise fun a b => a.1.bytes < b.1.bytes) :
    ∃ rows, selectStar platform
        (alteredDb (holding platform.crc schema (entries.map textEntry) : Database H) schema altered)
        altered.name = some rows ∧
      ∃ stored, stored.Perm (entries.filterMap fun entry =>
          if isRowOf schema.name entry.1 then decode (toPackedSchema schema) entry else none) ∧
        List.Forall₂ (Carried schema (tracked schema ops)) stored rows := by
  have registered : (holding platform.crc schema (entries.map textEntry) : Database H).getTableSchema schema.name =
      some schema := by
    rw [getTableSchema_holding, if_pos rfl]
  have kept := preserves _ (holding_reachable platform.crc schema _) registered
  unfold Preserves storedRows at kept
  rwa [alterTable_ok _ registered succeeds, visible_holding platform.crc schema sorted] at kept

theorem two_rows_shown : ∃ rows, selectStar platform
    (alteredDb (holding platform.crc schema ((twoRows schema).map textEntry) : Database H) schema altered)
      altered.name = some rows ∧ rows.length = 2 := by
  obtain ⟨rows, shown, stored, reordered, carried⟩ :=
    shown_of_preserves succeeds preserves (twoRows_sorted schema)
  have all_stored : ∀ entry ∈ twoRows schema, (if isRowOf schema.name entry.1 then
      decode (toPackedSchema schema) entry else none) = some (rowAs schema.columns.length entry.2) := by
    intro entry member
    obtain ⟨name, plain, path, long⟩ := twoRows_path member
    rw [path, if_pos (isRowOf_rowPath plain), decode_eq, if_pos long]
  refine ⟨rows, shown, ?_⟩
  rw [← carried.length_eq, reordered.length_eq, filterMap_congr all_stored]
  rfl

/-- Under a name with a slash the rows are taken for columns of one row. -/
theorem new_name_plain : slash ∉ altered.name.bytes := by
  intro slashed
  obtain ⟨rows, shown, two⟩ := two_rows_shown succeeds preserves
  let db : Database H := holding platform.crc schema ((twoRows schema).map textEntry)
  have unregistered : (alteredDb db schema altered).getTableSchema (tableName altered.name) = none := by
    rw [getTableSchema_altered, if_neg (tableName_ne slashed)]
    split
    · rfl
    · rw [getTableSchema_holding]
      exact if_neg (by assumption)
  rw [selectStar_eq] at shown
  by_cases long : minScanPrefixLen ≤ altered.name.bytes.length
  · rw [queryAlone_legacy platform _ unregistered long] at shown
    cases shown
    obtain ⟨key, one_key⟩ : ∃ key, ∀ entry ∈ scanned (alteredDb db schema altered) altered.name,
        rowKeyOf entry.1 = key := by
      apply Exists.intro
      intro entry member
      have inside : entry ∈ visible db := (mem_filter.mp member).1
      rw [visible_holding platform.crc schema (twoRows_sorted schema)] at inside
      obtain ⟨name, plain, path, _⟩ := twoRows_path inside
      rw [path]
      exact rowKeyOf_below plain (rowPath_bytes ..)
    have one : (platform.order.intoValues ((scanned (alteredDb db schema altered) altered.name).foldl
        (legacyStep none) (∅, 0)).1).length ≤ 1 := legacy_rows_le_one platform.order one_key
    omega
  · have text : scanTextOf (alteredDb db schema altered) altered.name = altered.name := by
      rw [scanTextOf, unregistered]
      rfl
    have short : (scanTextOf (alteredDb db schema altered) altered.name).bytes.length < minScanPrefixLen := by
      rw [text]
      omega
    obtain ⟨e, failed⟩ := queryAlone_short platform _ short none
    rw [failed] at shown
    cases shown

theorem name_of_preserves :
    altered.name = schema.name ∧ schema.name.bytes ≠ [] ∧ slash ∉ schema.name.bytes := by
  have plain := new_name_plain succeeds preserves
  obtain ⟨rows, shown, two⟩ := two_rows_shown succeeds preserves
  let db : Database H := holding platform.crc schema ((twoRows schema).map textEntry)
  have registered : (alteredDb db schema altered).getTableSchema altered.name = some altered := by
    rw [getTableSchema_altered, if_pos rfl]
  have nonempty : altered.name.bytes ≠ [] := by
    intro empty
    have short : (scanTextOf (alteredDb db schema altered) altered.name).bytes.length < minScanPrefixLen := by
      rw [scanTextOf, tableName_plain plain, registered]
      simp [Str.append, empty]
      decide
    obtain ⟨e, failed⟩ := queryAlone_short platform _ short none
    rw [selectStar_eq, failed] at shown
    cases shown
  rw [selectStar_plain platform _ plain nonempty registered] at shown
  cases shown
  have entries : visible (alteredDb db schema altered) = twoRows schema :=
    visible_holding platform.crc schema (twoRows_sorted schema)
  rw [entries] at two
  have isRow : ∃ entry ∈ twoRows schema, isRowOf altered.name entry.1 = true := by
    by_contra nothing
    rw [filterMap_eq_nil_iff.mpr] at two
    · cases two
    · intro entry member
      exact if_neg fun isRow => nothing ⟨entry, member, isRow⟩
  obtain ⟨entry, member, isRow⟩ := isRow
  obtain ⟨name, _, path, _⟩ := twoRows_path member
  have same : altered.name = schema.name := by
    rw [path] at isRow
    exact table_of_row plain isRow
  exact ⟨same, same ▸ nonempty, same ▸ plain⟩

/-- A table with one row: every byte string that is long enough is carried over. -/
theorem carriesAll_of_preserves : CarriesAll schema altered (tracked schema ops) := by
  obtain ⟨same, nonempty, plain⟩ := name_of_preserves succeeds preserves
  intro data long
  let entries : List Entry := [(rowPath schema.name (Str.ascii "0"), data)]
  let db : Database H := holding platform.crc schema (entries.map textEntry)
  have sorted : entries.Pairwise fun a b => a.1.bytes < b.1.bytes := pairwise_singleton ..
  obtain ⟨rows, shown, stored, reordered, carried⟩ := shown_of_preserves succeeds preserves sorted
  have isRow : isRowOf schema.name (rowPath schema.name (Str.ascii "0")) = true := isRowOf_rowPath (by decide)
  have registered : (alteredDb db schema altered).getTableSchema altered.name = some altered := by
    rw [getTableSchema_altered, if_pos rfl]
  have visible_eq : visible (alteredDb db schema altered) = entries := visible_holding platform.crc schema sorted
  rw [selectStar_plain platform _ (same ▸ plain) (same ▸ nonempty) registered, visible_eq] at shown
  simp only [entries, filterMap_cons, filterMap_nil, if_pos isRow, decode_eq, if_pos long] at reordered
  rw [perm_singleton.mp reordered] at carried
  rw [same] at shown
  simp only [entries, filterMap_cons, filterMap_nil, if_pos isRow, rowOf,
    if_pos ((isRowOf_plain plain).mp isRow).2, decode_eq] at shown
  by_cases stillLong : minSize altered.columns.length ≤ data.length
  · rw [if_pos stillLong, Option.map_some, shownColumns] at shown
    cases empty : isEmpty ((rowAs altered.columns.length data).unpack (toPackedSchema altered)) with
    | false =>
      simp only [Option.filter, empty, Bool.not_false, if_true, Option.some.injEq] at shown
      rw [← shown] at carried
      cases carried with
      | cons first _ => exact ⟨rfl, first⟩
    | true =>
      simp only [Option.filter, empty, Bool.not_true, Bool.false_eq_true, if_false, Option.some.injEq] at shown
      rw [← shown] at carried
      cases carried
  · rw [if_neg stillLong] at shown
    cases shown
    cases carried

theorem keeps_of_preserves (structural : ∀ op ∈ ops, IsStructural op) :
    Keeps schema altered (tracked schema ops) := by
  obtain ⟨same, nonempty, plain⟩ := name_of_preserves succeeds preserves
  have carries := carriesAll_of_preserves succeeds preserves
  have columns := altered_columns structural succeeds
  have from_schema := FromSchema.tracked schema ops
  have count := count_of_carries columns carries from_schema
  constructor
  · exact same
  · exact ⟨nonempty, plain⟩
  · exact count
  · intro i inside
    exact placed_of_carries columns carries from_schema (count ▸ inside)
  · intro i inside j a b here there
    exact distinct_of_carries columns carries from_schema (count ▸ inside) here there
  · rw [← count]
    exact nullable_of_carries carries

end Necessity

/-- ALTER TABLE keeps the rows of every database with the table exactly if it moves no
    column that can be read and does not rename the table. -/
theorem alter_preserves_rows_iff {H : KeyHashes} (platform : Platform) {schema altered : TableSchema}
    {ops : List AlterTableOp} (structural : ∀ op ∈ ops, IsStructural op)
    (succeeds : ops.foldlM alterSchema schema = .ok altered) :
    (∀ db : Database H, Reachable platform.crc db.storage → db.getTableSchema schema.name = some schema →
      Preserves platform db schema ops altered.name) ↔ Keeps schema altered (tracked schema ops) := by
  constructor
  · intro preserves
    exact keeps_of_preserves succeeds preserves structural
  · intro keeps db _ registered
    exact preserves_of_keeps platform db structural succeeds registered keeps

theorem values_of_preserves {H : KeyHashes} {platform : Platform} {db : Database H} {schema : TableSchema}
    {ops : List AlterTableOp} {newName : Str} (preserves : Preserves platform db schema ops newName)
    {e : Tracked} (member : e ∈ tracked schema ops) :
    ∃ rows, selectStar platform (alterTable db ⟨schema.name, ops⟩).1 newName = some rows ∧
      ((storedRows db schema.name schema).map fun row => (e.1.map (valueAt schema row)).getD .null).Perm
        (rows.map fun row => (get row e.2.name).getD .null) := by
  obtain ⟨rows, shown, stored, reordered, carried⟩ := preserves
  refine ⟨rows, shown, ?_⟩
  have same : (stored.map fun row => (e.1.map (valueAt schema row)).getD .null) =
      rows.map fun row => (get row e.2.name).getD .null := by
    clear shown reordered
    induction carried with
    | nil => rfl
    | cons first _ ih => rw [map_cons, map_cons, ih, first e member]
  rw [← same]
  exact (reordered.map _).symm

section Points

def points : TableSchema := ⟨Str.ascii "points", [⟨Str.ascii "a", .int64, true⟩]⟩

def onePoint : Database lengthHashes :=
  let db := (Database.openWith ieee 1 [] .standard true).1
  let db := (db.registerTable points).1
  let (db, txn) := db.beginTransaction ieee 0
  let db := (db.insertRow ieee txn 0 points.name 1 (AList.insert (Str.ascii "a") (.int 1) ∅)).1
  (db.commit ieee txn true 0).1

def valuesShown (db : Database lengthHashes) (table column : Str) : Option (List SochValue) :=
  (selectStar .plain db table).map fun rows => rows.map fun row => (get row column).getD .null

def renamed : TableSchema := ⟨points.name, [⟨Str.ascii "b", .int64, true⟩]⟩

theorem renamed_column_keeps_rows :
    let ops := [AlterTableOp.renameColumn (Str.ascii "a") (Str.ascii "b")]
    let db : Database lengthHashes := holding ieee points [((Str.ascii "points/1").bytes, List.replicate 13 1)]
    (∀ op ∈ ops, IsStructural op) ∧ (storedRows db points.name points).length = 1 ∧
      Preserves .plain db points ops renamed.name := by
  intro ops db
  have structural : ∀ op ∈ ops, IsStructural op := by simp [ops, IsStructural]
  have succeeds : ops.foldlM alterSchema points = .ok renamed := by rfl
  have keeps : Keeps points renamed (tracked points ops) := by
    have one : readable points.columns.length = 1 := by decide
    constructor
    · rfl
    · decide
    · rfl
    · intro i inside
      obtain rfl : i = 0 := by omega
      exact ⟨_, rfl⟩
    · intro i inside j a b here there _
      obtain ⟨small, _⟩ := List.getElem?_eq_some_iff.mp there
      change j < 1 at small
      omega
    · exact ⟨0, by decide, _, rfl, rfl⟩
  exact ⟨structural, by decide +kernel, (alter_preserves_rows_iff .plain structural succeeds).mpr keeps db
    (holding_reachable ieee points _) rfl⟩

/-- A new column makes the stored value unreadable, and a new table name hides the row. -/
theorem added_column_and_new_name_lose_data :
    let add := [AlterTableOp.addColumn ⟨Str.ascii "b", .int, []⟩]
    let rename := [AlterTableOp.renameTable (Str.ascii "scores")]
    (alterTable onePoint ⟨points.name, add⟩).2.isOk ∧ (alterTable onePoint ⟨points.name, rename⟩).2.isOk ∧
    valuesShown onePoint points.name (Str.ascii "a") = some [.int 1] ∧
    valuesShown (alterTable onePoint ⟨points.name, add⟩).1 points.name (Str.ascii "a") = some [.null] ∧
    valuesShown (alterTable onePoint ⟨points.name, rename⟩).1 (Str.ascii "scores") (Str.ascii "a") = some [] ∧
    ¬Preserves .plain onePoint points add points.name ∧
    ¬Preserves .plain onePoint points rename (Str.ascii "scores") := by
  intro add rename
  have stored : (storedRows onePoint points.name points).map (valueAt points · 0) = [.int 1] := by decide +kernel
  have lost : valuesShown (alterTable onePoint ⟨points.name, add⟩).1 points.name (Str.ascii "a") =
      some [.null] := by decide +kernel
  have hidden : valuesShown (alterTable onePoint ⟨points.name, rename⟩).1 (Str.ascii "scores") (Str.ascii "a") =
      some [] := by decide +kernel
  have violates : ∀ ops newName values, (some 0, ⟨Str.ascii "a", .int64, true⟩) ∈ tracked points ops →
      valuesShown (alterTable onePoint ⟨points.name, ops⟩).1 newName (Str.ascii "a") = some values →
      values ≠ [.int 1] → ¬Preserves .plain onePoint points ops newName := by
    intro ops newName values member shown differ preserves
    obtain ⟨rows, rows_eq, reordered⟩ := values_of_preserves preserves member
    rw [valuesShown, rows_eq] at shown
    cases shown
    have expected : ((storedRows onePoint points.name points).map fun row =>
        ((some 0 : Option Nat).map (valueAt points row)).getD .null) = [.int 1] := stored
    rw [expected] at reordered
    exact differ (perm_singleton.mp reordered.symm)
  exact ⟨by decide +kernel, by decide +kernel, by decide +kernel, lost, hidden,
    violates add _ _ (by decide) lost (by decide), violates rename _ _ (by decide) hidden (by decide)⟩

end Points
end SchemaChanges
