import SochDB.SqlBridge

/-!
The hash join against the nested loop that the same condition would run. The fast path reads
one operand in the left row and the other in the right row; the loop reads both in the merged
row, where a qualified name falls back to the plain one. They agree where each operand is a
column of its own side that the other side does not hide.
-/
namespace JoinAgreement
open KeyedMaps Utf8 PackedRows RowKeys SqlExpressions SqlConnection SqlBridge List

section HashTable
variable (platform : Platform) (leftKey rightKey : Str)

def hashTable (rows : List (Row × Nat)) : Map Str (List Nat) :=
  rows.foldl (fun table e =>
    match get e.1 rightKey with
    | some val => upsert table (platform.host.debugText val) [] (· ++ [e.2])
    | none => table) ∅

def probe (table : Map Str (List Nat)) (left : Row) : List Nat :=
  ((get left leftKey).bind fun val => get table (platform.host.debugText val)).getD []

def hashJoin (leftRows rightRows : List Row) (joinType : JoinType) : List Row :=
  let table := hashTable platform rightKey rightRows.zipIdx
  let hits := probe platform leftKey table
  let emitted := fun left =>
    if (hits left).isEmpty ∧ (joinType = .left ∨ joinType = .full) then
      [mergeRows left (nullRow rightRows)]
    else (hits left).filterMap fun ri => rightRows[ri]?.map (mergeRows left)
  let unmatched := rightRows.zipIdx.filter fun e => !leftRows.any fun left => (hits left).contains e.2
  leftRows.flatMap emitted ++ if joinType = .right ∨ joinType = .full then
    unmatched.map fun e => mergeRows (nullRow leftRows) e.1 else []

theorem get_hashTable (rows : List (Row × Nat)) (key : Str) :
    (get (hashTable platform rightKey rows) key).getD [] =
      (rows.filter fun e => (get e.1 rightKey).any (platform.host.debugText · = key)).map Prod.snd := by
  induction rows using List.reverseRecOn with
  | nil => rfl
  | append_singleton rows e ih =>
    rw [hashTable, foldl_append, foldl_cons, foldl_nil, filter_append, map_append, ← ih]
    cases held : get e.1 rightKey with
    | none => simp [hashTable, held]
    | some val =>
      simp only [get_upsert]
      by_cases same : key = platform.host.debugText val
      · simp [hashTable, held, same]
      · simp [hashTable, held, same, Ne.symm same]

theorem probe_eq (rightRows : List Row) (left : Row) :
    probe platform leftKey (hashTable platform rightKey rightRows.zipIdx) left =
      (rightRows.zipIdx.filter fun e => hashMatches platform leftKey rightKey left e.1).map Prod.snd := by
  unfold probe hashMatches
  cases get left leftKey with
  | none => simp
  | some val =>
    rw [Option.bind_some, get_hashTable]
    simp only [Option.any_some, eq_comm]

section Positions
variable {α : Type} (l : List α) (p : α → Bool)

theorem filter_of_positions : (l.zipIdx.filter fun e => p e.1).map Prod.fst = l.filter p := by
  conv_rhs => rw [← zipIdx_map_fst 0 l, filter_map]
  rfl

theorem rows_of_positions {β : Type} (f : α → β) :
    ((l.zipIdx.filter fun e => p e.1).map Prod.snd).filterMap (fun i => l[i]?.map f) = (l.filter p).map f := by
  rw [filterMap_map, ← filter_of_positions l p, map_map, ← filterMap_eq_map]
  apply filterMap_congr
  intro e member
  have found := mem_zipIdx_iff_getElem?.mp (mem_of_mem_filter member)
  simp [found]

theorem position_hit {e : α × Nat} (member : e ∈ l.zipIdx) :
    ((l.zipIdx.filter fun e => p e.1).map Prod.snd).contains e.2 = p e.1 := by
  rw [Bool.eq_iff_iff, contains_iff_mem, mem_map]
  constructor
  · rintro ⟨other, hit, same⟩
    have found := mem_zipIdx_iff_getElem?.mp (mem_of_mem_filter hit)
    rw [same, mem_zipIdx_iff_getElem?.mp member] at found
    rw [Option.some.inj found]
    exact (mem_filter.mp hit).2
  · exact fun held => ⟨e, mem_filter.mpr ⟨member, held⟩, rfl⟩

end Positions

theorem hashJoin_eq (leftRows rightRows : List Row) (joinType : JoinType) :
    hashJoin platform leftKey rightKey leftRows rightRows joinType =
      joinRows (hashMatches platform leftKey rightKey) joinType leftRows rightRows := by
  have hits := probe_eq platform leftKey rightKey rightRows
  unfold hashJoin joinRows
  simp only [hits, isEmpty_map, rows_of_positions]
  generalize hashMatches platform leftKey rightKey = matching
  congr 1
  · apply flatMap_congr
    intro left _
    rw [← filter_of_positions rightRows, isEmpty_map]
  · have unmatched : rightRows.zipIdx.filter (fun e => !leftRows.any fun left =>
        ((rightRows.zipIdx.filter fun e => matching left e.1).map Prod.snd).contains e.2) =
        rightRows.zipIdx.filter fun e => !leftRows.any fun left => matching left e.1 := by
      apply filter_congr
      intro e member
      simp only [position_hit rightRows _ member]
    rw [unmatched, ← filter_of_positions rightRows, map_map]
    rfl

end HashTable

section Values

def isPlain : SochValue → Bool
  | .null | .bool _ | .int _ | .text _ => true
  | _ => false

def PlainRow (row : Row) : Prop := ∀ name value, get row name = some value → isPlain value

/-- The debug output of such values tells them apart. -/
def TellsApart (host : Host) : Prop :=
  ∀ a b, isPlain a → isPlain b → host.debugText a = host.debugText b → a = b

def oneValue (first second : Option SochValue) : Bool := first.isSome && first = second

def hasColumn (row : Row) (name : Str) : Bool := (get row name).isSome

def qualified (name : Str) : Bool := name.bytes.contains dot

/-- The first operand names a column of the left rows and the second one of the right rows. In a
    merged row the right side hides a qualified name, the left side a plain one. -/
structure OwnColumns (x y : ColumnRef) (leftRows rightRows : List Row) : Prop where
  first : ∀ row ∈ leftRows, hasColumn row (columnKey x)
  second : ∀ row ∈ rightRows, hasColumn row (columnKey y)
  firstShown : qualified (columnKey x) → ∀ row ∈ rightRows, !hasColumn row (columnKey x)
  secondShown : !qualified (columnKey y) → ∀ row ∈ leftRows, !hasColumn row (columnKey y)

section Merging
variable {entries : List (Str × SochValue)} {merged : Row} {name : Str}

/-- The loop of `mergeRows` over the entries of the right row. -/
def mergeEntries (merged : Row) (entries : List (Str × SochValue)) : Row :=
  entries.foldl (fun merged e =>
    if (get merged e.1).isNone || e.1.bytes.contains dot then merged.insert e.1 e.2 else merged) merged

theorem get_mergeEntries_cons_other (merged : Row) (entries : List (Str × SochValue)) {e : Str × SochValue}
    (other : name ≠ e.1) :
    ∃ next, mergeEntries merged (e :: entries) = mergeEntries next entries ∧ get next name = get merged name := by
  refine ⟨_, rfl, ?_⟩
  dsimp only
  split
  · rw [get_insert, if_neg other]
  · rfl

theorem get_mergeEntries_kept
    (kept : name ∉ entries.map Prod.fst ∨ hasColumn merged name ∧ !qualified name) :
    get (mergeEntries merged entries) name = get merged name := by
  induction entries generalizing merged with
  | nil => rfl
  | cons e entries ih =>
    by_cases same : name = e.1
    · subst same
      obtain ⟨held, plain⟩ := kept.resolve_left fun absent => absent mem_cons_self
      have skipped : ((get merged e.1).isNone || e.1.bytes.contains dot) = false := by
        simp only [hasColumn, qualified] at held plain
        simp_all
      rw [mergeEntries, foldl_cons, skipped]
      exact ih (.inr ⟨held, plain⟩)
    · obtain ⟨next, looped, unchanged⟩ := get_mergeEntries_cons_other merged entries same
      rw [looped, ← unchanged]
      refine ih ?_
      rw [hasColumn, unchanged]
      exact kept.imp_left fun absent member => absent (mem_cons_of_mem _ member)

theorem get_mergeEntries_taken {value : SochValue} (distinct : (entries.map Prod.fst).Nodup)
    (listed : (name, value) ∈ entries) (taken : qualified name ∨ !hasColumn merged name) :
    get (mergeEntries merged entries) name = some value := by
  induction entries generalizing merged with
  | nil => cases listed
  | cons e entries ih =>
    obtain ⟨fresh, rest⟩ := nodup_cons.mp distinct
    rcases mem_cons.mp listed with rfl | later
    · have inserted : ((get merged name).isNone || name.bytes.contains dot) = true := by
        rcases taken with dotted | absent
        · exact Bool.or_eq_true_iff.mpr (.inr dotted)
        · refine Bool.or_eq_true_iff.mpr (.inl ?_)
          rwa [← Option.not_isSome]
      rw [mergeEntries, foldl_cons, if_pos inserted]
      exact (get_mergeEntries_kept (.inl fresh)).trans (by rw [get_insert, if_pos rfl])
    · have other : name ≠ e.1 := by
        rintro rfl
        exact fresh (mem_map.mpr ⟨_, later, rfl⟩)
      obtain ⟨next, looped, unchanged⟩ := get_mergeEntries_cons_other merged entries other
      rw [looped]
      exact ih rest later (by rwa [hasColumn, unchanged])

end Merging

theorem lookupColumn_key {row : Row} {ref : ColumnRef} {value : SochValue}
    (held : get row (columnKey ref) = some value) : lookupColumn row ref = some value := by
  obtain ⟨table, column⟩ := ref
  cases table with
  | none => exact held
  | some table =>
    have found : get row ((table.append (Str.ascii ".")).append column) = some value := held
    simp [lookupColumn, found]

/-- Each operand is read in the merged row as in the row of its own side. -/
theorem OwnColumns.read {x y : ColumnRef} {leftRows rightRows : List Row}
    (own : OwnColumns x y leftRows rightRows) {left right : Row} (inLeft : left ∈ leftRows)
    (inRight : right ∈ rightRows) :
    lookupColumn (mergeRows left right) x = get left (columnKey x) ∧
      lookupColumn (mergeRows left right) y = get right (columnKey y) := by
  obtain ⟨a, first⟩ := Option.isSome_iff_exists.mp (own.first left inLeft)
  obtain ⟨b, second⟩ := Option.isSome_iff_exists.mp (own.second right inRight)
  constructor
  · rw [first]
    apply lookupColumn_key
    rw [← first]
    apply get_mergeEntries_kept
    by_cases dotted : qualified (columnKey x)
    · left
      intro member
      obtain ⟨e, listed, same⟩ := mem_map.mp member
      have absent := own.firstShown dotted right inRight
      rw [hasColumn, ← same, mem_pairs.mp listed] at absent
      cases absent
    · exact .inr ⟨own.first left inLeft, by simpa using dotted⟩
  · rw [second]
    apply lookupColumn_key
    apply get_mergeEntries_taken (pairs_keys_nodup right) (mem_pairs.mpr second)
    by_cases dotted : qualified (columnKey y)
    · exact .inl dotted
    · exact .inr (own.secondShown (by simpa using dotted) left inLeft)

variable {platform : Platform} {left right : Row} (x y : ColumnRef)

theorem valueEq_plain {a : SochValue} (plain : isPlain a) (b : SochValue) :
    valueEq a b = oneValue (some a) (some b) := by
  cases a with
  | float bits => cases plain
  | _ => simp [valueEq, oneValue]

theorem mergeRows_plain (plainLeft : PlainRow left) (plainRight : PlainRow right) :
    PlainRow (mergeRows left right) := by
  have each : ∀ e ∈ pairs right, isPlain e.2 := fun e member => plainRight e.1 e.2 (mem_pairs.mp member)
  unfold mergeRows
  generalize pairs right = entries at each
  induction entries generalizing left with
  | nil => exact plainLeft
  | cons e entries ih =>
    refine ih ?_ fun other member => each other (mem_cons_of_mem e member)
    dsimp only
    split
    · exact forall_insert plainLeft (each e mem_cons_self)
    · exact plainLeft

theorem lookupColumn_plain {row : Row} (plain : PlainRow row) {value : SochValue}
    (held : lookupColumn row x = some value) : isPlain value := by
  unfold lookupColumn at held
  split at held
  · rename_i found
    cases held
    obtain ⟨table, _, held⟩ := Option.bind_eq_some_iff.mp found
    exact plain _ _ held
  · exact plain _ _ held

theorem hashMatches_eq (apart : TellsApart platform.host) (plainLeft : PlainRow left)
    (plainRight : PlainRow right) (leftKey rightKey : Str) :
    hashMatches platform leftKey rightKey left right = oneValue (get left leftKey) (get right rightKey) := by
  unfold hashMatches
  cases heldLeft : get left leftKey with
  | none => rfl
  | some a =>
    cases heldRight : get right rightKey with
    | none => rfl
    | some b =>
      have same : platform.host.debugText a = platform.host.debugText b ↔ a = b :=
        ⟨apart a b (plainLeft _ _ heldLeft) (plainRight _ _ heldRight), congrArg _⟩
      simp [oneValue, same]

def equality : Expr := .binaryOp (.column x) .eq (.column y)

theorem onMatches_eq (plainLeft : PlainRow left) (plainRight : PlainRow right) (params : List SochValue) :
    onMatches platform (equality x y) params left right =
      oneValue (lookupColumn (mergeRows left right) x) (lookupColumn (mergeRows left right) y) := by
  have plain := mergeRows_plain plainLeft plainRight
  unfold onMatches evalJoinPredicate equality
  simp only [evalExpr]
  cases first : lookupColumn (mergeRows left right) x with
  | none => rfl
  | some a =>
    cases lookupColumn (mergeRows left right) y with
    | none => rfl
    | some b =>
      rw [← valueEq_plain (lookupColumn_plain x plain first)]
      cases verdict : valueEq a b <;> simp [evalBinaryOp, SqlExpressions.isTrue, verdict]

theorem joinRows_congr {first second : Row → Row → Bool} {leftRows rightRows : List Row}
    (agree : ∀ left ∈ leftRows, ∀ right ∈ rightRows, first left right = second left right) (joinType : JoinType) :
    joinRows first joinType leftRows rightRows = joinRows second joinType leftRows rightRows := by
  have hits : ∀ left ∈ leftRows, rightRows.filter (first left) = rightRows.filter (second left) :=
    fun left member => filter_congr (agree left member)
  have unmatched : (rightRows.filter fun right => !leftRows.any fun left => first left right) =
      rightRows.filter fun right => !leftRows.any fun left => second left right := by
    apply filter_congr
    intro right member
    rw [Bool.not_inj_iff, Bool.eq_iff_iff, any_eq_true, any_eq_true]
    exact exists_congr fun left => and_congr_right fun inside => by rw [agree left inside right member]
  unfold joinRows
  dsimp only
  rw [unmatched]
  congr 1
  apply flatMap_congr
  intro left member
  rw [hits left member]

end Values

def variantText : SochValue → Str
  | .null => Str.ascii "Null"
  | .bool b => (Str.ascii "Bool").append (Str.ascii (toString b))
  | .int i => (Str.ascii "Int").append ⟨decimal i.toUInt64.toNat, isUtf8_decimal _⟩
  | .text s => (Str.ascii "Str").append s
  | _ => Str.empty

def telling : Platform := { Platform.plain with host := { Host.plain with debugText := variantText } }

theorem telling_apart : TellsApart telling.host := by
  intro a b plainA plainB same
  have bytes : (variantText a).bytes = (variantText b).bytes := congrArg Str.bytes same
  cases a <;> cases b <;> try first
    | rfl | exact absurd plainA Bool.false_ne_true | exact absurd plainB Bool.false_ne_true | cases bytes
  case bool.bool b c => cases b <;> cases c <;> first | rfl | cases bytes
  case int.int i j =>
    obtain ⟨i⟩ := i
    obtain ⟨j⟩ := j
    have digits := decimal_injective (append_cancel_left (bytes : (Str.ascii "Int").bytes ++ _ = _ ++ _))
    exact congrArg (fun u => SochValue.int ⟨u⟩) digits
  case text.text s u =>
    obtain ⟨s, _⟩ := s
    obtain ⟨u, _⟩ := u
    cases append_cancel_left (bytes : (Str.ascii "Str").bytes ++ _ = _ ++ _)
    rfl

section Tables

def idOf (table : String) (i : Int64) : Row := qualify (Str.ascii table) (AList.insert (Str.ascii "id") (.int i) ∅)

def column (table : Option String) : ColumnRef := ⟨table.map Str.ascii, Str.ascii "id"⟩

end Tables
end JoinAgreement
