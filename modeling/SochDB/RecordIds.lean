import SochDB.Library.BigEndian
import SochDB.RowKeys

/-!
Record ids: a table and an id in it. A key holds a hash of the table only; the text form holds
the whole name.
-/
namespace RecordIds
open Utf8 BigEndian RowKeys WalRecords List

/-- FNV-1a with 32 bits. -/
def fnv1a32 (bytes : Bytes) : UInt32 :=
  bytes.foldl (fun hash b => (hash ^^^ b.toUInt32) * 0x01000193) 0x811c9dc5

inductive IdValue where
  | integer (n : UInt64)
  | string (s : Str)
  deriving DecidableEq

namespace IdValue

def toBytes : IdValue → Bytes
  | .integer n => beBytes 8 n.toNat
  | .string s => s.bytes

def tag : IdValue → UInt8
  | .integer _ => 0x01
  | .string _ => 0x02

def display : IdValue → Bytes
  | .integer n => decimal n.toNat
  | .string s => s.bytes

end IdValue

structure RecordId where
  table : Str
  id : IdValue
  deriving DecidableEq

def hexDigit (d : Nat) : UInt8 := UInt8.ofNat (if d < 10 then 48 + d else 87 + d)

def hex8 (hash : UInt32) : Bytes :=
  (List.range 8).map fun i => hexDigit (hash.toNat / 16 ^ (7 - i) % 16)

theorem hexDigit_ascii (d : Nat) (small : d < 16) : hexDigit d < 0x80 := by
  interval_cases d <;> decide

def placeholder (hash : UInt32) : Str where
  bytes := 35 :: hex8 hash
  valid := by
    apply isUtf8_ascii
    intro b member
    rcases List.mem_cons.mp member with rfl | digit
    · decide
    · obtain ⟨i, _, rfl⟩ := List.mem_map.mp digit
      exact hexDigit_ascii _ (Nat.mod_lt _ (by omega))

def colon : UInt8 := 58

namespace RecordId

def tableHash (table : Str) : UInt32 := fnv1a32 table.bytes

def toKey (r : RecordId) : Bytes :=
  beBytes 4 (tableHash r.table).toNat ++ r.id.tag :: r.id.toBytes

/-- The id is read back; the table is only named by its hash. -/
def fromKey (key : Bytes) : Option RecordId :=
  if key.length < 6 then none
  else
    let table := placeholder (UInt32.ofNat (ofBe (key.take 4)))
    match key.drop 4 with
    | [] => none
    | tag :: idBytes =>
      if tag = 0x01 then
        if idBytes.length ≠ 8 then none else some ⟨table, .integer (UInt64.ofNat (ofBe idBytes))⟩
      else if tag = 0x02 then (Str.fromUtf8 idBytes).map fun s => ⟨table, .string s⟩
      else none

def tablePrefix (table : Str) : Bytes := beBytes 4 (tableHash table).toNat

def display (r : RecordId) : Bytes := r.table.bytes ++ colon :: r.id.display

def parseId (text : Str) : IdValue :=
  match parseU64 text.bytes with
  | some n => .integer n
  | none => .string text

local instance byteLawful : LawfulBEq UInt8 := inferInstance

/-- Splits at the first colon; both sides have to be there. -/
def parse (text : Bytes) : Option RecordId :=
  let before := text.takeWhile (· ≠ colon)
  let after := text.drop (before.length + 1)
  if colon ∉ text ∨ before = [] ∨ after = [] then none
  else
    (Str.fromUtf8 before).bind fun table => (Str.fromUtf8 after).map fun id => ⟨table, parseId id⟩

end RecordId

section Keys
open RecordId
variable {r s : RecordId}

theorem toBytes_injective {a b : IdValue} (tags : a.tag = b.tag) (bytes : a.toBytes = b.toBytes) : a = b := by
  cases a with
  | integer n =>
    cases b with
    | integer m =>
      have words : n.toNat = m.toNat := beBytes_injective n.toNat_lt m.toNat_lt bytes
      rw [UInt64.toNat_inj.mp words]
    | string s => cases tags
  | string s =>
    cases b with
    | integer n => cases tags
    | string t => rw [Str.ext_bytes bytes]

theorem hash_injective {a b : UInt32} (same : beBytes 4 a.toNat = beBytes 4 b.toNat) : a = b :=
  UInt32.toNat_inj.mp (beBytes_injective a.toNat_lt b.toNat_lt same)

theorem toKey_eq_iff : r.toKey = s.toKey ↔ tableHash r.table = tableHash s.table ∧ r.id = s.id := by
  constructor
  · intro same
    obtain ⟨hashes, rest⟩ := append_inj same (by simp)
    obtain ⟨tags, bytes⟩ := List.cons.inj rest
    exact ⟨hash_injective hashes, toBytes_injective tags bytes⟩
  · rintro ⟨hashes, ids⟩
    rw [toKey, toKey, hashes, ids]

end Keys

section Text
open RecordId

/-- The table has no colon, and the id is not empty and not a number written as text. -/
structure Readable (r : RecordId) : Prop where
  table : r.table ≠ .empty
  plain : colon ∉ r.table.bytes
  id : ∀ s, r.id = .string s → s ≠ .empty ∧ parseU64 s.bytes = none

theorem parse_split {before after : Bytes} (plain : colon ∉ before) :
    parse (before ++ colon :: after) = if before = [] ∨ after = [] then none
      else (Str.fromUtf8 before).bind fun table => (Str.fromUtf8 after).map fun id => ⟨table, parseId id⟩ := by
  have all : ∀ b ∈ before, decide (b ≠ colon) = true := by
    intro b member
    exact decide_eq_true fun same => plain (same ▸ member)
  have first : (before ++ colon :: after).takeWhile (· ≠ colon) = before := by
    rw [takeWhile_append_of_pos all, takeWhile_cons_of_neg (by simp), append_nil]
  have rest : (before ++ colon :: after).drop (before.length + 1) = after := by
    rw [← drop_drop, drop_left]
    rfl
  unfold parse
  dsimp only
  rw [first, rest]
  simp

theorem parse_eq_some {text : Bytes} {r : RecordId} : parse text = some r ↔ r.table ≠ .empty ∧
    colon ∉ r.table.bytes ∧ ∃ id ≠ Str.empty, text = r.table.bytes ++ colon :: id.bytes ∧ parseId id = r.id := by
  have filled : ∀ s : Str, s.bytes = [] ↔ s = .empty := fun s =>
    ⟨fun empty => Str.ext_bytes empty, fun empty => empty ▸ rfl⟩
  constructor
  · intro read
    have present : colon ∈ text := by
      by_contra absent
      simp [parse, absent] at read
    obtain ⟨before, after, rfl, plain⟩ := eq_append_cons_of_mem present
    rw [parse_split plain] at read
    split_ifs at read with empty
    obtain ⟨table, isTable, read⟩ := Option.bind_eq_some_iff.mp read
    obtain ⟨id, isId, rfl⟩ := Option.map_eq_some_iff.mp read
    obtain rfl := Str.fromUtf8_some.mp isTable
    obtain rfl := Str.fromUtf8_some.mp isId
    simp only [filled, not_or] at empty
    exact ⟨empty.1, plain, id, empty.2, rfl, rfl⟩
  · rintro ⟨named, plain, id, nonempty, rfl, reads⟩
    rw [parse_split plain, if_neg (by simp [filled, named, nonempty]), Str.fromUtf8_some.mpr rfl,
      Str.fromUtf8_some.mpr rfl]
    simp [reads]

theorem parse_display_iff {r : RecordId} : parse r.display = some r ↔ Readable r := by
  rw [parse_eq_some]
  constructor
  · rintro ⟨named, plain, id, nonempty, text, reads⟩
    refine ⟨named, plain, fun s known => ?_⟩
    have same : s.bytes = id.bytes := by
      rw [display, known] at text
      exact (List.cons.inj (append_cancel_left text)).2
    obtain rfl := Str.ext_bytes same
    refine ⟨nonempty, ?_⟩
    cases number : parseU64 s.bytes with
    | none => rfl
    | some n => simp [parseId, number, known] at reads
  · intro readable
    refine ⟨readable.table, readable.plain, ?_⟩
    cases known : r.id with
    | integer n =>
      refine ⟨⟨decimal n.toNat, isUtf8_ascii fun b member =>
        UInt8.lt_of_le_of_lt (decimal_digit member).2 (by decide)⟩, ?_, by rw [display, known]; rfl, ?_⟩
      · exact fun empty => decimal_ne_nil _ (congrArg Str.bytes empty)
      · rw [parseId, parseU64_decimal]
    | string text =>
      obtain ⟨filled, unnumbered⟩ := readable.id text known
      refine ⟨text, filled, by rw [display, known]; rfl, ?_⟩
      rw [parseId, unnumbered]

/-- Printing adds at most the digits of a number. -/
theorem display_length_le {text : Bytes} {r : RecordId} (read : parse text = some r) :
    r.display.length ≤ text.length + 20 := by
  obtain ⟨_, _, id, _, rfl, reads⟩ := parse_eq_some.mp read
  have printed : r.id.display.length ≤ id.bytes.length + 20 := by
    rw [← reads, parseId]
    cases parseU64 id.bytes with
    | none => exact Nat.le_add_right _ _
    | some n => exact (decimal_length_le n).trans (Nat.le_add_left _ _)
  simp only [display, length_append, length_cons]
  omega

end Text

end RecordIds
