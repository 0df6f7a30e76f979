import SochDB.Aggregates
import SochDB.Library.BoundedSums
import SochDB.Library.Selection

/-!
What one accumulator holds after the rows of a group, in any order and any division into
chunks, and when its final value depends on neither.
-/
namespace AggregateValues
open KeyedMaps Utf8 WalRecords PackedRows RowKeys SqlConnection SqlBridge GroupedFolds Aggregates List Option
open SqlExpressions hiding compareValues

section Numbers

def Simple : SochValue → Prop
  | .float _ | .binary _ | .nested _ => False
  | _ => True

instance : DecidablePred Simple
  | .float _ | .binary _ | .nested _ => isFalse id
  | .null | .bool _ | .int _ | .uint _ | .text _ => isTrue trivial

def number : SochValue → Option Int
  | .bool b => some (if b then 1 else 0)
  | v => whole v

def ofWhole (n : Int) : SochValue :=
  if n < 2 ^ 63 then .int (Int64.ofInt n) else .uint (UInt64.ofNat n.toNat)

def normal (v : SochValue) : SochValue := ((whole v).map ofWhole).getD v

theorem whole_bounds {v : SochValue} {n : Int} (isWhole : whole v = some n) : -2 ^ 63 ≤ n ∧ n < 2 ^ 64 := by
  cases v with
  | int i =>
    cases isWhole
    have low := i.le_toInt
    have high := i.toInt_lt
    constructor <;> omega
  | uint u =>
    cases isWhole
    have high := u.toNat_lt
    constructor <;> omega
  | _ => cases isWhole

theorem whole_ofWhole {n : Int} (low : -2 ^ 63 ≤ n) (high : n < 2 ^ 64) : whole (ofWhole n) = some n := by
  unfold ofWhole
  split
  · rename_i small
    rw [whole, Int64.toInt_ofInt_of_le low small]
  · rename_i large
    have fits : n.toNat < UInt64.size := by
      show n.toNat < 2 ^ 64
      omega
    rw [whole, UInt64.toNat_ofNat_of_lt' fits, Int.toNat_of_nonneg (by omega)]

theorem whole_normal (v : SochValue) : whole (normal v) = whole v := by
  cases isWhole : whole v with
  | none =>
    rw [normal, isWhole]
    exact isWhole
  | some n =>
    have bounds := whole_bounds isWhole
    rw [normal, isWhole]
    exact whole_ofWhole bounds.1 bounds.2

theorem normal_of_none {v : SochValue} (notWhole : whole v = none) : normal v = v := by
  rw [normal, notWhole]
  rfl

theorem normal_congr {a b : SochValue} {n : Int} (first : whole a = some n) (second : whole b = some n) :
    normal a = normal b := by
  rw [normal, normal, first, second]
  rfl

theorem normal_int (i : Int64) : normal (.int i) = .int i := by
  have small := i.toInt_lt
  rw [normal, whole, map_some, getD_some, ofWhole, if_pos small, Int64.ofInt_toInt]

end Numbers

section Keys
variable (host : Host)

theorem natText_inj {a b : Nat} (smallA : a < 2 ^ 64) (smallB : b < 2 ^ 64)
    (same : (natText a).bytes = (natText b).bytes) : a = b := by
  have texts : decimal (UInt64.ofNat a).toNat = decimal (UInt64.ofNat b).toNat := by
    rw [UInt64.toNat_ofNat_of_lt' smallA, UInt64.toNat_ofNat_of_lt' smallB]
    exact same
  have words := congrArg UInt64.toNat (decimal_injective texts)
  rwa [UInt64.toNat_ofNat_of_lt' smallA, UInt64.toNat_ofNat_of_lt' smallB] at words

variable {n : Int} {v : SochValue}

theorem intText_of_nonneg (nonneg : 0 ≤ n) : (intText n).bytes = (natText n.natAbs).bytes := by
  rw [intText, if_neg (by omega)]

theorem intText_of_neg (negative : n < 0) : (intText n).bytes = 45 :: (natText n.natAbs).bytes := by
  rw [intText, if_pos negative]
  rfl

theorem natText_unsigned (n : Nat) (rest : Bytes) : (natText n).bytes ≠ 45 :: rest := by
  intro same
  have digit := decimal_digit (n := n) (b := 45) (by
    show 45 ∈ (natText n).bytes
    rw [same]
    exact mem_cons_self)
  exact absurd digit.1 (by decide)

theorem intText_inj {a b : Int} (boundsA : -2 ^ 63 ≤ a ∧ a < 2 ^ 64) (boundsB : -2 ^ 63 ≤ b ∧ b < 2 ^ 64)
    (same : (intText a).bytes = (intText b).bytes) : a = b := by
  have magnitudes : (natText a.natAbs).bytes = (natText b.natAbs).bytes → a.natAbs = b.natAbs :=
    natText_inj (by omega) (by omega)
  by_cases negA : a < 0
  · by_cases negB : b < 0
    · rw [intText_of_neg negA, intText_of_neg negB] at same
      have := magnitudes (List.cons.inj same).2
      omega
    · rw [intText_of_neg negA, intText_of_nonneg (by omega)] at same
      exact absurd same.symm (natText_unsigned _ _)
  · by_cases negB : b < 0
    · rw [intText_of_nonneg (by omega), intText_of_neg negB] at same
      exact absurd same (natText_unsigned _ _)
    · rw [intText_of_nonneg (by omega), intText_of_nonneg (by omega)] at same
      have := magnitudes same
      omega

theorem keyRepr_whole (isWhole : whole v = some n) :
    (keyRepr host v).bytes = 105 :: (intText n).bytes := by
  cases v with
  | int i =>
    cases isWhole
    rfl
  | uint u =>
    cases isWhole
    rw [intText_of_nonneg (by omega)]
    rfl
  | _ => cases isWhole

theorem keyRepr_not_whole (simple : Simple v) (notWhole : whole v = none) (rest : Bytes) :
    (keyRepr host v).bytes ≠ 105 :: rest := by
  cases v with
  | null =>
    intro same
    cases same
  | bool b => cases b <;> (intro same; cases same)
  | text s =>
    intro same
    exact absurd (List.cons.inj same).1 (by decide)
  | int | uint => cases notWhole
  | float | binary | nested => exact simple.elim

variable {a b : SochValue}

/-- What depends on the integer of a value alone, if it is one, is the same for equal values. -/
theorem eq_of_normal {β : Type} {f : SochValue → β} {g : Int → β}
    (byWhole : ∀ {v n}, whole v = some n → f v = g n) (same : normal a = normal b) :
    f a = f b := by
  have wholes := congrArg whole same
  rw [whole_normal, whole_normal] at wholes
  cases isWhole : whole a with
  | some n => rw [byWhole isWhole, byWhole (wholes ▸ isWhole)]
  | none =>
    rw [normal_of_none isWhole, normal_of_none (wholes ▸ isWhole)] at same
    rw [same]

theorem keyRepr_eq_iff (simpleA : Simple a) (simpleB : Simple b) :
    keyRepr host a = keyRepr host b ↔ normal a = normal b := by
  constructor
  · intro same
    have bytes := congrArg Str.bytes same
    cases wholeA : whole a with
    | some n =>
      rw [keyRepr_whole host wholeA] at bytes
      cases wholeB : whole b with
      | some m =>
        rw [keyRepr_whole host wholeB] at bytes
        have equal := intText_inj (whole_bounds wholeA) (whole_bounds wholeB) (List.cons.inj bytes).2
        exact normal_congr wholeA (equal ▸ wholeB)
      | none => exact absurd bytes.symm (keyRepr_not_whole host simpleB wholeB _)
    | none =>
      cases wholeB : whole b with
      | some m =>
        rw [keyRepr_whole host wholeB] at bytes
        exact absurd bytes (keyRepr_not_whole host simpleA wholeA _)
      | none =>
        rw [normal_of_none wholeA, normal_of_none wholeB]
        cases a with
        | null =>
          cases b with
          | null => rfl
          | bool x => cases x <;> cases bytes
          | text s => exact absurd (List.cons.inj bytes).1 (by decide)
          | int | uint => cases wholeB
          | float | binary | nested => exact simpleB.elim
        | bool x =>
          cases b with
          | null => cases x <;> cases bytes
          | bool y => cases x <;> cases y <;> first | rfl | cases bytes
          | text s => cases x <;> exact absurd (List.cons.inj bytes).1 (by decide)
          | int | uint => cases wholeB
          | float | binary | nested => exact simpleB.elim
        | text s =>
          cases b with
          | null => exact absurd (List.cons.inj bytes).1 (by decide)
          | bool y => cases y <;> exact absurd (List.cons.inj bytes).1 (by decide)
          | text t => exact congrArg SochValue.text (Str.ext_bytes (List.cons.inj bytes).2)
          | int | uint => cases wholeB
          | float | binary | nested => exact simpleB.elim
        | int | uint => cases wholeA
        | float | binary | nested => exact simpleA.elim
  · intro same
    have bytes : (keyRepr host a).bytes = (keyRepr host b).bytes := eq_of_normal (keyRepr_whole host) same
    exact Str.ext_bytes bytes

theorem fromValue_whole (isWhole : whole v = some n) :
    KeyAtom.fromValue v = .int (Int64.ofInt n) := by
  cases v with
  | int i =>
    cases isWhole
    rw [KeyAtom.fromValue, Int64.ofInt_toInt]
  | uint u =>
    cases isWhole
    rw [KeyAtom.fromValue, toInt64_eq]
  | _ => cases isWhole

/-- The same value has the same atom; the converse fails for unsigned integers from `2 ^ 63` on. -/
theorem fromValue_of_normal (same : normal a = normal b) :
    KeyAtom.fromValue a = KeyAtom.fromValue b :=
  eq_of_normal fromValue_whole same

end Keys

section Comparison

def place (n : Int) : Int := position (asFloat n)

variable {n : Int} {v : SochValue}

theorem position_asFloat (small : n.natAbs < 2 ^ 64) :
    isNaN (asFloat n) = false ∧
      place n = if 0 ≤ n then (Binary64.magnitudeOf n.natAbs : Int) else -(Binary64.magnitudeOf n.natAbs : Int) := by
  have bound := Binary64.magnitudeOf_lt small
  unfold place asFloat
  by_cases nonneg : 0 ≤ n
  · have word : (UInt64.ofNat (Binary64.magnitudeOf n.natAbs)).toNat = Binary64.magnitudeOf n.natAbs :=
      UInt64.toNat_ofNat_of_lt' (by show _ < 2 ^ 64; omega)
    rw [if_pos nonneg, if_pos nonneg, isNaN, position, magnitude, word, if_pos (by omega),
      Nat.mod_eq_of_lt (by omega)]
    exact ⟨decide_eq_false (by omega), rfl⟩
  · have word : (UInt64.ofNat (2 ^ 63 + Binary64.magnitudeOf n.natAbs)).toNat =
        2 ^ 63 + Binary64.magnitudeOf n.natAbs :=
      UInt64.toNat_ofNat_of_lt' (by show _ < 2 ^ 64; omega)
    rw [if_neg nonneg, if_neg nonneg, isNaN, position, magnitude, word, if_neg (by omega),
      Nat.add_mod_left, Nat.mod_eq_of_lt (by omega)]
    exact ⟨decide_eq_false (by omega), rfl⟩

theorem place_mono {a b : Int} (smallA : a.natAbs < 2 ^ 64) (smallB : b.natAbs < 2 ^ 64) (le : a ≤ b) :
    place a ≤ place b := by
  rw [(position_asFloat smallA).2, (position_asFloat smallB).2]
  have mono := Binary64.magnitudeOf_mono
  by_cases nonnegA : 0 ≤ a
  · rw [if_pos nonnegA, if_pos (by omega)]
    have := mono (show a.natAbs ≤ b.natAbs by omega)
    omega
  · rw [if_neg nonnegA]
    split
    · omega
    · have := mono (show b.natAbs ≤ a.natAbs by omega)
      omega

theorem number_small (isNumber : number v = some n) : n.natAbs < 2 ^ 64 := by
  cases v with
  | bool b =>
    cases isNumber
    cases b <;> decide
  | int i =>
    have bounds := whole_bounds (v := .int i) isNumber
    omega
  | uint u =>
    have bounds := whole_bounds (v := .uint u) isNumber
    omega
  | _ => cases isNumber

theorem numeric_number (isNumber : number v = some n) : numeric v = some (asFloat n) := by
  cases v with
  | bool b =>
    cases isNumber
    cases b <;> decide
  | int | uint =>
    cases isNumber
    rfl
  | _ => cases isNumber

theorem compare_numbers {a b : SochValue} {x y : Int} (numberA : number a = some x) (numberB : number b = some y) :
    compareValues a b = compare (place x) (place y) := by
  have first := (position_asFloat (number_small numberA)).1
  have second := (position_asFloat (number_small numberB)).1
  unfold compareValues
  rw [numeric_number numberA, numeric_number numberB]
  simp only [partialCmp, first, second]
  rfl

theorem compare_texts {s t : Str} : (compareValues (.text s) (.text t) = .lt ↔ s.bytes < t.bytes) ∧
    (compareValues (.text s) (.text t) = .gt ↔ t.bytes < s.bytes) := by
  show (bytesCmp s.bytes t.bytes = .lt ↔ _) ∧ (bytesCmp s.bytes t.bytes = .gt ↔ _)
  unfold bytesCmp
  rcases lt_trichotomy s.bytes t.bytes with less | same | more
  · simp [less, not_lt_of_gt less]
  · simp [same]
  · simp [more, not_lt_of_gt more, ne_of_gt more]

theorem number_or_text (simple : Simple v) (nonnull : v ≠ .null) :
    (∃ n, number v = some n) ∨ ∃ s, v = .text s := by
  cases v with
  | null => exact absurd rfl nonnull
  | bool | int | uint => exact .inl ⟨_, rfl⟩
  | text s => exact .inr ⟨s, rfl⟩
  | float | binary | nested => exact simple.elim

theorem compare_mixed {a : SochValue} (isNumber : number a = some n) (s : Str) :
    compareValues a (.text s) = .eq ∧ compareValues (.text s) a = .eq := by
  have known := numeric_number isNumber
  unfold compareValues
  rw [known]
  cases a with
  | bool | int | uint => exact ⟨rfl, rfl⟩
  | _ => cases isNumber

end Comparison

section Extremes

/-- One of the two directions in which values compete. -/
inductive Direction where
  | least | greatest
  deriving DecidableEq

def Direction.wanted : Direction → Ordering
  | .least => .lt
  | .greatest => .gt

def beats (dir : Direction) (v c : SochValue) : Bool := compareValues v c = dir.wanted

def AtMost (a b : SochValue) : Prop :=
  (∃ x y, number a = some x ∧ number b = some y ∧ x ≤ y) ∨
    ∃ s t, a = .text s ∧ b = .text t ∧ s.bytes ≤ t.bytes

def AsGood : Direction → SochValue → SochValue → Prop
  | .least, a, b => AtMost a b
  | .greatest, a, b => AtMost b a

def OneKind (args : List SochValue) : Prop :=
  (∀ v ∈ args, (number v).isSome) ∨ ∀ v ∈ args, ∃ s, v = .text s

/-- Values of one kind, of which those that none beats are one value. -/
def OneBest (dir : Direction) (args : List SochValue) : Prop :=
  OneKind args ∧ ∀ a ∈ args, ∀ b ∈ args, Selection.Unbeaten (beats dir) args a →
    Selection.Unbeaten (beats dir) args b → normal a = normal b

variable {dir : Direction} {args : List SochValue}

theorem weak_of_key {β : Type} [LinearOrder β] (key : SochValue → β)
    (less : ∀ a ∈ args, ∀ b ∈ args, compareValues a b = .lt ↔ key a < key b)
    (more : ∀ a ∈ args, ∀ b ∈ args, compareValues a b = .gt ↔ key b < key a) :
    Selection.Weak (beats dir) args := by
  have beats_iff : ∀ a ∈ args, ∀ b ∈ args, beats dir a b = true ↔
      (match dir with | .least => key a < key b | .greatest => key b < key a) := by
    intro a memberA b memberB
    unfold beats
    rw [decide_eq_true_eq]
    cases dir with
    | least => exact less a memberA b memberB
    | greatest => exact more a memberA b memberB
  constructor
  · intro a memberA b memberB beaten
    rw [← Bool.not_eq_true, beats_iff b memberB a memberA]
    rw [beats_iff a memberA b memberB] at beaten
    cases dir with
    | least | greatest => exact not_lt_of_gt beaten
  · intro a memberA b memberB c memberC beaten
    rw [beats_iff a memberA c memberC] at beaten
    rw [beats_iff a memberA b memberB, beats_iff b memberB c memberC]
    cases dir with
    | least => exact (lt_or_ge (key a) (key b)).imp_right fun le => lt_of_le_of_lt le beaten
    | greatest => exact (lt_or_ge (key b) (key a)).imp_right fun le => lt_of_lt_of_le beaten le

theorem weak_of_oneKind (kind : OneKind args) : Selection.Weak (beats dir) args := by
  rcases kind with numbers | texts
  · have compared : ∀ a ∈ args, ∀ b ∈ args, compareValues a b =
        compare (place ((number a).getD 0)) (place ((number b).getD 0)) := by
      intro a memberA b memberB
      obtain ⟨x, numberA⟩ := isSome_iff_exists.mp (numbers a memberA)
      obtain ⟨y, numberB⟩ := isSome_iff_exists.mp (numbers b memberB)
      rw [compare_numbers numberA numberB, numberA, numberB]
      rfl
    apply weak_of_key fun v => place ((number v).getD 0)
    · intro a memberA b memberB
      rw [compared a memberA b memberB, compare_lt_iff_lt]
    · intro a memberA b memberB
      rw [compared a memberA b memberB, compare_gt_iff_gt]
  · apply weak_of_key fun v => (valueToString Host.plain v).bytes
    · intro a memberA b memberB
      obtain ⟨s, rfl⟩ := texts a memberA
      obtain ⟨t, rfl⟩ := texts b memberB
      exact compare_texts.1
    · intro a memberA b memberB
      obtain ⟨s, rfl⟩ := texts a memberA
      obtain ⟨t, rfl⟩ := texts b memberB
      exact compare_texts.2

theorem number_normal (v : SochValue) : number (normal v) = number v := by
  cases v with
  | int i => rw [normal_int]
  | uint u =>
    have same := whole_normal (.uint u)
    cases form : normal (.uint u) with
    | int | uint =>
      rw [form] at same
      exact same
    | _ =>
      rw [form] at same
      cases same
  | _ => rfl

/-- The value that none beats is as good as every other one in the order of the values. -/
theorem asGood_of_unbeaten (best : OneBest dir args) {m : SochValue} (member : m ∈ args)
    (unbeaten : Selection.Unbeaten (beats dir) args m) {z : SochValue} (other : z ∈ args) : AsGood dir m z := by
  have notBeaten : compareValues z m ≠ dir.wanted := by
    have := unbeaten z other
    exact of_decide_eq_false this
  rcases best.1 with numbers | texts
  · obtain ⟨x, numberM⟩ := isSome_iff_exists.mp (numbers m member)
    obtain ⟨y, numberZ⟩ := isSome_iff_exists.mp (numbers z other)
    -- An equal place would make `z` another value that none beats.
    have same_of_place : place y = place x → x = y := by
      intro same
      have alsoUnbeaten : Selection.Unbeaten (beats dir) args z := by
        intro w memberW
        obtain ⟨u, numberW⟩ := isSome_iff_exists.mp (numbers w memberW)
        have asBefore := unbeaten w memberW
        unfold beats at asBefore ⊢
        rwa [compare_numbers numberW numberZ, same, ← compare_numbers numberW numberM]
      have equal := congrArg number (best.2 m member z other unbeaten alsoUnbeaten)
      rw [number_normal, number_normal, numberM, numberZ] at equal
      exact some.inj equal
    have smallX := number_small numberM
    have smallY := number_small numberZ
    rw [compare_numbers numberZ numberM] at notBeaten
    cases dir with
    | least =>
      have placed : ¬place y < place x := fun less => notBeaten (compare_lt_iff_lt.mpr less)
      refine .inl ⟨x, y, numberM, numberZ, ?_⟩
      by_contra more
      have mono := place_mono smallY smallX (by omega)
      have := same_of_place (by omega)
      omega
    | greatest =>
      have placed : ¬place x < place y := fun less => notBeaten (compare_gt_iff_gt.mpr less)
      refine .inl ⟨y, x, numberZ, numberM, ?_⟩
      by_contra more
      have mono := place_mono smallX smallY (by omega)
      have := same_of_place (by omega)
      omega
  · obtain ⟨s, rfl⟩ := texts m member
    obtain ⟨t, rfl⟩ := texts z other
    cases dir with
    | least => exact .inr ⟨s, t, rfl, rfl, not_lt.mp fun less => notBeaten (compare_texts.1.mpr less)⟩
    | greatest => exact .inr ⟨t, s, rfl, rfl, not_lt.mp fun less => notBeaten (compare_texts.2.mpr less)⟩

theorem kind_of_beats {a b : SochValue} (simpleA : Simple a) (simpleB : Simple b) (nonnullA : a ≠ .null)
    (nonnullB : b ≠ .null) (beaten : beats dir a b = true) : (number a).isSome = (number b).isSome := by
  have decided : compareValues a b = dir.wanted := of_decide_eq_true beaten
  have notEqual : compareValues a b ≠ .eq := by
    rw [decided]
    cases dir <;> decide
  rcases number_or_text simpleA nonnullA with ⟨x, numberA⟩ | ⟨s, rfl⟩
  · rcases number_or_text simpleB nonnullB with ⟨y, numberB⟩ | ⟨t, rfl⟩
    · rw [numberA, numberB]
      rfl
    · exact absurd (compare_mixed numberA t).1 notEqual
  · rcases number_or_text simpleB nonnullB with ⟨y, numberB⟩ | ⟨t, rfl⟩
    · exact absurd (compare_mixed numberB s).2 notEqual
    · rfl

theorem kind_of_pass {a : SochValue} (simple : ∀ v ∈ a :: args, Simple v ∧ v ≠ .null) {m : SochValue}
    (passed : args.foldl (Selection.keep (beats dir)) (some a) = some m) :
    (number m).isSome = (number a).isSome := by
  induction args generalizing a with
  | nil =>
    cases passed
    rfl
  | cons b rest ih =>
    have forB := simple b (mem_cons_of_mem a mem_cons_self)
    have forA := simple a mem_cons_self
    rw [foldl_cons, Selection.keep] at passed
    cases beaten : beats dir b a with
    | true =>
      rw [beaten] at passed
      rw [← kind_of_beats forB.1 forA.1 forB.2 forA.2 beaten]
      exact ih (fun v member => simple v (mem_cons_of_mem a member)) passed
    | false =>
      rw [beaten] at passed
      apply ih _ passed
      intro v member
      rcases mem_cons.mp member with rfl | later
      · exact forA
      · exact simple v (mem_cons_of_mem a (mem_cons_of_mem b later))

end Extremes

end AggregateValues
