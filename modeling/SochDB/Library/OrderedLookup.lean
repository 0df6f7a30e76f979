import SochDB.Library.KeyedMaps

/-!
Range lookups of an ordered map: the entry with the greatest key up to a bound, and the
least key. A lookup is determined by the entries below the bound.
-/
namespace OrderedLookup
open KeyedMaps

variable {κ ν : Type} [LinearOrder κ]

/-- `range(..=bound).next_back()`. -/
def latestUpTo (m : Map κ ν) (bound : κ) : Option (κ × ν) :=
  ((pairs m).filter fun e => decide (e.1 ≤ bound)).argmax Prod.fst

/-- `keys().next()`. -/
def leastKey (m : Map κ ν) : Option κ := ((pairs m).map Prod.fst).argmin id

variable {m : Map κ ν} {bound : κ}

theorem mem_upTo {k : κ} {v : ν} :
    (k, v) ∈ (pairs m).filter (fun e => decide (e.1 ≤ bound)) ↔ get m k = some v ∧ k ≤ bound := by
  rw [List.mem_filter, mem_pairs, decide_eq_true_eq]

theorem latestUpTo_spec {k : κ} {v : ν} (latest : latestUpTo m bound = some (k, v)) :
    get m k = some v ∧ k ≤ bound ∧ ∀ j u, get m j = some u → j ≤ bound → j ≤ k := by
  obtain ⟨present, below⟩ := mem_upTo.mp (List.argmax_mem latest)
  refine ⟨present, below, fun j u found inside => ?_⟩
  exact List.le_of_mem_argmax (mem_upTo.mpr ⟨found, inside⟩) latest

theorem latestUpTo_eq_none : latestUpTo m bound = none ↔ ∀ k v, get m k = some v → ¬k ≤ bound := by
  unfold latestUpTo
  rw [List.argmax_eq_none, List.eq_nil_iff_forall_not_mem]
  constructor
  · intro nothing k v found inside
    exact nothing (k, v) (mem_upTo.mpr ⟨found, inside⟩)
  · intro nothing e member
    obtain ⟨found, inside⟩ := mem_upTo.mp member
    exact nothing e.1 e.2 found inside

theorem latestUpTo_eq_some {k : κ} {v : ν} : latestUpTo m bound = some (k, v) ↔
    get m k = some v ∧ k ≤ bound ∧ ∀ j u, get m j = some u → j ≤ bound → j ≤ k := by
  constructor
  · exact latestUpTo_spec
  · intro ⟨found, inside, greatest⟩
    cases latest : latestUpTo m bound with
    | none => exact absurd inside (latestUpTo_eq_none.mp latest k v found)
    | some e =>
      obtain ⟨present, below, above⟩ := latestUpTo_spec latest
      have same : e.1 = k := le_antisymm (greatest e.1 e.2 present below) (above k v found inside)
      rw [same, found] at present
      have whole : e = (k, v) := Prod.ext same (Option.some.inj present).symm
      rw [whole]

theorem latestUpTo_congr {other : Map κ ν} (same : ∀ k, k ≤ bound → get other k = get m k) :
    latestUpTo other bound = latestUpTo m bound := by
  cases latest : latestUpTo m bound with
  | none =>
    rw [latestUpTo_eq_none] at latest ⊢
    intro k v found inside
    exact latest k v ((same k inside).symm.trans found) inside
  | some e =>
    obtain ⟨found, inside, greatest⟩ := latestUpTo_spec latest
    refine latestUpTo_eq_some.mpr ⟨(same e.1 inside).trans found, inside, fun j u present below => ?_⟩
    exact greatest j u ((same j below).symm.trans present) below

theorem latestUpTo_retain (floor : κ) :
    latestUpTo (retain (fun k _ => decide (floor ≤ k)) m) bound =
      (latestUpTo m bound).filter fun e => decide (floor ≤ e.1) := by
  have kept : ∀ {k v}, get (retain (fun k _ => decide (floor ≤ k)) m) k = some v ↔
      get m k = some v ∧ floor ≤ k := by
    intro k v
    rw [get_retain, Option.filter_eq_some_iff, decide_eq_true_eq]
  cases latest : latestUpTo m bound with
  | none =>
    rw [latestUpTo_eq_none] at latest
    exact latestUpTo_eq_none.mpr fun k v found => latest k v (kept.mp found).1
  | some e =>
    obtain ⟨found, inside, greatest⟩ := latestUpTo_spec latest
    rw [Option.filter_some]
    split
    · rename_i reaches
      refine latestUpTo_eq_some.mpr ⟨kept.mpr ⟨found, of_decide_eq_true reaches⟩, inside, fun j u present => ?_⟩
      exact greatest j u (kept.mp present).1
    · rename_i below
      refine latestUpTo_eq_none.mpr fun j u present upTo => below (decide_eq_true ?_)
      exact (kept.mp present).2.trans (greatest j u (kept.mp present).1 upTo)

end OrderedLookup
