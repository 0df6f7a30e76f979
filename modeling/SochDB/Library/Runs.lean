import Mathlib

/-!
Runs of a deterministic machine. A guard is a condition on the state before a step
and on the step itself; a run is guarded when every one of its steps meets it.
-/
namespace Runs

section Machine
variable {σ ι : Type*} (step : σ → ι → σ)

def run (s : σ) (ops : List ι) : σ := ops.foldl step s

@[simp] theorem run_nil (s : σ) : run step s [] = s := rfl

@[simp] theorem run_cons (s : σ) (op : ι) (ops : List ι) :
    run step s (op :: ops) = run step (step s op) ops := rfl

@[simp] theorem run_append (s : σ) (before after : List ι) :
    run step s (before ++ after) = run step (run step s before) after :=
  List.foldl_append

def Guarded (guard : σ → ι → Prop) : σ → List ι → Prop
  | _, [] => True
  | s, op :: ops => guard s op ∧ Guarded guard (step s op) ops

instance (guard : σ → ι → Prop) [∀ s op, Decidable (guard s op)] :
    (s : σ) → (ops : List ι) → Decidable (Guarded step guard s ops)
  | _, [] => inferInstanceAs (Decidable True)
  | s, op :: ops =>
    have := instDecidableGuarded guard (step s op) ops
    inferInstanceAs (Decidable (guard s op ∧ Guarded step guard (step s op) ops))

variable {step} {guard : σ → ι → Prop}
variable {s : σ} {ops : List ι}

theorem Guarded.left {before after : List ι} (guarded : Guarded step guard s (before ++ after)) :
    Guarded step guard s before := by
  induction before generalizing s with
  | nil => trivial
  | cons op before ih => exact ⟨guarded.1, ih guarded.2⟩

theorem Guarded.right {before after : List ι} (guarded : Guarded step guard s (before ++ after)) :
    Guarded step guard (run step s before) after := by
  induction before generalizing s with
  | nil => exact guarded
  | cons op before ih => exact ih guarded.2

theorem Guarded.and {also : σ → ι → Prop} (guarded : Guarded step guard s ops)
    (meets : Guarded step also s ops) : Guarded step (fun s op => guard s op ∧ also s op) s ops := by
  induction ops generalizing s with
  | nil => trivial
  | cons op ops ih => exact ⟨⟨guarded.1, meets.1⟩, ih guarded.2 meets.2⟩

theorem Guarded.preserves {Inv : σ → Prop} (preserved : ∀ s op, Inv s → guard s op → Inv (step s op))
    (start : Inv s) (guarded : Guarded step guard s ops) :
    Inv (run step s ops) := by
  induction ops generalizing s with
  | nil => exact start
  | cons op ops ih => exact ih (preserved s op start guarded.1) guarded.2

theorem Guarded.entails {Inv : σ → Prop} {weaker : σ → ι → Prop}
    (entailed : ∀ s op, Inv s → guard s op → weaker s op)
    (preserved : ∀ s op, Inv s → guard s op → Inv (step s op)) (start : Inv s)
    (guarded : Guarded step guard s ops) :
    Guarded step weaker s ops := by
  induction ops generalizing s with
  | nil => trivial
  | cons op ops ih =>
    exact ⟨entailed s op start guarded.1, ih (preserved s op start guarded.1) guarded.2⟩

theorem Guarded.of_all (always : ∀ s op, guard s op) (s : σ) (ops : List ι) :
    Guarded step guard s ops := by
  induction ops generalizing s with
  | nil => trivial
  | cons op ops ih => exact ⟨always s op, ih (step s op)⟩

/-- When a guard is just what each allowed step needs to stay good, an allowed run is
    guarded exactly if all the states that it goes through are good. -/
theorem guarded_iff_always (Inv Good : σ → Prop) {allowed : σ → ι → Prop}
    (preserved : ∀ s op, Inv s → allowed s op → guard s op → Inv (step s op)) (good : ∀ s, Inv s → Good s)
    (needed : ∀ s op, Inv s → allowed s op → Good (step s op) → guard s op) (start : Inv s)
    (within : Guarded step allowed s ops) :
    Guarded step guard s ops ↔ ∀ before, before <+: ops → Good (run step s before) := by
  induction ops generalizing s with
  | nil =>
    refine ⟨fun _ before whole => ?_, fun _ => trivial⟩
    rw [List.prefix_nil.mp whole]
    exact good s start
  | cons op ops ih =>
    constructor
    · rintro ⟨first, later⟩ before whole
      cases before with
      | nil => exact good s start
      | cons other before =>
        obtain ⟨rfl, rest⟩ := List.cons_prefix_cons.mp whole
        exact (ih (preserved s other start within.1 first) within.2).mp later before rest
    · intro always
      have first : guard s op := needed s op start within.1 (always [op] (by simp))
      refine ⟨first, (ih (preserved s op start within.1 first) within.2).mpr fun before whole => ?_⟩
      exact always (op :: before) (List.cons_prefix_cons.mpr ⟨rfl, whole⟩)

end Machine

section Observers
variable {σ τ ι : Type*} {step : σ → ι → σ} {watch : τ → ι → τ} (view : τ → σ)
variable (follows : ∀ t op, view (watch t op) = step (view t) op)
include follows

theorem guarded_view {guard : σ → ι → Prop} (t : τ) (ops : List ι) :
    Guarded watch (fun t op => guard (view t) op) t ops ↔ Guarded step guard (view t) ops := by
  induction ops generalizing t with
  | nil => exact Iff.rfl
  | cons op ops ih =>
    refine and_congr Iff.rfl ?_
    rw [ih, follows]

end Observers
end Runs
