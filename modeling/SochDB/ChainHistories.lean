import SochDB.Library.Runs
import SochDB.VersionChains

/-!
The law of one version chain over whole runs. Transactions may commit in any order of
their timestamps and collections may come anywhere between them; what a reader gets is
told by the set of versions committed and not collected.
-/
namespace ChainHistories
open Timeline VersionChains Runs ChainEntry List

variable {E : Type} [ChainEntry E]

inductive Op (E : Type) where
  | setUncommitted (entry : E)
  | commit (txnId commitTs : Nat)
  | abort (txnId : Nat)
  | gcByTs (minActiveTs : Nat)

def Op.stamp : Op E → Option Nat
  | .commit _ commitTs => some commitTs
  | _ => none

def step (chain : BinarySearchChain E) : Op E → BinarySearchChain E
  | .setUncommitted entry => chain.setUncommitted entry
  | .commit txnId commitTs => (chain.commit txnId commitTs).1
  | .abort txnId => chain.abort txnId
  | .gcByTs minActiveTs => chain.gcByTs minActiveTs

/-- What a chain stands for: the pending version, and the versions committed so far and
    not collected, in no order. -/
structure History (E : Type) where
  pending : Option E
  kept : Set E

namespace History

def empty : History E := ⟨none, ∅⟩

def Takes (txnId : Nat) (v : E) : Prop := ChainEntry.txnId v = txnId ∧ commitTs v = 0

instance (txnId : Nat) (v : E) : Decidable (Takes txnId v) := inferInstanceAs (Decidable (_ ∧ _))

/-- A collection at `m` drops what is below `m` except the newest of it. -/
def step (h : History E) : Op E → History E
  | .setUncommitted entry => { h with pending := some entry }
  | .commit txnId ts =>
    { pending := h.pending.filter fun v => ¬ Takes txnId v
      kept := h.kept ∪ {v | ∃ w ∈ h.pending, Takes txnId w ∧ v = setCommitTs w ts} }
  | .abort txnId => { h with pending := h.pending.filter fun v => ChainEntry.txnId v ≠ txnId }
  | .gcByTs m =>
    { h with kept := {v ∈ h.kept | m ≤ commitTs v ∨ ∀ w ∈ h.kept, commitTs w < m →
        commitTs w ≤ commitTs v} }

end History

/-- The chain holds the pending version and lists what is kept, newest first. -/
structure Represents (chain : BinarySearchChain E) (h : History E) : Prop where
  pending : chain.uncommitted = h.pending
  kept : ∀ v, v ∈ chain.committed ↔ v ∈ h.kept
  strict : StrictlyDescending commitTs chain.committed

theorem Represents.new : Represents (BinarySearchChain.new : BinarySearchChain E) .empty where
  pending := rfl
  kept v := by simp [BinarySearchChain.new, History.empty]
  strict := List.Pairwise.nil

section Step
variable {chain : BinarySearchChain E} {h : History E}

theorem commit_takes {v : E} {txnId : Nat} (held : chain.uncommitted = some v)
    (takes : History.Takes txnId v) (ts : Nat) :
    ((chain.commit txnId ts).1).committed = place commitTs (setCommitTs v ts) chain.committed ∧
      ((chain.commit txnId ts).1).uncommitted = none := by
  have condition : ChainEntry.txnId v = txnId ∧ commitTs v = 0 := takes
  simp only [BinarySearchChain.commit, held, if_pos condition]
  exact ⟨trivial, trivial⟩

theorem commit_leaves {txnId : Nat} (left : ∀ v ∈ chain.uncommitted, ¬ History.Takes txnId v) (ts : Nat) :
    (chain.commit txnId ts).1 = chain := by
  unfold BinarySearchChain.commit
  cases held : chain.uncommitted with
  | none => rfl
  | some v =>
    have condition : ¬ (ChainEntry.txnId v = txnId ∧ commitTs v = 0) := left v held
    simp only [if_neg condition]

theorem Represents.commit (represents : Represents chain h) (txnId ts : Nat)
    (unused : ∀ v ∈ chain.committed, commitTs v ≠ ts) :
    Represents (step chain (.commit txnId ts)) (h.step (.commit txnId ts)) := by
  by_cases taken : ∃ v ∈ chain.uncommitted, History.Takes txnId v
  · obtain ⟨v, held, takes⟩ := taken
    obtain ⟨committed, uncommitted⟩ := commit_takes held takes ts
    have pending : h.pending = some v := represents.pending.symm.trans held
    have stamp : commitTs (setCommitTs v ts) = ts := commitTs_set v ts
    constructor
    · have gone : (h.pending.filter fun v => ¬ History.Takes txnId v) = none := by
        simp [pending, Option.filter, takes]
      exact uncommitted.trans gone.symm
    · intro w
      have same : w ∈ place commitTs (setCommitTs v ts) chain.committed ↔
          w ∈ h.kept ∪ {w | ∃ u ∈ h.pending, History.Takes txnId u ∧ w = setCommitTs u ts} := by
        rw [mem_place, represents.kept]
        simp [pending, takes, or_comm]
      simp only [step, committed]
      exact same
    · simp only [step, committed]
      exact place_strict represents.strict fun e member => by
        rw [stamp]
        exact unused e member
  · have left : ∀ v ∈ chain.uncommitted, ¬ History.Takes txnId v := by
      intro v held takes
      exact taken ⟨v, held, takes⟩
    have same : step chain (.commit txnId ts) = chain := commit_leaves left ts
    have leftPending : ∀ v ∈ h.pending, ¬ History.Takes txnId v := represents.pending ▸ left
    rw [same]
    constructor
    · have whole : (h.pending.filter fun v => ¬ History.Takes txnId v) = h.pending := by
        cases pending : h.pending with
        | none => rfl
        | some v => simp [Option.filter, leftPending v pending]
      exact represents.pending.trans whole.symm
    · intro w
      rw [represents.kept]
      constructor
      · exact .inl
      · rintro (old | ⟨v, held, takes, _⟩)
        · exact old
        · exact absurd takes (leftPending v held)
    · exact represents.strict

theorem Represents.gc (represents : Represents chain h) (m : Nat) :
    Represents (step chain (.gcByTs m)) (h.step (.gcByTs m)) := by
  constructor
  · exact represents.pending
  · intro v
    have pruned : v ∈ prune commitTs m chain.committed ↔ _ := mem_prune represents.strict
    simp only [represents.kept] at pruned
    exact pruned
  · exact represents.strict.sublist (prune_sublist m chain.committed)

theorem Represents.after (represents : Represents chain h) (op : Op E)
    (unused : ∀ ts ∈ op.stamp, ∀ v ∈ chain.committed, commitTs v ≠ ts) :
    Represents (step chain op) (h.step op) := by
  cases op with
  | setUncommitted entry => exact ⟨rfl, represents.kept, represents.strict⟩
  | commit txnId ts => exact represents.commit txnId ts (unused ts rfl)
  | abort txnId =>
    have committed : (chain.abort txnId).committed = chain.committed := chain.abort_committed txnId
    constructor
    · rw [step, BinarySearchChain.abort_uncommitted, represents.pending]
      rfl
    · intro v
      rw [step, committed]
      exact represents.kept v
    · rw [step, committed]
      exact represents.strict
  | gcByTs m => exact represents.gc m

theorem committed_step {op : Op E} {v : E} (member : v ∈ (step chain op).committed) :
    v ∈ chain.committed ∨ op.stamp = some (commitTs v) := by
  cases op with
  | setUncommitted entry => exact .inl member
  | commit txnId ts =>
    by_cases taken : ∃ w ∈ chain.uncommitted, History.Takes txnId w
    · obtain ⟨w, held, takes⟩ := taken
      have placed : v ∈ place commitTs (setCommitTs w ts) chain.committed := by
        rw [← (commit_takes held takes ts).1]
        exact member
      rcases mem_place.mp placed with rfl | old
      · exact .inr (congrArg some (commitTs_set w ts).symm)
      · exact .inl old
    · have same : step chain (.commit txnId ts) = chain :=
        commit_leaves (fun w held takes => taken ⟨w, held, takes⟩) ts
      rw [same] at member
      exact .inl member
  | abort txnId =>
    rw [step, BinarySearchChain.abort_committed] at member
    exact .inl member
  | gcByTs m => exact .inl ((prune_sublist m chain.committed).subset member)

theorem Represents.run (represents : Represents chain h) (ops : List (Op E))
    (distinct : (ops.filterMap Op.stamp).Nodup)
    (unused : ∀ ts ∈ ops.filterMap Op.stamp, ∀ v ∈ chain.committed, commitTs v ≠ ts) :
    Represents (run step chain ops) (run History.step h ops) := by
  induction ops generalizing chain h with
  | nil => exact represents
  | cons op ops ih =>
    have now : ∀ ts ∈ op.stamp, ∀ v ∈ chain.committed, commitTs v ≠ ts := by
      intro ts stamped
      apply unused
      rw [mem_filterMap]
      exact ⟨op, mem_cons_self, stamped⟩
    have later : ∀ ts ∈ ops.filterMap Op.stamp, ts ∈ (op :: ops).filterMap Op.stamp := by
      intro ts member
      obtain ⟨other, among, stamped⟩ := mem_filterMap.mp member
      exact mem_filterMap.mpr ⟨other, mem_cons_of_mem op among, stamped⟩
    apply ih (represents.after op now)
    · exact distinct.sublist ((sublist_cons_self op ops).filterMap Op.stamp)
    · intro ts member v committed
      rcases committed_step committed with old | stamped
      · exact unused ts (later ts member) v old
      · rw [filterMap_cons, stamped] at distinct
        intro same
        subst same
        exact (nodup_cons.mp distinct).1 member

end Step

theorem readAt_gc (chain : BinarySearchChain E) {m s : Nat} (atOrAfter : m ≤ s) (txn : Option Nat) :
    (chain.gcByTs m).readAt s txn = chain.readAt s txn := by
  have committed : (chain.gcByTs m).readCommitted s = chain.readCommitted s := by
    rw [BinarySearchChain.readCommitted_eq, BinarySearchChain.readCommitted_eq]
    exact newestBefore_prune atOrAfter
  unfold BinarySearchChain.readAt
  rw [committed]
  rfl

theorem readAt_none (chain : BinarySearchChain E) (s : Nat) :
    chain.readAt s none = newestBefore commitTs s chain.committed :=
  chain.readCommitted_eq s

/-- In every run that gives out each timestamp at most once the committed versions stand
    in strictly decreasing order, a reader gets the greatest version below its snapshot
    that is not collected, and a collection changes no read at or after its watermark
    and leaves at most one version below it. -/
theorem version_chain_law (ops : List (Op E)) (distinct : (ops.filterMap Op.stamp).Nodup) :
    let chain := run step (BinarySearchChain.new : BinarySearchChain E) ops
    let kept := (run History.step (History.empty : History E) ops).kept
    StrictlyDescending commitTs chain.committed ∧
      (∀ s v, chain.readAt s none = some v ↔
        v ∈ kept ∧ commitTs v < s ∧ ∀ w ∈ kept, commitTs w < s → commitTs w ≤ commitTs v) ∧
      (∀ m s txn, m ≤ s → (chain.gcByTs m).readAt s txn = chain.readAt s txn) ∧
      ∀ m, ((chain.gcByTs m).committed.filter fun v => commitTs v < m).length ≤ 1 := by
  intro chain kept
  have represents : Represents chain (run History.step History.empty ops) :=
    Represents.new.run ops distinct (by simp [BinarySearchChain.new])
  refine ⟨represents.strict, ?_, ?_, ?_⟩
  · intro s v
    rw [readAt_none, newestBefore_iff represents.strict]
    simp only [represents.kept]
    rfl
  · intro m s txn atOrAfter
    exact readAt_gc chain atOrAfter txn
  · intro m
    exact prune_below_le_one m chain.committed

theorem late_commit_law :
    let write (txn : Nat) : Version := ⟨none, txn, 0⟩
    let ops := [.setUncommitted (write 1), .commit 1 5, .setUncommitted (write 2), .commit 2 3,
      .gcByTs 4, .setUncommitted (write 3), .abort 3]
    (ops.filterMap Op.stamp).Nodup ∧
      (run step (BinarySearchChain.new : BinarySearchChain Version) ops).committed =
        [⟨none, 1, 5⟩, ⟨none, 2, 3⟩] ∧
      StrictlyDescending commitTs
        (run step (BinarySearchChain.new : BinarySearchChain Version) ops).committed := by
  intro write ops
  have distinct : (ops.filterMap Op.stamp).Nodup := by decide
  exact ⟨distinct, by decide, (version_chain_law ops distinct).1⟩

end ChainHistories
