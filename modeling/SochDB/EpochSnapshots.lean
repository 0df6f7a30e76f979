import SochDB.Library.OrderedLookup
import SochDB.Library.Runs

/-!
The epoch-based multi-version store. Loads and stores of the epoch counters, each write of
a commit and the collection of each chain are steps of their own, in any interleaving; the
guards of the sharded map make a lookup, a write and the collection of a chain atomic.
-/
namespace EpochSnapshots
open KeyedMaps OrderedLookup Runs Option

abbrev Key := List UInt8

structure VersionEntry (V : Type) where
  value : V
  epoch : Nat
  txnId : Nat
  isDelete : Bool

structure EpochVersionChain (V : Type) where
  versions : Map Nat (VersionEntry V)
  latestEpoch : Nat

inductive WriteOp (V : Type) where
  | put (key : Key) (value : V)
  | delete (key : Key)

def WriteOp.key {V : Type} : WriteOp V → Key
  | .put key _ => key
  | .delete key => key

structure EpochManager where
  currentEpoch : Nat
  activeReaders : Map Nat Nat
  minSafeEpoch : Nat

structure EpochMvccStore (V : Type) where
  data : Map Key (EpochVersionChain V)
  manager : EpochManager
  nextTxnId : Nat

variable {V : Type}

namespace VersionEntry

def new (value : V) (epoch txnId : Nat) : VersionEntry V := ⟨value, epoch, txnId, false⟩

def tombstone [Inhabited V] (epoch txnId : Nat) : VersionEntry V := ⟨default, epoch, txnId, true⟩

def shown (entry : VersionEntry V) : Option V := if entry.isDelete then none else some entry.value

end VersionEntry

namespace EpochVersionChain

def new : EpochVersionChain V := ⟨∅, 0⟩

def addVersion (chain : EpochVersionChain V) (epoch : Nat) (entry : VersionEntry V) : EpochVersionChain V where
  versions := chain.versions.insert epoch entry
  latestEpoch := if chain.latestEpoch < epoch then epoch else chain.latestEpoch

/-- The entry that `read_at_epoch` looks at, on the fast path and on the slow one. -/
def entryAt (chain : EpochVersionChain V) (targetEpoch : Nat) : Option (VersionEntry V) :=
  if chain.latestEpoch ≤ targetEpoch then get chain.versions chain.latestEpoch
  else (latestUpTo chain.versions targetEpoch).map Prod.snd

def readAtEpoch (chain : EpochVersionChain V) (targetEpoch : Nat) : Option V :=
  (chain.entryAt targetEpoch).bind VersionEntry.shown

def gcBeforeEpoch (chain : EpochVersionChain V) (epoch : Nat) : EpochVersionChain V :=
  { chain with versions := retain (fun e _ => decide (epoch ≤ e)) chain.versions }

def isEmpty (chain : EpochVersionChain V) : Bool := KeyedMaps.isEmpty chain.versions

end EpochVersionChain

namespace EpochManager

def new : EpochManager := ⟨1, ∅, 1⟩

def advanceEpoch (m : EpochManager) : EpochManager := { m with currentEpoch := m.currentEpoch + 1 }

def registerReader (m : EpochManager) (epoch : Nat) : EpochManager :=
  { m with activeReaders := upsert m.activeReaders epoch 0 (· + 1) }

def unregisterReader (m : EpochManager) (epoch : Nat) : EpochManager :=
  match get m.activeReaders epoch with
  | none => m
  | some count =>
    if count - 1 = 0 then
      let readers := m.activeReaders.erase epoch
      { m with activeReaders := readers, minSafeEpoch := (leastKey readers).getD m.currentEpoch }
    else { m with activeReaders := m.activeReaders.insert epoch (count - 1) }

end EpochManager

namespace EpochMvccStore

def new : EpochMvccStore V := ⟨∅, .new, 1⟩

/-- `write` and `delete`: one operation of a commit. -/
def apply [Inhabited V] (store : EpochMvccStore V) (epoch txnId : Nat) (op : WriteOp V) : EpochMvccStore V :=
  let entry := match op with
    | .put _ value => VersionEntry.new value epoch txnId
    | .delete _ => VersionEntry.tombstone epoch txnId
  { store with data := upsert store.data op.key .new fun chain => chain.addVersion epoch entry }

def readAtEpoch (store : EpochMvccStore V) (key : Key) (epoch : Nat) : Option V :=
  (get store.data key).bind fun chain => chain.readAtEpoch epoch

end EpochMvccStore

def ownWrite (writeBuffer : List (WriteOp V)) (key : Key) : Option (Option V) :=
  writeBuffer.reverse.findSome? fun
    | .put k value => if k = key then some (some value) else none
    | .delete k => if k = key then some none else none

/-- A transaction or a snapshot: in the middle of `begin_txn`, open, in the middle of its
    `commit`; in the middle of `EpochSnapshot::new`, open. -/
inductive Party (V : Type) where
  | beginning (epoch : Nat)
  | transaction (txnId readEpoch : Nat) (writeBuffer : List (WriteOp V))
  | committing (txnId readEpoch commitEpoch : Nat) (rest : List (WriteOp V))
  | opening (epoch : Nat)
  | snapshot (epoch : Nat)

namespace Party

def readEpoch : Party V → Option Nat
  | .beginning epoch | .transaction _ epoch _ | .opening epoch | .snapshot epoch => some epoch
  | .committing .. => none

def commitEpoch : Party V → Option Nat
  | .committing _ _ epoch _ => some epoch
  | _ => none

def writeBuffer : Party V → List (WriteOp V)
  | .transaction _ _ buffer => buffer
  | _ => []

end Party

inductive Step (V : Type) where
  | beginTxn (name : Nat)
  | newSnapshot (name : Nat)
  | register (name : Nat)
  | atEpoch (name epoch : Nat)
  | get (name : Nat) (key : Key)
  | buffer (name : Nat) (op : WriteOp V)
  | commit (name : Nat)
  | write (name : Nat)
  | abort (name : Nat)
  | drop (name : Nat)
  | advanceEpoch
  | gc (collector : Nat)
  | collect (collector : Nat) (key : Key)
  | dropEmpty (collector : Nat) (key : Key)

/-- The store, the parties, and the runs of `gc` with the minimum that each has loaded. -/
structure System (V : Type) where
  store : EpochMvccStore V
  parties : Map Nat (Party V)
  collectors : Map Nat Nat

namespace System

def new : System V := ⟨.new, ∅, ∅⟩

def enter (s : System V) (name : Nat) (party : Party V) (manager : EpochManager) : System V :=
  match get s.parties name with
  | some _ => s
  | none => { s with store := { s.store with manager := manager }, parties := s.parties.insert name party }

/-- The end of `commit`, `abort` and of a snapshot. -/
def leave (s : System V) (name epoch : Nat) : System V :=
  { s with
    store := { s.store with manager := s.store.manager.unregisterReader epoch }
    parties := s.parties.erase name }

def step [Inhabited V] (s : System V) : Step V → System V
  | .beginTxn name => s.enter name (.beginning s.store.manager.currentEpoch) s.store.manager
  | .newSnapshot name => s.enter name (.opening s.store.manager.currentEpoch) s.store.manager
  | .register name =>
    match get s.parties name with
    | some (.beginning epoch) =>
      { s with
        store := { s.store with
          manager := s.store.manager.registerReader epoch, nextTxnId := s.store.nextTxnId + 1 }
        parties := s.parties.insert name (.transaction s.store.nextTxnId epoch []) }
    | some (.opening epoch) =>
      { s with
        store := { s.store with manager := s.store.manager.registerReader epoch }
        parties := s.parties.insert name (.snapshot epoch) }
    | _ => s
  | .atEpoch name epoch => s.enter name (.snapshot epoch) (s.store.manager.registerReader epoch)
  | .get .. => s
  | .buffer name op =>
    match get s.parties name with
    | some (.transaction txnId epoch writeBuffer) =>
      { s with parties := s.parties.insert name (.transaction txnId epoch (writeBuffer ++ [op])) }
    | _ => s
  | .commit name =>
    match get s.parties name with
    | some (.transaction txnId epoch writeBuffer) =>
      { s with
        parties := s.parties.insert name
          (.committing txnId epoch s.store.manager.currentEpoch writeBuffer) }
    | _ => s
  | .write name =>
    match get s.parties name with
    | some (.committing txnId epoch commitEpoch (op :: rest)) =>
      { s with
        store := s.store.apply commitEpoch txnId op
        parties := s.parties.insert name (.committing txnId epoch commitEpoch rest) }
    | some (.committing _ epoch _ []) => s.leave name epoch
    | _ => s
  | .abort name =>
    match get s.parties name with
    | some (.transaction _ epoch _) => s.leave name epoch
    | _ => s
  | .drop name =>
    match get s.parties name with
    | some (.snapshot epoch) => s.leave name epoch
    | _ => s
  | .advanceEpoch => { s with store := { s.store with manager := s.store.manager.advanceEpoch } }
  | .gc collector => { s with collectors := s.collectors.insert collector s.store.manager.minSafeEpoch }
  | .collect collector key =>
    match get s.collectors collector with
    | none => s
    | some minSafe =>
      { s with store := { s.store with data := adjust s.store.data key (·.gcBeforeEpoch minSafe) } }
  | .dropEmpty collector key =>
    match get s.collectors collector with
    | none => s
    | some _ =>
      { s with
        store := { s.store with data := retain (fun k chain => k ≠ key || !chain.isEmpty) s.store.data } }

def answer (s : System V) (name : Nat) (key : Key) : Option (Option V) :=
  match get s.parties name with
  | some (.transaction _ epoch buffer) => some ((ownWrite buffer key).getD (s.store.readAtEpoch key epoch))
  | some (.snapshot epoch) => some (s.store.readAtEpoch key epoch)
  | _ => none

end System

def versionAt (data : Map Key (EpochVersionChain V)) (key : Key) (epoch : Nat) : Option (VersionEntry V) :=
  (get data key).bind fun chain => chain.entryAt epoch

/-- What is known about a party: the transactions whose commits had returned when it began,
    and the answers that it got since its last own write of the key. -/
structure Note (V : Type) where
  past : List Nat
  seen : Map Key (Option V)

/-- The system with the transactions whose commits have returned and the notes on the
    parties, which no step reads. -/
structure Watched (V : Type) where
  system : System V
  finished : List Nat
  notes : Map Nat (Note V)

namespace Watched

def new : Watched V := ⟨.new, [], ∅⟩

def begins (w : Watched V) (name : Nat) : Map Nat (Note V) :=
  match get w.system.parties name with
  | some _ => w.notes
  | none => w.notes.insert name ⟨w.finished, ∅⟩

def follow (w : Watched V) : Step V → Map Nat (Note V)
  | .beginTxn name | .newSnapshot name | .atEpoch name _ => w.begins name
  | .get name key =>
    match w.system.answer name key with
    | some answer => adjust w.notes name fun note => { note with seen := note.seen.insert key answer }
    | none => w.notes
  | .buffer name op =>
    match get w.system.parties name with
    | some (.transaction ..) => adjust w.notes name fun note => { note with seen := note.seen.erase op.key }
    | _ => w.notes
  | _ => w.notes

def finishes (w : Watched V) : Step V → List Nat
  | .write name =>
    match get w.system.parties name with
    | some (.committing txnId _ _ []) => txnId :: w.finished
    | _ => w.finished
  | _ => w.finished

def step [Inhabited V] (w : Watched V) (step : Step V) : Watched V :=
  ⟨w.system.step step, w.finishes step, w.follow step⟩

/-- An answer is that of the last read of the key, if the reader has not written it since, and
    unless it is the reader's own write it comes from a transaction that had committed when the
    reader began. -/
def Stable (w : Watched V) : Step V → Prop
  | .get name key => ∀ note answer party epoch, get w.notes name = some note →
      w.system.answer name key = some answer → get w.system.parties name = some party →
      party.readEpoch = some epoch →
      (∀ earlier, get note.seen key = some earlier → answer = earlier) ∧
      (ownWrite party.writeBuffer key = none → ∀ entry, versionAt w.system.store.data key epoch = some entry →
        entry.txnId ∈ note.past)
  | _ => True

end Watched

def System.Settled (s : System V) (epoch : Nat) : Prop :=
  ∀ e ∈ pairs s.parties, ∀ commitEpoch ∈ e.2.commitEpoch, epoch < commitEpoch

/-- Readers begin while no commit that they could see is under way; a commit writes at an
    epoch after that of every reader, and not below the latest epoch of a chain that has been
    emptied; and a collection leaves every reader the version that it finds. -/
def System.Calm (s : System V) : Step V → Prop
  | .beginTxn _ | .newSnapshot _ => s.Settled s.store.manager.currentEpoch
  | .atEpoch _ epoch => s.Settled epoch
  | .write name =>
    match get s.parties name with
    | some (.committing _ _ commitEpoch (op :: _)) =>
      (∀ e ∈ pairs s.parties, ∀ epoch ∈ e.2.readEpoch, epoch < commitEpoch) ∧
      ∀ chain ∈ get s.store.data op.key, chain.isEmpty = true → chain.latestEpoch ≤ commitEpoch
    | _ => True
  | .collect collector key =>
    ∀ minSafe ∈ get s.collectors collector, ∀ chain ∈ get s.store.data key,
      ∀ e ∈ pairs s.parties, ∀ epoch ∈ e.2.readEpoch,
        ∀ version ∈ latestUpTo chain.versions epoch, minSafe ≤ version.1
  | _ => True

instance (s : System V) (epoch : Nat) : Decidable (s.Settled epoch) :=
  inferInstanceAs (Decidable (∀ e ∈ pairs s.parties, _))

instance (s : System V) (step : Step V) : Decidable (s.Calm step) :=
  match step with
  | .beginTxn _ | .newSnapshot _ => inferInstanceAs (Decidable (s.Settled s.store.manager.currentEpoch))
  | .atEpoch _ epoch => inferInstanceAs (Decidable (s.Settled epoch))
  | .write name =>
    match found : get s.parties name with
    | some (.committing _ _ commitEpoch (op :: _)) =>
      decidable_of_iff ((∀ e ∈ pairs s.parties, ∀ epoch ∈ e.2.readEpoch, epoch < commitEpoch) ∧
          ∀ chain ∈ get s.store.data op.key, chain.isEmpty = true → chain.latestEpoch ≤ commitEpoch)
        (by simp only [System.Calm, found])
    | some (.committing _ _ _ []) | some (.beginning _) | some (.transaction ..) | some (.opening _)
    | some (.snapshot _) | none => .isTrue (by simp only [System.Calm, found])
  | .collect collector key =>
    inferInstanceAs (Decidable (∀ minSafe ∈ get s.collectors collector, ∀ chain ∈ get s.store.data key, _))
  | .register _ | .get .. | .buffer .. | .commit _ | .abort _ | .drop _ | .advanceEpoch | .gc _
  | .dropEmpty .. => inferInstanceAs (Decidable True)

section Chains

structure Tidy (chain : EpochVersionChain V) : Prop where
  top : ∀ epoch entry, get chain.versions epoch = some entry → epoch ≤ chain.latestEpoch
  held : chain.isEmpty = false → ∃ entry, get chain.versions chain.latestEpoch = some entry

variable {chain : EpochVersionChain V}

theorem isEmpty_of_forall (nothing : ∀ epoch, get chain.versions epoch = none) :
    chain.isEmpty = true := (isEmpty_iff _).mpr nothing

theorem Tidy.new : Tidy (.new : EpochVersionChain V) where
  top := fun epoch entry found => by cases found
  held := fun filled => by cases filled

theorem Tidy.entryAt_eq (tidy : Tidy chain) (targetEpoch : Nat) :
    chain.entryAt targetEpoch = (latestUpTo chain.versions targetEpoch).map Prod.snd := by
  unfold EpochVersionChain.entryAt
  split
  · rename_i late
    cases filled : chain.isEmpty with
    | true =>
      have nothing := (isEmpty_iff _).mp filled
      have none_found : latestUpTo chain.versions targetEpoch = none := by
        apply latestUpTo_eq_none.mpr
        intro epoch entry found
        rw [nothing epoch] at found
        cases found
      rw [nothing, none_found]
      rfl
    | false =>
      obtain ⟨entry, found⟩ := tidy.held filled
      have latest : latestUpTo chain.versions targetEpoch = some (chain.latestEpoch, entry) := by
        apply latestUpTo_eq_some.mpr
        exact ⟨found, late, fun epoch other present _ => tidy.top epoch other present⟩
      rw [found, latest]
      rfl
  · rfl

theorem Tidy.addVersion (tidy : Tidy chain) {epoch : Nat} (entry : VersionEntry V)
    (late : chain.isEmpty = true → chain.latestEpoch ≤ epoch) : Tidy (chain.addVersion epoch entry) where
  top := by
    intro other version found
    unfold EpochVersionChain.addVersion at found ⊢
    dsimp only at found ⊢
    rw [get_insert] at found
    have below : other = epoch ∨ other ≤ chain.latestEpoch := by
      split at found
      · rename_i same
        exact .inl same
      · exact .inr (tidy.top other version found)
    split <;> omega
  held := by
    intro _
    unfold EpochVersionChain.addVersion
    simp only [get_insert]
    by_cases above : chain.latestEpoch < epoch
    · simp [above]
    · rw [if_neg above]
      by_cases same : chain.latestEpoch = epoch
      · simp [same]
      · rw [if_neg same]
        apply tidy.held
        cases filled : chain.isEmpty with
        | false => rfl
        | true =>
          have := late filled
          omega

theorem get_gcBeforeEpoch {floor epoch : Nat} {entry : VersionEntry V} :
    get (chain.gcBeforeEpoch floor).versions epoch = some entry ↔
      get chain.versions epoch = some entry ∧ floor ≤ epoch := by
  unfold EpochVersionChain.gcBeforeEpoch
  rw [get_retain, filter_eq_some_iff, decide_eq_true_eq]

theorem Tidy.gcBeforeEpoch (tidy : Tidy chain) (floor : Nat) :
    Tidy (chain.gcBeforeEpoch floor) where
  top := fun epoch entry found => tidy.top epoch entry (get_gcBeforeEpoch.mp found).1
  held := by
    intro filled
    have some_kept : ∃ epoch entry, get (chain.gcBeforeEpoch floor).versions epoch = some entry := by
      by_contra nothing
      push Not at nothing
      rw [isEmpty_of_forall fun epoch => eq_none_iff_forall_ne_some.mpr (nothing epoch)] at filled
      cases filled
    obtain ⟨epoch, entry, kept⟩ := some_kept
    obtain ⟨found, reaches⟩ := get_gcBeforeEpoch.mp kept
    have nonempty : chain.isEmpty = false := by
      cases empty : chain.isEmpty with
      | false => rfl
      | true =>
        rw [(isEmpty_iff _).mp empty epoch] at found
        cases found
    obtain ⟨last, present⟩ := tidy.held nonempty
    exact ⟨last, get_gcBeforeEpoch.mpr ⟨present, reaches.trans (tidy.top epoch entry found)⟩⟩

end Chains

section Soundness

def look (data : Map Key (EpochVersionChain V)) (party : Party V) (epoch : Nat) (key : Key) : Option V :=
  (ownWrite party.writeBuffer key).getD ((versionAt data key epoch).bind VersionEntry.shown)

theorem readAtEpoch_eq (store : EpochMvccStore V) (key : Key) (epoch : Nat) :
    store.readAtEpoch key epoch = (versionAt store.data key epoch).bind VersionEntry.shown := by
  unfold EpochMvccStore.readAtEpoch versionAt EpochVersionChain.readAtEpoch
  cases get store.data key <;> rfl

variable {name epoch : Nat}

variable {key : Key}

theorem look_of_answer {s : System V} {answer : Option V} {party : Party V}
    (answers : s.answer name key = some answer) (found : get s.parties name = some party)
    (reads : party.readEpoch = some epoch) : look s.store.data party epoch key = answer := by
  unfold System.answer at answers
  rw [found] at answers
  cases party with
  | beginning | opening => cases answers
  | committing => cases reads
  | transaction | snapshot =>
    cases reads
    cases answers
    rw [readAtEpoch_eq]
    rfl

/-- Every version comes from a commit that has returned or is under way at its epoch, and
    every reader finds what it has seen, from transactions in its past. -/
structure Sound (data : Map Key (EpochVersionChain V)) (parties : Map Nat (Party V)) (finished : List Nat)
    (notes : Map Nat (Note V)) : Prop where
  tidy : ∀ key chain, get data key = some chain → Tidy chain
  authored : ∀ key chain epoch entry, get data key = some chain → get chain.versions epoch = some entry →
    entry.txnId ∈ finished ∨
      ∃ name readEpoch rest, get parties name = some (.committing entry.txnId readEpoch epoch rest)
  repeats : ∀ name note party epoch key earlier, get notes name = some note → get parties name = some party →
    party.readEpoch = some epoch → get note.seen key = some earlier → look data party epoch key = earlier
  past : ∀ name note party epoch key entry, get notes name = some note → get parties name = some party →
    party.readEpoch = some epoch → versionAt data key epoch = some entry → entry.txnId ∈ note.past

variable {data : Map Key (EpochVersionChain V)} {parties : Map Nat (Party V)} {finished : List Nat}
  {notes : Map Nat (Note V)}

/-- What one reader finds agrees with its note. -/
structure Keeps (data : Map Key (EpochVersionChain V)) (note : Note V) (party : Party V) (epoch : Nat) : Prop where
  repeats : ∀ key earlier, get note.seen key = some earlier → look data party epoch key = earlier
  past : ∀ key entry, versionAt data key epoch = some entry → entry.txnId ∈ note.past

theorem Sound.of_readers (tidy : ∀ key chain, get data key = some chain → Tidy chain)
    (authored : ∀ key chain epoch entry, get data key = some chain → get chain.versions epoch = some entry →
      entry.txnId ∈ finished ∨
        ∃ name readEpoch rest, get parties name = some (.committing entry.txnId readEpoch epoch rest))
    (readers : ∀ name note party epoch, get notes name = some note → get parties name = some party →
      party.readEpoch = some epoch → Keeps data note party epoch) : Sound data parties finished notes where
  tidy := tidy
  authored := authored
  repeats name note party epoch key earlier noted found reads :=
    (readers name note party epoch noted found reads).repeats key earlier
  past name note party epoch key entry noted found reads :=
    (readers name note party epoch noted found reads).past key entry

theorem Sound.new : Sound (∅ : Map Key (EpochVersionChain V)) ∅ [] ∅ where
  tidy := fun key chain found => by cases found
  authored := fun key chain epoch entry found => by cases found
  repeats := fun name note party epoch key earlier found => by cases found
  past := fun name note party epoch key entry found => by cases found

section
variable (sound : Sound data parties finished notes)
include sound

variable {party : Party V}

theorem Sound.reader {note : Note V} (noted : get notes name = some note)
    (found : get parties name = some party) (reads : party.readEpoch = some epoch) :
    Keeps data note party epoch where
  repeats key earlier := sound.repeats name note party epoch key earlier noted found reads
  past key entry := sound.past name note party epoch key entry noted found reads

theorem Sound.authored_insert
    (idle : ∀ txnId readEpoch epoch rest, get parties name ≠ some (.committing txnId readEpoch epoch rest))
    (key : Key) (chain : EpochVersionChain V) (epoch : Nat) (entry : VersionEntry V)
    (found : get data key = some chain) (version : get chain.versions epoch = some entry) :
    entry.txnId ∈ finished ∨ ∃ other readEpoch rest,
      get (parties.insert name party) other = some (.committing entry.txnId readEpoch epoch rest) := by
  rcases sound.authored key chain epoch entry found version with ended | ⟨other, readEpoch, rest, present⟩
  · exact .inl ended
  · refine .inr ⟨other, readEpoch, rest, ?_⟩
    rw [get_insert, if_neg]
    · exact present
    · rintro rfl
      exact idle _ _ _ _ present

theorem Sound.proceed {after : Map Nat (Party V)} {finishedAfter : List Nat}
    (more : finished ⊆ finishedAfter)
    (reading : ∀ name party epoch, get after name = some party → party.readEpoch = some epoch →
      ∃ before, get parties name = some before ∧ before.readEpoch = some epoch ∧
        party.writeBuffer = before.writeBuffer) (writing : ∀ name txnId readEpoch commitEpoch rest,
      get parties name = some (.committing txnId readEpoch commitEpoch rest) →
        txnId ∈ finishedAfter ∨ ∃ later, get after name = some (.committing txnId readEpoch commitEpoch later)) :
    Sound data after finishedAfter notes := by
  apply Sound.of_readers sound.tidy
  · intro key chain epoch entry found version
    rcases sound.authored key chain epoch entry found version with ended | ⟨name, readEpoch, rest, present⟩
    · exact .inl (more ended)
    · rcases writing name _ readEpoch epoch rest present with ended | ⟨later, still⟩
      · exact .inl ended
      · exact .inr ⟨name, readEpoch, later, still⟩
  · intro name note party epoch noted found reads
    obtain ⟨before, present, read, same⟩ := reading name party epoch found reads
    have kept := sound.reader noted present read
    refine ⟨fun key earlier seen => ?_, kept.past⟩
    rw [look, same]
    exact kept.repeats key earlier seen

theorem Sound.rewrite {after : Map Key (EpochVersionChain V)}
    (tidy : ∀ key chain, get after key = some chain → Tidy chain)
    (authored : ∀ key chain epoch entry, get after key = some chain → get chain.versions epoch = some entry →
      entry.txnId ∈ finished ∨
        ∃ name readEpoch rest, get parties name = some (.committing entry.txnId readEpoch epoch rest))
    (unseen : ∀ name party epoch, get parties name = some party → party.readEpoch = some epoch →
      ∀ key, versionAt after key epoch = versionAt data key epoch) :
    Sound after parties finished notes := by
  refine Sound.of_readers tidy authored fun name note party epoch noted found reads => ?_
  have same := unseen name party epoch found reads
  have kept := sound.reader noted found reads
  refine ⟨fun key earlier seen => ?_, fun key entry version => kept.past key entry (same key ▸ version)⟩
  rw [look, same]
  exact kept.repeats key earlier seen

theorem finished_of_settled
    (settled : ∀ e ∈ pairs parties, ∀ commitEpoch ∈ e.2.commitEpoch, epoch < commitEpoch)
    {entry : VersionEntry V} (version : versionAt data key epoch = some entry) : entry.txnId ∈ finished := by
  obtain ⟨chain, found, visible⟩ := bind_eq_some_iff.mp version
  rw [(sound.tidy key chain found).entryAt_eq] at visible
  obtain ⟨⟨written, _⟩, latest, rfl⟩ := map_eq_some_iff.mp visible
  obtain ⟨present, inside, _⟩ := latestUpTo_spec latest
  rcases sound.authored key chain written _ found present with ended | ⟨name, readEpoch, rest, commits⟩
  · exact ended
  · have later := settled _ (mem_pairs.mpr commits) written rfl
    omega

theorem Sound.enter (fresh : get parties name = none)
    (reads : party.readEpoch = some epoch)
    (settled : ∀ e ∈ pairs parties, ∀ commitEpoch ∈ e.2.commitEpoch, epoch < commitEpoch) :
    Sound data (parties.insert name party) finished (notes.insert name ⟨finished, ∅⟩) := by
  refine Sound.of_readers sound.tidy (sound.authored_insert (by simp [fresh])) ?_
  intro other note reader at_epoch noted found read
  rw [get_insert] at noted found
  split at noted
  · rename_i same
    rw [if_pos same] at found
    cases noted
    cases found
    cases reads.symm.trans read
    exact ⟨fun _ _ seen => (by cases seen), fun _ _ version => finished_of_settled sound settled version⟩
  · rename_i differs
    rw [if_neg differs] at found
    exact sound.reader noted found read

theorem Sound.answered {answer : Option V}
    (looked : ∀ party epoch, get parties name = some party → party.readEpoch = some epoch →
      look data party epoch key = answer) :
    Sound data parties finished
      (adjust notes name fun note => { note with seen := note.seen.insert key answer }) := by
  refine Sound.of_readers sound.tidy sound.authored fun other note party epoch noted found reads => ?_
  rw [get_adjust] at noted
  split at noted
  · rename_i same
    subst same
    obtain ⟨before, was, rfl⟩ := map_eq_some_iff.mp noted
    have kept := sound.reader was found reads
    refine ⟨fun at_key earlier seen => ?_, kept.past⟩
    rw [get_insert] at seen
    split at seen
    · rename_i isKey
      cases seen
      rw [isKey]
      exact looked party epoch found reads
    · exact kept.repeats at_key earlier seen
  · exact sound.reader noted found reads

end

theorem ownWrite_append (buffer : List (WriteOp V)) (op : WriteOp V) (other : key ≠ op.key) :
    ownWrite (buffer ++ [op]) key = ownWrite buffer key := by
  unfold ownWrite
  rw [List.reverse_append, List.reverse_singleton, List.singleton_append, List.findSome?_cons]
  cases op with
  | put k value | delete k => simp only [if_neg (Ne.symm other : ¬k = key)]

theorem Sound.buffered (sound : Sound data parties finished notes) {txnId readEpoch : Nat}
    {buffer : List (WriteOp V)} (open_txn : get parties name = some (.transaction txnId readEpoch buffer))
    (op : WriteOp V) :
    Sound data (parties.insert name (.transaction txnId readEpoch (buffer ++ [op]))) finished
      (adjust notes name fun note => { note with seen := note.seen.erase op.key }) := by
  refine Sound.of_readers sound.tidy (sound.authored_insert (by simp [open_txn])) ?_
  intro other note party epoch noted found reads
  rw [get_adjust] at noted
  rw [get_insert] at found
  split at noted
  · rename_i same
    subst same
    rw [if_pos rfl] at found
    cases found
    cases reads
    obtain ⟨before, was, rfl⟩ := map_eq_some_iff.mp noted
    have kept := sound.reader was open_txn rfl
    refine ⟨fun key earlier seen => ?_, kept.past⟩
    rw [get_erase] at seen
    split at seen
    · cases seen
    · rename_i differs
      rw [look, Party.writeBuffer, ownWrite_append buffer op differs]
      exact kept.repeats key earlier seen
  · rename_i differs
    rw [if_neg differs] at found
    exact sound.reader noted found reads

theorem versionAt_eq_entryAt (key : Key) (epoch : Nat) :
    versionAt data key epoch = ((get data key).getD .new).entryAt epoch := by
  unfold versionAt
  cases get data key with
  | some chain => rfl
  | none =>
    have nothing := (Tidy.new (V := V)).entryAt_eq epoch
    exact nothing.symm

variable (sound : Sound data parties finished notes)
include sound

theorem Sound.tidy_getD (key : Key) :
    Tidy ((get data key).getD .new) := by
  cases found : get data key with
  | some chain => exact sound.tidy key chain found
  | none => exact Tidy.new

theorem Sound.wrote {readEpoch commitEpoch : Nat} (entry : VersionEntry V) {rest : List (WriteOp V)}
    (commits : get parties name = some (.committing entry.txnId readEpoch commitEpoch rest))
    (after : ∀ e ∈ pairs parties, ∀ epoch ∈ e.2.readEpoch, epoch < commitEpoch)
    (late : ∀ chain ∈ get data key, chain.isEmpty = true → chain.latestEpoch ≤ commitEpoch) :
    Sound (upsert data key .new fun chain => chain.addVersion commitEpoch entry) parties finished notes := by
  have late_getD : ((get data key).getD .new).isEmpty = true →
      ((get data key).getD .new).latestEpoch ≤ commitEpoch := by
    cases found : get data key with
    | some chain => exact late chain found
    | none => exact fun _ => Nat.zero_le _
  have tidy := (sound.tidy_getD key).addVersion entry late_getD
  apply sound.rewrite
  · exact forall_insert sound.tidy tidy
  · intro other chain epoch version found present
    rw [get_upsert] at found
    split at found
    · cases found
      unfold EpochVersionChain.addVersion at present
      rw [get_insert] at present
      split at present
      · rename_i isNew
        cases present
        rw [isNew]
        exact .inr ⟨name, readEpoch, rest, commits⟩
      · cases found : get data key with
        | some chain =>
          rw [found] at present
          exact sound.authored key chain epoch version found present
        | none =>
          rw [found] at present
          cases present
    · exact sound.authored other chain epoch version found present
  · intro reader party epoch found reads other
    have earlier := after _ (mem_pairs.mpr found) epoch reads
    rw [versionAt_eq_entryAt, versionAt_eq_entryAt, get_upsert]
    split
    · rename_i same
      rw [same]
      dsimp only [getD_some]
      rw [tidy.entryAt_eq, (sound.tidy_getD key).entryAt_eq]
      apply congrArg
      apply latestUpTo_congr
      intro written inside
      unfold EpochVersionChain.addVersion
      rw [get_insert, if_neg (by omega)]
    · rfl

theorem Sound.collected {minSafe : Nat}
    (spares : ∀ chain ∈ get data key, ∀ e ∈ pairs parties, ∀ epoch ∈ e.2.readEpoch,
      ∀ version ∈ latestUpTo chain.versions epoch, minSafe ≤ version.1) :
    Sound (adjust data key (·.gcBeforeEpoch minSafe)) parties finished notes := by
  apply sound.rewrite
  · exact forall_adjust sound.tidy fun before was => (sound.tidy key before was).gcBeforeEpoch minSafe
  · intro other chain epoch version found present
    rw [get_adjust] at found
    split at found
    · obtain ⟨before, was, rfl⟩ := map_eq_some_iff.mp found
      exact sound.authored key before epoch version was (get_gcBeforeEpoch.mp present).1
    · exact sound.authored other chain epoch version found present
  · intro reader party epoch found reads other
    unfold versionAt
    rw [get_adjust]
    split
    · rename_i same
      rw [same]
      cases was : get data key with
      | none => rfl
      | some chain =>
        have tidy := sound.tidy key chain was
        simp only [map_some, bind_some]
        rw [(tidy.gcBeforeEpoch minSafe).entryAt_eq, tidy.entryAt_eq, EpochVersionChain.gcBeforeEpoch,
          latestUpTo_retain]
        cases latest : latestUpTo chain.versions epoch with
        | none => rfl
        | some version =>
          rw [filter_some, if_pos]
          exact decide_eq_true (spares chain was _ (mem_pairs.mpr found) epoch reads version latest)
    · rfl

theorem Sound.dropped (key : Key) :
    Sound (retain (fun k chain => k ≠ key || !chain.isEmpty) data) parties finished notes := by
  apply sound.rewrite
  · intro other chain found
    rw [get_retain] at found
    exact sound.tidy other chain (filter_eq_some_iff.mp found).1
  · intro other chain epoch version found
    rw [get_retain] at found
    exact sound.authored other chain epoch version (filter_eq_some_iff.mp found).1
  · intro reader party epoch found reads other
    unfold versionAt
    rw [get_retain]
    cases was : get data other with
    | none => rfl
    | some chain =>
      by_cases kept : (other ≠ key || !chain.isEmpty) = true
      · rw [filter_some, if_pos kept]
      · rw [filter_some, if_neg kept]
        have empty : chain.isEmpty = true := by
          simp only [Bool.or_eq_true, not_or] at kept
          simpa using kept.2
        have nothing := (isEmpty_iff _).mp empty
        have tidy := sound.tidy other chain was
        simp only [bind_none, bind_some]
        rw [tidy.entryAt_eq, latestUpTo_eq_none.mpr]
        · rfl
        · intro written entry present
          rw [nothing written] at present
          cases present

end Soundness

section Steps

def Watched.Sound (w : Watched V) : Prop :=
  EpochSnapshots.Sound w.system.store.data w.system.parties w.finished w.notes

variable {w : Watched V}

theorem sound_enter (sound : w.Sound) {name epoch : Nat} {party : Party V} (manager : EpochManager)
    (reads : party.readEpoch = some epoch) (settled : w.system.Settled epoch) :
    Watched.Sound ⟨w.system.enter name party manager, w.finished, w.begins name⟩ := by
  unfold System.enter Watched.begins
  cases taken : get w.system.parties name with
  | some other => exact sound
  | none => exact Sound.enter sound taken reads settled

theorem sound_leave (sound : w.Sound) {name epoch : Nat} {finished : List Nat} (more : w.finished ⊆ finished)
    (ends : ∀ txnId readEpoch commitEpoch rest,
      get w.system.parties name = some (.committing txnId readEpoch commitEpoch rest) → txnId ∈ finished) :
    Watched.Sound ⟨w.system.leave name epoch, finished, w.notes⟩ := by
  apply Sound.proceed sound more
  · intro other party readEpoch found reads
    change get (w.system.parties.erase name) other = some party at found
    rw [get_erase] at found
    split at found
    · cases found
    · exact ⟨party, found, reads, rfl⟩
  · intro other txnId readEpoch commitEpoch rest found
    by_cases same : other = name
    · rw [same] at found
      exact .inl (ends txnId readEpoch commitEpoch rest found)
    · refine .inr ⟨rest, ?_⟩
      change get (w.system.parties.erase name) other = _
      rw [get_erase, if_neg same]
      exact found

theorem sound_replace (sound : w.Sound) {name : Nat} {before after : Party V}
    (found : get w.system.parties name = some before)
    (reading : ∀ epoch, after.readEpoch = some epoch → before.readEpoch = some epoch ∧
      after.writeBuffer = before.writeBuffer)
    (writing : ∀ txnId readEpoch commitEpoch rest, before = .committing txnId readEpoch commitEpoch rest →
      ∃ later, after = .committing txnId readEpoch commitEpoch later) :
    Sound w.system.store.data (w.system.parties.insert name after) w.finished w.notes := by
  apply Sound.proceed sound (.refl _)
  · intro other party epoch present reads
    rw [get_insert] at present
    split at present
    · rename_i same
      cases present
      obtain ⟨read, buffer⟩ := reading epoch reads
      exact ⟨before, same ▸ found, read, buffer⟩
    · exact ⟨party, present, reads, rfl⟩
  · intro other txnId readEpoch commitEpoch rest present
    rw [get_insert]
    split
    · rename_i same
      rw [same, found] at present
      obtain ⟨later, isAfter⟩ := writing txnId readEpoch commitEpoch rest (some.inj present)
      exact .inr ⟨later, congrArg some isAfter⟩
    · exact .inr ⟨rest, present⟩

theorem stable_of_sound (sound : w.Sound) (step : Step V) : w.Stable step := by
  cases step with
  | get name key =>
    intro note answer party epoch noted answers found reads
    constructor
    · intro earlier seen
      rw [← look_of_answer answers found reads]
      exact sound.repeats name note party epoch key earlier noted found reads seen
    · intro _ entry version
      exact sound.past name note party epoch key entry noted found reads version
  | _ => trivial

variable [Inhabited V]

theorem sound_write (sound : w.Sound) {name : Nat} (calm : w.system.Calm (.write name)) :
    (w.step (.write name)).Sound := by
  unfold Watched.step System.step Watched.finishes
  unfold System.Calm at calm
  dsimp only at calm ⊢
  cases found : get w.system.parties name with
  | none => exact sound
  | some party =>
    cases party with
    | beginning | transaction | opening | snapshot => exact sound
    | committing txnId epoch commitEpoch rest =>
      cases rest with
      | nil =>
        apply sound_leave sound (List.subset_cons_self _ _)
        intro other _ _ _ commits
        cases found.symm.trans commits
        exact List.mem_cons_self
      | cons op rest =>
        simp only [found] at calm
        have advanced : Watched.Sound ⟨{ w.system with
            parties := w.system.parties.insert name (.committing txnId epoch commitEpoch rest) },
            w.finished, w.notes⟩ :=
          sound_replace sound found (fun _ reads => by cases reads) (fun _ _ _ _ commits => by
            cases commits
            exact ⟨rest, rfl⟩)
        have commits : get (w.system.parties.insert name (.committing txnId epoch commitEpoch rest)) name =
            some (.committing txnId epoch commitEpoch rest) := by
          rw [get_insert, if_pos rfl]
        have after : ∀ e ∈ pairs (w.system.parties.insert name (.committing txnId epoch commitEpoch rest)),
            ∀ readEpoch ∈ e.2.readEpoch, readEpoch < commitEpoch := by
          rintro ⟨other, party⟩ member readEpoch reads
          have present := mem_pairs.mp member
          rw [get_insert] at present
          split at present
          · cases present
            cases reads
          · exact calm.1 (other, party) (mem_pairs.mpr present) readEpoch reads
        cases op with
        | put key value =>
          exact Sound.wrote advanced (.new value commitEpoch txnId) commits after calm.2
        | delete key =>
          exact Sound.wrote advanced (.tombstone commitEpoch txnId) commits after calm.2

theorem Watched.Sound.step (sound : w.Sound) {step : Step V} (calm : w.system.Calm step) :
    (w.step step).Sound := by
  cases step with
  | beginTxn | newSnapshot | atEpoch => exact sound_enter sound _ rfl calm
  | register name =>
    unfold Watched.step System.step
    dsimp only
    split
    iterate 2
      · rename_i found
        exact sound_replace sound found (fun _ reads => ⟨reads, rfl⟩) (fun _ _ _ _ commits => by cases commits)
    · exact sound
  | get name key =>
    unfold Watched.step Watched.follow
    dsimp only
    split
    · rename_i answers
      apply Sound.answered sound
      intro party epoch found reads
      exact look_of_answer answers found reads
    · exact sound
  | buffer name op =>
    unfold Watched.step System.step Watched.follow
    dsimp only
    split
    · rename_i found
      exact Sound.buffered sound found op
    · exact sound
  | commit name =>
    unfold Watched.step System.step
    dsimp only
    split
    · rename_i found
      exact sound_replace sound found (fun _ reads => by cases reads) (fun _ _ _ _ commits => by cases commits)
    · exact sound
  | write name => exact sound_write sound calm
  | abort name =>
    unfold Watched.step System.step
    dsimp only
    split
    · rename_i found
      apply sound_leave sound (.refl _)
      intro other readEpoch commitEpoch rest commits
      cases found.symm.trans commits
    · exact sound
  | drop name =>
    unfold Watched.step System.step
    dsimp only
    split
    · rename_i found
      apply sound_leave sound (.refl _)
      intro other readEpoch commitEpoch rest commits
      cases found.symm.trans commits
    · exact sound
  | advanceEpoch | gc => exact sound
  | collect collector key =>
    unfold Watched.step System.step
    dsimp only
    split
    · exact sound
    · rename_i minSafe found
      exact Sound.collected sound (calm minSafe found)
  | dropEmpty collector key =>
    unfold Watched.step System.step
    dsimp only
    split
    · exact sound
    · exact Sound.dropped sound key

/-- In every interleaving in which commits write after the epochs of all readers and
    collections spare what readers find, every reader keeps to the snapshot it began with. -/
theorem readers_keep_their_snapshot (steps : List (Step V))
    (calm : Guarded Watched.step (fun w => w.system.Calm) (.new : Watched V) steps) :
    Guarded Watched.step Watched.Stable (.new : Watched V) steps :=
  calm.entails (fun _ step sound _ => stable_of_sound sound step) (fun _ _ sound meets => sound.step meets)
    Sound.new

end Steps

section Runs

def writing (name : Nat) (key : Key) (value : Nat) : List (Step Nat) :=
  [.beginTxn name, .register name, .buffer name (.put key value), .commit name, .write name, .write name]

def reading (name : Nat) (key : Key) : List (Step Nat) := [.beginTxn name, .register name, .get name key]

/-- A transaction reads a key, and another one writes it in the same epoch. -/
def sameEpoch : List (Step Nat) := reading 0 [120] ++ writing 1 [120] 7

/-- A transaction reads a version of an earlier epoch. A snapshot of a later epoch comes and
    goes, which makes the epoch of the reader the least safe one, and a collection follows. -/
def laterSnapshot : List (Step Nat) :=
  writing 0 [120] 7 ++ .advanceEpoch :: reading 1 [120] ++
    [.advanceEpoch, .newSnapshot 2, .register 2, .drop 2, .gc 0, .collect 0 [120]]

theorem not_stable_of_change {w : Watched Nat} {name : Nat} {key : Key} {party : Party Nat} {epoch : Nat}
    {note : Note Nat} {earlier answer : Option Nat} (noted : get w.notes name = some note)
    (found : get w.system.parties name = some party) (reads : party.readEpoch = some epoch)
    (seen : get note.seen key = some earlier) (answers : w.system.answer name key = some answer)
    (differ : answer ≠ earlier) : ¬w.Stable (.get name key) := by
  intro stable
  exact differ ((stable note answer party epoch noted answers found reads).1 earlier seen)

theorem readers_lose_their_snapshot :
    let written := run Watched.step (.new : Watched Nat) sameEpoch
    let collected := run Watched.step (.new : Watched Nat) laterSnapshot
    ((get written.notes 0).bind fun note => get note.seen [120]) = some none ∧
    written.system.answer 0 [120] = some (some 7) ∧ ¬written.Stable (.get 0 [120]) ∧
    ((get collected.notes 1).bind fun note => get note.seen [120]) = some (some 7) ∧
    collected.system.answer 1 [120] = some none ∧ ¬collected.Stable (.get 1 [120]) := by
  intro written collected
  have seenNothing : ((get written.notes 0).bind fun note => get note.seen [120]) = some none := by
    decide +kernel
  have nowSeven : written.system.answer 0 [120] = some (some 7) := by decide +kernel
  have seenSeven : ((get collected.notes 1).bind fun note => get note.seen [120]) = some (some 7) := by
    decide +kernel
  have nowNothing : collected.system.answer 1 [120] = some none := by decide +kernel
  have firstReader : get written.system.parties 0 = some (.transaction 1 1 []) := by rfl
  have secondReader : get collected.system.parties 1 = some (.transaction 2 2 []) := by rfl
  obtain ⟨note, noted, seen⟩ := bind_eq_some_iff.mp seenNothing
  obtain ⟨other, otherNoted, otherSeen⟩ := bind_eq_some_iff.mp seenSeven
  exact ⟨seenNothing, nowSeven,
    not_stable_of_change noted firstReader rfl seen nowSeven (by decide), seenSeven, nowNothing,
    not_stable_of_change otherNoted secondReader rfl otherSeen nowNothing (by decide)⟩

/-- The epoch advances between a commit, a reader and the next commit. -/
def apart : List (Step Nat) :=
  writing 0 [120] 7 ++ .advanceEpoch :: reading 1 [120] ++ [.gc 0, .collect 0 [120], .advanceEpoch] ++
    writing 2 [120] 8 ++ [.get 1 [120]]

theorem later_commit_is_not_seen :
    Guarded Watched.step (fun w => w.system.Calm) (.new : Watched Nat) apart ∧
    (run Watched.step (.new : Watched Nat) apart).system.answer 1 [120] = some (some 7) ∧
    Guarded Watched.step Watched.Stable (.new : Watched Nat) apart :=
  ⟨by decide +kernel, by decide +kernel, readers_keep_their_snapshot apart (by decide +kernel)⟩

end Runs
end EpochSnapshots
