import SochDB.Library.LittleEndian
import SochDB.Library.Runs

/-!
The bump arena for keys. After a reset the chunks are filled again from the first one on,
and a key that does not fit at the cursor goes to the next chunk, whatever the size of that.
-/
namespace KeyArena
open Runs List

@[irreducible] def arenaChunkSize : Nat := 64 * 1024

/-- A handle: the chunk, where the key starts in it, and the key's length. -/
structure ArenaKey where
  chunk : Nat
  start : Nat
  len : Nat

/-- A chunk is its bytes; its capacity is their number. -/
structure Arena where
  chunks : List Bytes
  currentChunk : Nat
  offset : Nat
  inside : currentChunk < chunks.length

def newChunk (capacity : Nat) : Bytes := List.replicate capacity 0

namespace Arena

def withChunkSize (chunkSize : Nat) : Arena := ⟨[newChunk chunkSize], 0, 0, by simp⟩

variable (arena : Arena) (data : Bytes)

def Fits : Prop := arena.offset + data.length ≤ (arena.chunks.get ⟨_, arena.inside⟩).length

instance : Decidable (arena.Fits data) := inferInstanceAs (Decidable (_ ≤ _))

/-- The copy at the cursor; a slice out of range panics, and there is no handle. -/
def place : Option ArenaKey × Arena :=
  if arena.Fits data then
    (some ⟨arena.currentChunk, arena.offset, data.length⟩,
      { arena with
        chunks := arena.chunks.modify arena.currentChunk (copyFromSlice · arena.offset data)
        offset := arena.offset + data.length
        inside := by simpa using arena.inside })
  else (none, arena)

def nextChunk : Arena :=
  if next : arena.currentChunk + 1 < arena.chunks.length then
    { arena with currentChunk := arena.currentChunk + 1, offset := 0, inside := next }
  else
    ⟨arena.chunks ++ [newChunk (max arenaChunkSize data.length)], arena.currentChunk + 1, 0, by
      simpa using arena.inside⟩

def allocSlow : Option ArenaKey × Arena := (arena.nextChunk data).place data

def allocKey : Option ArenaKey × Arena :=
  if arena.Fits data then arena.place data else arena.allocSlow data

def reset : Arena := { arena with currentChunk := 0, offset := 0, inside := Nat.zero_lt_of_lt arena.inside }

def bytesOf (key : ArenaKey) : Option Bytes :=
  arena.chunks[key.chunk]?.map fun chunk => (chunk.drop key.start).take key.len

end Arena

inductive Call
  | allocKey (data : Bytes)
  | reset

/-- The handles since the last reset stand beside the bytes that were passed in for them. -/
structure State where
  arena : Arena
  live : List (ArenaKey × Bytes) := []
  panicked : Bool := false

def step (s : State) : Call → State
  | .allocKey data =>
    let (key, arena) := s.arena.allocKey data
    ⟨arena, key.toList.map (·, data) ++ s.live, s.panicked || key.isNone⟩
  | .reset => { s with arena := s.arena.reset, live := [] }

def Apart (key other : ArenaKey) : Prop :=
  key.chunk ≠ other.chunk ∨ key.start + key.len ≤ other.start ∨ other.start + other.len ≤ key.start

structure Faithful (s : State) : Prop where
  running : s.panicked = false
  kept : ∀ e ∈ s.live, s.arena.bytesOf e.1 = some e.2
  apart : s.live.Pairwise fun e f => Apart e.1 f.1

/-- The key fits at the cursor, or the next chunk is long enough for it or not there yet. -/
def HasRoom (s : State) : Call → Prop
  | .allocKey data => s.arena.Fits data ∨
    ∀ next ∈ s.arena.chunks[s.arena.currentChunk + 1]?, data.length ≤ next.length
  | .reset => True

/-- The key lies before the cursor and its chunk holds the bytes. -/
structure Kept (arena : Arena) (key : ArenaKey) (data : Bytes) : Prop where
  len : key.len = data.length
  before : key.chunk < arena.currentChunk ∨ key.chunk = arena.currentChunk ∧ key.start + key.len ≤ arena.offset
  stored : ∃ chunk ∈ arena.chunks[key.chunk]?, ∃ front : Bytes, front.length = key.start ∧ front ++ data <+: chunk

structure Sound (s : State) : Prop where
  running : s.panicked = false
  kept : ∀ e ∈ s.live, Kept s.arena e.1 e.2
  apart : s.live.Pairwise fun e f => Apart e.1 f.1

@[simp] theorem newChunk_length (capacity : Nat) : (newChunk capacity).length = capacity :=
  length_replicate

variable {arena : Arena} {data : Bytes} {key : ArenaKey}

theorem nextChunk_fits_iff : (arena.nextChunk data).Fits data ↔
    ∀ next ∈ arena.chunks[arena.currentChunk + 1]?, data.length ≤ next.length := by
  have inside := arena.inside
  unfold Arena.nextChunk Arena.Fits
  split_ifs with next
  · simp [next]
  · have last : arena.currentChunk + 1 = arena.chunks.length := by omega
    simp [last]

theorem bytesOf_of_kept {old : Bytes} (kept : Kept arena key old) : arena.bytesOf key = some old := by
  obtain ⟨chunk, found, front, length, back, rfl⟩ := kept.stored
  rw [Arena.bytesOf, Option.mem_def.mp found, Option.map_some, append_assoc, ← length, drop_left, kept.len,
    take_left]

theorem Kept.nextChunk {old : Bytes} (kept : Kept arena key old) : Kept (arena.nextChunk data) key old := by
  have inside := arena.inside
  obtain ⟨chunk, found, stored⟩ := kept.stored
  have earlier : key.chunk < arena.currentChunk + 1 := by have := kept.before; omega
  unfold Arena.nextChunk
  split_ifs
  · exact ⟨kept.len, .inl earlier, kept.stored⟩
  · refine ⟨kept.len, .inl earlier, chunk, ?_, stored⟩
    rwa [List.getElem?_append_left (by omega)]

theorem place_eq (fits : arena.Fits data) :
    (arena.place data).1 = some ⟨arena.currentChunk, arena.offset, data.length⟩ ∧
    (arena.place data).2.currentChunk = arena.currentChunk ∧
    (arena.place data).2.offset = arena.offset + data.length ∧
    (arena.place data).2.chunks = arena.chunks.modify arena.currentChunk (copyFromSlice · arena.offset data) := by
  rw [Arena.place, if_pos fits]
  exact ⟨rfl, rfl, rfl, rfl⟩

theorem Kept.place {old : Bytes} (fits : arena.Fits data) (kept : Kept arena key old) :
    Kept (arena.place data).2 key old := by
  obtain ⟨-, current, offset, chunks⟩ := place_eq fits
  obtain ⟨chunk, found, front, length, within⟩ := kept.stored
  have before := kept.before
  refine ⟨kept.len, by rw [current, offset]; omega, ?_⟩
  rw [chunks, List.getElem?_modify, Option.mem_def.mp found]
  refine ⟨_, rfl, front, length, ?_⟩
  split_ifs with same
  · -- the key ends before the cursor, so the copy begins after it
    refine List.IsPrefix.trans (prefix_take_iff.mpr ⟨within, ?_⟩) (prefix_append ..)
    rw [length_append, length, ← kept.len]
    omega
  · exact within

theorem kept_place (fits : arena.Fits data) :
    Kept (arena.place data).2 ⟨arena.currentChunk, arena.offset, data.length⟩ data := by
  obtain ⟨-, current, offset, chunks⟩ := place_eq fits
  refine ⟨rfl, .inr ⟨current.symm, offset.ge⟩, ?_⟩
  rw [chunks, List.getElem?_modify_eq, List.getElem?_eq_getElem arena.inside]
  refine ⟨_, rfl, (arena.chunks.get ⟨_, arena.inside⟩).take arena.offset, length_take_of_le ?_, ?_⟩
  · exact (Nat.le_add_right ..).trans fits
  · dsimp only [copyFromSlice]
    rw [← append_assoc]
    exact prefix_append ..

theorem Sound.place {s : State} (sound : Sound s) (fits : s.arena.Fits data) :
    Sound ⟨(s.arena.place data).2, (s.arena.place data).1.toList.map (·, data) ++ s.live,
      s.panicked || (s.arena.place data).1.isNone⟩ := by
  rw [(place_eq fits).1]
  refine ⟨by simp [sound.running], ?_, pairwise_cons.mpr ⟨fun e earlier => ?_, sound.apart⟩⟩
  · exact forall_mem_cons.mpr ⟨kept_place fits, fun e earlier => (sound.kept e earlier).place fits⟩
  · have before := (sound.kept e earlier).before
    unfold Apart
    dsimp only
    omega

theorem allocKey_eq (arena : Arena) (data : Bytes) : ∃ at', arena.allocKey data = at'.place data ∧
    (at'.Fits data ↔ arena.Fits data ∨ (arena.nextChunk data).Fits data) ∧
    ∀ key old, Kept arena key old → Kept at' key old := by
  by_cases fits : arena.Fits data
  · exact ⟨arena, if_pos fits, by simp [fits], fun _ _ kept => kept⟩
  · exact ⟨arena.nextChunk data, if_neg fits, by simp [fits], fun _ _ kept => kept.nextChunk⟩

theorem Sound.step {s : State} (sound : Sound s) (call : Call) (room : HasRoom s call) : Sound (step s call) := by
  cases call with
  | allocKey data =>
    obtain ⟨arena, placed, fits, kept⟩ := allocKey_eq s.arena data
    have moved : Sound { s with arena := arena } :=
      ⟨sound.running, fun e live => kept _ _ (sound.kept e live), sound.apart⟩
    rw [KeyArena.step, placed]
    exact moved.place (fits.mpr (room.imp_right nextChunk_fits_iff.mpr))
  | reset => exact ⟨sound.running, by simp [KeyArena.step], .nil⟩

theorem Sound.faithful {s : State} (sound : Sound s) : Faithful s :=
  ⟨sound.running, fun e live => bytesOf_of_kept (sound.kept e live), sound.apart⟩

theorem hasRoom_of_running {s : State} {call : Call} (running : (step s call).panicked = false) : HasRoom s call := by
  cases call with
  | allocKey data =>
    obtain ⟨arena, placed, fits, -⟩ := allocKey_eq s.arena data
    rw [step, placed] at running
    refine (fits.mp ?_).imp_right nextChunk_fits_iff.mp
    by_contra unfit
    simp [Arena.place, unfit] at running
  | reset => trivial

theorem keys_kept_iff (chunkSize : Nat) (calls : List Call) :
    Guarded step HasRoom ⟨.withChunkSize chunkSize, [], false⟩ calls ↔
      ∀ before, before <+: calls → Faithful (run step ⟨.withChunkSize chunkSize, [], false⟩ before) :=
  guarded_iff_always Sound Faithful (fun _ call sound _ room => sound.step call room) (fun _ sound => sound.faithful)
    (fun _ _ _ _ faithful => hasRoom_of_running faithful.running) ⟨rfl, by simp, .nil⟩
    (.of_all (fun _ _ => trivial) ..)

/-- After the reset the second chunk has 64 KiB, and a longer key is copied into it. -/
theorem long_key_after_reset_panics :
    (run step ⟨.withChunkSize 0, [], false⟩
      [.allocKey [7], .reset, .allocKey (newChunk (arenaChunkSize + 1))]).panicked = true := by
  rw [run_cons, run_cons, run_cons, run_nil]
  apply Bool.eq_true_of_not_eq_false
  refine mt hasRoom_of_running ?_
  have positive : 1 ≤ arenaChunkSize := by unfold arenaChunkSize; decide
  simp [positive, HasRoom, step, Arena.allocKey, Arena.allocSlow, Arena.place, Arena.nextChunk, Arena.Fits, Arena.reset,
    Arena.withChunkSize, copyFromSlice]

end KeyArena
