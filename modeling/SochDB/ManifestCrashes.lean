import SochDB.Library.Runs
import SochDB.Manifest

/-!
Crashes of the manifest. The journal of a directory is the list of the edits whose lines
were written, the line break at the end aside; opening should give the state after them.
-/
namespace ManifestCrashes
open KeyedMaps Manifests Runs List

variable (codec : LineCodec)

structure Watched where
  system : System
  journal : List VersionEdit

def Watched.new : Watched := ⟨⟨⟨∅, none⟩, none⟩, []⟩

def Watched.state (w : Watched) : LsmState := w.journal.foldl LsmState.apply .new

def written (s : System) : Op → List VersionEdit
  | .call (.logEdit added removed nextFileId) =>
    s.process.elim [] fun m => [m.nextEdit added removed nextFileId]
  | .crashIn (.logEdit added removed nextFileId) whole bytes =>
    s.process.elim [] fun m =>
      let edit := m.nextEdit added removed nextFileId
      if 1 ≤ whole ∨ (codec.encode edit).length ≤ bytes then [edit] else []
  | _ => []

def Watched.step (w : Watched) (op : Op) : Watched :=
  ⟨Manifests.step codec w.system op, w.journal ++ written codec w.system op⟩

def EndsLine (disk : Disk) (number : Nat) : Prop :=
  ∀ last ∈ ((get disk.files number).getD []).getLast?, last = 10

/-- Edits are logged at the start of a line only; a crash does not cut the line of an edit
    inside a character; and no crash comes between the renaming of `CURRENT` and the end of
    the snapshot. -/
def Careful (w : Watched) : Op → Prop
  | .call (.logEdit ..) => ∀ m ∈ w.system.process, EndsLine w.system.disk m.manifestNumber
  | .crashIn (.logEdit added removed nextFileId) whole bytes =>
    ∀ m ∈ w.system.process, EndsLine w.system.disk m.manifestNumber ∧
      (whole = 0 → codec.decode ((codec.encode (m.nextEdit added removed nextFileId)).take bytes) ≠ .notUtf8)
  | .crashIn .rotate whole bytes =>
    ∀ m ∈ w.system.process, whole = 2 → (codec.encode m.snapshot).length ≤ bytes
  | _ => True

section Lines
variable {bytes : Bytes}

theorem readManifest_append (ended : ∀ last ∈ bytes.getLast?, last = 10) (more : Bytes) :
    readManifest codec (bytes ++ more) = (readManifest codec bytes).bind fun s =>
      (more.splitOn 10).foldlM (readLine codec) s := by
  cases bytes using List.reverseRecOn with
  | nil =>
    have empty : readManifest codec [] = some .new := rfl
    rw [empty]
    rfl
  | append_singleton bytes last =>
    have lineBreak : last = 10 := ended last (by simp)
    have split : ∀ rest : Bytes, (bytes ++ 10 :: rest).splitOn 10 = bytes.splitOn 10 ++ rest.splitOn 10 :=
      fun rest => splitOnP_append_cons bytes rest (by simp)
    subst lineBreak
    rw [readManifest, readManifest, append_assoc, singleton_append, split, split, foldlM_append,
      foldlM_append]
    cases (bytes.splitOn 10).foldlM (readLine codec) .new <;> rfl

theorem splitOn_line {line : Bytes} (oneLine : 10 ∉ line) : line.splitOn 10 = [line] :=
  splitOn_eq_singleton oneLine

theorem read_take (s : LsmState) (edit : VersionEdit) (n : Nat)
    (whole : codec.decode ((codec.encode edit).take n) ≠ .notUtf8) :
    ((((codec.encode edit).take n).splitOn 10).foldlM (readLine codec) s) =
      some (if (codec.encode edit).length ≤ n then s.apply edit else s) := by
  have oneLine : 10 ∉ (codec.encode edit).take n := fun member => (codec.oneLine edit).2 (mem_of_mem_take member)
  have single : ∀ line : Bytes, [line].foldlM (readLine codec) s = readLine codec s line := by
    intro line
    rw [foldlM_cons]
    exact bind_pure _
  rw [splitOn_line oneLine, single, readLine]
  by_cases all : (codec.encode edit).length ≤ n
  · rw [take_of_length_le all, if_pos all, codec.restores, if_neg (codec.oneLine edit).1]
  · have torn : ∀ other, codec.decode ((codec.encode edit).take n) ≠ .edit other := by
      intro other
      apply codec.torn edit _ other (List.take_prefix n _)
      intro same
      have := congrArg List.length same
      rw [length_take] at this
      omega
    rw [if_neg all]
    split
    · rfl
    · cases read : codec.decode ((codec.encode edit).take n) with
      | edit other => exact absurd read (torn other)
      | malformed => rfl
      | notUtf8 => exact absurd read whole

theorem read_line (s : LsmState) (edit : VersionEdit) :
    ((codec.encode edit ++ [10]).splitOn 10).foldlM (readLine codec) s = some (s.apply edit) := by
  have split : (codec.encode edit ++ [10]).splitOn 10 = (codec.encode edit).splitOn 10 ++ [[]] :=
    splitOnP_append_cons (codec.encode edit) [] (by simp)
  have line := read_take codec s edit (codec.encode edit).length (by rw [take_length, codec.restores]; simp)
  rw [take_length, if_pos (le_rfl)] at line
  rw [split, foldlM_append, line]
  rfl

theorem read_cut (s : LsmState) (edit : VersionEdit) (n : Nat)
    (whole : codec.decode ((codec.encode edit).take n) ≠ .notUtf8) :
    (((codec.encode edit ++ [10]).take n).splitOn 10).foldlM (readLine codec) s =
      some (if (codec.encode edit).length ≤ n then s.apply edit else s) := by
  rw [take_append]
  by_cases past : (codec.encode edit).length < n
  · have rest : ([10] : Bytes).take (n - (codec.encode edit).length) = [10] := take_of_length_le (by simp; omega)
    rw [rest, take_of_length_le (Nat.le_of_lt past), read_line, if_pos (Nat.le_of_lt past)]
  · rw [Nat.sub_eq_zero_of_le (Nat.le_of_not_lt past), take_zero, append_nil]
    exact read_take codec s edit n whole

end Lines

section States

theorem slot_collected (slot : Fin 7 ×ₗ Nat) :
    FileMetadata.slot (.untracked (ofLex slot).1 (ofLex slot).2) = some slot := by
  have inside : (FileMetadata.untracked (ofLex slot).1 (ofLex slot).2).level < 7 := (ofLex slot).1.isLt
  rw [FileMetadata.slot, dif_pos inside]
  rfl

theorem mem_foldl_add (slots : List (Fin 7 ×ₗ Nat)) (files : Finset (Fin 7 ×ₗ Nat)) (slot : Fin 7 ×ₗ Nat) :
    slot ∈ (slots.map fun slot => FileMetadata.untracked (ofLex slot).1 (ofLex slot).2).foldl LsmState.add files ↔
      slot ∈ files ∨ slot ∈ slots := by
  induction slots generalizing files with
  | nil => simp
  | cons first slots ih =>
    rw [map_cons, foldl_cons, ih, LsmState.add, slot_collected, Option.elim_some, Finset.mem_insert,
      mem_cons]
    tauto

theorem apply_snapshot (m : Manifest) :
    LsmState.new.apply m.snapshot = m.state ∧ m.state.apply m.snapshot = m.state := by
  have files : ∀ start : Finset (Fin 7 ×ₗ Nat), start ⊆ m.state.activeFiles →
      m.collectAllFiles.foldl LsmState.add start = m.state.activeFiles := by
    intro start inside
    ext slot
    rw [Manifest.collectAllFiles, mem_foldl_add, Finset.mem_sort]
    exact ⟨fun either => either.elim (fun held => inside held) id, .inr⟩
  unfold LsmState.apply Manifest.snapshot
  simp only [foldl_nil, Option.getD_some, files _ (Finset.Subset.refl _),
    files LsmState.new.activeFiles (Finset.empty_subset _), and_self]

end States

section Disks
variable {codec} {disk : Disk} {state : LsmState}

/-- `CURRENT` names a file with the state, and files with higher numbers are empty. -/
structure Holds (codec : LineCodec) (disk : Disk) (number : Nat) (state : LsmState) : Prop where
  current : disk.current = some number
  file : ∃ bytes, get disk.files number = some bytes ∧ readManifest codec bytes = some state
  later : ∀ other, number < other → (get disk.files other).getD [] = []

variable {number : Nat}

section
variable (holds : Holds codec disk number state)
include holds

theorem Holds.load_eq :
    load codec disk = some ⟨number, state⟩ := by
  obtain ⟨bytes, found, read⟩ := holds.file
  rw [load, holds.current]
  dsimp only
  rw [found]
  dsimp only
  rw [read]
  rfl

theorem Holds.create (other : Nat) :
    Holds codec (act disk (.create other)) number state := by
  obtain ⟨bytes, found, read⟩ := holds.file
  refine ⟨holds.current, ⟨bytes, ?_, read⟩, ?_⟩
  · simp only [act, get_upsert]
    split
    · rename_i same
      rw [← same, found]
      rfl
    · exact found
  · intro later less
    simp only [act, get_upsert]
    split
    · rename_i same
      rw [← same]
      exact holds.later later less
    · exact holds.later later less

theorem Holds.append (ended : EndsLine disk number) {more : Bytes} {next : LsmState}
    (read : (more.splitOn 10).foldlM (readLine codec) state = some next) :
    Holds codec (act disk (.append number more)) number next := by
  obtain ⟨bytes, found, held⟩ := holds.file
  unfold EndsLine at ended
  rw [found, Option.getD_some] at ended
  refine ⟨holds.current, ⟨bytes ++ more, ?_, ?_⟩, ?_⟩
  · simp only [act, get_adjust, if_true, found, Option.map_some]
  · rw [readManifest_append codec ended, held]
    exact read
  · intro later less
    simp only [act, get_adjust]
    rw [if_neg (Nat.ne_of_gt less)]
    exact holds.later later less

theorem Holds.switch {more : Bytes} {next : LsmState}
    (read : (more.splitOn 10).foldlM (readLine codec) .new = some next) :
    Holds codec ([.create (number + 1), .point (number + 1), .append (number + 1) more].foldl act disk)
      (number + 1) next := by
  have empty := holds.later (number + 1) (Nat.lt_succ_self number)
  have started : Holds codec ([.create (number + 1), .point (number + 1)].foldl act disk) (number + 1) .new := by
    refine ⟨rfl, ⟨[], ?_, rfl⟩, ?_⟩
    · simp only [foldl_cons, foldl_nil, act, get_upsert, if_true, empty]
      rfl
    · intro later less
      simp only [foldl_cons, foldl_nil, act, get_upsert]
      rw [if_neg (Nat.ne_of_gt less)]
      exact holds.later later (by omega)
  apply started.append _ read
  unfold EndsLine
  simp only [foldl_cons, foldl_nil, act, get_upsert, if_true, empty]
  intro last member
  cases member

end

structure Fresh (disk : Disk) : Prop where
  current : disk.current = none
  files : ∀ number, (get disk.files number).getD [] = []

theorem Fresh.create (fresh : Fresh disk) (number : Nat) : Fresh (act disk (.create number)) where
  current := fresh.current
  files other := by
    simp only [act, get_upsert]
    split
    · rename_i same
      rw [← same]
      exact fresh.files other
    · exact fresh.files other

theorem Fresh.start (fresh : Fresh disk) : Holds codec ((openWriter 1).foldl act disk) 1 .new := by
  have created := fresh.create 1
  refine ⟨rfl, ⟨[], ?_, rfl⟩, fun other _ => created.files other⟩
  simp only [openWriter, foldl_cons, foldl_nil, act, get_upsert, if_true, fresh.files]
  rfl

theorem Holds.reopen (holds : Holds codec disk number state) (whole : Nat) :
    Holds codec (((openWriter number).take whole).foldl act disk) number state := by
  have created := holds.create number
  match whole with
  | 0 => exact holds
  | 1 => exact created
  | whole + 2 =>
    have all : (openWriter number).take (whole + 2) = openWriter number := take_of_length_le (by simp [openWriter])
    rw [all]
    exact ⟨rfl, created.file, created.later⟩

end Disks

section Steps
variable {codec} {w : Watched}

inductive Sound (codec : LineCodec) (w : Watched) : Prop where
  | fresh (fresh : Fresh w.system.disk) (empty : w.journal = []) (stopped : w.system.process = none)
  | held (number : Nat) (holds : Holds codec w.system.disk number w.state)
      (running : ∀ m ∈ w.system.process, m = ⟨number, w.state⟩)

theorem Sound.load_eq (sound : Sound codec w) : (load codec w.system.disk).map Manifest.state = some w.state := by
  cases sound with
  | fresh fresh empty stopped =>
    rw [load, fresh.current, Watched.state, empty]
    rfl
  | held number holds running =>
    rw [holds.load_eq]
    rfl

theorem state_append (w : Watched) (system : System) (edits : List VersionEdit) :
    Watched.state ⟨system, w.journal ++ edits⟩ = edits.foldl LsmState.apply w.state :=
  foldl_append

theorem Sound.opened (sound : Sound codec w) (stopped : w.system.process = none) {op : Op}
    (opens : op = .reopen ∨ ∃ whole, op = .crashInOpen whole) : Sound codec (w.step codec op) := by
  have silent : written codec w.system op = [] := by
    rcases opens with rfl | ⟨whole, rfl⟩ <;> rfl
  have journal : w.journal ++ written codec w.system op = w.journal := by rw [silent, append_nil]
  unfold Watched.step
  rw [journal]
  cases sound with
  | fresh fresh empty _ =>
    have loaded : load codec w.system.disk = some ⟨1, .new⟩ := by rw [load, fresh.current]
    have begun : w.state = .new := by
      rw [Watched.state, empty]
      rfl
    have started : Holds codec ((openWriter 1).foldl act w.system.disk) 1 w.state := by
      rw [begun]
      exact fresh.start
    rcases opens with rfl | ⟨whole, rfl⟩
    · simp only [Manifests.step, stopped, loaded]
      apply Sound.held 1 started
      intro m member
      rw [← Option.mem_some_iff.mp member]
      exact congrArg _ begun.symm
    · simp only [Manifests.step, stopped, loaded]
      match whole with
      | 0 => exact .fresh fresh empty rfl
      | 1 => exact .fresh (fresh.create 1) empty rfl
      | whole + 2 =>
        have all : (openWriter 1).take (whole + 2) = openWriter 1 := take_of_length_le (by simp [openWriter])
        rw [all]
        exact .held 1 started fun m member => by cases member
  | held number holds running =>
    have loaded := holds.load_eq
    rcases opens with rfl | ⟨whole, rfl⟩
    · simp only [Manifests.step, stopped, loaded]
      exact .held number (holds.reopen 2) fun m member => (Option.mem_some_iff.mp member).symm
    · simp only [Manifests.step, stopped, loaded]
      exact .held number (holds.reopen whole) fun m member => by cases member

theorem cut_single (action : Action) (whole bytes : Nat) :
    cut [action] (whole + 1) bytes = [action] := by
  simp [cut]

theorem Sound.called {number : Nat} (holds : Holds codec w.system.disk number w.state)
    (running : w.system.process = some ⟨number, w.state⟩) (call : Call) (careful : Careful codec w (.call call)) :
    Sound codec (w.step codec (.call call)) := by
  unfold Watched.step
  cases call with
  | logEdit added removed nextFileId =>
    have ended := careful _ running
    apply Sound.held number
    · rw [state_append]
      simp only [Manifests.step, running, written, Option.elim_some]
      exact holds.append ended (read_line codec _ _)
    · rw [state_append]
      simp only [Manifests.step, running, written, Option.elim_some]
      exact fun m member => (Option.mem_some_iff.mp member).symm
  | sync =>
    simp only [Manifests.step, running, written, append_nil]
    exact .held number holds fun m member => (Option.mem_some_iff.mp member).symm
  | rotate =>
    obtain ⟨anew, again⟩ := apply_snapshot ⟨number, w.state⟩
    simp only [Manifests.step, running, written, append_nil]
    apply Sound.held (number + 1)
    · have read := read_line codec LsmState.new (Manifest.snapshot ⟨number, w.state⟩)
      rw [anew] at read
      exact holds.switch read
    · intro m member
      rw [← Option.mem_some_iff.mp member]
      exact congrArg _ again

theorem Sound.crashed {number : Nat} (holds : Holds codec w.system.disk number w.state)
    (running : w.system.process = some ⟨number, w.state⟩) (call : Call) (whole bytes : Nat)
    (careful : Careful codec w (.crashIn call whole bytes)) :
    Sound codec (w.step codec (.crashIn call whole bytes)) := by
  have nobody : ∀ {state : LsmState}, ∀ m ∈ (none : Option Manifest), m = ⟨number, state⟩ :=
    fun m member => by cases member
  unfold Watched.step
  cases call with
  | logEdit added removed nextFileId =>
    obtain ⟨ended, kept⟩ := careful _ running
    apply Sound.held number
    · rw [state_append]
      simp only [Manifests.step, running, written, Option.elim_some]
      cases whole with
      | zero =>
        have read := read_cut codec w.state _ bytes (kept rfl)
        have appended := holds.append ended read
        by_cases all : (codec.encode (Manifest.nextEdit ⟨number, w.state⟩ added removed nextFileId)).length ≤ bytes
        · rw [if_pos all] at appended
          rw [if_pos (.inr all)]
          exact appended
        · rw [if_neg all] at appended
          rw [if_neg (by simpa using all)]
          exact appended
      | succ whole =>
        simp only [Manifest.perform, cut_single]
        rw [if_pos (.inl (Nat.succ_le_succ (Nat.zero_le whole)))]
        exact holds.append ended (read_line codec _ _)
    · simp only [Manifests.step, running]
      exact nobody
  | sync =>
    simp only [Manifests.step, running, written, append_nil, Manifest.perform]
    have nothing : cut [] whole bytes = [] := by simp [cut]
    rw [nothing]
    exact .held number holds nobody
  | rotate =>
    have anew := (apply_snapshot ⟨number, w.state⟩).1
    simp only [Manifests.step, running, written, append_nil]
    match whole with
    | 0 => exact .held number holds nobody
    | 1 => exact .held number (holds.create (number + 1)) nobody
    | 2 =>
      have all := careful _ running rfl
      have read := read_cut codec .new (Manifest.snapshot ⟨number, w.state⟩) bytes
        (by rw [take_of_length_le all, codec.restores]; simp)
      rw [if_pos all, anew] at read
      exact .held (number + 1) (holds.switch read) fun m member => by cases member
    | whole + 3 =>
      have read := read_line codec LsmState.new (Manifest.snapshot ⟨number, w.state⟩)
      rw [anew] at read
      have everything : cut ((Manifest.perform codec ⟨number, w.state⟩ .rotate).1) (whole + 3) bytes =
          (Manifest.perform codec ⟨number, w.state⟩ .rotate).1 := by
        simp [cut, Manifest.perform, openWriter]
      rw [everything]
      exact .held (number + 1) (holds.switch read) fun m member => by cases member

theorem Sound.step (sound : Sound codec w) {op : Op} (careful : Careful codec w op) :
    Sound codec (w.step codec op) := by
  have unchanged : Manifests.step codec w.system op = w.system → written codec w.system op = [] →
      Sound codec (w.step codec op) := by
    intro same silent
    unfold Watched.step
    rw [same, silent, append_nil]
    exact sound
  cases process : w.system.process with
  | none =>
    cases op with
    | reopen => exact sound.opened process (.inl rfl)
    | crashInOpen whole => exact sound.opened process (.inr ⟨whole, rfl⟩)
    | call call => exact unchanged (by simp [Manifests.step, process]) (by cases call <;> simp [written, process])
    | crashIn call whole bytes =>
      exact unchanged (by simp [Manifests.step, process]) (by cases call <;> simp [written, process])
  | some m =>
    cases sound with
    | fresh fresh empty stopped =>
      rw [process] at stopped
      cases stopped
    | held number holds running =>
      have running := running m process
      subst running
      cases op with
      | reopen | crashInOpen => exact unchanged (by simp [Manifests.step, process]) rfl
      | call call => exact Sound.called holds process call careful
      | crashIn call whole bytes => exact Sound.crashed holds process call whole bytes careful

end Steps

/-- In every run, with crashes anywhere, of which the steps are careful, opening the
    directory gives the state after all edits that were written. -/
theorem opening_gives_the_journal (codec : LineCodec) (ops : List Op)
    (careful : Guarded (Watched.step codec) (Careful codec) .new ops) :
    (load codec (run (Watched.step codec) .new ops).system.disk).map Manifest.state =
      some (run (Watched.step codec) .new ops).state := by
  have start : Sound codec .new := .fresh ⟨rfl, fun _ => rfl⟩ rfl rfl
  exact (careful.preserves (fun _ _ sound guard => sound.step guard) start).load_eq

section Runs

deriving instance Encodable for FileMetadata
deriving instance Encodable for VersionEdit

def digitsOf (edit : VersionEdit) : Bytes :=
  (Nat.digits 2 (Encodable.encode edit)).map fun digit => UInt8.ofNat (48 + digit)

theorem mem_digitsOf {edit : VersionEdit} {b : UInt8} (member : b ∈ digitsOf edit) : b = 48 ∨ b = 49 := by
  obtain ⟨digit, inside, rfl⟩ := mem_map.mp member
  have small : digit < 2 := Nat.digits_lt_base (by decide) inside
  interval_cases digit
  · exact .inl rfl
  · exact .inr rfl

theorem digitsOf_toNat (edit : VersionEdit) :
    (digitsOf edit).map (fun b => b.toNat - 48) = Nat.digits 2 (Encodable.encode edit) := by
  conv => rhs; rw [← map_id (Nat.digits 2 (Encodable.encode edit))]
  rw [digitsOf, map_map]
  apply map_congr_left
  intro digit inside
  have small : digit < 2 := Nat.digits_lt_base (by decide) inside
  interval_cases digit <;> rfl

local instance byteLawful : LawfulBEq UInt8 := inferInstance

def braced : LineCodec where
  encode edit := 123 :: (digitsOf edit ++ [125])
  decode text :=
    match text with
    | 123 :: rest =>
      if rest.getLast? = some 125 ∧ rest.dropLast.all (fun b => b = 48 ∨ b = 49) then
        (Encodable.decode (Nat.ofDigits 2 (rest.dropLast.map fun b => b.toNat - 48))).elim .malformed .edit
      else .malformed
    | _ => .malformed
  oneLine edit := by
    refine ⟨List.cons_ne_nil _ _, ?_⟩
    intro member
    rcases List.mem_append.mp (List.mem_of_ne_of_mem (by decide) member) with digit | brace
    · rcases mem_digitsOf digit with zero | one
      · cases zero
      · cases one
    · cases List.mem_singleton.mp brace
  restores edit := by
    have digits : (digitsOf edit).all (fun b => b = 48 ∨ b = 49) = true := by
      rw [all_eq_true]
      exact fun b member => decide_eq_true (mem_digitsOf member)
    simp only [List.getLast?_concat, List.dropLast_concat, true_and]
    rw [if_pos digits, digitsOf_toNat, Nat.ofDigits_digits, Encodable.encodek]
    rfl
  torn edit text other starts different := by
    rw [← List.cons_append, List.prefix_concat_iff] at starts
    have inside : text <+: 123 :: digitsOf edit := starts.resolve_left different
    cases text with
    | nil => simp
    | cons first rest =>
      obtain ⟨rfl, digits⟩ := List.cons_prefix_cons.mp inside
      have unclosed : ¬ (rest.getLast? = some 125 ∧ rest.dropLast.all (fun b => b = 48 ∨ b = 49)) := by
        intro ⟨closed, _⟩
        rcases mem_digitsOf (digits.subset (List.mem_of_getLast? closed)) with zero | one
        · cases zero
        · cases one
      simp only
      rw [if_neg unclosed]
      simp

instance (w : Watched) (op : Op) : Decidable (Careful braced w op) := by
  unfold Careful EndsLine
  split <;> infer_instance

theorem torn_edit_is_left_behind :
    let ops : List Op := [.reopen, .call (addFiles [.untracked 0 1]), .crashIn (addFiles [.untracked 0 2]) 0 2, .reopen, .call .rotate,
      .call (setNextFileId 9), .crashIn .rotate 1 0]
    Guarded (Watched.step braced) (Careful braced) .new ops ∧
    (load braced (run (Watched.step braced) .new ops).system.disk).map Manifest.state =
      some ⟨2, {toLex (0, 1)}, 0, 9⟩ := by
  intro ops
  have careful : Guarded (Watched.step braced) (Careful braced) .new ops := by decide +kernel
  have reached : (run (Watched.step braced) .new ops).state = ⟨2, {toLex (0, 1)}, 0, 9⟩ := by
    decide +kernel
  refine ⟨careful, ?_⟩
  rw [opening_gives_the_journal braced ops careful, reached]

/-- A crash between the renaming of `CURRENT` and the snapshot loses everything that was
    synced; and an edit after a torn line is lost with it, synced or not. -/
theorem synced_edits_are_lost :
    let opened (ops : List Op) :=
      (load braced (run (Watched.step braced) .new ops).system.disk).map Manifest.state
    let synced : List Op := [.reopen, .call (addFiles [.untracked 0 1]), .call .sync]
    let torn : List Op := [.reopen, .crashIn (addFiles [.untracked 0 1]) 0 2, .reopen, .call (addFiles [.untracked 0 2]), .call .sync]
    opened synced = some ⟨1, {toLex (0, 1)}, 0, 1⟩ ∧
    opened (synced ++ [.crashIn .rotate 2 0]) = some .new ∧ opened torn = some .new := by
  decide +kernel

end Runs
end ManifestCrashes
