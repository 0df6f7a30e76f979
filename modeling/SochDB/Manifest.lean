import SochDB.Library.KeyedMaps
import SochDB.Library.LittleEndian

/-!
The manifest of the LSM tree: a file of edits, one to a line, and the file `CURRENT` that
names it. A call is the list of its file operations, so that it can be cut anywhere.
-/
namespace Manifests
open KeyedMaps

/-- The size and the keys, which are numbers of edges, are written to the manifest only. -/
structure FileMetadata where
  level : Nat
  fileId : Nat
  fileSize : Nat
  smallestKey : Option Nat
  largestKey : Option Nat
  deriving DecidableEq

def FileMetadata.untracked (level fileId : Nat) : FileMetadata := ⟨level, fileId, 0, none, none⟩

structure VersionEdit where
  version : Nat
  addedFiles : List FileMetadata
  removedFiles : List FileMetadata
  logNumber : Option Nat
  nextFileId : Option Nat
  deriving DecidableEq

/-- The sets of active files of the seven levels are one set of levels with file ids. -/
structure LsmState where
  version : Nat
  activeFiles : Finset (Fin 7 ×ₗ Nat)
  logNumber : Nat
  nextFileId : Nat
  deriving DecidableEq

def FileMetadata.slot (file : FileMetadata) : Option (Fin 7 ×ₗ Nat) :=
  if inside : file.level < 7 then some (toLex (⟨file.level, inside⟩, file.fileId)) else none

namespace LsmState

def new : LsmState := ⟨0, ∅, 0, 1⟩

def add (files : Finset (Fin 7 ×ₗ Nat)) (file : FileMetadata) : Finset (Fin 7 ×ₗ Nat) :=
  file.slot.elim files (insert · files)

def remove (files : Finset (Fin 7 ×ₗ Nat)) (file : FileMetadata) : Finset (Fin 7 ×ₗ Nat) :=
  file.slot.elim files files.erase

def apply (s : LsmState) (edit : VersionEdit) : LsmState where
  version := edit.version
  activeFiles := edit.removedFiles.foldl remove (edit.addedFiles.foldl add s.activeFiles)
  logNumber := edit.logNumber.getD s.logNumber
  nextFileId := edit.nextFileId.getD s.nextFileId

end LsmState

inductive Line where
  | edit (edit : VersionEdit)
  | malformed
  | notUtf8
  deriving DecidableEq

/-- The text of an edit: it is one line, can be read back, and without its end it is not the
    text of an edit. -/
structure LineCodec where
  encode : VersionEdit → Bytes
  decode : Bytes → Line
  oneLine : ∀ edit, encode edit ≠ [] ∧ 10 ∉ encode edit
  restores : ∀ edit, decode (encode edit) = .edit edit
  torn : ∀ edit text other, text <+: encode edit → text ≠ encode edit → decode text ≠ .edit other

structure Disk where
  files : Map Nat Bytes
  current : Option Nat

structure Manifest where
  manifestNumber : Nat
  state : LsmState

inductive Action where
  | create (number : Nat)
  | point (number : Nat)
  | append (number : Nat) (bytes : Bytes)

def act (disk : Disk) : Action → Disk
  | .create number => { disk with files := upsert disk.files number [] id }
  | .point number => { disk with current := some number }
  | .append number bytes => { disk with files := adjust disk.files number (· ++ bytes) }

/-- The first actions, and so many bytes of the next one. -/
def cut (actions : List Action) (whole bytes : Nat) : List Action :=
  actions.take whole ++ match actions[whole]? with
    | some (.append number text) => [.append number (text.take bytes)]
    | _ => []

inductive Call where
  | logEdit (added removed : List FileMetadata) (nextFileId : Option Nat)
  | sync
  | rotate

def addFiles (files : List FileMetadata) : Call := .logEdit files [] none

def removeFiles (files : List FileMetadata) : Call := .logEdit [] files none

def logCompaction (added removed : List FileMetadata) : Call := .logEdit added removed none

def setNextFileId (nextId : Nat) : Call := .logEdit [] [] (some nextId)

section Calls
variable (codec : LineCodec)

def readLine (s : LsmState) (line : Bytes) : Option LsmState :=
  if line = [] then some s
  else match codec.decode line with
    | .edit edit => some (s.apply edit)
    | .malformed => some s
    | .notUtf8 => none

def readManifest (bytes : Bytes) : Option LsmState := (bytes.splitOn 10).foldlM (readLine codec) .new

def openWriter (number : Nat) : List Action := [.create number, .point number]

/-- `open` up to the opening of the writer. -/
def load (disk : Disk) : Option Manifest :=
  match disk.current with
  | none => some ⟨1, .new⟩
  | some number =>
    match get disk.files number with
    | some bytes => (readManifest codec bytes).map (⟨number, ·⟩)
    | none => some ⟨number + 1, .new⟩

namespace Manifest
variable (m : Manifest)

def nextEdit (added removed : List FileMetadata) (nextFileId : Option Nat) : VersionEdit :=
  ⟨m.state.version + 1, added, removed, none, nextFileId⟩

def collectAllFiles : List FileMetadata :=
  (m.state.activeFiles.sort (· ≤ ·)).map fun slot => .untracked (ofLex slot).1 (ofLex slot).2

def snapshot : VersionEdit :=
  ⟨m.state.version, m.collectAllFiles, [], some m.state.logNumber, some m.state.nextFileId⟩

def logLine (number : Nat) (edit : VersionEdit) : Action := .append number (codec.encode edit ++ [10])

def perform : Call → List Action × Manifest
  | .logEdit added removed nextFileId =>
    let edit := m.nextEdit added removed nextFileId
    ([logLine codec m.manifestNumber edit], { m with state := m.state.apply edit })
  | .sync => ([], m)
  | .rotate =>
    let number := m.manifestNumber + 1
    (openWriter number ++ [logLine codec number m.snapshot], ⟨number, m.state.apply m.snapshot⟩)

end Manifest

inductive Op where
  | reopen
  | crashInOpen (whole : Nat)
  | call (call : Call)
  | crashIn (call : Call) (whole bytes : Nat)

structure System where
  disk : Disk
  process : Option Manifest

def step (s : System) : Op → System
  | .reopen =>
    match s.process, load codec s.disk with
    | none, some m => ⟨(openWriter m.manifestNumber).foldl act s.disk, some m⟩
    | _, _ => s
  | .crashInOpen whole =>
    match s.process, load codec s.disk with
    | none, some m => ⟨((openWriter m.manifestNumber).take whole).foldl act s.disk, none⟩
    | _, _ => s
  | .call call =>
    match s.process with
    | none => s
    | some m => ⟨(m.perform codec call).1.foldl act s.disk, some (m.perform codec call).2⟩
  | .crashIn call whole bytes =>
    match s.process with
    | none => s
    | some m => ⟨(cut (m.perform codec call).1 whole bytes).foldl act s.disk, none⟩

end Calls
end Manifests
