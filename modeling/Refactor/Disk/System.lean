import Refactor.Disk.Walk

/-!
# File systems

What an apply asks of the place where the files live. Whoever answers may keep a state of any sort: a disk,
a disk with mishaps, a script of answers.

* `FileSystem` — the calls that look and the calls that change
-/

namespace Refactor

/-- The calls of an apply, on a state `σ` that the answers depend on and may change. -/
class FileSystem (σ : Type) where
  exists? : Path → StateM σ Bool
  isDir : Path → StateM σ Bool
  read : Path → StateM σ (Except DiskError ByteArray)
  /-- the directories at and below a path, children before parents -/
  dirsUnder : Path → StateM σ (List Path)
  /-- whether a cancellation was raised -/
  cancelled : StateM σ Bool
  /-- a path that is there with its links resolved -/
  canonical? : σ → Path → Except SystemFault Path
  write : Path → ByteArray → StateM σ (Except DiskError Unit)
  rename : Path → Path → StateM σ (Except DiskError Unit)
  removeFile : Path → StateM σ (Except DiskError Unit)
  makeDirs : Path → StateM σ (Except DiskError Unit)
  removeDir : Path → StateM σ (Except DiskError Unit)

/-- Checks on a file system. -/
abbrev Checking (σ : Type) := ExceptT Error (StateM σ)

/-- A call as part of a check. -/
def Checking.ask {σ α : Type} (f : StateM σ α) : Checking σ α := ExceptT.lift f

namespace Disk

/-- A change of a disk as a call. -/
def call (f : Disk → Disk × Except DiskError Unit) : StateM Disk (Except DiskError Unit) := fun d => (f d).swap

instance : FileSystem Disk where
  exists? p := return (← get).exists? p
  isDir p := return (← get).isDir p
  read p := return (← get).read p
  dirsUnder p := return (← get).tree.dirsUnder p
  cancelled := return (← get).cancelled
  canonical? d p := d.tree.canonical? p
  write p content := call (·.write p content)
  rename old new := call (·.rename old new)
  removeFile p := call (·.removeFile p)
  makeDirs p := call (·.makeDirs p)
  removeDir p := call (·.removeDir p)

end Disk

end Refactor
