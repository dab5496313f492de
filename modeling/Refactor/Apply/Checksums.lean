import Refactor.Disk.Checksum
import Refactor.Disk.System
import Refactor.Plan.Basic

/-!
# Checksums of plans

A plan is stale when a file it was computed against has changed.

* `checksumsOf` — the checksums of files as they are
* `Plan.checkFresh` — whether all files of a plan are as they were
-/

namespace Refactor

/-- The checksums of files as they are. -/
def checksumsOf (d : Disk) : List Path → Except Error (PathMap String)
  | [] => .ok []
  | p :: ps =>
    match d.read p with
    | .error e => .error (e.at_ p)
    | .ok b => do
      let rest ← checksumsOf d ps
      return rest.insert p (Checksum.ofBytes b)

variable {σ : Type} [FileSystem σ]

/-- Checks files against their recorded checksums, in order. -/
def checkChecksums : List (Path × String) → Checking σ Unit
  | [] => pure ()
  | (p, expected) :: rest => do
    match ← Checking.ask (FileSystem.read p) with
    | .error e => throw (e.orMissing p)
    | .ok b =>
      let actual := Checksum.ofBytes b
      if actual == expected then checkChecksums rest else throw (.staleChecksum p.raw expected actual)

/-- Whether all files of a plan are as they were at planning. -/
def Plan.checkFresh (p : Plan) : Checking σ Unit := checkChecksums p.checksums

end Refactor
