import Refactor.Reference.Basic

/-!
# Cache of references

The references of a file are kept with the fingerprint of its content, and a second index answers
which cached files refer to a path.

* `ImportCache.get`, `insert`, `invalidate`, `clear` — the operations
* `ImportCache.importersOf` — the cached files that refer to a path
-/

namespace Refactor

/-- What is kept of one file. -/
structure FileImportInfo where
  fingerprint : String
  refs : List ImportRef
  targets : List Path
deriving Repr

/-- The cache with its two indexes and its counters. -/
structure ImportCache where
  enabled : Bool := true
  forward : PathMap FileImportInfo := []
  reverse : PathMap PathSet := []
  hits : Nat := 0
  misses : Nat := 0
deriving Repr, Inhabited

namespace ImportCache

/-- The references of a file whose content still has the fingerprint. -/
def get (c : ImportCache) (file : Path) (fingerprint : String) : Option (List ImportRef) × ImportCache :=
  if !c.enabled then (none, c)
  else match c.forward.find? file with
    | some info =>
      if info.fingerprint = fingerprint then (some info.refs, { c with hits := c.hits + 1 })
      else (none, { c with misses := c.misses + 1 })
    | none => (none, { c with misses := c.misses + 1 })

/-- Takes `file` out of the importers of a path; a path without importers leaves the index. -/
def unlink (reverse : PathMap PathSet) (file target : Path) : PathMap PathSet :=
  match reverse.find? target with
  | none => reverse
  | some importers =>
    let rest := importers.filter fun p => !(p == file)
    if rest.isEmpty then reverse.erase target else reverse.insert target rest

/-- Takes a file out of the importers of all its targets. -/
def removeReverse (c : ImportCache) (file : Path) : ImportCache :=
  match c.forward.find? file with
  | none => c
  | some old => { c with reverse := old.targets.foldl (fun r t => unlink r file t) c.reverse }

def insert (c : ImportCache) (file : Path) (info : FileImportInfo) : ImportCache :=
  if !c.enabled then c
  else
    let c := c.removeReverse file
    { c with
      reverse := info.targets.foldl (fun r t => r.alter t [] (PathSet.insert file)) c.reverse
      forward := c.forward.insert file info }

/-- The cached files that refer to a path, sorted. -/
def importersOf (c : ImportCache) (target : Path) : List Path := (c.reverse.find? target).getD []

/-- Forgets a file, and who refers to it. -/
def forget (c : ImportCache) (p : Path) : ImportCache :=
  let c := c.removeReverse p
  { c with forward := c.forward.erase p, reverse := c.reverse.erase p }

def invalidate (c : ImportCache) (ps : List Path) : ImportCache := ps.foldl forget c

def clear (c : ImportCache) : ImportCache := { c with forward := [], reverse := [] }

/-- Number of entries, hits and misses. -/
def stats (c : ImportCache) : Json :=
  .ofFields [("entries", .nat c.forward.length), ("hits", .nat c.hits), ("misses", .nat c.misses)]

end ImportCache

end Refactor
