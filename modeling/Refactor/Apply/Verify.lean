import Refactor.Config
import Refactor.Plan.Result
import Refactor.Disk.Basic
import Refactor.Shell.Run

/-!
# Checking a workspace

* `Hook` — a check of what an apply has written
* `ValidationConfig.run` — the configured command, run in the root of the project
-/

namespace Refactor

/-- Runs the command of a check. The tree it leaves behind comes first; a command that takes too long is
an error. -/
def ValidationConfig.run (c : ValidationConfig) (tree : Tree) (root : Path) : Tree × Except Error ValidationResult :=
  let s := Shell.runLine tree root c.command
  if c.timeoutSeconds ≤ s.sleptSeconds then
    (s.tree, .error (.timeout ("validation command '" ++ c.command ++ "'") (some (1000 * c.timeoutSeconds))))
  else
    let stderr := Bytes.lossyText s.stderr
    let killed := s.stopped == some .killed
    (s.tree, .ok
      { passed := !killed && s.status == 0 && (!c.failOnStderr || stderr == "")
        command := c.command
        exitCode := if killed then none else some s.status
        stdout := Bytes.lossyText s.stdout, stderr })

/-- A check of what stands below a root, on a state that it may change. -/
abbrev Hook (σ : Type) := Path → StateM σ (Except Error ValidationResult)

/-- The command of a check as a hook. -/
def ValidationConfig.hook (c : ValidationConfig) : Hook Disk := fun root d =>
  let (tree, answer) := c.run d.tree root
  (answer, { d with tree })

end Refactor
