import Mathlib.Data.List.Basic

/-!
# A file and its syncs

Writes and cuts reach the disk at a sync; until then the contents the file had are kept beside the present one.

* `Disk` : a file and its contents since the last sync; `Disk.write`, `Disk.setLen`, `Disk.sync`.
-/

namespace SovereignCore

/-- `drafts` are the contents since the last sync, its own and the present one among them; all share `floor` bytes. -/
structure Disk where
  content : List UInt8
  drafts : List (List UInt8)
  floor : Nat
  deriving DecidableEq

namespace Disk

def settled (content : List UInt8) : Disk := ⟨content, [content], content.length⟩

def write (d : Disk) (bytes : List UInt8) : Disk :=
  { d with content := d.content ++ bytes, drafts := (d.content ++ bytes) :: d.drafts }

/-- The content cut to `n` bytes, or filled up with zeros. -/
def setLen (d : Disk) (n : Nat) : Disk :=
  let content := d.content.take n ++ List.replicate (n - d.content.length) 0
  { content, drafts := content :: d.drafts, floor := min d.floor n }

def sync (d : Disk) : Disk := settled d.content

end Disk

end SovereignCore
