/-
  ObjectMachine/Main.lean
  =======================
  **The program** — hands the arguments and the files of the working directory to
  `CommandLine.execute` and carries out what it says.
-/
import ObjectMachine.CommandLine

namespace ObjectMachine

/-- More instructions than any run carries out. -/
def Main.fuel : Nat := 0x4000000000000000

/-- The files of the working directory. -/
def Main.loadDirectory : IO Directory := do
  let mut files : List (String × Bytes) := []
  for entry in ← (← IO.currentDir).readDir do
    if !(← entry.path.isDir) then
      let contents ← IO.FS.readBinFile entry.path
      files := (entry.fileName, contents.data) :: files
  return .ofFiles files

/-- Writes back the files that a run changed. -/
def Main.saveDirectory (before after : Directory) : IO Unit := do
  for (place, contents) in after.files do
    if before.get? place ≠ some contents then
      IO.FS.writeBinFile place.path ⟨contents⟩

end ObjectMachine

open ObjectMachine in
/-- Runs a command. -/
def main (args : List String) : IO UInt32 := do
  let before ← Main.loadDirectory
  let outcome := CommandLine.execute Main.fuel args before
  let stdout ← IO.getStdout
  stdout.write ⟨outcome.stdout.toArray⟩
  stdout.flush
  Main.saveDirectory before outcome.directory
  let stderr ← IO.getStderr
  stderr.putStr outcome.stderr
  return UInt32.ofNat outcome.exit
