import Folio.CommandLine.Run
import Folio.CommandLine.Usage
/-!
# Command line

Runs a command on the files whose paths are listed on standard input, one a line, and writes the
files that the command has made or changed.
-/

namespace Folio.CommandLine

/-- The lines of a stream up to its end. -/
partial def readLines (stream : IO.FS.Stream) : IO (List String) := do
  let line ← stream.getLine
  if line.isEmpty then return []
  else return String.ofList (dropLineEnd line.toList) :: (← readLines stream)

/-- Adds a file to a store; what cannot be read as a file is taken for a folder. -/
def readListed (store : Files.Store .process) (path : String) :
    IO (Files.Store .process) := do
  try
    let content ← IO.FS.readBinFile path
    let store := (store.makeFolders ((Files.Path.parent? path).getD "")).2
    return (store.write path content).toOption.getD store
  catch _ => return (store.makeFolders path).2

def writeChanges (before after : Files.Store .process) : IO Unit := do
  for (location, entry) in after.entries do
    let path := "/" ++ "/".intercalate (location.map Files.Name.shown)
    if before.get? location ≠ some entry then
      match entry with
      | .folder => IO.FS.createDirAll path
      | .file content => IO.FS.writeBinFile path content

/-- Prints what a command prints, and the part of its journal that is to be shown. -/
def Run.print (run : Run .process) (log : Option Severity) : IO Unit := do
  IO.print (Transcript.text run.transcript.out)
  IO.eprint (Transcript.text (run.transcript.journal.lines log ++ run.transcript.err))
  match run.ending with
  | .failed report => IO.eprintln report.text
  | _ => pure ()

end Folio.CommandLine

open Folio.CommandLine in
def main (words : List String) : IO UInt32 := do
  match Invocation.ofArguments words with
  | .error refusal =>
    if refusal.isRequest then IO.println refusal.message else IO.eprintln refusal.message
    return refusal.exitCode.toUInt32
  | .ok invocation =>
    let paths ← readLines (← IO.getStdin)
    let store ← paths.foldlM readListed .empty
    let run := invocation.command.run store
    writeChanges store run.store
    run.print invocation.log
    return run.ending.exitCode.toUInt32
