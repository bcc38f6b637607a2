/-
# The program

The program sees the files below the working directory, below the directories of
the search path, and below the directories that its inputs stand in, as they are
when it starts.
-/
import CPreprocessor.CommandLine
import Std.Time.Format

namespace CPreprocessor.Main

/-- The bytes of a string. -/
def textOfString (s : String) : Text :=
  s.toUTF8.toList.map fun byte => Char.ofNat byte.toNat

/-- A text as bytes. -/
def bytesOfText (text : Text) : ByteArray :=
  ⟨(text.map fun c => UInt8.ofNat c.toNat).toArray⟩

/-- The location that an absolute path names. -/
def locationOf (path : String) : List Text :=
  Path.names (textOfString path)

/-- What stands below a directory. Links to directories are not followed, devices are seen as empty
files, and what cannot be read is left out. -/
partial def entriesBelow (directory : String) : IO (List (List Text × Entry)) := do
  let mut entries := []
  for item in ← (← IO.FS.realPath directory).readDir do
    let path := item.path.toString
    try
      match (← item.path.metadata).type with
      | .dir =>
        if (← IO.FS.realPath path).toString == path then
          entries := (locationOf path, Entry.directory) :: (← entriesBelow path) ++ entries
      | .file =>
        let content := (← IO.FS.readBinFile path).toList.map fun byte => Char.ofNat byte.toNat
        entries := (locationOf path, Entry.file content) :: entries
      | _ => entries := (locationOf path, Entry.file []) :: entries
    catch _ => pure ()
  return entries

/-- A directory, the directories above it and what stands below it. -/
def tree (directory : String) : IO (List (List Text × Entry)) := do
  try
    let location := locationOf (← IO.FS.realPath directory).toString
    let above := (List.range location.length).map fun n =>
      (location.take (n + 1), Entry.directory)
    return (← entriesBelow directory) ++ above
  catch _ => return []

/-- The directories that the arguments name. -/
def directoriesOf (arguments : List Text) : List String :=
  match CommandLine.read arguments with
  | .ok (some c) =>
    (c.config.searchPath ++ c.inputs.map Path.parent).filterMap fun path =>
      if path = [] then none else String.fromUTF8? (bytesOfText path)
  | _ => []

/-- The files that a run with the given arguments sees. -/
def snapshot (arguments : List Text) : IO FileSystem := do
  let here := (← IO.currentDir).toString
  let trees ← (here :: directoriesOf arguments).eraseDups.mapM tree
  return { workingDirectory := locationOf here, entries := trees.flatten }

/-- The date and the time of day. -/
def readClock : IO Clock := do
  let now ← Std.Time.PlainDateTime.now
  return { year := now.year.toInt.toNat, month := now.month.val.toNat, day := now.day.val.toNat,
           hour := now.hour.val.toNat, minute := now.minute.val.toNat,
           second := now.time.second.val.toNat }

end CPreprocessor.Main

/-- Preprocess the inputs that the arguments name. -/
def main (arguments : List String) : IO UInt32 := do
  let arguments := arguments.map CPreprocessor.Main.textOfString
  let files ← CPreprocessor.Main.snapshot arguments
  let clock ← CPreprocessor.Main.readClock
  let outcome := CPreprocessor.CommandLine.execute files clock arguments
  (← IO.getStdout).write (CPreprocessor.Main.bytesOfText outcome.output)
  (← IO.getStderr).write (CPreprocessor.Main.bytesOfText outcome.errors)
  return outcome.exitCode.toUInt32
