import ScopeAnalysis.CommandLine
import ScopeAnalysis.Json.Reader
import ScopeAnalysis.SourceFile.Decode

open ScopeAnalysis

partial def loadEntry (answers : Json) (above : List String) (entry : IO.FS.DirEntry) :
    IO (FileName × FileTree SourceFile) := do
  let names := above ++ [entry.fileName]
  if ← entry.path.isDir then
    let entries ← (← entry.path.readDir).toList.mapM (loadEntry answers names)
    return (entry.fileName, .directory entries)
  let text := String.fromUTF8? (← IO.FS.readBinFile entry.path)
  let answer := answers.field? ("/".intercalate names)
  match SourceFile.ofAnswers? text answer with
  | some file => return (entry.fileName, .file file)
  | none => return (entry.fileName, .file { text })

def loadFiles (answers : Json) : IO (FileSystem SourceFile) := do
  let here ← IO.currentDir
  let entries ← (← here.readDir).toList.mapM (loadEntry answers [])
  let names := (here.components.filter (· != "")).map FileName.ofText
  return ⟨.put (.directory []) names (.directory entries), names⟩

def makeLog (args : List String) : IO Unit := do
  if let .analyze _ (some log) := CommandLine.parse args then
    IO.FS.createDirAll log.directory.text
    IO.FS.Handle.mk (log.directory.join log.name).text .append |> discard

def main (args : List String) : IO UInt32 := do
  let stdin ← IO.getStdin
  let stdout ← IO.getStdout
  let answers ←
    if ← stdin.isTty then pure Json.null
    else
      let text := String.fromUTF8? (← IO.FS.Stream.readBinToEnd stdin)
      pure ((text.bind Json.parse?).getD .null)
  let (_, completion) := CommandLine.run (← stdout.isTty) (← loadFiles answers) args
  if completion.exit ≤ 1 then makeLog args
  stdout.putStr completion.stdout
  (← IO.getStderr).putStr completion.stderr
  return completion.exit.toUInt32
