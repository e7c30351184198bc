import CodeAtlas.Command.Run

/-!
The command line.

What the arguments name is read into memory, the command runs on that, and the files that it changed
are written back.
-/

namespace CodeAtlas.Main

def isDirectoryAt (path : String) : IO Bool := do
  ((← IO.currentDir) / path).isDir

def isPresent (path : String) : IO Bool := do
  ((← IO.currentDir) / path).pathExists

def isNeeded (name : String) : Bool :=
  (Path.language? name).isSome || name == "Cargo.toml"

partial def load (path : String) : IO FileTree := do
  if ← isDirectoryAt path then
    let entries ← ((← IO.currentDir) / path).readDir
    let children ← entries.toList.mapM fun entry => do
      let name := entry.fileName
      let inner := Path.join path name
      if ← isDirectoryAt inner then
        if isSkippedDirectory name then return (name, FileTree.directory [])
        else return (name, ← load inner)
      else if isNeeded name then return (name, ← load inner)
      else return (name, FileTree.file [])
    return .directory children
  else return .file (← IO.FS.readBinFile path).toList

def loadInto (d : Disk) (path : String) : IO Disk := do
  if ← isPresent path then
    return { d with root := FileTree.graft (← load path) d.root (d.place path) }
  else return d

def loadAncestors (d : Disk) (path : String) : IO Disk := do
  let place := d.place path
  (List.range place.length).foldlM (fun d n => do
    let ancestor := "/" ++ "/".intercalate (place.take n)
    if ← isDirectoryAt ancestor then
      let d := { d with root := d.root.makeDirectory (place.take n) }
      loadInto d (Path.join ancestor "Cargo.toml")
    else return d) d

def namedPaths (args : List String) : List String :=
  (args.flatMap fun arg => arg :: ((Arguments.divide arg).2).toList).filter (· != "")

def store (before after : Disk) : IO Unit :=
  (before.changesSince after).forM fun (place, bytes) => do
    let path := "/" ++ "/".intercalate place
    IO.FS.createDirAll (Path.directory path)
    IO.FS.writeBinFile path (ByteArray.mk bytes.toArray)

def diskFor (environment : Option String) (args : List String) : IO Disk := do
  let home := Path.parts (toString (← IO.currentDir))
  let paths := namedPaths args ++ Config.defaultFile :: environment.toList
  let d ← paths.foldlM loadAncestors (Disk.empty home)
  paths.foldlM loadInto d

end CodeAtlas.Main

open CodeAtlas in
def main (args : List String) : IO UInt32 := do
  let environment ← IO.getEnv "FLOWGRAPH_CONFIG"
  let disk ← Main.diskFor environment args
  let outcome := Command.runArguments disk environment args
  IO.print outcome.output
  Main.store disk outcome.disk
  match outcome.complaint with
  | some text => IO.eprintln text
  | none => if outcome.crash.isSome then IO.eprintln "The command broke off."
  return outcome.exitCode.toUInt32
