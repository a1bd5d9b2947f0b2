import AsyncOrder.CommandLine.Execute

/-!
# The command

Supplies the files of the system to `execute`, and passes on what it answers.
-/

namespace AsyncOrder

/-- The system's number and reason of an error. -/
def FileError.ofSystem : IO.Error → FileError
  | .noFileOrDirectory _ code reason => .system code.toNat reason
  | .alreadyExists _ code reason
  | .permissionDenied _ code reason
  | .inappropriateType _ code reason
  | .invalidArgument _ code reason
  | .noSuchThing _ code reason
  | .resourceExhausted _ code reason => .system code.toNat reason
  | .otherError code reason
  | .unsupportedOperation code reason
  | .illegalOperation code reason
  | .resourceBusy code reason
  | .unsatisfiedConstraints code reason => .system code.toNat reason
  | e => .system 5 (toString e)

/-- The error of an action, if it has one. -/
def errorOf (action : IO Unit) : IO (Option FileError) :=
  tryCatch (action *> pure none) fun e => return some (.ofSystem e)

/-- The content of a file, if it is a text. -/
def readText (path : String) : IO (Except FileError String) :=
  tryCatch
    (do
      match String.fromUTF8? (← IO.FS.readBinFile path) with
      | some text => return .ok text
      | none => return .error .notText)
    fun e => return .error (.ofSystem e)

/-- Of the paths that end in `.`, only those of directories are refused because they are there. -/
def isDirectory (path : String) : IO Bool :=
  return (← errorOf (IO.FS.createDir (path ++ "/."))) matches some (.system 17 _)

def systemFiles : Files IO where
  read := readText
  write path content := errorOf (IO.FS.writeFile path content)
  makeDirectory path := errorOf (IO.FS.createDir path)
  isDirectory := isDirectory

end AsyncOrder

def main (args : List String) : IO UInt32 := do
  let outcome ← AsyncOrder.execute AsyncOrder.systemFiles args
  (← IO.getStdout).putStr outcome.stdout
  (← IO.getStderr).putStr outcome.stderr
  return outcome.code.toUInt32
