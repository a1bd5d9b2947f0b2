import AsyncOrder.CommandLine.Arguments
import AsyncOrder.CommandLine.Files

/-!
# Execution

What the command does with a request: read the program, run the passes that the target needs,
write the drawings if a directory for them was named, and show the target.  A request that makes
no sense and a file that cannot be read or written end it with code 2, a program that is
refused and a pass that fails with code 1.
-/

namespace AsyncOrder

structure Outcome where
  code : UInt8
  stdout : String
  stderr : String
deriving DecidableEq, Repr

namespace Outcome

def success (stdout : String) : Outcome := ⟨0, stdout, ""⟩

def complaint (text : String) : String := s!"depcanon: {text}\n"

def ofDiagnostics (code : UInt8) (ds : List Diagnostic) : Outcome :=
  ⟨code, "", String.join (ds.map fun d => complaint d.text)⟩

def ofFailure (code : UInt8) (f : Failure) : Outcome := ofDiagnostics code [f.diagnostic]

def ofFileError (path : String) (e : FileError) : Outcome :=
  ⟨2, "", complaint s!"error: {path}: {e.text}"⟩

end Outcome

def usage : String := "Usage: depcanon [OPTIONS] <SOURCE>\n"

def versionText : String := "depcanon 0.1.0\n"

namespace Invocation

variable (i : Invocation)

/-- The conflict mode that is asked for. -/
def forcedMode : Except Failure (Option ConflictMode) :=
  match i.conflictMode with
  | none => .ok none
  | some text => (ConflictMode.ofText text).map some

/-- The session for a source text, with all passes that the target needs. -/
def session (mode : Option ConflictMode) (source : String) : Except Outcome Session :=
  match readProgram source with
  | .error ds => .error (.ofDiagnostics 1 ds)
  | .ok program =>
    let after := (Session.start program ⟨i.traceMemory, mode⟩).run i.target.terminal
    match after.failure with
    | some f => .error (.ofFailure 1 f.failure)
    | none => .ok after.session

end Invocation

/-- A file in a directory. -/
def inDirectory (dir name : String) : String :=
  if dir.endsWith "/" then dir ++ name else s!"{dir}/{name}"

section

variable {m : Type → Type} [Monad m] (files : Files m)

/-- Writes files until one cannot be written. -/
def writeAll : List (String × String) → m (Option Failure)
  | [] => return none
  | (path, content) :: rest => do
    match ← files.write path content with
    | some e => return some (.unwritable path e.text)
    | none => writeAll rest

/-- Writes the drawings of a session to `dir`. -/
def dump (dir : String) (s : Session) : m (Option Failure) := do
  match ← createDirectories files dir with
  | some e => return some (.unwritable dir e.text)
  | none =>
    match s.drawings with
    | .error f => return some f
    | .ok drawings => writeAll files (drawings.map fun (name, text) => (inDirectory dir name, text))

/-- Shows the target of a session. -/
def Invocation.emit (i : Invocation) (s : Session) : m Outcome := do
  match s.render i.target with
  | .error f => return .ofFailure 1 f
  | .ok text =>
    match i.output with
    | none => return .success text
    | some path =>
      match ← files.write path text with
      | some e => return .ofFileError path e
      | none => return .success ""

def Invocation.execute (i : Invocation) : m Outcome := do
  match i.forcedMode with
  | .error f => return .ofFailure 2 f
  | .ok mode =>
    match ← files.read i.source with
    | .error e => return .ofFileError i.source e
    | .ok source =>
      match i.session mode source with
      | .error outcome => return outcome
      | .ok s =>
        match i.dumpDir with
        | none => i.emit files s
        | some dir =>
          match ← dump files dir s with
          | some f => return .ofFailure 1 f
          | none => i.emit files s

def Request.execute : Request → m Outcome
  | run invocation => invocation.execute files
  | help => return .success usage
  | version => return .success versionText
  | misused => return ⟨2, "", usage⟩

end

/-- The whole command. -/
def execute {m : Type → Type} [Monad m] (files : Files m) (args : List String) : m Outcome :=
  (Request.ofArguments args).execute files

end AsyncOrder
