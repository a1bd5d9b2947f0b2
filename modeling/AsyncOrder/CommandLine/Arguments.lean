import AsyncOrder.Session.Emit

/-!
# Command-line arguments

One input file, and options before or after it:

    --emit TARGET   -o, --output FILE   --conflict-mode MODE   --dump-dir DIRECTORY
    --trace-memory  --verbose           -h, --help             -V, --version

The value of a long option is the next argument or follows `=`; that of `-o` is the next
argument or follows at once, with or without `=`.  What follows `-h` or `-V` at once is not
looked at.  A next argument that begins with a dash, other
than a dash alone, is no value.  Each option may be given once, and names of files are not empty.
After `--` no argument is an option.
-/

namespace AsyncOrder

/-- What a run is asked to do. -/
structure Invocation where
  source : String
  output : Option String
  target : Target
  traceMemory : Bool
  conflictMode : Option String
  dumpDir : Option String
  verbose : Bool
deriving DecidableEq, Repr

inductive Request where
  | run (invocation : Invocation)
  | help
  | version
  /-- The arguments make no sense. -/
  | misused
deriving DecidableEq, Repr

namespace Request

/-- The arguments seen so far. -/
structure Given where
  source : Option String
  output : Option String
  target : Option Target
  traceMemory : Bool
  conflictMode : Option String
  dumpDir : Option String
  verbose : Bool

def Given.none : Given := ⟨.none, .none, .none, false, .none, .none, false⟩

/-- Options that have a value. -/
inductive Setting where
  | output | target | conflictMode | dumpDir

def setting? : String → Option Setting
  | "--output" | "-o" => some .output
  | "--emit" => some .target
  | "--conflict-mode" => some .conflictMode
  | "--dump-dir" => some .dumpDir
  | _ => none

/-- Fills a place that is empty. -/
def once {α : Type} (place : Option α) (value : Option α) : Option (Option α) :=
  if place.isSome || value.isNone then none else some value

/-- The name of a file. -/
def fileName? (s : String) : Option String := if s.isEmpty then none else some s

namespace Given

variable (g : Given)

def set (value : String) : Setting → Option Given
  | .output => (once g.output (fileName? value)).map fun output => { g with output }
  | .target => (once g.target (Target.ofName? value)).map fun target => { g with target }
  | .conflictMode => (once g.conflictMode (some value)).map fun conflictMode =>
    { g with conflictMode }
  | .dumpDir => (once g.dumpDir (fileName? value)).map fun dumpDir => { g with dumpDir }

def setSource (value : String) : Option Given :=
  (once g.source (fileName? value)).map fun source => { g with source }

/-- The options without a value. -/
def flag (name : String) : Option Given :=
  match name with
  | "--trace-memory" => if g.traceMemory then .none else some { g with traceMemory := true }
  | "--verbose" => if g.verbose then .none else some { g with verbose := true }
  | _ => .none

def invocation? : Option Invocation :=
  g.source.map fun source =>
    ⟨source, g.output, g.target.getD .ir, g.traceMemory, g.conflictMode, g.dumpDir, g.verbose⟩

end Given

/-- Splits at the first `=`. -/
def splitValue (cs : List Char) : String × Option String :=
  (String.ofList (cs.takeWhile (· ≠ '=')),
    match cs.dropWhile (· ≠ '=') with
    | [] => none
    | _ :: value => some (String.ofList value))

/-- An argument by itself. -/
inductive Word where
  | plain (text : String)
  /-- An option, with the value that follows it in the same argument. -/
  | option (name : String) (value : Option String)
  /-- The end of the options. -/
  | stop

def Word.ofArgument (arg : String) : Word :=
  match arg.toList with
  | ['-', '-'] => stop
  | '-' :: '-' :: _ =>
    let (name, value) := splitValue arg.toList
    option name value
  | ['-', 'o'] => option "-o" none
  | '-' :: 'o' :: '=' :: value => option "-o" (some (String.ofList value))
  | '-' :: 'o' :: value => option "-o" (some (String.ofList value))
  | '-' :: 'h' :: _ => option "-h" none
  | '-' :: 'V' :: _ => option "-V" none
  | '-' :: _ :: _ => option arg none
  | _ => plain arg

/-- May the argument be the value of the option before it? -/
def isValue (arg : String) : Bool :=
  match Word.ofArgument arg with
  | .plain _ => true
  | _ => false

/-- Takes all arguments to be input files. -/
def readSources (g : Given) (args : List String) : Option Given :=
  args.foldlM (fun g arg => g.setSource arg) g

def conclude (g : Option Given) : Request :=
  match g.bind Given.invocation? with
  | some invocation => run invocation
  | none => misused

def read (g : Given) : List String → Request
  | [] => conclude (some g)
  | arg :: rest =>
    match Word.ofArgument arg with
    | .stop => conclude (readSources g rest)
    | .plain text =>
      match g.setSource text with
      | some g => read g rest
      | none => misused
    | .option name value =>
      match setting? name, value with
      | some setting, some value =>
        match g.set value setting with
        | some g => read g rest
        | none => misused
      | some setting, none =>
        match rest with
        | [] => misused
        | next :: rest =>
          if isValue next then
            match g.set next setting with
            | some g => read g rest
            | none => misused
          else misused
      | none, some _ => misused
      | none, none =>
        if name = "--help" || name = "-h" then help
        else if name = "--version" || name = "-V" then version
        else
          match g.flag name with
          | some g => read g rest
          | none => misused

def ofArguments (args : List String) : Request := read .none args

end Request

end AsyncOrder
