import ObjectMachine.Image
import ObjectMachine.Listing
import ObjectMachine.Samples

/-!
# The command line

The program runs a sample on a fresh machine, either at once or after checking
the header of an image file. What it writes and its exit status are an
`Outcome`; reading the file is left to the caller.
-/

namespace ObjectMachine.CommandLine

structure Options where
  image : Option String
  demo : Bool
  dumpBytecode : Bool
  maxDepth : Option Nat

structure Outcome where
  status : Nat
  stdout : String
  stderr : String

def usageError : Outcome := ⟨2, "", ""⟩

/-- A number of at most 64 bits, with an optional plus sign. -/
def depth? (s : String) : Option Nat :=
  let digits := match s.toList with
    | '+' :: rest => rest
    | cs => cs
  if digits.isEmpty || !digits.all Char.isDigit then none
  else
    let n := digits.foldl (fun n c => 10 * n + (c.toNat - 48)) 0
    if n < UInt64.size then some n else none

namespace Options

def none : Options := ⟨.none, false, false, .none⟩

variable (o : Options)

/-- Take an argument that is no option. There is room for one. -/
def addImage (path : String) : Option Options :=
  if o.image.isSome || path.isEmpty then .none else some { o with image := some path }

def setDemo : Option Options := if o.demo then .none else some { o with demo := true }

def setDump : Option Options :=
  if o.dumpBytecode then .none else some { o with dumpBytecode := true }

def setDepth (text : String) : Option Options :=
  if o.maxDepth.isSome then .none
  else (depth? text).map fun n => { o with maxDepth := some n }

/-- Read the arguments from left to right. No option may be given twice, and
after two dashes nothing is an option. -/
def parseFrom : Options → List String → Option Options
  | o, [] => some o
  | o, "--" :: rest => rest.foldlM addImage o
  | o, "--demo" :: rest => do parseFrom (← o.setDemo) rest
  | o, "--dump-bytecode" :: rest => do parseFrom (← o.setDump) rest
  | o, "--max-depth" :: text :: rest =>
    if text.startsWith "-" then .none else do parseFrom (← o.setDepth text) rest
  | o, arg :: rest =>
    if arg.startsWith "--max-depth=" then do
      parseFrom (← o.setDepth (arg.drop 12).toString) rest
    else if arg.startsWith "-" && arg != "-" then .none
    else do parseFrom (← o.addImage arg) rest

def parse (args : List String) : Option Options := parseFrom none args

end Options

def budget : Nat := 0x1000000000000000

/-- What is printed when a run has ended with `result`, after `shown`. -/
def report (shown : String) : Except Stop String → Outcome
  | .ok printed => ⟨0, shown ++ s!"Final result: {printed}\n", ""⟩
  | .error (.raised e) => ⟨1, shown, s!"Error executing: {e.message}\n"⟩
  | .error (.fault f) => ⟨101, shown, f.message ++ "\n"⟩
  | .error .exhausted => ⟨101, shown, ""⟩

def printed (m : Machine) (v : Value) : Except Stop String := (m.printString v).mapError .fault

def listing (title : String) (m : Machine) (v : Value) : Except Stop String :=
  ((m.disassemble v).map fun text => s!"== {title} ==\n{text}").mapError .fault

/-- The factorial sample. Its code is shown after the run, however that ends. -/
def runDemo (o : Options) (m : Machine) : Outcome :=
  let (result, m) := match Samples.tenFactorial budget m with
    | .ok v m => (printed m v, m)
    | .error e m => (.error e, m)
  let shown : Except Stop String := do
    if !o.dumpBytecode then return ""
    match ← (m.lookup m.core.integer "factorial").mapError .fault with
    | some method => listing "Integer>>factorial" m method
    | .none => return ""
  match shown with
  | .ok text => report text result
  | .error e => report "" (.error e)

/-- The sum sample. Its code is shown before the run. -/
def runSum (o : Options) (m : Machine) : Outcome :=
  match (do (← Samples.sumDraft).build : Action Value) m with
  | .error e _ => report "" (.error e)
  | .ok method m =>
    match if o.dumpBytecode then listing "doit" m method else .ok "" with
    | .error e => report "" (.error e)
    | .ok text =>
      match executeMethod budget method .nil #[] m with
      | .ok v m => report text (printed m v)
      | .error e _ => report text (.error e)

/-- Carry out the options. `read` is what the host finds in the image file: its
content or why it cannot be read. -/
def carryOut (o : Options) (read : String → Except String (List UInt8)) : Outcome :=
  let onMachine (work : Machine → Outcome) : Outcome :=
    match bootstrap .standard (o.maxDepth.getD standardDepth) with
    | .ok m => work m
    | .error e => report "" (.error e)
  if o.demo then onMachine (runDemo o)
  else
    match o.image with
    | .none => ⟨1, "", "Usage: smalltalk <image-file>\n       smalltalk --demo\n"⟩
    | some path =>
      match (read path).mapError ImageError.unreadable >>= ImageHeader.load with
      | .error e => ⟨1, "", s!"Error loading image \x27{path}\x27: {e.message}\n"⟩
      | .ok _ => onMachine (runSum o)

def respond (args : List String) (read : String → Except String (List UInt8)) : Outcome :=
  match Options.parse args with
  | .none => usageError
  | some o => carryOut o read

end ObjectMachine.CommandLine
