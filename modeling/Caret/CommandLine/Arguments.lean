import Caret.Completion.Dispatch
/-!
# Arguments

What the command line asks for. Options may be written `--name value` or `--name=value`, and the
position also `-p value`, `-pvalue` or `-p=value`; nothing may be given twice. After `--` every
argument is a file, however it looks.

The value of an option is taken over when the next argument is reached, so an argument that is
unknown is reported before a wrong value just before it.
-/

namespace Caret

inductive OutputFormat where
  | text | json
deriving DecidableEq

structure Arguments where
  file : String
  position : Option Nat
  sequential : Bool
  format : OutputFormat
  noColor : Bool
deriving DecidableEq

def Arguments.options (a : Arguments) : Options :=
  ⟨if a.sequential then .sequential else .parallel⟩

/-- Why arguments are not run. -/
inductive ArgumentError where
  /-- An argument that is not known, or one file too many. -/
  | unknown (argument : String)
  /-- An option without its value, or an empty file name. -/
  | missingValue (name : String)
  /-- A value that is none of the possible ones. -/
  | noSuchChoice (name value : String)
  /-- A value that is no number, or too large. -/
  | noNumber (name value : String)
  /-- An option or flag that is given twice. -/
  | repeated (name : String)
  /-- A value for a flag. -/
  | needlessValue (name : String)
  | missingFile
  | helpWanted
  | versionWanted
deriving DecidableEq

def ArgumentError.message : ArgumentError → String
  | .unknown argument => "unexpected argument '" ++ argument ++ "' found"
  | .missingValue name => "a value is required for '" ++ name ++ "' but none was supplied"
  | .noSuchChoice name value | .noNumber name value =>
    "invalid value '" ++ value ++ "' for '" ++ name ++ "'"
  | .repeated name => "the argument '" ++ name ++ "' cannot be used multiple times"
  | .needlessValue name => "unexpected value for '" ++ name ++ "' found; no more were expected"
  | .missingFile => "the required file was not provided"
  | .helpWanted | .versionWanted => ""

namespace Arguments

/-! ## Values -/

/-- The number that a value with an optional sign writes. -/
def signed? (value : List Char) : Option Int :=
  let digits? (cs : List Char) : Option Nat :=
    if cs.isEmpty || !cs.all Char.isDigit then none
    else some (cs.foldl (fun n c => n * 10 + (c.toNat - '0'.toNat)) 0)
  match value with
  | '-' :: cs => (digits? cs).map fun n => -Int.ofNat n
  | '+' :: cs => (digits? cs).map Int.ofNat
  | cs => (digits? cs).map Int.ofNat

def position? (value : String) : Option Nat :=
  match signed? value.toList with
  | some n => if 0 ≤ n ∧ n < Int.ofNat Offset.limit then some n.toNat else none
  | none => none

def format? (value : String) : Option OutputFormat :=
  match value.toLower with
  | "text" => some .text
  | "json" => some .json
  | _ => none

/-! ## Reading arguments -/

/-- An argument whose value is not taken over yet; an option may still wait for its value. -/
inductive Pending where
  | position (value : Option String)
  | format (value : Option String)
  | file (value : String)
deriving DecidableEq

/-- What is read so far. -/
structure Progress where
  file : Option String
  position : Option Nat
  format : Option OutputFormat
  sequential : Bool
  noColor : Bool
  pending : Option Pending
  /-- A file was named. -/
  fileNamed : Bool
  /-- All further arguments are files. -/
  onlyFiles : Bool
deriving DecidableEq

namespace Progress

def start : Progress := ⟨none, none, none, false, false, none, false, false⟩

/-- Takes over the pending value. -/
def settle (s : Progress) : Except ArgumentError Progress :=
  let s' := { s with pending := none }
  match s.pending with
  | none => .ok s
  | some (.position none) => .error (.missingValue "--position")
  | some (.position (some value)) =>
    if s.position.isSome then .error (.repeated "--position")
    else match position? value with
      | some n => .ok { s' with position := some n }
      | none => .error (.noNumber "--position" value)
  | some (.format none) => .error (.missingValue "--format")
  | some (.format (some value)) =>
    if s.format.isSome then .error (.repeated "--format")
    else match format? value with
      | some f => .ok { s' with format := some f }
      | none => .error (.noSuchChoice "--format" value)
  | some (.file "") => .error (.missingValue "FILE")
  | some (.file value) => .ok { s' with file := some value }

/-- Starts an option. A value that is attached to it is taken over at once. -/
def option (s : Progress) (make : Option String → Pending) (value : Option String) :
    Except ArgumentError Progress := do
  let s := { ← s.settle with pending := some (make value) }
  if value.isSome then s.settle else return s

/-- Reads `--name` or `--name=value`. -/
def long (s : Progress) (name : String) (value : Option String) :
    Except ArgumentError Progress := do
  match name with
  | "position" => s.option .position value
  | "format" => s.option .format value
  | "sequential" =>
    if value.isSome then throw (.needlessValue "--sequential")
    let s ← s.settle
    if s.sequential then throw (.repeated "--sequential")
    return { s with sequential := true }
  | "no-color" =>
    if value.isSome then throw (.needlessValue "--no-color")
    let s ← s.settle
    if s.noColor then throw (.repeated "--no-color")
    return { s with noColor := true }
  | "help" =>
    if value.isSome then throw (.needlessValue "--help")
    let _ ← s.settle
    throw .helpWanted
  | "version" =>
    if value.isSome then throw (.needlessValue "--version")
    let _ ← s.settle
    throw .versionWanted
  | _ => throw (.unknown ("--" ++ name))

/-- Reads `-x`, where `rest` follows the letter. -/
def short (s : Progress) (letter : Char) (rest : List Char) : Except ArgumentError Progress := do
  match letter with
  | 'p' =>
    let value := match rest with
      | [] => none
      | '=' :: cs => some (String.ofList cs)
      | cs => some (String.ofList cs)
    s.option .position value
  | 'h' =>
    let _ ← s.settle
    throw .helpWanted
  | 'V' =>
    let _ ← s.settle
    throw .versionWanted
  | _ => throw (.unknown (String.ofList ['-', letter]))

/-- Reads the value of the option that waits for one, or a file. -/
def value (s : Progress) (argument : String) : Except ArgumentError Progress := do
  match s.onlyFiles, s.pending with
  | false, some (.position none) =>
    return { s with pending := some (.position (some argument)) }
  | false, some (.format none) => return { s with pending := some (.format (some argument)) }
  | _, _ =>
    if s.fileNamed then throw (.unknown argument)
    return { ← s.settle with pending := some (.file argument), fileNamed := true }

def next (s : Progress) (argument : String) : Except ArgumentError Progress :=
  if s.onlyFiles then s.value argument
  else match argument.toList with
    | ['-', '-'] => .ok { s with onlyFiles := true }
    | '-' :: '-' :: cs =>
      let name := String.ofList (cs.takeWhile (· != '='))
      match cs.dropWhile (· != '=') with
      | [] => s.long name none
      | _ :: value => s.long name (some (String.ofList value))
    | '-' :: letter :: rest => s.short letter rest
    | _ => s.value argument

def finish (s : Progress) : Except ArgumentError Arguments := do
  let s ← s.settle
  match s.file with
  | none => throw .missingFile
  | some file =>
    return { file, position := s.position, sequential := s.sequential
             format := s.format.getD .text, noColor := s.noColor }

end Progress

def parse (arguments : List String) : Except ArgumentError Arguments := do
  (← arguments.foldlM Progress.next Progress.start).finish

end Arguments

end Caret
