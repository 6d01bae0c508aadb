import StackMachine.Machine.Basic
import StackMachine.Text.Numeral

/-!
# Command-line arguments

The arguments of a command are options and operands in any order. An option is `--name`, with its
value behind an equals sign or in the next argument, or a letter, `-o`, with its value behind it,
behind an equals sign or in the next argument. `--` ends the options. No option may be given
twice, and a value in an argument of its own does not begin with a dash unless it is one.
-/

namespace StackMachine.Command

/-! ### Options -/

/-- An option that a command knows. -/
structure OptionForm where
  name : String
  /-- The letter that means the same. -/
  letter : Option Char
  takesValue : Bool
  deriving Repr, DecidableEq

/-- The arguments of a command, sorted. -/
structure Arguments where
  /-- The names of the options that were given, with their values. -/
  options : List (String × Option String)
  operands : List String
  deriving Repr, DecidableEq

namespace Arguments

/-- No argument. -/
def none : Arguments := { options := [], operands := [] }

/-- An option was given. -/
def has (a : Arguments) (name : String) : Bool := a.options.any (·.1 == name)

/-- The value that an option was given. -/
def value? (a : Arguments) (name : String) : Option String := (a.options.lookup name).join

/-- Add an option, unless it was given already. -/
def addOption (a : Arguments) (name : String) (value : Option String) : Option Arguments :=
  if a.has name then Option.none else some { a with options := (name, value) :: a.options }

/-- Add an operand behind the others. -/
def addOperand (a : Arguments) (operand : String) : Arguments :=
  { a with operands := a.operands ++ [operand] }

end Arguments

/-- The argument is taken for an option wherever it stands. -/
def looksLikeOption (argument : String) : Bool :=
  match argument.toList with
  | '-' :: _ :: _ => true
  | _ => false

/-- A value that begins with an equals sign is what stands behind it. -/
def afterEquals : List Char → String
  | '=' :: value => String.ofList value
  | value => String.ofList value

/-- Which option an argument names, and the value in the same argument. -/
def optionOf? (forms : List OptionForm) (argument : List Char) :
    Option (OptionForm × Option String) :=
  match argument with
  | '-' :: '-' :: long =>
    let name := String.ofList (long.takeWhile (· ≠ '='))
    let behind := long.dropWhile (· ≠ '=')
    (forms.find? (·.name == name)).map fun form =>
      (form, if behind = [] then Option.none else some (afterEquals behind))
  | '-' :: letter :: behind =>
    (forms.find? (·.letter == some letter)).map fun form =>
      (form, if behind = [] then Option.none else some (afterEquals behind))
  | _ => Option.none

/-- Sort arguments behind those that are sorted already. -/
def sortAfter (forms : List OptionForm) : Arguments → List String → Option Arguments
  | sorted, [] => some sorted
  | sorted, argument :: rest =>
    if argument = "--" then some (rest.foldl .addOperand sorted)
    else if looksLikeOption argument then
      match optionOf? forms argument.toList with
      | Option.none => Option.none
      | some (form, attached) =>
        match form.takesValue, attached, rest with
        | false, Option.none, rest =>
          (sorted.addOption form.name Option.none).bind (sortAfter forms · rest)
        | false, some _, _ => Option.none
        | true, some value, rest =>
          (sorted.addOption form.name (some value)).bind (sortAfter forms · rest)
        | true, Option.none, [] => Option.none
        | true, Option.none, value :: rest =>
          if looksLikeOption value then Option.none
          else (sorted.addOption form.name (some value)).bind (sortAfter forms · rest)
    else sortAfter forms (sorted.addOperand argument) rest

/-! ### Commands -/

/-- How a code is to be run and its outcome shown. -/
structure RunOptions where
  /-- Tell about every instruction. -/
  debug : Bool
  /-- Show the outcome as a document. -/
  json : Bool
  /-- Show a listing before the run. -/
  disasm : Bool
  limits : Limits
  deriving Repr, DecidableEq

/-- What is asked for. -/
inductive Request where
  /-- Show the version. -/
  | version
  /-- Load a program and run it. -/
  | run (file : String) (options : RunOptions)
  /-- Run a code that is given in hexadecimal. -/
  | exec (hex : String) (options : RunOptions)
  /-- Show the listing of a program. -/
  | disasm (file : String)
  /-- Assemble a source into a program file. -/
  | asm (source output : String)
  deriving Repr, DecidableEq

/-- The options of commands that run a code. -/
def runForms : List OptionForm :=
  [{ name := "debug", letter := none, takesValue := false },
   { name := "json", letter := none, takesValue := false },
   { name := "disasm", letter := none, takesValue := false },
   { name := "stack-capacity", letter := none, takesValue := true },
   { name := "locals-capacity", letter := none, takesValue := true }]

/-- The options of the command that assembles. -/
def asmForms : List OptionForm := [{ name := "output", letter := some 'o', takesValue := true }]

/-- A capacity: digits that may have a plus sign, and at most 64 bits. -/
def capacity? (text : String) : Option Nat :=
  let n? :=
    match text.toList with
    | '+' :: digits => Text.Numeral.natural? 10 digits
    | digits => Text.Numeral.natural? 10 digits
  n?.filter (· < 0x10000000000000000)

/-- The capacity that an option gives, or else the default. -/
def capacityOption? (a : Arguments) (name : String) (default : Nat) : Option Nat :=
  match a.value? name with
  | some text => capacity? text
  | none => some default

/-- How to run, as the options say. -/
def runOptions? (a : Arguments) : Option RunOptions := do
  let defaults : Limits := {}
  let stackCapacity ← capacityOption? a "stack-capacity" defaults.stackCapacity
  let localsCapacity ← capacityOption? a "locals-capacity" defaults.localsCapacity
  return { debug := a.has "debug", json := a.has "json", disasm := a.has "disasm",
           limits := { stackCapacity, localsCapacity } }

/-- The only operand of a command. -/
def operand? (a : Arguments) : Option String :=
  match a.operands with
  | [operand] => some operand
  | _ => none

/-- A path, which is never empty. -/
def path? (text : String) : Option String := if text = "" then none else some text

/-- Read the arguments of the program. There is no request if they ask for nothing that there is. -/
def Request.parse? : List String → Option Request
  | "run" :: rest => do
    let a ← sortAfter runForms .none rest
    return .run (← path? (← operand? a)) (← runOptions? a)
  | "exec" :: rest => do
    let a ← sortAfter runForms .none rest
    return .exec (← operand? a) (← runOptions? a)
  | "disasm" :: rest => do
    let a ← sortAfter [] .none rest
    return .disasm (← path? (← operand? a))
  | "asm" :: rest => do
    let a ← sortAfter asmForms .none rest
    return .asm (← path? (← operand? a)) (← path? (← a.value? "output"))
  | argument :: _ =>
    if argument = "--version" ∨ argument.startsWith "-V" then some .version else none
  | [] => none

end StackMachine.Command
