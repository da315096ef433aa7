import Typings.Text.Split

/-!
# Arguments

What is asked for on the command line. Options have long names behind two dashes, some
also a letter behind one dash. Letters can be run together, and the value of an option
stands behind an equals sign, directly behind its letter, or in the next argument. Two
dashes alone end the options.

## Main definitions

* `InitArguments`, `GenerateArguments`, `Request` — what can be asked for.
* `Request.ofArguments` — what some arguments ask for.
-/

namespace Typings

/-! ## Requests -/

/-- How a configuration file is to be written. -/
structure InitArguments where
  /-- The directory for generated files. -/
  outDir : Option String := none
  /-- A configuration file that is there already is replaced. -/
  force : Bool := false
  deriving DecidableEq, Repr

/-- How definition files are to be generated. -/
structure GenerateArguments where
  /-- A descriptor file, or a directory that holds such files. -/
  path : String := "."
  /-- Definitions are printed and no file is written. -/
  stdout : Bool := false
  /-- The directory for generated files. -/
  outDir : Option String := none
  /-- Namespaces become module declarations. -/
  declareModule : Bool := false
  /-- A reference that leads nowhere is a failure. -/
  strict : Bool := false
  deriving DecidableEq, Repr

/-- What can be asked for. -/
inductive Request where
  /-- The version. -/
  | version
  /-- How the command is used. -/
  | help
  /-- A configuration file. -/
  | init (arguments : InitArguments)
  /-- Definition files. -/
  | generate (arguments : GenerateArguments)
  /-- Nothing that makes sense. -/
  | invalid
  deriving DecidableEq, Repr

/-! ## Options -/

/-- An option of a command. -/
structure Switch where
  /-- The name behind two dashes. -/
  name : String
  /-- The letter behind one dash. -/
  letter : Option Char := none
  /-- Whether the option has a value. -/
  hasValue : Bool := false
  deriving DecidableEq, Repr

/-- What an argument gives: an option, perhaps with its value, or something without a name. -/
inductive Item where
  /-- An option without a value. -/
  | flag (name : String)
  /-- An option with its value. -/
  | value (name text : String)
  /-- An argument that is no option. -/
  | plain (text : String)
  deriving DecidableEq, Repr

/-- What one argument gives. -/
structure Given where
  /-- The items, as far as the argument is understood. -/
  items : List Item
  /-- An option that waits for its value in the next argument. -/
  waiting : Option String := none
  /-- Whether the whole argument is understood. -/
  understood : Bool := true
  deriving DecidableEq, Repr

/-- An argument that is not understood. -/
def Given.nothing : Given := { items := [], understood := false }

/-- Whether an argument can be the value of the option before it. -/
def isValue (argument : String) : Bool :=
  argument = "-" || argument.toList.head? != some '-'

/-- What some letters behind one dash give. An unknown letter ends them. -/
def readLetters (switches : List Switch) : List Char → Given
  | [] => { items := [] }
  | c :: rest =>
    match switches.find? (·.letter = some c) with
    | none => .nothing
    | some switch =>
      if switch.hasValue then
        match rest with
        | [] => { items := [], waiting := some switch.name }
        | '=' :: text => { items := [.value switch.name (String.ofList text)] }
        | text => { items := [.value switch.name (String.ofList text)] }
      else
        let more := readLetters switches rest
        { more with items := .flag switch.name :: more.items }

/-- What an argument behind two dashes gives. It is not understood if no option has the name, or
if it has a value that it should not have. -/
def readName (switches : List Switch) (text : List Char) : Given :=
  let (name, value?) := match Text.splitFirst '=' text with
    | some (name, value) => (name, some value)
    | none => (text, none)
  match switches.find? (·.name = String.ofList name) with
  | none => .nothing
  | some switch =>
    match switch.hasValue, value? with
    | true, some value => { items := [.value switch.name (String.ofList value)] }
    | true, none => { items := [], waiting := some switch.name }
    | false, none => { items := [.flag switch.name] }
    | false, some _ => .nothing

/-- What one argument gives, before the options end. -/
def readArgument (switches : List Switch) (argument : String) : Given :=
  match argument.toList with
  | '-' :: '-' :: name => readName switches name
  | '-' :: c :: letters => readLetters switches (c :: letters)
  | _ => { items := [.plain argument] }

/-- What some arguments give, in order, and whether all of them are understood. The items end
with the first argument that is not. -/
structure Reading where
  /-- The items. -/
  items : List Item
  /-- Whether all arguments are understood. -/
  complete : Bool
  deriving DecidableEq, Repr

/-- Put some items in front of a reading. -/
def Reading.after (items : List Item) (r : Reading) : Reading := ⟨items ++ r.items, r.complete⟩

/-- What some arguments give when an option may be waiting for its value. -/
def readArguments (switches : List Switch) : Option String → List String → Reading
  | none, [] => ⟨[], true⟩
  | some _, [] => ⟨[], false⟩
  | some name, argument :: rest =>
    if isValue argument then (readArguments switches none rest).after [.value name argument]
    else ⟨[], false⟩
  | none, argument :: rest =>
    if argument = "--" then ⟨rest.map Item.plain, true⟩
    else
      let given := readArgument switches argument
      if given.understood then (readArguments switches given.waiting rest).after given.items
      else ⟨given.items, false⟩

/-! ## Commands -/

/-- How many arguments are no options. -/
def plainCount (items : List Item) : Nat :=
  items.countP fun
    | .plain _ => true
    | _ => false

/-- How often an option is given. -/
def switchCount (name : String) (items : List Item) : Nat :=
  items.countP fun
    | .flag other => other = name
    | .value other _ => other = name
    | .plain _ => false

/-- The items before the first request for help, if there is one. -/
def beforeHelp? : List Item → Option (List Item)
  | [] => none
  | item :: rest =>
    if item = .flag "help" then some [] else (beforeHelp? rest).map (item :: ·)

/-- Whether no option is given twice and no more plain arguments are given than allowed. -/
def isOrderly (switches : List Switch) (plains : Nat) (items : List Item) : Bool :=
  switches.all (fun switch => switchCount switch.name items ≤ 1) && plainCount items ≤ plains

/-- What a command is asked for. A request for help comes first if all in front of it is in
order. -/
def readCommand (switches : List Switch) (plains : Nat) (command : List Item → Request)
    (arguments : List String) : Request :=
  let switches := switches ++ [{ name := "help", letter := some 'h' : Switch }]
  let reading := readArguments switches none arguments
  match beforeHelp? reading.items with
  | some items => if isOrderly switches plains items then .help else .invalid
  | none =>
    if reading.complete && isOrderly switches plains reading.items then command reading.items
    else .invalid

/-- The value that is given for an option. -/
def valueOf? (name : String) (items : List Item) : Option String :=
  items.findSome? fun
    | .value other text => if other = name then some text else none
    | _ => none

/-- The first argument that is no option. -/
def plain? (items : List Item) : Option String :=
  items.findSome? fun
    | .plain text => some text
    | _ => none

/-- The options for writing a configuration file. -/
def InitArguments.switches : List Switch :=
  [{ name := "out-dir", letter := some 'o', hasValue := true },
    { name := "force", letter := some 'f' }]

/-- A request for a configuration file. -/
def InitArguments.request (items : List Item) : Request :=
  .init { outDir := valueOf? "out-dir" items, force := items.contains (.flag "force") }

/-- The options for generating definition files. -/
def GenerateArguments.switches : List Switch :=
  [{ name := "stdout" }, { name := "out-dir", letter := some 'o', hasValue := true },
    { name := "declare-module" }, { name := "strict" }]

/-- A request for definition files. -/
def GenerateArguments.request (items : List Item) : Request :=
  .generate {
    path := (plain? items).getD "."
    stdout := items.contains (.flag "stdout")
    outDir := valueOf? "out-dir" items
    declareModule := items.contains (.flag "declare-module")
    strict := items.contains (.flag "strict") }

/-- What stands in place of a command: the first option counts. -/
def readGlobal (argument : String) : Request :=
  let switches : List Switch :=
    [{ name := "help", letter := some 'h' }, { name := "version", letter := some 'V' }]
  match (readArguments switches none [argument]).items with
  | .flag "help" :: _ => .help
  | .flag "version" :: _ => .version
  | _ => .invalid

/-- What a request for help on a command gives. -/
def readHelp : List String → Request
  | [] => .help
  | [command] => if command ∈ ["init", "generate", "help"] then .help else .invalid
  | _ => .invalid

/-- What some arguments ask for. -/
def Request.ofArguments : List String → Request
  | "init" :: rest => readCommand InitArguments.switches 0 InitArguments.request rest
  | "generate" :: rest => readCommand GenerateArguments.switches 1 GenerateArguments.request rest
  | "help" :: rest => readHelp rest
  | argument :: _ => readGlobal argument
  | [] => .invalid

end Typings
