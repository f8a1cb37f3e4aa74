/-! # What the command line asks for

There are two commands, each with one file:

* `build FILE [-o FILE] [-d STAGE] [--config FILE]`
* `check FILE [--config FILE]`

and `-v`, which counts, before or behind the command. An option has its value in the same argument
(`-oFILE`, `-o=FILE`, `--output=FILE`) or in the next one, which must not look like an option itself. No
option but `-v` may come twice, and `--` makes everything behind it a plain argument. -/

namespace Clausal

/-- A stage of the compiler that can be printed. -/
inductive Dump where
  | outline
  | tree
  | table
  | listing
deriving DecidableEq, Repr

def Dump.ofName? : String → Option Dump
  | "syntax" => some outline
  | "ir" => some tree
  | "ir-table" => some table
  | "bytecode" => some listing
  | _ => none

/-- What is to be done. -/
inductive Action where
  | build (file : String) (output : Option String) (dump : Option Dump) (config : Option String)
  | check (file : String) (config : Option String)
  /-- No command was given. -/
  | nothing
  | showHelp
  | showVersion
deriving DecidableEq, Repr

/-- What is to be done, and how talkative to be. -/
structure Request where
  verbose : Nat
  action : Action
deriving DecidableEq, Repr

/-- An option with a value. -/
inductive ValueOption where
  | output
  | dump
  | config
deriving DecidableEq, Repr

namespace ValueOption

def ofLong? : String → Option ValueOption
  | "output" => some output
  | "dump" => some dump
  | "config" => some config
  | _ => none

def ofShort? : Char → Option ValueOption
  | 'o' => some output
  | 'd' => some dump
  | _ => none

/-- A value fits an option: files have a name, and stages are known. -/
def accepts (value : String) : ValueOption → Bool
  | output | config => value ≠ ""
  | dump => (Dump.ofName? value).isSome

end ValueOption

/-- The arguments of a command, as far as they were read. -/
structure Given where
  verbose : Nat := 0
  file : Option String := none
  values : List (ValueOption × String) := []
deriving Repr

/-- Why the arguments of a command are not a request. -/
inductive Stop where
  | misuse
  | help
deriving DecidableEq, Repr

namespace Given

def addFile (g : Given) (file : String) : Except Stop Given :=
  match g.file with
  | some _ => .error .misuse
  | none => .ok { g with file := some file }

def addValue (g : Given) (option : ValueOption) (value : String) : Except Stop Given :=
  if (g.values.lookup option).isNone && option.accepts value then
    .ok { g with values := (option, value) :: g.values }
  else .error .misuse

def value? (g : Given) (option : ValueOption) : Option String := g.values.lookup option

end Given

namespace Request

/-- An argument that cannot be the value of the option in front of it. -/
def looksLikeOption (arg : String) : Bool := arg ≠ "-" && arg.toList.head? = some '-'

def splitLong (arg : String) : String × Option String :=
  let name := arg.toList.takeWhile (· ≠ '=')
  match arg.toList.dropWhile (· ≠ '=') with
  | [] => (String.ofList name, none)
  | _ :: value => (String.ofList name, some (String.ofList value))

/-- Letters behind a single hyphen. The answer has the option that still waits for its value. -/
def shortOptions (allowed : List ValueOption) (g : Given) :
    List Char → Except Stop (Given × Option ValueOption)
  | [] => .ok (g, none)
  | 'v' :: rest => shortOptions allowed { g with verbose := g.verbose + 1 } rest
  | 'h' :: _ => .error .help
  | c :: rest =>
    match (ValueOption.ofShort? c).filter allowed.contains with
    | none => .error .misuse
    | some option =>
      match rest with
      | [] => .ok (g, some option)
      | '=' :: value | value => do return (← g.addValue option (String.ofList value), none)

/-- A word behind two hyphens. The answer has the option that still waits for its value. -/
def longOption (allowed : List ValueOption) (g : Given) (word : String) :
    Except Stop (Given × Option ValueOption) :=
  match splitLong word with
  | ("verbose", none) => .ok ({ g with verbose := g.verbose + 1 }, none)
  | ("help", none) => .error .help
  | (name, value) =>
    match (ValueOption.ofLong? name).filter allowed.contains, value with
    | none, _ => .error .misuse
    | some option, none => .ok (g, some option)
    | some option, some value => do return (← g.addValue option value, none)

def argument (allowed : List ValueOption) (g : Given) (arg : String) :
    Except Stop (Given × Option ValueOption) :=
  match arg.toList with
  | '-' :: '-' :: word => longOption allowed g (String.ofList word)
  | '-' :: c :: letters => shortOptions allowed g (c :: letters)
  | _ => do return (← g.addFile arg, none)

def arguments (allowed : List ValueOption) (g : Given) : List String → Except Stop Given
  | [] => .ok g
  | arg :: rest =>
    if arg = "--" then rest.foldlM Given.addFile g
    else
      match argument allowed g arg with
      | .error stop => .error stop
      | .ok (g, none) => arguments allowed g rest
      | .ok (g, some option) =>
        match rest with
        | [] => .error .misuse
        | value :: rest =>
          if looksLikeOption value then .error .misuse
          else
            match g.addValue option value with
            | .ok g => arguments allowed g rest
            | .error stop => .error stop

/-- A command with its arguments. Flags behind the command count before those in front of it. -/
def command (verbose : Nat) (allowed : List ValueOption) (args : List String)
    (action : String → Given → Action) : Option Request :=
  match arguments allowed {} args with
  | .error .help => some { verbose, action := .showHelp }
  | .error .misuse => none
  | .ok g =>
    g.file.map fun file =>
      { verbose := if g.verbose = 0 then verbose else g.verbose, action := action file g }

/-- The letters behind a single hyphen in front of the command. -/
def leadingLetters (verbose : Nat) : List Char → Option (Nat ⊕ Action)
  | [] => some (.inl verbose)
  | 'v' :: rest => leadingLetters (verbose + 1) rest
  | 'h' :: _ => some (.inr .showHelp)
  | 'V' :: _ => some (.inr .showVersion)
  | _ => none

/-- The request that arguments make; nothing when they make none. -/
def ofArguments (verbose : Nat) : List String → Option Request
  | [] => some { verbose, action := .nothing }
  | "--" :: rest => if rest.isEmpty then some { verbose, action := .nothing } else none
  | "--verbose" :: rest => ofArguments (verbose + 1) rest
  | "--help" :: _ => some { verbose, action := .showHelp }
  | "--version" :: _ => some { verbose, action := .showVersion }
  | "help" :: rest =>
    if rest = [] || rest = ["build"] || rest = ["check"] then some { verbose, action := .showHelp }
    else none
  | "build" :: rest =>
    command verbose [.output, .dump, .config] rest fun file g =>
      .build file (g.value? .output) ((g.value? .dump).bind Dump.ofName?) (g.value? .config)
  | "check" :: rest =>
    command verbose [.config] rest fun file g => .check file (g.value? .config)
  | arg :: rest =>
    match arg.toList with
    | '-' :: c :: letters =>
      match leadingLetters verbose (c :: letters) with
      | some (.inl verbose) => ofArguments verbose rest
      | some (.inr action) => some { verbose, action }
      | none => none
    | _ => none

end Request

end Clausal
