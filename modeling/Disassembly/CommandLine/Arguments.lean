import Disassembly.Isa.Operand
import Disassembly.Text.Number

namespace Disassembly.CommandLine

/-- How many values an option takes. -/
inductive Takes
  | nothing
  | one
  | many
deriving DecidableEq, Repr

/-- An argument in its role. -/
inductive Item
  | positional (text : String)
  | flag (option : String)
  | value (option : String) (text : String)
deriving DecidableEq, Repr

/-- What the arguments so far leave open. -/
inductive Pending
  | nothing
  /-- The option has to get a value, and may get more if it takes many. -/
  | needs (option : String) (more : Bool)
  /-- The option has values and may get more. -/
  | accepts (option : String)
deriving DecidableEq, Repr

/-- The options of a command, and the names that begin a command inside it. -/
structure Grammar where
  options : List (String × Takes)
  commands : List String

/-- An argument that starts with a hyphen and is not only that: the option, and its value if
one is attached by an equals sign. -/
def option? (arg : String) : Option (String × Option String) :=
  match arg.toList with
  | '-' :: c :: cs =>
    let chars := '-' :: c :: cs
    let name := String.ofList (chars.takeWhile (· ≠ '='))
    match chars.dropWhile (· ≠ '=') with
    | _ :: value => some (name, some (String.ofList value))
    | [] => some (name, none)
  | _ => none

/-- Gives each argument its role behind `items`, latest first, up to the name of a command,
which is left over with what follows it. A double hyphen makes the rest positional. -/
def Grammar.itemsFrom? (g : Grammar) (pending : Pending) (items : List Item) :
    List String → Option (List Item × List String)
  | [] =>
    match pending with
    | .needs _ _ => none
    | _ => some (items.reverse, [])
  | arg :: args =>
    match pending, option? arg with
    | .needs _ _, some _ => none
    | .needs option more, none =>
      g.itemsFrom? (if more then .accepts option else .nothing) (.value option arg :: items) args
    | .accepts option, none => g.itemsFrom? pending (.value option arg :: items) args
    | .nothing, none =>
      if g.commands.contains arg then some (items.reverse, arg :: args)
      else g.itemsFrom? .nothing (.positional arg :: items) args
    | _, some (name, attached) =>
      if arg = "--" then some (items.reverse ++ args.map .positional, [])
      else
        match g.options.lookup name, attached with
        | some .nothing, none => g.itemsFrom? .nothing (.flag name :: items) args
        | some .one, some v => g.itemsFrom? .nothing (.value name v :: items) args
        | some .many, some v => g.itemsFrom? .nothing (.value name v :: items) args
        | some .one, none => g.itemsFrom? (.needs name false) items args
        | some .many, none => g.itemsFrom? (.needs name true) items args
        | _, _ => none

def Grammar.items? (g : Grammar) (args : List String) : Option (List Item × List String) :=
  g.itemsFrom? .nothing [] args

def positionals (items : List Item) : List String :=
  items.filterMap fun
    | .positional text => some text
    | _ => none

/-- All values of an option. -/
def values (items : List Item) (option : String) : List String :=
  items.filterMap fun
    | .value name text => if name = option then some text else none
    | _ => none

/-- The value of an option that may stand once. -/
def value? (items : List Item) (option : String) : Option (Option String) :=
  match values items option with
  | [] => some none
  | [text] => some (some text)
  | _ => none

/-- Whether a flag that may stand once is set. -/
def flag? (items : List Item) (option : String) : Option Bool :=
  match items.filter (· = .flag option) with
  | [] => some false
  | [_] => some true
  | _ => none

/-- What `read?` makes of an option's value, or the default where there is none. -/
def readOr? {α : Type} (default : α) (read? : String → Option α) : Option String → Option α
  | none => some default
  | some text => read? text

/-- A count of sixty-four bits. -/
def count? (text : String) : Option Nat :=
  (readNumber 10 UInt64.size text.toList).toOption

/-- A load address. Zero may have a minus sign. -/
def base? (text : String) : Option Address :=
  match text.toList with
  | ['-'] => none
  | '-' :: cs => (readDigits 10 1 0 cs).toOption.map UInt32.ofNat
  | cs => (readNumber 10 UInt32.size cs).toOption.map UInt32.ofNat

/-- A path to read the configuration from cannot be empty. -/
def configPath? (text : String) : Option (Option String) :=
  if text = "" then none else some (some text)

inductive Format
  | text
  | json
deriving DecidableEq, Repr

def Format.ofName? : String → Option Format
  | "text" => some text
  | "json" => some json
  | _ => none

/-- What `analyze` is asked for. -/
structure Analysis where
  entries : List String
  limit : Nat
  format : Format
  listing : Bool
  showBytes : Bool
  labelsIn : Option String
  labelsOut : Option String
  out : Option String
deriving DecidableEq, Repr

inductive Command
  | sections
  | range (start stop : String) (showBytes : Bool) (out : Option String)
  | analyze (analysis : Analysis)
deriving DecidableEq, Repr

structure Invocation where
  base : Address
  skip : Nat
  length : Option Nat
  config : Option String
  color : Bool
  input : String
  command : Command
deriving DecidableEq, Repr

def mainGrammar : Grammar where
  options :=
    [("--base", .one), ("--skip", .one), ("--len", .one), ("--config", .one), ("--color", .nothing)]
  commands := ["sections", "range", "analyze"]

def sectionsGrammar : Grammar where
  options := []
  commands := []

def rangeGrammar : Grammar where
  options := [("--show-bytes", .nothing), ("--out", .one)]
  commands := []

def analyzeGrammar : Grammar where
  options :=
    [("--entry", .many), ("--max-instr", .one), ("--format", .one), ("--listing", .nothing),
     ("--show-bytes", .nothing), ("--labels-in", .one), ("--labels-out", .one), ("--out", .one)]
  commands := []

/-- The number of instructions after which an analysis stops unless another is given. -/
def defaultLimit : Nat := 100000

def Analysis.ofItems? (items : List Item) : Option Analysis := do
  let limit ← readOr? defaultLimit count? (← value? items "--max-instr")
  let format ← readOr? .text Format.ofName? (← value? items "--format")
  let listing ← flag? items "--listing"
  let showBytes ← flag? items "--show-bytes"
  let labelsIn ← value? items "--labels-in"
  let labelsOut ← value? items "--labels-out"
  let out ← value? items "--out"
  guard (positionals items).isEmpty
  return { entries := values items "--entry", limit, format, listing, showBytes, labelsIn,
           labelsOut, out }

def Command.ofArguments? (name : String) (args : List String) : Option Command := do
  match name with
  | "sections" =>
    let (items, _) ← sectionsGrammar.items? args
    guard items.isEmpty
    return .sections
  | "range" =>
    let (items, _) ← rangeGrammar.items? args
    let showBytes ← flag? items "--show-bytes"
    let out ← value? items "--out"
    match positionals items with
    | [start, stop] => return .range start stop showBytes out
    | _ => none
  | "analyze" =>
    let (items, _) ← analyzeGrammar.items? args
    return .analyze (← Analysis.ofItems? items)
  | _ => none

/-- What a command line asks for. Options of the program stand before the command. -/
def Invocation.ofArguments? (args : List String) : Option Invocation := do
  let (items, rest) ← mainGrammar.items? args
  let base ← readOr? 0 base? (← value? items "--base")
  let skip ← readOr? 0 count? (← value? items "--skip")
  let length ← readOr? none (fun text => (count? text).map some) (← value? items "--len")
  let config ← readOr? none configPath? (← value? items "--config")
  let color ← flag? items "--color"
  match positionals items, rest with
  | [input], name :: args =>
    return { base, skip, length, config, color, input, command := ← Command.ofArguments? name args }
  | _, _ => none

end Disassembly.CommandLine
