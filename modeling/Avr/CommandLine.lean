import Avr.Compile
import Avr.Json.Device
import Avr.Json.Program
import Avr.Json.Reader
import Avr.Report

namespace Avr.CommandLine

inductive Flag
  | device | format | output | fill | hexWidth
deriving DecidableEq

namespace Flag

def all : List Flag := [device, format, output, fill, hexWidth]

def long : Flag → String
  | device => "device" | format => "format" | output => "output" | fill => "fill"
  | hexWidth => "hex-width"

def short? : Flag → Option Char
  | device => some 'd' | format => some 'f' | output => some 'o' | fill | hexWidth => none

end Flag

/-- What can be asked for in place of a compilation. -/
inductive Notice
  | help | version

namespace Notice

def ofLong? : String → Option Notice
  | "help" => some help
  | "version" => some version
  | _ => none

def ofShort? : Char → Option Notice
  | 'h' => some help
  | 'V' => some version
  | _ => none

def title : String := "Rat AVR compiler 1.0.0\n"

/-- Lines are at most 100 columns wide. -/
def usage : String := "
USAGE:
    ratc [OPTIONS] --device <FILE> --output <STEM> <PROGRAM>

ARGS:
    <PROGRAM>    Syntax tree produced by the front end (JSON)

OPTIONS:
    -d, --device <FILE>        Target device description (JSON)
    -f, --format <FORMAT>      Output format, may be repeated [default: hex] [possible values: bin,
                               hex, asm, gcc, map]
        --fill <BYTE>          Fill byte for gaps in binary images [default: 0x00]
    -h, --help                 Print help information
        --hex-width <BYTES>    Data bytes per Intel HEX record [default: 16]
    -o, --output <STEM>        Output path without extension
    -V, --version              Print version information
"

def text : Notice → String
  | help => title ++ usage
  | version => title

end Notice

/-- How one argument reads by itself. -/
inductive Word
  | operand
  /-- A flag with its value, as in `-fbin`, `-f=bin` or `--format=bin`. -/
  | attached (f : Flag) (value : String)
  /-- A flag whose value is the next argument. -/
  | detached (f : Flag)
  | notice (n : Notice)
  /-- Only operands follow. -/
  | terminator
  | unknown

namespace Word

def ofLong (cs : List Char) : Word :=
  let name := String.ofList (cs.takeWhile (· ≠ '='))
  match Flag.all.find? (·.long = name), cs.dropWhile (· ≠ '=') with
  | some f, _ :: value => attached f (String.ofList value)
  | some f, [] => detached f
  | none, _ :: _ => unknown
  | none, [] => ((Notice.ofLong? name).map notice).getD unknown

def ofShort (c : Char) (value : List Char) : Word :=
  match Flag.all.find? (·.short? = some c), value with
  | some f, [] => detached f
  | some f, '=' :: value => attached f (String.ofList value)
  | some f, value => attached f (String.ofList value)
  | none, _ => ((Notice.ofShort? c).map notice).getD unknown

/-- A dash alone is an operand. -/
def ofString (arg : String) : Word :=
  match arg.toList with
  | ['-', '-'] => terminator
  | '-' :: '-' :: cs => ofLong cs
  | '-' :: c :: cs => ofShort c cs
  | _ => operand

end Word

structure Arguments where
  /-- A flag without a value is one whose value was missing. -/
  flags : List (Flag × Option String) := []
  operands : List String := []

/-- Why reading the arguments stops. -/
inductive Stop
  | usage
  | notice (n : Notice)

namespace Arguments

def withFlag (f : Flag) (value : Option String) (a : Arguments) : Arguments :=
  { a with flags := (f, value) :: a.flags }

def withOperand (operand : String) (a : Arguments) : Arguments :=
  { a with operands := operand :: a.operands }

/-- A flag that waited for its value in vain. -/
def withoutValue (pending : Option Flag) (a : Arguments) : Arguments :=
  match pending with
  | some f => a.withFlag f none
  | none => a

/-- Reads arguments from left to right, up to the first that is unknown, comes too often or asks
for a notice. `pending` is a flag that waits for its value, and `room` tells how many operands may
still come. -/
def scan (pending : Option Flag) (room : Nat) : List String → Except Stop Arguments
  | [] => .ok (withoutValue pending {})
  | arg :: rest =>
    match Word.ofString arg, pending with
    | .operand, some f => (scan none room rest).map (withFlag f arg)
    | .operand, none =>
      match room with
      | 0 => .error .usage
      | room + 1 => (scan none room rest).map (withOperand arg)
    | .attached f value, p => (scan none room rest).map (withoutValue p ∘ withFlag f value)
    | .detached f, p => (scan (some f) room rest).map (withoutValue p)
    | .notice n, _ => .error (.notice n)
    | .terminator, p =>
      if rest.length ≤ room then .ok (withoutValue p { operands := rest }) else .error .usage
    | .unknown, _ => .error .usage

def values (a : Arguments) (f : Flag) : List (Option String) :=
  (a.flags.filter (·.1 = f)).map Prod.snd

end Arguments

/-- What to compile, and for which formats. Numbers are still text. -/
structure Request where
  device : String
  program : String
  stem : String
  formats : List Format
  fill : String
  hexWidth : String

namespace Request

/-- The value of a flag that comes at most once. -/
def single (default : String) : List (Option String) → Option String
  | [] => some default
  | [value] => value
  | _ => none

def ofArguments? (a : Arguments) : Option Request := do
  let [some device] := a.values .device | none
  let [some stem] := a.values .output | none
  let [program] := a.operands | none
  let formats ← (a.values .format).mapM (·.bind Format.ofName?)
  return {
    device, program, stem
    formats := if formats.isEmpty then [.hex] else formats
    fill := ← single "0x00" (a.values .fill)
    hexWidth := ← single "16" (a.values .hexWidth) }

def ofStrings (args : List String) : Except Stop Request := do
  match ofArguments? (← Arguments.scan none 1 args) with
  | some r => return r
  | none => throw .usage

end Request

/-- A decimal number, or a hexadecimal one after `0x`. -/
def number? (s : String) : Option Nat :=
  match s.toList with
  | '0' :: 'x' :: cs | '0' :: 'X' :: cs => Numeral.ofString? 16 (String.ofList cs)
  | _ => Numeral.ofString? 10 s

inductive Failure
  | usage
  | invalidFill
  | invalidHexWidth
  | unreadable (path : String)
  | malformed (path : String)
  | compilation (e : Located Error)
  | unwritable (path reason : String)

namespace Failure

def exitCode : Failure → Nat
  | usage => 2
  | _ => 1

def message : Failure → String
  | usage => "error: invalid arguments\n"
  | invalidFill => "Error: Invalid fill byte\n"
  | invalidHexWidth => "Error: Invalid Intel HEX record width\n"
  | unreadable path => "Error: Failed to open for reading: " ++ path ++ "\n"
  | malformed path => "Error: Malformed JSON input: " ++ path ++ "\n"
  | compilation e => (Report.ofErrors [e]).text
  | unwritable path reason =>
    "Error: Failed to open for writing: " ++ path ++ "\n\nCaused by:\n    " ++ reason ++ "\n"

end Failure

namespace Request

def options (r : Request) : Except Failure OutputOptions := do
  let some fill := (number? r.fill).filter (· < 256) | throw .invalidFill
  let some hexWidth := (number? r.hexWidth).filter fun n => 0 < n ∧ n < 256
    | throw .invalidHexWidth
  return { fill := UInt8.ofNat fill, hexWidth }

end Request

/-- How a run ends: what it shows and warns of, and why it failed if it did. -/
structure Outcome where
  notice : Option Notice := none
  warnings : List (Located Warning) := []
  result : Except Failure Unit

namespace Outcome

def exitCode (o : Outcome) : Nat :=
  match o.result with
  | .ok _ => 0
  | .error f => f.exitCode

/-- All that goes to the output stream. -/
def shown (o : Outcome) : String := (o.notice.map Notice.text).getD ""

/-- All that goes to the error stream. -/
def report (o : Outcome) : String :=
  (if o.warnings.isEmpty then "" else (Report.ofWarnings o.warnings).text) ++
    match o.result with
    | .ok _ => ""
    | .error f => f.message

end Outcome

/-- The files that a run can reach. -/
structure Files (m : Type → Type) where
  read : String → m (Option String)
  /-- Gives the reason if the file cannot be written. -/
  write : String → Artifact → m (Option String)

variable {m : Type → Type} [Monad m]

def readJson (files : Files m) (path : String) (decode : Json → Option α) :
    ExceptT Failure m α := do
  let some text ← files.read path | throw (.unreadable path)
  let some a := (Json.ofString? text).bind decode | throw (.malformed path)
  return a

/-- Writes one file for each format, up to the first that fails. -/
def writeAll (files : Files m) (stem : String) (artifacts : List (Format × Artifact)) :
    ExceptT Failure m Unit :=
  artifacts.forM fun (f, artifact) => do
    let path := stem ++ "." ++ f.fileExtension
    if let some reason ← files.write path artifact then throw (.unwritable path reason)

/-- Reads the inputs and compiles them. -/
def build (files : Files m) (r : Request) : ExceptT Failure m Compiled := do
  let options ← r.options
  let device ← readJson files r.device Device.ofJson?
  let program ← readJson files r.program (Program.ofJson? .loose)
  match compile device program (Outputs.ofFormats r.formats options) with
  | .ok compiled => return compiled
  | .error e => throw (.compilation e)

def finish (files : Files m) (stem : String) (c : Compiled) : ExceptT Failure m Unit := do
  match c.outputs.finish with
  | .ok artifacts => writeAll files stem artifacts
  | .error e => throw (.compilation e)

def run (files : Files m) (args : List String) : m Outcome := do
  match Request.ofStrings args with
  | .error .usage => return { result := .error .usage }
  | .error (.notice n) => return { notice := n, result := .ok () }
  | .ok r =>
    match ← (build files r).run with
    | .error f => return { result := .error f }
    | .ok c => return { warnings := c.warnings, result := ← (finish files r.stem c).run }

end Avr.CommandLine
