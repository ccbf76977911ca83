import Avr.Machine.Form
import Avr.Source.Location

namespace Avr

/-- The source asks for something that has no code. -/
inductive SemanticError
  | unknownIdentifier (name : String)
  | unknownMnemonic (name : String)
  | unsupported
  | differentSizes
  | invalidArgument
  | constantExpected
  | divisionByZero
  | valueTooBig
  | registerExpected
  | loopForm
  | outsideLoop
  | lowAddressExpected
  | bitExpected
  | unknownBit (name : String)
  | destinationUsed (name : String)
  | clobberedMove
  | notInline (name : String)
  | recursiveInline (name : String)
  | unknownArgument (name : String)
  | argumentCount (expected found : Nat)
  | singleArgument (found : Nat)
  | noArguments
  | unknownFunction (name : String)
  | labelDefined (name : String)
  | procedureDefined (name : String)
  | variableDefined (name : String)
  | globalAliasDefined (name : String)
  | localAliasDefined (name : String)
  | pinDefined (name : String)
  | invalidPin (name : String)
  | unknownVector (name : String)
  | invalidDirective (name : String)
  | wrongOrigin (k : Int32)
  | externalsUnavailable
  | outOfRam (name : String)
  | noRam
  | variableExpected (found : String)
  /-- A name that stands for itself, directly or through others. -/
  | cyclicName (name : String)
deriving DecidableEq

/-- A name or an address cannot be settled once all labels are placed. -/
inductive ResolutionError
  | labelNotFound (name : String)
  | external (symbol : String)
  | overlap (address : Nat)
  | divisionByZero
  | missingProbe (name : String)
deriving DecidableEq

/-- A block is larger than the place it has to fill. -/
inductive BudgetError
  | singleInstruction (found : Nat)
  | tooManyInstructions (max found : Nat)
  | tooLarge (max found : Nat)
deriving DecidableEq

inductive Error
  | semantic (e : SemanticError)
  | encoding (e : EncodingError)
  | resolution (e : ResolutionError)
  | budget (e : BudgetError)
deriving DecidableEq

inductive Warning
  | pinRedefined (pin : String)
  | nameShadowed (name : String)
  | zeroArgument
  | duplicateBit (bit : Nat)
deriving DecidableEq

namespace SemanticError

def message : SemanticError → String
  | unknownIdentifier n => "Unknown identifier: " ++ n
  | unknownMnemonic n => "Unknown instruction: " ++ n
  | unsupported => "Unsupported operation"
  | differentSizes => "Operands has different sizes"
  | invalidArgument => "Invalid argument"
  | constantExpected => "Constant expected"
  | divisionByZero => "Division by zero"
  | valueTooBig => "Value too big"
  | registerExpected => "Register or pair expected"
  | loopForm => "Wrong loop syntax"
  | outsideLoop => "Parent cycle not found"
  | lowAddressExpected => "Low (0..31) address expected"
  | bitExpected => "Bit number expected (0..7)"
  | unknownBit n => "Unknown bit: " ++ n
  | destinationUsed n => "Destination register can't be used inside the expression: " ++ n
  | clobberedMove => "Register moves can't be ordered without overwriting a source"
  | notInline n => "Not inline function call: " ++ n
  | recursiveInline n => "Recursive inline call: " ++ n
  | unknownArgument n => "Unknown argument: " ++ n
  | argumentCount e f =>
    "Wrong arguments count: expected " ++ toString e ++ ", but found " ++ toString f
  | singleArgument f => "One argument expected but " ++ toString f ++ " found"
  | noArguments => "At least one argument expected"
  | unknownFunction n => "Unknown function: " ++ n
  | labelDefined n => "Label already defined: " ++ n
  | procedureDefined n => "Procedure already defined: " ++ n
  | variableDefined n => "Variable already defined: " ++ n
  | globalAliasDefined n => "Global alias " ++ n ++ " already defined"
  | localAliasDefined n => "Local alias " ++ n ++ " already defined"
  | pinDefined n => "Pin already defined: " ++ n
  | invalidPin n => "Invalid pin: " ++ n
  | unknownVector n => "Unknown interrupt vector: " ++ n
  | invalidDirective n => "Invalid directive: " ++ n
  | wrongOrigin k => "Wrong org address: " ++ toString k.toInt
  | externalsUnavailable => "External objects can be used only in GCC-mode"
  | outOfRam n => "Out of RAM: " ++ n
  | noRam => "Device has no RAM"
  | variableExpected f => "Variable expected: " ++ f
  | cyclicName n => "Name defined by itself: " ++ n

end SemanticError

namespace ResolutionError

def message : ResolutionError → String
  | labelNotFound n => "Label not found: " ++ n
  | external s => "External symbol " ++ s ++ " can't be resolved without a linker"
  | overlap a => "Overlapping code blocks at 0x" ++ Numeral.hex 4 a
  | divisionByZero => "Division by zero in address expression"
  | missingProbe n => "Internal error: probe label " ++ n ++ " not found"

end ResolutionError

namespace BudgetError

def message : BudgetError → String
  | singleInstruction f => "Single instructions expected (but " ++ toString f ++ " found)"
  | tooManyInstructions m f =>
    "Block too large: expected " ++ toString m ++ " instructions but found " ++ toString f
  | tooLarge m f =>
    "Block too large: expected " ++ toString m ++ ", but found " ++ toString f ++ " bytes"

end BudgetError

namespace Error

def message : Error → String
  | semantic e => e.message
  | encoding e => e.message
  | resolution e => e.message
  | budget e => e.message

end Error

namespace Warning

def message : Warning → String
  | pinRedefined p => "Pin redefined: " ++ p
  | nameShadowed n => "Name shadowed: " ++ n
  | zeroArgument => "zero argument"
  | duplicateBit b => "Duplicate bit in bitmask: " ++ toString b

end Warning

/-- Outcome of a phase: the first fault stops it. -/
abbrev Checked (α : Type) := Except (Located Error) α

end Avr
