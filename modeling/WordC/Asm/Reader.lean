import WordC.Asm.Image
import WordC.Text.Quoted
/-!
Reading assembly text.

A file is read line by line.  A line holds a label, a directive, an instruction
or nothing, and `#` starts a comment anywhere.  Labels may be used before they
are defined, so jumps are checked once the whole file is read.
-/

namespace WordC
namespace Asm

namespace ReadError

/-- What is wrong with a line. -/
inductive Cause where
  | duplicateLabel (name : Text)
  | exportArity (directive : Text)
  | unknownInstruction (op : Text)
  | operandCount (op : Mnemonic) (got : Nat)
  | missingOperand
  | badOperand
  | immediateOutOfRange
  | unterminatedMemory
  | badBase (base : Text)
  | badOffset (offset : Text)
  | undefinedLabel (name : Text)
deriving Repr, DecidableEq

def Cause.text : Cause → Text
  | duplicateLabel name => utf8 "duplicate label " ++ name
  | exportArity directive => directive ++ utf8 " takes one symbol"
  | unknownInstruction op => utf8 "unknown instruction " ++ op
  | operandCount op got =>
    op.text ++ utf8 " takes " ++ Text.ofNat op.arity ++ utf8 " operands, got " ++ Text.ofNat got
  | missingOperand => utf8 "missing operand"
  | badOperand => utf8 "bad operand"
  | immediateOutOfRange => utf8 "immediate out of range"
  | unterminatedMemory => utf8 "unterminated memory operand"
  | badBase base => utf8 "bad base register " ++ base
  | badOffset offset => utf8 "bad displacement " ++ offset
  | undefinedLabel name => utf8 "undefined label " ++ name

/-- A cause and the text it is about. -/
structure Spot where
  near : Text
  cause : Cause
deriving Repr, DecidableEq

end ReadError

inductive ReadError where
  | malformed (line : Int) (spot : ReadError.Spot)
  /-- A line has more bytes than the reader holds. -/
  | lineTooLong
deriving Repr, DecidableEq

namespace ReadError

def message : ReadError → Text
  | malformed line spot =>
    utf8 "asm: line " ++ Text.ofInt line ++ utf8 " near " ++ spot.near.quoted ++ utf8 ": " ++
      spot.cause.text
  | lineTooLong => utf8 "bufio.Scanner: token too long"

end ReadError

namespace Reader

open ReadError

abbrev Read := Except Spot

/-- Splits `base+offset` in front of the sign.  A sign at the very start belongs
to the base. -/
def splitOffset (inner : Text) : Text × Text :=
  let isSign (b : UInt8) : Bool := b = Byte.plus || b = Byte.minus
  let base := inner.takeWhile fun b => !isSign b
  if base.isEmpty then (inner, []) else (base, inner.dropWhile fun b => !isSign b)

/-- Reads `[base]`, `[base+offset]` or `[base-offset]`, with spaces anywhere
inside. -/
def readMemory (field : Text) : Read Operand :=
  if field.getLast? ≠ some Byte.rightBracket then .error ⟨field, .unterminatedMemory⟩
  else
    let (base, offset) := splitOffset (field.tail.dropLast.filter (· ≠ Byte.space))
    match Register.wide.find? (·.text = base) with
    | none => .error ⟨field, .badBase base⟩
    | some r =>
      if offset.isEmpty then .ok (.memory r 0)
      else
        match Text.readInteger offset with
        | .ok value => .ok (.memory r value)
        | .error _ => .error ⟨field, .badOffset offset⟩

/-- Reads one operand.  Anything after a jump is a label. -/
def readOperand (jump : Bool) (field : Text) : Read Operand :=
  if field.isEmpty then .error ⟨field, .missingOperand⟩
  else if jump then .ok (.target field)
  else
    match Register.ofText? field with
    | some r => .ok (.register r)
    | none =>
      if field.head? = some Byte.leftBracket then readMemory field
      else if !field.isSignedNumber then .error ⟨field, .badOperand⟩
      else
        match Text.readDecimal field with
        | .ok value => .ok (.immediate value)
        | .error _ => .error ⟨field, .immediateOutOfRange⟩

def readOperands (jump : Bool) : List Text → Read (List Operand)
  | [] => .ok []
  | field :: rest => do
    let first ← readOperand jump (Text.trim field)
    let others ← readOperands jump rest
    return first :: others

/-- Reads a mnemonic and its operands.  Only a space ends the mnemonic. -/
def readInstruction (line : Text) : Read Instruction :=
  let name := line.takeWhile (· ≠ Byte.space)
  match Mnemonic.ofText? name with
  | none => .error ⟨line, .unknownInstruction name⟩
  | some op => do
    let rest := Text.trim (line.drop (name.length + 1))
    let operands ←
      if rest.isEmpty then pure [] else readOperands op.isJump (rest.splitOn Byte.comma)
    if operands.length ≠ op.arity then throw ⟨line, .operandCount op operands.length⟩
    return ⟨op, operands⟩

/-- Reads a directive.  Those that do not export a symbol mean nothing here. -/
def readDirective (line : Text) (image : Image) : Read Image :=
  match Text.words line with
  | directive :: arguments =>
    if directive = utf8 ".globl" || directive = utf8 ".global" then
      match arguments with
      | [name] => .ok { image with globals := image.globals ++ [name] }
      | _ => .error ⟨line, .exportArity directive⟩
    else .ok image
  | [] => .ok image

/-- Reads a line that is not blank. -/
def readStatement (number : Nat) (line : Text) (image : Image) : Read Image :=
  if line.getLast? = some Byte.colon then
    let label := line.dropLast
    match image.index? label with
    | some _ => .error ⟨line, .duplicateLabel label⟩
    | none =>
      .ok { image with labels := image.labels ++ [(label, (image.instructions.size : Int))] }
  else if line.head? = some Byte.dot then readDirective line image
  else do
    let i ← readInstruction line
    return { image with instructions := image.instructions.push ⟨number, i⟩ }

/-- What a line means: comments and white space at the ends do not count. -/
def significant (line : Text) : Text := Text.trim (line.takeWhile (· ≠ Byte.hash))

def readLine (number : Nat) (line : Text) (image : Image) : Read Image :=
  let line := significant line
  if line.isEmpty then .ok image else readStatement number line image

/-- The length from which a line is too long. -/
def lineLimit : Nat := 65536

/-- The line without the carriage return that may end it. -/
def dropReturn (line : Text) : Text :=
  if line.getLast? = some Byte.carriageReturn then line.dropLast else line

/-- Reads lines in order; the first failure ends the reading. -/
def readLines : Nat → List Text → Image → Except ReadError Image
  | _, [], image => .ok image
  | number, line :: rest, image =>
    if lineLimit ≤ line.length then .error .lineTooLong
    else
      match readLine number (dropReturn line) image with
      | .error spot => .error (.malformed number spot)
      | .ok image => readLines (number + 1) rest image

/-- The first jump to a label that is not defined. -/
def undefinedJump? (image : Image) : Option ReadError :=
  image.instructions.toList.findSome? fun p =>
    match p.instruction.op.isJump, p.instruction.operands with
    | true, target :: _ =>
      if (image.index? target.label).isSome then none
      else some (.malformed p.line ⟨p.instruction.text, .undefinedLabel target.label⟩)
    | _, _ => none

end Reader

namespace Image

/-- The image that an assembly text describes. -/
def parse (source : Text) : Except ReadError Image :=
  match Reader.readLines 1 (source.splitOn Byte.newline) .empty with
  | .error e => .error e
  | .ok image =>
    match Reader.undefinedJump? image with
    | some e => .error e
    | none => .ok image

end Image
end Asm
end WordC
