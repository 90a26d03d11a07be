import Microcode.Code.Operator

/-!
Instructions of SPIR-V and their words.
-/

namespace Microcode
namespace Spirv

inductive Opcode where
  | name
  | extInstImport
  | extInst
  | memoryModel
  | entryPoint
  | executionMode
  | capability
  | typeVoid
  | typeBool
  | typeInt
  | typeFloat
  | typeVector
  | typeArray
  | typeRuntimeArray
  | typeStruct
  | typePointer
  | typeFunction
  | constantTrue
  | constantFalse
  | constant
  | constantNull
  | function
  | functionParameter
  | functionEnd
  | functionCall
  | variable
  | load
  | store
  | accessChain
  | decorate
  | memberDecorate
  | vectorShuffle
  | compositeConstruct
  | compositeExtract
  | compositeInsert
  | convertFToU
  | convertFToS
  | convertSToF
  | convertUToF
  | bitcast
  | sNegate
  | fNegate
  | iAdd
  | fAdd
  | iSub
  | fSub
  | iMul
  | fMul
  | uDiv
  | sDiv
  | fDiv
  | dot
  | logicalEqual
  | logicalNotEqual
  | logicalOr
  | logicalAnd
  | logicalNot
  | select
  | iEqual
  | iNotEqual
  | uGreaterThan
  | sGreaterThan
  | uGreaterThanEqual
  | sGreaterThanEqual
  | uLessThan
  | sLessThan
  | uLessThanEqual
  | sLessThanEqual
  | fOrdEqual
  | fUnordNotEqual
  | fOrdLessThan
  | fOrdGreaterThan
  | fOrdLessThanEqual
  | fOrdGreaterThanEqual
  | shiftRightLogical
  | shiftRightArithmetic
  | shiftLeftLogical
  | bitwiseOr
  | bitwiseXor
  | bitwiseAnd
  | not
  | dPdx
  | dPdy
  | label
  | return
  | returnValue
  deriving DecidableEq, Repr

def Opcode.code : Opcode → Nat
  | name => 5
  | extInstImport => 11
  | extInst => 12
  | memoryModel => 14
  | entryPoint => 15
  | executionMode => 16
  | capability => 17
  | typeVoid => 19
  | typeBool => 20
  | typeInt => 21
  | typeFloat => 22
  | typeVector => 23
  | typeArray => 28
  | typeRuntimeArray => 29
  | typeStruct => 30
  | typePointer => 32
  | typeFunction => 33
  | constantTrue => 41
  | constantFalse => 42
  | constant => 43
  | constantNull => 46
  | function => 54
  | functionParameter => 55
  | functionEnd => 56
  | functionCall => 57
  | .variable => 59
  | load => 61
  | store => 62
  | accessChain => 65
  | decorate => 71
  | memberDecorate => 72
  | vectorShuffle => 79
  | compositeConstruct => 80
  | compositeExtract => 81
  | compositeInsert => 82
  | convertFToU => 109
  | convertFToS => 110
  | convertSToF => 111
  | convertUToF => 112
  | bitcast => 124
  | sNegate => 126
  | fNegate => 127
  | iAdd => 128
  | fAdd => 129
  | iSub => 130
  | fSub => 131
  | iMul => 132
  | fMul => 133
  | uDiv => 134
  | sDiv => 135
  | fDiv => 136
  | dot => 148
  | logicalEqual => 164
  | logicalNotEqual => 165
  | logicalOr => 166
  | logicalAnd => 167
  | logicalNot => 168
  | select => 169
  | iEqual => 170
  | iNotEqual => 171
  | uGreaterThan => 172
  | sGreaterThan => 173
  | uGreaterThanEqual => 174
  | sGreaterThanEqual => 175
  | uLessThan => 176
  | sLessThan => 177
  | uLessThanEqual => 178
  | sLessThanEqual => 179
  | fOrdEqual => 180
  | fUnordNotEqual => 183
  | fOrdLessThan => 184
  | fOrdGreaterThan => 186
  | fOrdLessThanEqual => 188
  | fOrdGreaterThanEqual => 190
  | shiftRightLogical => 194
  | shiftRightArithmetic => 195
  | shiftLeftLogical => 196
  | bitwiseOr => 197
  | bitwiseXor => 198
  | bitwiseAnd => 199
  | not => 200
  | dPdx => 207
  | dPdy => 208
  | label => 248
  | .return => 253
  | returnValue => 254

/-- Functions of the extended instruction set for mathematics. -/
inductive MathFunction where
  | round
  | fAbs
  | sAbs
  | fSign
  | floor
  | fract
  | exp2
  | log2
  | inverseSqrt
  | fMin
  | uMin
  | sMin
  | fMax
  | uMax
  | sMax
  | fClamp
  | uClamp
  | sClamp
  | fMix
  | step
  | packUnorm2x16
  | packHalf2x16
  | unpackUnorm2x16
  | unpackHalf2x16
  deriving DecidableEq, Repr

def MathFunction.code : MathFunction → Nat
  | round => 1
  | fAbs => 4
  | sAbs => 5
  | fSign => 6
  | floor => 8
  | fract => 10
  | exp2 => 29
  | log2 => 30
  | inverseSqrt => 32
  | fMin => 37
  | uMin => 38
  | sMin => 39
  | fMax => 40
  | uMax => 41
  | sMax => 42
  | fClamp => 43
  | uClamp => 44
  | sClamp => 45
  | fMix => 46
  | step => 48
  | packUnorm2x16 => 57
  | packHalf2x16 => 58
  | unpackUnorm2x16 => 61
  | unpackHalf2x16 => 62

/-- Storage classes of variables. -/
inductive Region where
  | input
  | uniform
  | output
  | hidden
  | storageBuffer
  deriving DecidableEq, Repr

def Region.code : Region → Nat
  | input => 1
  | uniform => 2
  | output => 3
  | hidden => 6
  | storageBuffer => 12

inductive Decoration where
  | block
  | arrayStride (bytes : Nat)
  | builtin (builtin : BuiltinVariable)
  | location (location : Nat)
  | binding (binding : Nat)
  | descriptorSet (set : Nat)
  deriving DecidableEq, Repr

def builtinCode : BuiltinVariable → Nat
  | .position => 0
  | .fragCoord => 15
  | .vertexIndex => 42
  | .instanceIndex => 43

def Decoration.words : Decoration → List Nat
  | block => [2]
  | arrayStride n => [6, n]
  | builtin b => [11, builtinCode b]
  | location n => [30, n]
  | binding n => [33, n]
  | descriptorSet n => [34, n]

abbrev Id := Nat

/-- What follows the result of an instruction: the ids of other instructions, and plain words. -/
inductive Argument where
  | id (id : Id)
  | word (word : Nat)
  deriving DecidableEq, Repr

def Argument.value : Argument → Nat
  | id n => n
  | word n => n

structure Instr where
  opcode : Opcode
  type? : Option Id := none
  result? : Option Id := none
  arguments : List Argument := []
  deriving DecidableEq, Repr

namespace Instr

/-- The words after the first. -/
def operands (i : Instr) : List Nat :=
  i.type?.toList ++ i.result?.toList ++ i.arguments.map Argument.value

/-- The first word holds the number of words in its high half and the opcode in its low half. -/
def words (i : Instr) : List Lane :=
  (BitVec.ofNat 32 ((i.operands.length + 1) <<< 16 ||| i.opcode.code)) ::
    i.operands.map (BitVec.ofNat 32)

/-- Ids that the instruction refers to. -/
def uses (i : Instr) : List Id :=
  i.type?.toList ++ i.arguments.filterMap fun a =>
    match a with
    | .id id => some id
    | .word _ => none

end Instr

def ids (l : List Id) : List Argument := l.map .id

def plain (l : List Nat) : List Argument := l.map .word

/-- Little-endian words of bytes; the last word is filled with zeros. -/
def packBytes : List UInt8 → List Nat
  | [] => []
  | [a] => [a.toNat]
  | [a, b] => [a.toNat + 256 * b.toNat]
  | [a, b, c] => [a.toNat + 256 * b.toNat + 65536 * c.toNat]
  | a :: b :: c :: d :: rest =>
    (a.toNat + 256 * b.toNat + 65536 * c.toNat + 16777216 * d.toNat) :: packBytes rest

/-- A string in words; a zero byte ends it. -/
def stringWords (s : String) : List Nat := packBytes (s.toUTF8.data.toList ++ [0])

end Spirv
end Microcode
