import Microcode.Spirv.Draft

/-!
SPIR-V modules of listings.
-/

namespace Microcode
namespace Spirv

def term (v : Value) : Draw Term := do return (← get).terms.getD v.index default

def withScalar (s : Shape) (scalar : Scalar) : Shape := ⟨scalar, s.count⟩

/-- A value with at least `count` components: a scalar is repeated, and a vector is continued by its
last component. -/
def widen (t : Term) (count : Nat) : Draw Term := do
  if count ≤ t.shape.count then return t
  let shape : Shape := ⟨t.shape.scalar, count⟩
  if t.shape.isScalar then result .compositeConstruct shape (ids (List.replicate count t.id))
  else
    result .vectorShuffle shape
      (ids [t.id, t.id] ++ plain ((List.range count).map (min · (t.shape.count - 1))))

def widenPair (a b : Term) : Draw (Term × Term) := do
  let count := max a.shape.count b.shape.count
  let a ← widen a count
  let b ← widen b count
  return (a, b)

def bitcast (t : Term) (scalar : Scalar) : Draw Term := do
  if t.shape.scalar = scalar then return t
  else result .bitcast (withScalar t.shape scalar) (ids [t.id])

def constant (c : Constant) : Draw Term := do
  return ⟨← constantId c.scalar c.lane, ⟨c.scalar, 1⟩⟩

def splatConstant (c : Constant) (count : Nat) : Draw Term := do
  let t ← constant c
  if count ≤ 1 then return t
  else result .compositeConstruct ⟨c.scalar, count⟩ (ids (List.replicate count t.id))

def extract (t : Term) (index : Nat) : Draw Term := do
  if t.shape.isScalar then return t
  else result .compositeExtract ⟨t.shape.scalar, 1⟩ [.id t.id, .word index]

/-- Shuffles take vectors only, and a single pick is an extraction. -/
def shuffle (a b : Term) (indices : List Nat) : Draw Term := do
  let left := a.shape.count
  match indices with
  | [i] => if i < left then extract a i else extract b (i - left)
  | _ =>
    let wideA ← widen a 2
    let wideB ← widen b 2
    let picks := indices.map fun i => if i < left then i else i - left + wideA.shape.count
    result .vectorShuffle ⟨a.shape.scalar, indices.length⟩ (ids [wideA.id, wideB.id] ++ plain picks)

/-- What an operation on integers is. -/
def integerOp (op : BinaryOp) (signed : Bool) : Opcode ⊕ MathFunction :=
  match op with
  | .add => .inl .iAdd
  | .sub => .inl .iSub
  | .mul => .inl .iMul
  | .div => .inl (if signed then .sDiv else .uDiv)
  | .and => .inl .bitwiseAnd
  | .or => .inl .bitwiseOr
  | .xor => .inl .bitwiseXor
  | .shl => .inl .shiftLeftLogical
  | .shr => .inl .shiftRightLogical
  | .asr => .inl .shiftRightArithmetic
  | .min => .inr (if signed then .sMin else .uMin)
  | .max => .inr (if signed then .sMax else .uMax)

/-- What an operation on floats is; bitwise operations have none. -/
def floatOp? : BinaryOp → Option (Opcode ⊕ MathFunction)
  | .add => some (.inl .fAdd)
  | .sub => some (.inl .fSub)
  | .mul => some (.inl .fMul)
  | .div => some (.inl .fDiv)
  | .min => some (.inr .fMin)
  | .max => some (.inr .fMax)
  | _ => none

def truthOp : BinaryOp → Opcode
  | .and | .mul | .min => .logicalAnd
  | .or | .add | .max => .logicalOr
  | _ => .logicalNotEqual

def apply (op : Opcode ⊕ MathFunction) (shape : Shape) (args : List Id) : Draw Term :=
  match op with
  | .inl opcode => result opcode shape (ids args)
  | .inr f => mathResult f shape args

/-- Bitwise operations on floats are done on their bits. -/
def binary (op : BinaryOp) (a b : Term) : Draw Term := do
  let (a, b) ← widenPair a b
  match a.shape.scalar with
  | .f32 =>
    match floatOp? op with
    | some o => apply o a.shape [a.id, b.id]
    | none =>
      let x ← bitcast a .u32
      let y ← bitcast b .u32
      let bits ← apply (integerOp op false) x.shape [x.id, y.id]
      bitcast bits .f32
  | .i32 => apply (integerOp op true) a.shape [a.id, b.id]
  | .u32 => apply (integerOp op false) a.shape [a.id, b.id]
  | .bool => result (truthOp op) a.shape (ids [a.id, b.id])

/-- Negation of a truth value and the absolute value of what has no sign leave it as it is. -/
def unary (op : UnaryOp) (a : Term) : Draw Term := do
  match op, a.shape.scalar with
  | .neg, .f32 => result .fNegate a.shape (ids [a.id])
  | .neg, .i32 | .neg, .u32 => result .sNegate a.shape (ids [a.id])
  | .abs, .f32 => mathResult .fAbs a.shape [a.id]
  | .abs, .i32 => mathResult .sAbs a.shape [a.id]
  | .not, .bool => result .logicalNot a.shape (ids [a.id])
  | .not, .i32 | .not, .u32 => result .not a.shape (ids [a.id])
  | .not, .f32 =>
    let bits ← bitcast a .u32
    let flipped ← result .not bits.shape (ids [bits.id])
    bitcast flipped .f32
  | .neg, .bool | .abs, .u32 | .abs, .bool => return a

def select (condition a b : Term) : Draw Term := do
  let (a, b) ← widenPair a b
  let condition ← widen condition a.shape.count
  result .select a.shape (ids [condition.id, a.id, b.id])

/-- Truth values as the one and the zero of a scalar. -/
def ofTruth (t : Term) (scalar : Scalar) : Draw Term := do
  let one ← splatConstant (.ofNumber scalar Binary32.one) t.shape.count
  let zero ← splatConstant (.zero scalar) t.shape.count
  select t one zero

/-- Comparison of two values of one scalar; truth values are compared for equality only. -/
def compareOpcode (op : CompareOp) (scalar : Scalar) : Opcode :=
  match scalar, op with
  | .f32, .eq => .fOrdEqual
  | .f32, .ne => .fUnordNotEqual
  | .f32, .lt => .fOrdLessThan
  | .f32, .le => .fOrdLessThanEqual
  | .f32, .gt => .fOrdGreaterThan
  | .f32, .ge => .fOrdGreaterThanEqual
  | .bool, .eq => .logicalEqual
  | .bool, _ => .logicalNotEqual
  | _, .eq => .iEqual
  | _, .ne => .iNotEqual
  | .i32, .lt => .sLessThan
  | .i32, .le => .sLessThanEqual
  | .i32, .gt => .sGreaterThan
  | .i32, .ge => .sGreaterThanEqual
  | .u32, .lt => .uLessThan
  | .u32, .le => .uLessThanEqual
  | .u32, .gt => .uGreaterThan
  | .u32, .ge => .uGreaterThanEqual

def comparePair (op : CompareOp) (a b : Term) : Draw Term :=
  result (compareOpcode op a.shape.scalar) (withScalar a.shape .bool) (ids [a.id, b.id])

/-- What a number becomes when truth values are to be ordered: they are taken as numbers. -/
def asNumber (t : Term) : Draw Term := do
  match t.shape.scalar with
  | .bool => ofTruth t .u32
  | .u32 => return t
  | .f32 => result .convertFToU (withScalar t.shape .u32) (ids [t.id])
  | .i32 => result .bitcast (withScalar t.shape .u32) (ids [t.id])

def compare (op : CompareOp) (a b : Term) : Draw Term := do
  let (a, b) ← widenPair a b
  if a.shape.scalar = .bool && op ≠ .eq && op ≠ .ne then
    let x ← asNumber a
    let y ← asNumber b
    comparePair op x y
  else comparePair op a b

def mathBuiltin? (f : Builtin) (scalar : Scalar) : Option MathFunction :=
  match f with
  | .floor => some .floor
  | .fract => some .fract
  | .round => some .round
  | .sign => some .fSign
  | .inverseSqrt => some .inverseSqrt
  | .exp2 => some .exp2
  | .log2 => some .log2
  | .step => some .step
  | .mix => some .fMix
  | .clamp =>
    match scalar with
    | .i32 => some .sClamp
    | .u32 => some .uClamp
    | .f32 | .bool => some .fClamp
  | .dot | .dfdx | .dfdy => none

def builtin (f : Builtin) (args : List Term) : Draw Term := do
  let count := ((args.map fun a => a.shape.count).max?).getD 1
  let wide ← args.mapM (widen · count)
  let first := wide.getD 0 default
  match mathBuiltin? f first.shape.scalar with
  | some g => mathResult g first.shape (wide.map Term.id)
  | none =>
    match f with
    | .dfdx => result .dPdx first.shape (ids [first.id])
    | .dfdy => result .dPdy first.shape (ids [first.id])
    | _ =>
      let opcode := if first.shape.isScalar then Opcode.fMul else .dot
      result opcode Shape.f32 (ids [first.id, (wide.getD 1 default).id])

def convertOpcode (conversion : Conversion) (source target : Scalar) : Opcode :=
  match conversion, source, target with
  | .numeric, .f32, .i32 => .convertFToS
  | .numeric, .f32, .u32 => .convertFToU
  | .numeric, .i32, .f32 => .convertSToF
  | .numeric, .u32, .f32 => .convertUToF
  | _, _, _ => .bitcast

def convert (conversion : Conversion) (t : Term) (scalar : Scalar) : Draw Term := do
  let source := t.shape.scalar
  if source = scalar then return t
  else if source = .bool then ofTruth t scalar
  else if scalar = .bool then
    let zero ← splatConstant (.zero source) t.shape.count
    compare .ne t zero
  else result (convertOpcode conversion source scalar) (withScalar t.shape scalar) (ids [t.id])

def regionOf : Storage → Region
  | .input _ | .builtinInput _ => .input
  | .output _ | .builtinOutput _ => .output
  | .hidden => .hidden
  | .uniformArray _ _ => .uniform

def isArray : Storage → Bool
  | .uniformArray _ _ => true
  | _ => false

/-- A pointer to a place: the variable itself, or an element of its block. -/
def pointer (p : Place) : Draw Id := do
  let (base, v) := (← get).vars.getD p.variableIndex default
  if !isArray v.storage && p.path.isEmpty then return base
  let origin ← indexId 0
  let element ← indexId (p.path.getLast?.getD 0)
  let pointee ← typeId v.shape
  let type ← pointerType (regionOf v.storage) pointee
  let id ← freshId
  emit { opcode := .accessChain, type? := some type, result? := some id,
         arguments := ids [base, origin, element] }
  return id

/-- A pointer to the word at a byte offset of a memory. -/
def wordPointer (space : MemorySpace) (offset : Term) : Draw Id := do
  let base ← buffer space
  let offset ← bitcast offset .u32
  let two ← indexId 2
  let word ← result .shiftRightLogical Shape.u32 (ids [offset.id, two])
  let pointee ← typeId Shape.u32
  let type ← pointerType .storageBuffer pointee
  let origin ← indexId 0
  let id ← freshId
  emit { opcode := .accessChain, type? := some type, result? := some id,
         arguments := ids [base, origin, word.id] }
  return id

def define (shape : Shape) (op : Op) : Draw Term := do
  match op with
  | .constant c => constant c
  | .construct parts =>
    let parts ← parts.mapM term
    result .compositeConstruct shape (ids (parts.map Term.id))
  | .load place => do result .load shape (ids [← pointer place])
  | .extract v index => do extract (← term v) index
  | .insert v part index => do
    let t ← term v
    result .compositeInsert t.shape [.id (← term part).id, .id t.id, .word index]
  | .shuffle a b indices => do shuffle (← term a) (← term b) indices
  | .binary op a b => do binary op (← term a) (← term b)
  | .unary op a => do unary op (← term a)
  | .compare op a b => do compare op (← term a) (← term b)
  | .select c a b => do select (← term c) (← term a) (← term b)
  | .builtin f args => do builtin f (← args.mapM term)
  | .convert conversion v scalar => do convert conversion (← term v) scalar
  | .helper h v => do
    let function ← helper h
    result .functionCall h.shape (ids [function, (← term v).id])
  | .fetch space offset => do
    let p ← wordPointer space (← term offset)
    let word ← result .load Shape.u32 (ids [p])
    bitcast word .f32

/-- Declares a variable of its own; hidden ones start as zero. -/
def declarePlain (v : Variable) : Draw Id := do
  let region := regionOf v.storage
  let pointee ← typeId v.shape
  let type ← pointerType region pointee
  let id ← freshId
  if region = .hidden then
    let null ← freshId
    global { opcode := .constantNull, type? := some pointee, result? := some null }
    global { opcode := .variable, type? := some type, result? := some id,
             arguments := [.word region.code, .id null] }
  else
    global { opcode := .variable, type? := some type, result? := some id,
             arguments := [.word region.code] }
    modify fun d => { d with interface := d.interface.push id }
  match v.storage with
  | .input location | .output location => decorate id (.location location)
  | .builtinInput b | .builtinOutput b => decorate id (.builtin b)
  | .hidden | .uniformArray _ _ => pure ()
  return id

def declareVariable (v : Variable) : Draw Unit := do
  let id ← match v.storage with
    | .uniformArray binding _ => declareUniformArray v binding
    | _ => declarePlain v
  addName id v.name
  modify fun d => { d with vars := d.vars.push (id, v) }

def closeFunction : Draw Unit := modify fun d =>
  match d.opened with
  | some code =>
    { d with opened := none,
             functions := d.functions ++ code ++ #[{ opcode := .return }, { opcode := .functionEnd }] }
  | none => d

/-- Opens a function; one that is still open is dropped. -/
def openFunction (name : String) : Draw Unit := do
  let void ← voidType
  let type ← functionType void []
  let id ← freshId
  let label ← freshId
  addName id name
  modify fun d => { d with
    opened := some #[{ opcode := .function, type? := some void, result? := some id,
                       arguments := [.word 0, .id type] },
                     { opcode := .label, result? := some label }]
    functionIds := d.functionIds.push id }

def write : Entry → Draw Unit
  | .define shape op => do
    let t ← define shape op
    modify fun d => { d with terms := d.terms.push t }
  | .reuse _ _ => pure ()
  | .declare v => declareVariable v
  | .element _ index => do
    discard <| indexId 0
    discard <| indexId index
  | .store place v => do
    let p ← pointer place
    emit { opcode := .store, arguments := ids [p, (← term v).id] }
  | .storeMemory space offset v => do
    let p ← wordPointer space (← term offset)
    let t ← term v
    let word ← if t.shape.scalar = .bool then ofTruth t .u32 else bitcast t .u32
    emit { opcode := .store, arguments := ids [p, word.id] }
  | .beginFunction name => openFunction name
  | .endFunction | .beginEntry => closeFunction
  | .call f => do
    let void ← voidType
    let id ← freshId
    emit { opcode := .functionCall, type? := some void, result? := some id,
           arguments := ids [(← get).functionIds.getD f.index 0] }

end Spirv
end Microcode
