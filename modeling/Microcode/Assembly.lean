import Microcode.Lowering

/-!
Assembly of whole shaders.

The inputs of the host, the uniform buffers and the register files are declared first.  A function
`init` copies builtin inputs, literals and buffer addresses into their registers; the secondary
program becomes a function that runs once before the primary one.  The entry point calls both, runs
the primary program and copies the colour or the varyings out of the registers.
-/

namespace Microcode

open Emit

/-- An assembled shader with its samplers by register and the varyings it writes. -/
structure Assembled where
  stage : Stage
  listing : Listing
  samplers : OrderedMap Sampler
  written : BitVec 14

namespace Assembly

/-- A builtin input and the primary attribute it is copied to. -/
structure BuiltinCopy where
  place : Place
  register : Nat

/-- Declares an input; a generic one is bound to its registers. -/
def bindInput (input : Input) : Emit (Option BuiltinCopy) := do
  match input.meaning with
  | .generic =>
    if input.components < 1 || 4 < input.components then
      throw (.metadata (.inputComponents input.location input.components))
    let place ← declare
      ⟨"in" ++ toString input.location, ⟨.f32, input.components⟩, .input input.location⟩
    bind .primaryAttribute input.register (.vector place input.components)
    return none
  | .vertexIndex =>
    let place ← declare ⟨"vertex_index", Shape.i32, .builtinInput .vertexIndex⟩
    return some ⟨place, input.register⟩
  | .instanceIndex =>
    let place ← declare ⟨"instance_index", Shape.i32, .builtinInput .instanceIndex⟩
    return some ⟨place, input.register⟩

/-- A buffer is an array of groups over the secondary attributes. -/
def bindUniformBuffer (b : UniformBuffer) : Emit Unit := do
  let length := (b.size + 15) / 16
  if length = 0 then return
  let place ← declare ⟨"ubo" ++ toString b.index, Shape.group, .uniformArray b.index length⟩
  bind .secondaryAttribute b.start (.array place length)

/-- The location after the inputs. -/
def nextLocation (inputs : List Input) : Emit Nat := do
  let locations ← inputs.mapM fun i => word (i.location + 1)
  return (locations.max?).getD 0

/-- Declares the colour that a fragment is drawn over, if the host shows it. -/
def declareLastColor (ctx : Context) : Emit (Option Place) := do
  if ctx.shader.stage = .fragment && ctx.features.directColor then
    let location ← nextLocation ctx.shader.inputs
    some <$> declare ⟨"last_color", Shape.group, .input location⟩
  else return none

/-- Declares storage for every register that nothing else holds.  There are four internal
registers. -/
def declareRegisterFiles (s : Shader) : Emit Unit := do
  declareBank .temporary s.temporaries
  declareBank .output s.outputs
  declareBank .primaryAttribute s.primaryAttributes
  declareBank .secondaryAttribute s.secondaryAttributes
  declareBank .internal 16

def copyBuiltin (ctx : Context) (copy : BuiltinCopy) : Emit Unit := do
  let v ← load copy.place
  Access.store ctx (.ofRegister .primaryAttribute copy.register .s32) v 0b0001 0 none

def copyLiteral (ctx : Context) (l : Literal) : Emit Unit := do
  match ctx.shader.literal l.offset with
  | .error e => throw e
  | .ok bits =>
    let v ← constant (.f32 bits)
    Access.store ctx (.ofRegister .secondaryAttribute l.register .f32) v 0b0001 0 none

def copyBaseAddress (ctx : Context) (b : UniformBuffer) : Emit Unit := do
  match b.baseRegister? with
  | none => return
  | some register =>
    let v ← constant (.u32 b.baseAddress)
    Access.store ctx (.ofRegister .secondaryAttribute register .u32) v 0b0001 0 none

/-- The body of `init`. -/
def fillRegisters (ctx : Context) (copies : List BuiltinCopy) : Emit Unit := do
  copies.forM (copyBuiltin ctx)
  ctx.shader.literals.forM (copyLiteral ctx)
  ctx.shader.uniformBuffers.forM (copyBaseAddress ctx)

/-- The register that holds the colour of a fragment. -/
def colorRegister (f : FragmentOutput) : Operand :=
  .ofRegister (if f.native then .output else .primaryAttribute) f.start f.element

/-- Puts the colour that the fragment is drawn over into the colour register. -/
def seedColor (ctx : Context) (place : Place) : Emit Unit := do
  let dest := colorRegister ctx.shader.fragment
  let color ← load place
  let color ←
    if dest.element.isFloat then pure color else Access.ofFloat color dest.element true
  Access.store ctx dest color 0b1111 0 none

/-- Writes the colour of the fragment.  Integers are normalized unless the host takes them. -/
def writeColor (ctx : Context) : Emit Unit := do
  let source := colorRegister ctx.shader.fragment
  let color ← Access.load ctx source 0b1111 0
  let color ←
    if source.element.isFloat || ctx.features.nativeColor then pure color
    else Access.toFloat color source.element true
  let place ← declare ⟨"out_color", ← shapeOf color, .output 0⟩
  store place color

/-- The clip position in the convention of the host: `y` is negated, and depth goes from zero to
`w`. -/
def flipPosition (position : Value) : Emit Value := do
  let y ← extract position 1
  let z ← extract position 2
  let w ← extract position 3
  let y ← unary .neg y
  let half ← constant (.f32 0x3f000000#32)
  let z ← binary .add z w
  let z ← binary .mul z half
  let flipped ← insert position y 1
  insert flipped z 2

/-- A varying of vertex shaders: the bit that enables it, its name, and the lanes it takes in the
outputs. -/
structure Varying where
  bit : Nat
  name : String
  lanes : Nat
  deriving DecidableEq, Repr

def texcoord (v : VertexOutputs) (k : Nat) : Varying :=
  let components := v.texcoordComponents.getD k 0
  ⟨4 + k, "v_texcoord" ++ toString k, if components = 0 then 4 else min components 4⟩

def varyings (v : VertexOutputs) : List Varying :=
  [⟨0, "position", 4⟩, ⟨1, "v_color0", 4⟩, ⟨2, "v_color1", 4⟩, ⟨3, "v_fog", 2⟩] ++
    (List.range 10).map (texcoord v)

def declarePosition : Emit Place :=
  declare ⟨"position", Shape.group, .builtinOutput .position⟩

/-- Writes the position, which a shader that has none writes as zero. -/
def writePosition (ctx : Context) (enabled : Bool) : Emit Unit := do
  if enabled then
    let position ← Access.load ctx (.ofRegister .output 0 .f32) 0b1111 0
    let place ← declarePosition
    store place (← if ctx.options.viewportFlip then flipPosition position else pure position)
  else
    let place ← declarePosition
    store place (← splatConstant (.f32 0#32) 4)

/-- Writes the enabled varyings, from output lane `lane` on, to consecutive locations. -/
def writeVaryings (ctx : Context) : (lane location : Nat) → List Varying → Emit Unit
  | _, _, [] => pure ()
  | lane, location, v :: rest => do
    if ctx.shader.vertexOutputs.enabled.getLsbD v.bit then
      let value ← Access.load ctx (.ofRegister .output lane .f32) 0b1111 0
      let place ← declare ⟨v.name, Shape.group, .output location⟩
      store place value
      writeVaryings ctx (lane + v.lanes) (location + 1) rest
    else writeVaryings ctx lane location rest

def writeVertexOutputs (ctx : Context) : Emit Unit := do
  let outputs := ctx.shader.vertexOutputs
  let positioned := outputs.enabled.getLsbD 0
  writePosition ctx positioned
  writeVaryings ctx (if positioned then 4 else 0) 0 (varyings outputs).tail

/-- The secondary program as a function, if there is one. -/
def secondaryFunction (ctx : Context) : Emit (Option Function) := do
  if ctx.shader.secondary.isEmpty then return none
  let f ← beginFunction "secondary"
  lowerStream ctx ctx.shader.secondary true
  endFunction
  return some f

/-- Emits the whole shader. -/
def emitShader (ctx : Context) : Emit Unit := do
  let copies ← ctx.shader.inputs.mapM bindInput
  ctx.shader.uniformBuffers.forM bindUniformBuffer
  let lastColor ← declareLastColor ctx
  declareRegisterFiles ctx.shader
  let init ← beginFunction "init"
  fillRegisters ctx (copies.filterMap id)
  endFunction
  let secondary ← secondaryFunction ctx
  beginEntry
  call init
  lastColor.forM (seedColor ctx)
  secondary.forM call
  lowerStream ctx ctx.shader.primary false
  match ctx.shader.stage with
  | .fragment => writeColor ctx
  | .vertex => writeVertexOutputs ctx

end Assembly

/-- Assembles a shader for a target; the first fault ends it. -/
def assemble (ctx : Context) (target : Target) : Except Error Assembled :=
  match Assembly.emitShader ctx { listing := { target := target } } with
  | .error e _ => .error e
  | .ok _ w => .ok
    { stage := ctx.shader.stage
      listing := w.listing
      samplers := .ofList (ctx.shader.samplers.map fun s => (s.register, s))
      written := if ctx.shader.stage = .vertex then ctx.shader.vertexOutputs.enabled else 0 }

end Microcode
