import Btor2Mlir.IR
import Btor2Mlir.Ebpf.Instruction
import Mathlib.Data.List.Sort

/-!
# The lifter: `Deserialize`, from a section to a function of blocks

`buildXDPFunction` creates the entry block with one parameter per register,
and `buildFunctionBody` walks the section: `collectBlocks` finds the offsets
where blocks start, and each range `[cur_op, next)` is translated into the
block registered at `cur_op`, with the registers reset to that block's
parameters; a block left without a terminator gets a branch to the block at
`next` carrying the registers. Instructions after the last boundary go to
`m_lastBlock`, which then gets the `ReturnOp`.

The state is explicit (`Deserialize`), every C++ member function a function
on it; a failed `assert`, `at` out of range or a missing map entry is `none`.
An operation's result is `.res k` for its position `k` among all the
operations created; the operations of a block, in order, are those tagged
with it.
-/

namespace Btor2Mlir
namespace Ebpf

/-- Modelled from the spec: `m_ebpfRegisters`, set in the translation header
(not under src/), is the instruction set's register count, "e.g. 11" (R0 to
R10). -/
def ebpfRegisters : Nat := 11

/-- The ebpf dialect's operations (and `ConstantOp`, `BranchOp`, `ReturnOp`).
`bin op` is the op class of each `Bin::Op` (`MOV` is `MoveOp`, `ARSH` is
`ShiftRAOp`, ...), `un op` that of each `Un::Op`; a load or store of 8 bytes
is `LoadOp`/`StoreOp`, of 4 bytes `Load32Op`/`Store32Op`, and so on. -/
inductive OpKind where
  | constant (imm : Int)
  | bin (op : BinOp)
  | un (op : UnOp)
  | load (w : Width)
  | store (w : Width)
  | loadMap
  | loadAddr
  | branch (dest : Nat)
  | ret
  deriving DecidableEq, Repr

/-- `mightHaveTrait<OpTrait::IsTerminator>`. -/
def OpKind.isTerminator : OpKind → Bool
  | .branch _ | .ret => true
  | _ => false

/-- An operation the lifter creates, with the block it goes to. -/
structure Operation where
  block : Nat
  kind : OpKind
  operands : List Val
  deriving DecidableEq, Repr

/-- The lifted function: the parameter count of each block (blocks are
numbered in creation order, the entry block is 0) and every operation. -/
structure Func where
  blocks : List Nat
  ops : List Operation
  deriving DecidableEq, Repr

/-- The operations of block `b`, in order. -/
def Func.blockOps (f : Func) (b : Nat) : List Operation := f.ops.filter (·.block = b)

/-- The parameters of block `b`: one per register. -/
def blockArgs (b : Nat) : List Val := (List.range ebpfRegisters).map (.arg b)

/-- The members of `Deserialize` that lifting reads and writes. -/
structure Deserialize where
  /-- `m_registers` -/
  registers : List Val
  /-- every operation created, in order -/
  ops : List Operation
  /-- the parameter count of each block created -/
  blocks : List Nat
  /-- `m_jumpBlocks` -/
  jumpBlocks : Nat → Option Nat
  /-- `m_lastBlock` -/
  lastBlock : Nat
  /-- the builder's insertion point: the end of this block -/
  insertion : Nat
  /-- `m_startOfNextBlock` -/
  startOfNextBlock : List Nat
  /-- `m_numBlocks` -/
  numBlocks : Nat
  /-- `m_jmpTargets` -/
  jmpTargets : List Nat

namespace Deserialize

/-- `m_registers.at(r)`. -/
def reg (s : Deserialize) (r : Reg) : Option Val := s.registers[r]?

/-- `m_registers.at(r) = v`. -/
def setReg (s : Deserialize) (r : Reg) (v : Val) : Option Deserialize :=
  if r < s.registers.length then some { s with registers := s.registers.set r v } else none

/-- Modelled from the spec: the op builders of the translation header
(`buildConstantOp`, `buildBinaryOp`, `buildUnaryOp`, `buildStoreOp`, not under
src/) each emit one operation over the given operands at the insertion point
and return its result. -/
def create (s : Deserialize) (k : OpKind) (args : List Val) : Deserialize × Val :=
  ({ s with ops := s.ops ++ [⟨s.insertion, k, args⟩] }, .res s.ops.length)

/-- `setInsertionPointToEnd(block)` and the registers reset to the block's
parameters. -/
def enter (s : Deserialize) (b : Nat) : Deserialize :=
  { s with insertion := b, registers := blockArgs b }

/-- The last operation of block `b` is a terminator. -/
def endsInTerminator (s : Deserialize) (b : Nat) : Bool :=
  ((s.ops.filter (·.block = b)).getLast?.map (·.kind.isTerminator)).getD false

/-- `createBinaryOp`. -/
def createBinaryOp (s : Deserialize) (bin : Bin) : Option Deserialize := do
  let lhs ← s.reg bin.dst
  let (s, rhs) ← match bin.v with
    | .imm i => pure (s.create (.constant i) [])
    | .reg r => do pure (s, ← s.reg r)
  let (s, res) := s.create (.bin bin.op) [lhs, rhs]
  s.setReg bin.dst res

/-- `createUnaryOp`. -/
def createUnaryOp (s : Deserialize) (un : Un) : Option Deserialize := do
  let rhs ← s.reg un.dst
  let (s, res) := s.create (.un un.op) [rhs]
  s.setReg un.dst res

/-- `createMemOp`: a load writes its register, a store writes none. -/
def createMemOp (s : Deserialize) (mem : Mem) : Option Deserialize := do
  let (s, offset) := s.create (.constant mem.access.offset) []
  let base ← s.reg mem.access.basereg
  if mem.isLoad then
    let (s, res) := s.create (.load mem.access.width) [base, offset]
    s.setReg mem.value res
  else
    pure (s.create (.store mem.access.width) [base, offset, ← s.reg mem.value]).1

/-- `createLoadMapOp`. -/
def createLoadMapOp (s : Deserialize) (loadMap : LoadMapFd) : Option Deserialize := do
  let (s, map) := s.create (.constant loadMap.mapfd) []
  let (s, res) := s.create .loadMap [← s.reg loadMap.dst, map]
  s.setReg loadMap.dst res

/-- Modelled from the spec: `buildJmpOp` (translation header, not under
src/). An unconditional jump "resolves the statically known successor block
for the target offset and emits a branch passing the current register
vector"; a conditional jump is "not lowered in this core". -/
def buildJmpOp (s : Deserialize) (jmp : Jmp) : Option Deserialize :=
  match jmp.cond with
  | none => do pure (s.create (.branch (← s.jumpBlocks jmp.target)) s.registers).1
  | some _ => some s

/-- `createJmpOp`: the target must be a later instruction whose position in
the section is its label. -/
def createJmpOp (prog : InstructionSeq) (s : Deserialize) (jmp : Jmp) (curLabel : Nat) :
    Option Deserialize := do
  guard (curLabel < jmp.target)
  let li ← prog[jmp.target]?
  guard (li.label = jmp.target)
  s.buildJmpOp jmp

/-- `createMLIR`: the kinds it does not lower are skipped. -/
def createMLIR (prog : InstructionSeq) (s : Deserialize) (ins : Instruction) (curLabel : Nat) :
    Option Deserialize :=
  match ins with
  | .bin b => s.createBinaryOp b
  | .un u => s.createUnaryOp u
  | .loadMapFd l => s.createLoadMapOp l
  | .jmp j => createJmpOp prog s j curLabel
  | .mem m => s.createMemOp m
  | .undefined | .call | .callx | .exit | .packet | .assume | .atomic | .assert
  | .incrementLoopCounter => some s

/-- The instructions at the positions `ps`, translated in order
(`createMLIR(prog.at(cur_op))` for each). -/
def translate (prog : InstructionSeq) : Deserialize → List Nat → Option Deserialize
  | s, [] => some s
  | s, p :: ps => do
    let li ← prog[p]?
    translate prog (← createMLIR prog s li.ins li.label) ps

/-- Modelled from the spec: `incrementBlocks` (translation header, not under
src/) allocates a block "with register-width parameters" for the offset,
records it in the block index, and appends and counts the offset as a block
start (the count the assertion in `collectBlocks` compares). That it also
enters the offset into `m_jmpTargets` is inferred from `collectBlocks`
(line 316), which calls it only for a target not yet in that set: nothing
else under src/ fills the set, and without the insertion the check would have
no effect. -/
def incrementBlocks (s : Deserialize) (jmpTo : Nat) : Deserialize :=
  { s with
    blocks := s.blocks ++ [ebpfRegisters]
    jumpBlocks := fun o => if o = jmpTo then some s.blocks.length else s.jumpBlocks o
    startOfNextBlock := s.startOfNextBlock ++ [jmpTo]
    numBlocks := s.numBlocks + 1
    jmpTargets := s.jmpTargets.insert jmpTo }

/-- The body of `collectBlocks`'s loop, for one instruction. -/
def collectStep (s : Deserialize) (li : LabeledInstruction) : Deserialize :=
  match li.ins with
  | .jmp jmp =>
    let s := if jmp.target ∈ s.jmpTargets then s else s.incrementBlocks jmp.target
    if jmp.cond.isSome then s.incrementBlocks (li.label + 1) else s
  | _ => s

/-- `collectBlocks`: the block starts, sorted. -/
def collectBlocks (s : Deserialize) (prog : InstructionSeq) : Option Deserialize :=
  let s := prog.foldl collectStep s
  if s.numBlocks = s.startOfNextBlock.length then
    some { s with startOfNextBlock := s.startOfNextBlock.insertionSort (· ≤ ·) }
  else none

/-- The end of a block of the boundary loop: if its last operation is no
terminator, a branch to the block at `next` carrying the registers, and that
block becomes `m_lastBlock`. -/
def closeBlock (s : Deserialize) (b next : Nat) : Option Deserialize :=
  if s.endsInTerminator b then some s
  else do
    let nb ← s.jumpBlocks next
    pure { ({ s with insertion := b }.create (.branch nb) s.registers).1 with lastBlock := nb }

/-- The boundary loop of `buildFunctionBody`; `cur` is `cur_op`. -/
def boundaryLoop (prog : InstructionSeq) : List Nat → Nat → Deserialize → Option (Nat × Deserialize)
  | [], cur, s => some (cur, s)
  | next :: rest, cur, s => do
    let b ← s.jumpBlocks cur
    let s ← translate prog (s.enter b) (List.range' cur (next - cur))
    boundaryLoop prog rest (max cur next) (← s.closeBlock b next)

/-- `buildFunctionBody`: the boundary loop, then the instructions after the
last boundary into `m_lastBlock`. -/
def buildFunctionBody (prog : InstructionSeq) (s : Deserialize) : Option Deserialize := do
  let s ← s.collectBlocks prog
  let (cur, s) ← boundaryLoop prog s.startOfNextBlock 0 s
  let s := if cur < prog.length then s.enter s.lastBlock else s
  translate prog s (List.range' cur (prog.length - cur))

/-- The state `buildXDPFunction` hands to `buildFunctionBody`: the entry
block, registered at offset 0, and the registers set to its parameters. -/
def init : Deserialize where
  registers := blockArgs 0
  ops := []
  blocks := [ebpfRegisters]
  jumpBlocks := fun o => if o = 0 then some 0 else none
  lastBlock := 0
  insertion := 0
  startOfNextBlock := []
  numBlocks := 0
  jmpTargets := []

end Deserialize

/-- `buildXDPFunction`: lift the first section, then return R0 from
`m_lastBlock`, read as that block's first parameter. -/
def buildXDPFunction (sections : List InstructionSeq) : Option Func := do
  let prog ← sections.head?
  let s ← Deserialize.buildFunctionBody prog Deserialize.init
  let s := ({ s with insertion := s.lastBlock }.create .ret [.arg s.lastBlock 0]).1
  pure ⟨s.blocks, s.ops⟩

/-- `0: goto 1; 1: exit`. The entry block ends in the jump's branch, so the
boundary loop synthesizes none and `m_lastBlock` stays the entry block: the
`ReturnOp` lands after the entry block's terminator, and block 1 gets no
operation. -/
theorem buildXDPFunction_return_after_branch :
    (buildXDPFunction [[⟨0, .jmp ⟨none, 1⟩⟩, ⟨1, .exit⟩]]).map
        (fun f => ((f.blockOps 0).map (·.kind), (f.blockOps 1).map (·.kind))) =
      some ([.branch 1, .ret], []) := by
  decide

end Ebpf
end Btor2Mlir
