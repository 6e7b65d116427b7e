import Btor2Mlir.Ebpf.Lifter

/-!
# What a section and a lifted function compute

Two interpreters over any interpretation of the dialect (`Interp`): every
operation an uninterpreted function of its operands, every comparison of a
conditional jump a test, every store an effect appended to a log.
`runSection` executes a section in order from position 0, a jump going to
the instruction labelled with its target, until `Exit`; `runFunc` executes a
lifted function from its entry block, binding a block's parameters to the
operands of the branch that reaches it, until the `ReturnOp`. Both take fuel:
a number of instructions, of blocks.

Over terms (`Term`), the free interpretation, the two agree on a section iff
they agree under every interpretation. On `r0 = 5; exit` they do not
(`buildXDPFunction_returns_initial_r0`).
-/

namespace Btor2Mlir
namespace Ebpf

/-- An interpretation of the dialect over values `V`. -/
structure Interp (V : Type) where
  op : OpKind → List V → V
  test : CondOp → V → V → Bool

/-- A store's effect: its width and operand values (base, offset, value). -/
abbrev Effect (V : Type) := Width × List V

variable {V : Type} (I : Interp V)

/-! ### Sequential execution -/

/-- The value of a register or an immediate. -/
def Operand.eval (regs : List V) : Operand → Option V
  | .reg r => regs[r]?
  | .imm i => some (I.op (.constant i) [])

/-- Register `r` set to `v`. -/
def setReg? (regs : List V) (r : Reg) (v : V) : Option (List V) :=
  if r < regs.length then some (regs.set r v) else none

/-- One `Bin`, `Un`, `Mem` or `LoadMapFd` on the registers and the log. -/
def execIns (regs : List V) (log : List (Effect V)) :
    Instruction → Option (List V × List (Effect V))
  | .bin b => do
    let v := I.op (.bin b.op) [← regs[b.dst]?, ← b.v.eval I regs]
    pure (← setReg? regs b.dst v, log)
  | .un u => do pure (← setReg? regs u.dst (I.op (.un u.op) [← regs[u.dst]?]), log)
  | .mem m => do
    let off := I.op (.constant m.access.offset) []
    let base ← regs[m.access.basereg]?
    if m.isLoad then pure (← setReg? regs m.value (I.op (.load m.access.width) [base, off]), log)
    else pure (regs, log ++ [(m.access.width, [base, off, ← regs[m.value]?])])
  | .loadMapFd l => do
    let v := I.op .loadMap [← regs[l.dst]?, I.op (.constant l.mapfd) []]
    pure (← setReg? regs l.dst v, log)
  | _ => none

/-- The section run in order from position `pc`: R0 and the store log at
`Exit`. -/
def runSection (prog : InstructionSeq) :
    Nat → Nat → List V → List (Effect V) → Option (V × List (Effect V))
  | 0, _, _, _ => none
  | fuel + 1, pc, regs, log => do
    let li ← prog[pc]?
    match li.ins with
    | .exit => do pure (← regs[0]?, log)
    | .jmp j => do
      let taken ← match j.cond with
        | none => pure true
        | some c => do pure (I.test c.op (← regs[c.left]?) (← c.right.eval I regs))
      let next ← if taken then prog.findIdx? (·.label = j.target) else pure (pc + 1)
      runSection prog fuel next regs log
    | ins => do
      let (regs, log) ← execIns I regs log ins
      runSection prog fuel (pc + 1) regs log

/-! ### Execution of the lifted function -/

/-- How a block's execution ends: a branch with its operand values, or a
return. -/
inductive Exit (V : Type) where
  | jump (dest : Nat) (args : List V)
  | ret (v : V)

/-- The operations of block `b` (with their positions) executed in order, its
parameters holding `args`, the results so far in `env`. A branch or a return
ends the block and must be its last operation: MLIR's verifier rejects a
block with an operation after its terminator, and its run fails there. -/
def execBlock (b : Nat) (args : List V) :
    List (Nat × Operation) → (Nat → Option V) → List (Effect V) → Option (Exit V × List (Effect V))
  | [], _, _ => none
  | (k, o) :: rest, env, log => do
    let vals ← o.operands.mapM fun
      | .arg b' i => if b' = b then args[i]? else none
      | .res k' => env k'
    match o.kind with
    | .branch d => do guard rest.isEmpty; pure (.jump d vals, log)
    | .ret => do guard rest.isEmpty; pure (.ret (← vals.head?), log)
    | .store w => execBlock b args rest env (log ++ [(w, vals)])
    | kind => execBlock b args rest (fun k' => if k' = k then some (I.op kind vals) else env k') log

/-- The function run from block `b` with parameters `args`: the returned
value and the store log. -/
def runFunc (f : Func) : Nat → Nat → List V → List (Effect V) → Option (V × List (Effect V))
  | 0, _, _, _ => none
  | fuel + 1, b, args, log => do
    match ← execBlock I b args (f.ops.enum.filter (·.2.block = b)) (fun _ => none) log with
    | (.jump d vals, log) => runFunc f fuel d vals log
    | (.ret v, log) => pure (v, log)

/-! ### The free interpretation -/

/-- Terms over the initial registers. -/
inductive Term where
  | init (r : Nat)
  | app (k : OpKind) (args : List Term)

/-- The initial register file, as terms. -/
def initTerms : List Term := (List.range ebpfRegisters).map .init

/-- `r0 = 5; exit` computes `MoveOp(r0, 5)` in order, but its lift returns R0's
initial value: the `ReturnOp` reads `m_lastBlock`'s first parameter instead
of the register. -/
theorem buildXDPFunction_returns_initial_r0 (test : CondOp → Term → Term → Bool) :
    runSection ⟨.app, test⟩ [⟨0, .bin ⟨.mov, 0, .imm 5⟩⟩, ⟨1, .exit⟩] 2 0 initTerms [] =
        some (.app (.bin .mov) [.init 0, .app (.constant 5) []], []) ∧
      ((buildXDPFunction [[⟨0, .bin ⟨.mov, 0, .imm 5⟩⟩, ⟨1, .exit⟩]]).bind fun f =>
        runFunc ⟨.app, test⟩ f 1 0 initTerms []) = some (.init 0, []) :=
  ⟨rfl, rfl⟩

end Ebpf
end Btor2Mlir
