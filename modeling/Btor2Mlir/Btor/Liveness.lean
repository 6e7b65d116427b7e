import Btor2Mlir.IR

/-!
# `BtorLivenessPass`: functional array writes made in place

The pass takes the first function of the module, which has two blocks, and
visits every `WriteOp` of the second (the loop body). `resultIsLiveAfter`
decides whether the write may mutate its base array: its result must have one
use, a branch, or an `IteOp` of the idiom `ite c, write(v, A, i), A` (or its
mirror) whose result feeds a branch; in the idiom `moveReadOpsBefore` first
moves every read of `A` after the select to just before it, and fails on any
other user of `A` after the select. On success `replaceWithWriteInPlace`
creates a `WriteInPlaceOp` over the write's operands right after it and moves
every use of the write to it; the write stays in place. `runOnOperation`
asserts that every write converts. A failed `assert` is `none`.

The model keeps the function's two blocks; a value's uses are counted over
both, as MLIR counts them.
-/

namespace Btor2Mlir
namespace Btor

/-- The op classes the pass tells apart. A `write` has operands (value, base,
index), a `read` (base, index), an `ite` (condition, true value, false
value). -/
inductive OpKind where
  | write
  | writeInPlace
  | read
  | ite
  | branch
  | other (name : String)
  deriving DecidableEq, Repr

/-- An operation of the function. -/
abbrev BOp := Op OpKind

/-- The module's first function: its entry block and its second block, the
loop body the pass rewrites. -/
structure Func where
  entry : List BOp
  body : List BOp
  deriving DecidableEq, Repr

namespace Func

/-- Every operation of the function. -/
def ops (f : Func) : List BOp := f.entry ++ f.body

/-- The number of uses of `v`. -/
def numUses (f : Func) (v : Val) : Nat := (usesIn f.ops v).length

/-- The operation that defines `v`. -/
def defOp (f : Func) : Val → Option BOp
  | .arg _ _ => none
  | .res k => opById f.ops k

end Func

/-- `opsMatch(value, name)`: `v` is the result of an operation of kind `k`
(a block argument is not). -/
def opsMatch (f : Func) (v : Val) (k : OpKind) : Bool :=
  (f.defOp v).any (·.kind == k)

/-- `curUse->isBeforeInBlock(opPtr)` for an operation `t` of the body: MLIR
asserts that `u` is in the same block. -/
def isBefore (f : Func) (u t : Nat) : Option Bool :=
  if f.body.any (·.id == u) then some (isBeforeInBlock f.body u t) else none

variable (uo : UseOrder OpKind)

/-- The loop of `moveReadOpsBefore` over the users of the array: a user after
`opPtr` is moved right before it if it is a read, and ends the loop with
failure otherwise. -/
def moveReadOps (opPtr : Nat) : List Nat → Func → Option (LogicalResult × Func)
  | [], f => some (.success, f)
  | u :: us, f =>
    if u = opPtr then moveReadOps opPtr us f
    else match isBefore f u opPtr with
      | none => none
      | some true => moveReadOps opPtr us f
      | some false =>
        if opsMatch f (.res u) .read then
          moveReadOps opPtr us { f with body := moveBefore f.body u opPtr }
        else some (.failure, f)

/-- `moveReadOpsBefore`: the users of `array`, in use-list order. -/
def moveReadOpsBefore (f : Func) (array : Val) (opPtr : Nat) : Option (LogicalResult × Func) :=
  moveReadOps opPtr (uo.order f.ops array) f

/-- The base (operand 1) of the write that defines `v`. -/
def writeBase (f : Func) (v : Val) : Option Val := (f.defOp v).bind (·.operands[1]?)

/-- `usedInITEPattern`: the select's result must feed one branch, and the
written operand's base must be the other operand. -/
def usedInITEPattern (f : Func) (iteOp : BOp) : Option (LogicalResult × Func) := do
  guard (f.numUses (.res iteOp.id) = 1)
  let useOp ← (uo.order f.ops (.res iteOp.id)).head? >>= opById f.ops
  guard (useOp.kind = .branch)
  let trueValue ← iteOp.operands[1]?
  let falseValue ← iteOp.operands[2]?
  if opsMatch f trueValue .write then
    guard (f.numUses trueValue = 1)
    guard (some falseValue = writeBase f trueValue)
    moveReadOpsBefore uo f falseValue iteOp.id
  else
    guard (opsMatch f falseValue .write)
    guard (f.numUses falseValue = 1)
    guard (some trueValue = writeBase f falseValue)
    moveReadOpsBefore uo f trueValue iteOp.id

/-- The `TypeSwitch` of `resultIsLiveAfter` on the write's user. -/
def switchOnUser (f : Func) (useOp : BOp) : Option (LogicalResult × Func) :=
  match useOp.kind with
  | .branch => pure (.success, f)
  | .ite => usedInITEPattern uo f useOp
  | _ => pure (.failure, f)

/-- `resultIsLiveAfter`: the write's result has one use, a branch or the
select of the idiom. -/
def resultIsLiveAfter (f : Func) (op : BOp) : Option (LogicalResult × Func) := do
  guard (usesIn f.entry (.res op.id) = [])
  if f.numUses (.res op.id) ≠ 1 then pure (.failure, f)
  else
    match (uo.order f.ops (.res op.id)).head? >>= opById f.ops with
    | some useOp => switchOnUser uo f useOp
    | none => pure (.failure, f)

/-- `replaceWithWriteInPlace`: on success, a `WriteInPlaceOp` over the write's
operands right after it, and every use of the write moved to it. -/
def replaceWithWriteInPlace (f : Func) (op : BOp) : Option (LogicalResult × Func) := do
  let (status, f) ← resultIsLiveAfter uo f op
  match status with
  | .failure => pure (.failure, f)
  | .success =>
    let wip : BOp := ⟨fresh f.ops, .writeInPlace, op.operands⟩
    pure (.success,
      ⟨replaceAllUsesWith f.entry (.res op.id) (.res wip.id),
        replaceAllUsesWith (insertAfter op.id wip f.body) (.res op.id) (.res wip.id)⟩)

/-- One turn of the loop of `runOnOperation`: the `TypeSwitch` sends a
`WriteOp`, as it is by then, to `replaceWithWriteInPlace`, and the status
must be success. -/
def visitOp (cur : Func) (op : BOp) : Option Func :=
  match op.kind, opById cur.body op.id with
  | .write, some op => do
    let (status, cur) ← replaceWithWriteInPlace uo cur op
    guard (status = .success)
    pure cur
  | _, _ => pure cur

/-- `BtorLivenessPass::runOnOperation`: every `WriteOp` of the body, in order
and as it is by then, must convert. The pass moves only reads and creates
only `WriteInPlaceOp`s, so walking the body while it changes visits exactly
the writes of the original body, in their order. -/
def btorLivenessPass (f : Func) : Option Func :=
  f.body.foldlM (visitOp uo) f

/-! ### SSA order -/

/-- Every operand that names an operation of the block names an earlier one. -/
def SSAOrdered (blk : List BOp) : Prop :=
  ∀ i : Fin blk.length, ∀ o ∈ blk, .res o.id ∈ blk[i].operands → o ∈ blk.take i

instance (blk : List BOp) : Decidable (SSAOrdered blk) :=
  inferInstanceAs (Decidable (∀ i : Fin blk.length, ∀ o ∈ blk,
    Val.res o.id ∈ blk[i].operands → o ∈ blk.take i))

/-- `w = write v, A[i]; s = ite c, w, A; j = f x; r = read A[j]; br s, r`.
The read of `A` after the select is moved before it, above the definition of
its index `j`. -/
theorem btorLivenessPass_breaks_ssa :
    SSAOrdered [⟨0, .write, [.arg 1 0, .arg 1 1, .arg 1 2]⟩,
        ⟨1, .ite, [.arg 1 3, .res 0, .arg 1 1]⟩, ⟨2, .other "btor.add", [.arg 1 4]⟩,
        ⟨3, .read, [.arg 1 1, .res 2]⟩, ⟨4, .branch, [.res 1, .res 3]⟩] ∧
      btorLivenessPass .textual ⟨[], [⟨0, .write, [.arg 1 0, .arg 1 1, .arg 1 2]⟩,
        ⟨1, .ite, [.arg 1 3, .res 0, .arg 1 1]⟩, ⟨2, .other "btor.add", [.arg 1 4]⟩,
        ⟨3, .read, [.arg 1 1, .res 2]⟩, ⟨4, .branch, [.res 1, .res 3]⟩]⟩ =
        some ⟨[], [⟨0, .write, [.arg 1 0, .arg 1 1, .arg 1 2]⟩,
          ⟨5, .writeInPlace, [.arg 1 0, .arg 1 1, .arg 1 2]⟩, ⟨3, .read, [.arg 1 1, .res 2]⟩,
          ⟨1, .ite, [.arg 1 3, .res 5, .arg 1 1]⟩, ⟨2, .other "btor.add", [.arg 1 4]⟩,
          ⟨4, .branch, [.res 1, .res 3]⟩]⟩ ∧
      ¬ SSAOrdered [⟨0, .write, [.arg 1 0, .arg 1 1, .arg 1 2]⟩,
          ⟨5, .writeInPlace, [.arg 1 0, .arg 1 1, .arg 1 2]⟩, ⟨3, .read, [.arg 1 1, .res 2]⟩,
          ⟨1, .ite, [.arg 1 3, .res 5, .arg 1 1]⟩, ⟨2, .other "btor.add", [.arg 1 4]⟩,
          ⟨4, .branch, [.res 1, .res 3]⟩] := by
  decide

/-- `w = write v, A[i]; s = ite c, w, A; r = read A[i]; x = f A; br s, r, x`.
The read after the select is moved before it, then `x` fails the test:
the write is declined, and the block has changed. -/
theorem replaceWithWriteInPlace_declines_after_move :
    replaceWithWriteInPlace .textual ⟨[], [⟨0, .write, [.arg 1 0, .arg 1 1, .arg 1 2]⟩,
        ⟨1, .ite, [.arg 1 3, .res 0, .arg 1 1]⟩, ⟨2, .read, [.arg 1 1, .arg 1 2]⟩,
        ⟨3, .other "btor.slice", [.arg 1 1]⟩, ⟨4, .branch, [.res 1, .res 2, .res 3]⟩]⟩
        ⟨0, .write, [.arg 1 0, .arg 1 1, .arg 1 2]⟩ =
      some (.failure, ⟨[], [⟨0, .write, [.arg 1 0, .arg 1 1, .arg 1 2]⟩,
        ⟨2, .read, [.arg 1 1, .arg 1 2]⟩, ⟨1, .ite, [.arg 1 3, .res 0, .arg 1 1]⟩,
        ⟨3, .other "btor.slice", [.arg 1 1]⟩, ⟨4, .branch, [.res 1, .res 2, .res 3]⟩]⟩) := by
  decide

end Btor
end Btor2Mlir
