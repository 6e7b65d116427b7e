import Btor2Mlir.Btor.Liveness

/-!
# The loop body run with array values and with arrays in place

`runValue` runs the body with every array a value: a `WriteOp` returns a new
array. `runInPlace` runs it with arrays in buffers: an array value is a
reference to a buffer, a `WriteOp` copies into a fresh one, and a
`WriteInPlaceOp` updates its base's buffer: where it stands when its one use
is not a select, and at the select it feeds otherwise, if the select takes
it. The other operations are uninterpreted functions of their operand values,
their array operands read at the point of the operation.

The pass is sound for a body when the in-place run of its output gives every
operation of the input, and the branch, the values the value run of the
input gives. A write whose one use is the branch is converted whatever else
uses its base array: a read of the array after it then sees the new element
(`btorLivenessPass_read_after_write`).
-/

namespace Btor2Mlir
namespace Btor

/-- A value of the body: a bit-vector, read as an integer, or an array. -/
inductive BVal where
  | int (n : Int)
  | arr (a : Int → Int)

/-- The array `a` with index `i` set to `v`. -/
def store (a : Int → Int) (i v : Int) : Int → Int := fun j => if j = i then v else a j

/-- `f` with `x` sent to `y`. -/
def update {α β : Type} [DecidableEq α] (f : α → β) (x : α) (y : β) : α → β :=
  fun z => if z = x then y else f z

/-- The other operations, by name: uninterpreted functions of their operands. -/
abbrev Interp := String → List BVal → Option BVal

variable (I : Interp)

/-! ### Arrays as values -/

/-- One operation with value semantics. -/
def evalValue : OpKind → List BVal → Option BVal
  | .write, [.int v, .arr a, .int i] => some (.arr (store a i v))
  | .writeInPlace, [.int v, .arr a, .int i] => some (.arr (store a i v))
  | .read, [.arr a, .int i] => some (.int (a i))
  | .ite, [.int c, x, y] => some (if c ≠ 0 then x else y)
  | .other name, args => I name args
  | _, _ => none

/-- The body run with value semantics, `env` holding the values of the
block's arguments and of the values defined outside it: the value of every
value, and the branch's operands. -/
def runValue : List BOp → (Val → Option BVal) → Option ((Val → Option BVal) × List BVal)
  | [], _ => none
  | o :: rest, env => do
    let args ← o.operands.mapM env
    match o.kind with
    | .branch => pure (env, args)
    | kind => runValue rest (update env (.res o.id) (some (← evalValue I kind args)))

/-! ### Arrays in place -/

/-- A value with arrays in buffers: an integer, a reference to the buffer
named `b`, or a write in place of `v` at `i` into buffer `b` that waits for
its select. -/
inductive IVal where
  | int (n : Int)
  | ref (b : Val)
  | pend (b : Val) (i v : Int)

/-- The buffer a value refers to. -/
def IVal.buf : IVal → Option Val
  | .ref b | .pend b _ _ => some b
  | .int _ => none

/-- The buffers: each named by the array value that made it. -/
abbrev Heap := Val → Option (Int → Int)

/-- A value read out: an array is its buffer's contents now. -/
def IVal.read (heap : Heap) : IVal → Option BVal
  | .int n => some (.int n)
  | .ref b | .pend b _ _ => (heap b).map .arr

/-- The `WriteInPlaceOp` with id `k` has one use, a select: it writes there. -/
def deferred (blk : List BOp) (k : Nat) : Bool :=
  match usesIn blk (.res k) with
  | [u] => (opById blk u).any (·.kind == .ite)
  | _ => false

/-- One operation of `blk` with arrays in place. -/
def stepInPlace (blk : List BOp) (o : BOp) (heap : Heap) : List IVal → Option (IVal × Heap)
  | args =>
    match o.kind, args with
    | .writeInPlace, [.int v, a, .int i] => do
      let b ← a.buf
      if deferred blk o.id then pure (.pend b i v, heap)
      else pure (.ref b, update heap b (some (store (← heap b) i v)))
    | .write, [.int v, a, .int i] => do
      pure (.ref (.res o.id), update heap (.res o.id) (some (store (← heap (← a.buf)) i v)))
    | .read, [a, .int i] => do pure (.int ((← heap (← a.buf)) i), heap)
    | .ite, [.int c, x, y] =>
      match if c ≠ 0 then x else y with
      | .pend b i v => do pure (.ref b, update heap b (some (store (← heap b) i v)))
      | z => pure (z, heap)
    | .other name, args => do
      match ← I name (← args.mapM (·.read heap)) with
      | .int n => pure (.int n, heap)
      | .arr a => pure (.ref (.res o.id), update heap (.res o.id) (some a))
    | _, _ => none

/-- The body `blk` run from `ops` on with arrays in place: the value of every
value, the buffers, and the branch's operands read out. -/
def runInPlace (blk : List BOp) :
    List BOp → (Val → Option IVal) → Heap → Option ((Val → Option IVal) × Heap × List BVal)
  | [], _, _ => none
  | o :: rest, env, heap => do
    let args ← o.operands.mapM env
    match o.kind with
    | .branch => pure (env, heap, ← args.mapM (·.read heap))
    | _ =>
      let (x, heap) ← stepInPlace I blk o heap args
      runInPlace blk rest (update env (.res o.id) (some x)) heap

/-- The values of the block's arguments and of the values defined outside it,
with each array in a buffer of its own. -/
def IVal.ofInput (input : Val → Option BVal) (v : Val) : Option IVal :=
  (input v).map fun
    | .int n => .int n
    | .arr _ => .ref v

/-- The buffers of the input arrays. -/
def heapOfInput (input : Val → Option BVal) : Heap := fun v =>
  match input v with
  | some (.arr a) => some a
  | _ => none

/-- `v = 1`, `A` all zeros, `i = 0`. -/
def readAfterWriteInput : Val → Option BVal
  | .arg 1 0 => some (.int 1)
  | .arg 1 1 => some (.arr fun _ => 0)
  | .arg 1 2 => some (.int 0)
  | _ => none

/-- `w = write v, A[i]; r = read A[i]; br w, r`. The write's one use is the
branch, so the pass converts it without looking at the other users of `A`;
in place, the read after it sees the new element 1, where the original body
reads 0. -/
theorem btorLivenessPass_read_after_write :
    btorLivenessPass .textual ⟨[], [⟨0, .write, [.arg 1 0, .arg 1 1, .arg 1 2]⟩,
        ⟨1, .read, [.arg 1 1, .arg 1 2]⟩, ⟨2, .branch, [.res 0, .res 1]⟩]⟩ =
      some ⟨[], [⟨0, .write, [.arg 1 0, .arg 1 1, .arg 1 2]⟩,
        ⟨3, .writeInPlace, [.arg 1 0, .arg 1 1, .arg 1 2]⟩, ⟨1, .read, [.arg 1 1, .arg 1 2]⟩,
        ⟨2, .branch, [.res 3, .res 1]⟩]⟩ ∧
    ((runValue I [⟨0, .write, [.arg 1 0, .arg 1 1, .arg 1 2]⟩, ⟨1, .read, [.arg 1 1, .arg 1 2]⟩,
        ⟨2, .branch, [.res 0, .res 1]⟩] readAfterWriteInput).bind fun r => r.1 (.res 1)) =
      some (.int 0) ∧
    ((runInPlace I [⟨0, .write, [.arg 1 0, .arg 1 1, .arg 1 2]⟩,
        ⟨3, .writeInPlace, [.arg 1 0, .arg 1 1, .arg 1 2]⟩, ⟨1, .read, [.arg 1 1, .arg 1 2]⟩,
        ⟨2, .branch, [.res 3, .res 1]⟩]
      [⟨0, .write, [.arg 1 0, .arg 1 1, .arg 1 2]⟩,
        ⟨3, .writeInPlace, [.arg 1 0, .arg 1 1, .arg 1 2]⟩, ⟨1, .read, [.arg 1 1, .arg 1 2]⟩,
        ⟨2, .branch, [.res 3, .res 1]⟩]
      (IVal.ofInput readAfterWriteInput) (heapOfInput readAfterWriteInput)).bind
        fun r => r.1 (.res 1)) = some (.int 1) :=
  ⟨by decide, rfl, rfl⟩

end Btor
end Btor2Mlir
