import Btor2Mlir.IR
import Btor2Mlir.Ebpf.Lifter

/-!
# `ResolveMemoryPass`: loads of addresses become `LoadAddrOp`

The pass expects a module of two functions, `xdp_entry` and `main` (with
`xdp_entry` inlined into it), erases `xdp_entry`, and visits every load of
`main`: `replaceLoadWithLoadAddress` walks the load's use list, and when every
use is the base of a load or store it creates a `LoadAddrOp` over the load's
operands right after the load and moves every use to it. The load itself is
left in place. A failed `assert` is `none`.

`main` is the list of its operations in region order (its blocks one after
the other): the pass reads no block structure.
-/

namespace Btor2Mlir
namespace Ebpf

/-- An operation of `main`. -/
abbrev EOp := Op OpKind

/-- The classes a use's owner is checked against: `StoreOp`, `Store32Op`,
`Store16Op`, `Store8Op`, `LoadOp`, `Load32Op`, `Load16Op`, `Load8Op`. -/
def OpKind.isLoadOrStore : OpKind → Bool
  | .load _ | .store _ => true
  | _ => false

/-- A use owned by `owner` expects an address: the owner is a load or store
whose `lhs` (its first operand) is `v`. -/
def expectAddr (main : List EOp) (v : Val) (owner : Nat) : Bool :=
  match opById main owner with
  | some o => o.kind.isLoadOrStore && o.operands.head? == some v
  | none => false

/-- One turn of the loop over the uses: `replaceWithMem` and `keepAsIs`
updated, with the two assertions of the loop body. -/
def scanUse (acc : Bool × Bool) (expectAddr : Bool) : Option (Bool × Bool) :=
  let expectInt := !expectAddr
  let replaceWithMem := expectAddr && acc.1
  let keepAsIs := expectInt || acc.2
  if (expectAddr && !expectInt) || (!expectAddr && expectInt) then
    if (replaceWithMem && !expectInt) || (!replaceWithMem && expectInt) then
      some (replaceWithMem, keepAsIs)
    else none
  else none

/-- `replaceLoadWithLoadAddress`, with the use lists walked in the order `uo`. -/
def replaceLoadWithLoadAddress (uo : UseOrder OpKind) (main : List EOp) (op : EOp) :
    Option (LogicalResult × List EOp) := do
  let uses := uo.order main (.res op.id)
  guard (uses ≠ [])
  let (_, keepAsIs) ← uses.foldlM (fun acc u => scanUse acc (expectAddr main (.res op.id) u))
    (true, false)
  if keepAsIs then pure (.failure, main)
  else do
    guard (op.kind = .load .w8)
    let loadAddr : EOp := ⟨fresh main, .loadAddr, op.operands⟩
    pure (.success,
      replaceAllUsesWith (insertAfter op.id loadAddr main) (.res op.id) (.res loadAddr.id))

/-- One turn of the loop of `runOnOperation`: the `TypeSwitch` sends a load
(`LoadOp`, `Load32Op`, `Load16Op`, `Load8Op`), as it is by then, to
`replaceLoadWithLoadAddress`, whose result is dropped. -/
def visitOp (uo : UseOrder OpKind) (cur : List EOp) (op : EOp) : Option (List EOp) :=
  match op.kind, opById cur op.id with
  | .load _, some op => do pure (← replaceLoadWithLoadAddress uo cur op).2
  | _, _ => pure cur

/-- The loop of `runOnOperation` over `main`, visiting each operation of the
original list in order. The `LoadAddrOp` a visit may create sits right after
the load and is visited next, but matches no case of the `TypeSwitch`. -/
def resolveMain (uo : UseOrder OpKind) (main : List EOp) : Option (List EOp) :=
  main.foldlM (visitOp uo) main

/-- A module: its top-level functions, each the operations of its body. -/
structure Module where
  funcs : List (List EOp)
  deriving DecidableEq

/-- `ResolveMemoryPass::runOnOperation`: exactly two functions; the first
(`xdp_entry`) is erased and the second (`main`) rewritten. -/
def resolveMemoryPass (uo : UseOrder OpKind) (m : Module) : Option Module :=
  match m.funcs with
  | [_, main] => do pure ⟨[← resolveMain uo main]⟩
  | _ => none

/-- A load whose integer use comes before its address use in the use list:
`%0 = load %a[%c]; %1 = add %0, %x; %2 = load %0[%c]`. After the add,
`replaceWithMem` is false and stays false, and at the address use the
loop's second assertion requires `expectInt`: the pass aborts. -/
theorem resolveMemoryPass_aborts_int_then_addr :
    resolveMemoryPass .textual ⟨[[], [⟨0, .load .w8, [.arg 0 0, .arg 0 1]⟩,
      ⟨1, .bin .add, [.res 0, .arg 0 2]⟩, ⟨2, .load .w8, [.res 0, .arg 0 1]⟩,
      ⟨3, .ret, [.res 1]⟩]]⟩ = none := by
  decide

end Ebpf
end Btor2Mlir
