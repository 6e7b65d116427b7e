import Mathlib.Data.List.Basic

/-!
# eBPF instructions, as the decoder hands them to the lifter

The lifter reads a section: a list of labelled instructions, each a variant
of the instruction kinds. The payloads keep the fields the lifter and the
sequential semantics read; the debug info and a label's `to` are read by
neither, so they are left out. A label is its `from` offset; a two-slot
instruction (`LoadMapFd`) makes the next label skip one, so labels and
positions in the section need not agree.
-/

namespace Btor2Mlir
namespace Ebpf

/-- A register index, `Reg::v`: the decoder numbers R0 to R10. -/
abbrev Reg := Nat

/-- `Bin::Op`. -/
inductive BinOp where
  | mov | movsx8 | movsx16 | movsx32
  | add | sub | mul | udiv | sdiv | umod | smod
  | or | and | lsh | rsh | arsh | xor
  deriving DecidableEq, Repr

/-- `Un::Op`. -/
inductive UnOp where
  | be16 | be32 | be64 | le16 | le32 | le64 | swap16 | swap32 | swap64 | neg
  deriving DecidableEq, Repr

/-- `Condition::Op`, the comparison of a conditional jump. -/
inductive CondOp where
  | eq | ne | set | nset | lt | le | gt | ge | slt | sle | sgt | sge
  deriving DecidableEq, Repr

/-- A register or an immediate: the `std::variant<Reg, Imm>` operand. -/
inductive Operand where
  | reg (r : Reg)
  | imm (i : Int)
  deriving DecidableEq, Repr

/-- An access of 1, 2, 4 or 8 bytes, the widths the decoder produces. -/
inductive Width where
  | w1 | w2 | w4 | w8
  deriving DecidableEq, Repr

/-- `Bin`: `dst = dst op v`. -/
structure Bin where
  op : BinOp
  dst : Reg
  v : Operand
  deriving DecidableEq, Repr

/-- `Un`: `dst = op dst`. -/
structure Un where
  op : UnOp
  dst : Reg
  deriving DecidableEq, Repr

/-- `Deref`: the address `basereg + offset` and the width of the access. -/
structure Deref where
  width : Width
  basereg : Reg
  offset : Int
  deriving DecidableEq, Repr

/-- `Mem`: a load into, or a store from, the register `value`. -/
structure Mem where
  access : Deref
  value : Reg
  isLoad : Bool
  deriving DecidableEq, Repr

/-- `LoadMapFd`: `dst` gets the map with descriptor `mapfd`. -/
structure LoadMapFd where
  dst : Reg
  mapfd : Int
  deriving DecidableEq, Repr

/-- `Condition`: `left op right`. -/
structure Condition where
  op : CondOp
  left : Reg
  right : Operand
  deriving DecidableEq, Repr

/-- `Jmp`: to the instruction labelled `target`, always or when `cond` holds. -/
structure Jmp where
  cond : Option Condition
  target : Nat
  deriving DecidableEq, Repr

/-- `Instruction`, the decoder's variant. The kinds the lifter does not lower
carry no payload here. -/
inductive Instruction where
  | undefined
  | bin (b : Bin)
  | un (u : Un)
  | loadMapFd (l : LoadMapFd)
  | call
  | callx
  | exit
  | jmp (j : Jmp)
  | mem (m : Mem)
  | packet
  | assume
  | atomic
  | assert
  | incrementLoopCounter
  deriving DecidableEq, Repr

/-- `LabeledInstruction`: the instruction and its label's `from` offset. -/
structure LabeledInstruction where
  label : Nat
  ins : Instruction
  deriving DecidableEq, Repr

/-- `InstructionSeq`: one section. -/
abbrev InstructionSeq := List LabeledInstruction

end Ebpf
end Btor2Mlir
