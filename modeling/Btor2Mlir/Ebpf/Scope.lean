import Btor2Mlir.Ebpf.Lifter

/-!
# Register values cross block boundaries only as block parameters

Every operand of every operation of a lifted function is a parameter of the
operation's own block or the result of an earlier operation of that block
(`buildXDPFunction_opsLocal`): a register value computed in one block reaches
another only as a branch operand, bound there to a parameter.

The loop invariant of `buildFunctionBody` is that every entry of
`m_registers` is such a value for the insertion block (`Inv.registers_local`).
An operation is created from registers and from operations just created at
the insertion point, and the insertion point only moves through `enter`,
which resets the registers to the new block's parameters.

Key definitions: `LocalTo`, `OpsLocal`, `Deserialize.Inv`.
Key theorems: `Deserialize.Inv.translate`, `Deserialize.Inv.boundaryLoop`,
`buildXDPFunction_opsLocal`.
-/

namespace Btor2Mlir
namespace Ebpf

/-- `v` may be an operand of the operation at position `k` of block `b`: a
parameter of `b` (which has `blocks[b]` of them), or the result of an
operation of `b` at a position before `k`. -/
def LocalTo (blocks : List Nat) (ops : List Operation) (b k : Nat) : Val → Prop
  | .arg b' i => b' = b ∧ ∃ n, blocks[b]? = some n ∧ i < n
  | .res k' => k' < k ∧ ∃ o, ops[k']? = some o ∧ o.block = b

/-- Every operand of every operation is local to the operation's block.
Operations are listed in creation order and a block's operations are those
tagged with it, so position `k' < k` in the same block is earlier in it. -/
def OpsLocal (blocks : List Nat) (ops : List Operation) : Prop :=
  ∀ k o, ops[k]? = some o → ∀ v ∈ o.operands, LocalTo blocks ops o.block k v

section
variable {blocks : List Nat} {ops : List Operation} {b k : Nat} {v : Val}

theorem getElem?_append_of_eq_some {α : Type} {l l' : List α} {i : Nat} {x : α}
    (h : l[i]? = some x) : (l ++ l')[i]? = some x := by
  rw [List.getElem?_append_left (List.getElem?_eq_some_iff.1 h).1, h]

theorem LocalTo.append (h : LocalTo blocks ops b k v) (bs : List Nat) (os : List Operation) :
    LocalTo (blocks ++ bs) (ops ++ os) b k v := by
  cases v with
  | arg b' i =>
    obtain ⟨rfl, n, hn, hi⟩ := h
    exact ⟨rfl, n, getElem?_append_of_eq_some hn, hi⟩
  | res k' =>
    obtain ⟨hk, o, ho, rfl⟩ := h
    exact ⟨hk, o, getElem?_append_of_eq_some ho, rfl⟩

theorem OpsLocal.append_blocks (h : OpsLocal blocks ops) (bs : List Nat) :
    OpsLocal (blocks ++ bs) ops := fun k o ho v hv => by
  simpa using (h k o ho v hv).append bs []

/-- An operation created after `ops`, over operands local to its block. -/
theorem OpsLocal.push (h : OpsLocal blocks ops) (o : Operation)
    (ho : ∀ v ∈ o.operands, LocalTo blocks ops o.block ops.length v) :
    OpsLocal blocks (ops ++ [o]) := by
  intro k o' hk v hv
  rcases Nat.lt_or_ge k ops.length with hlt | hge
  · rw [List.getElem?_append_left hlt] at hk
    simpa using (h k o' hk v hv).append [] [o]
  · obtain rfl : k = ops.length := by
      have := (List.getElem?_eq_some_iff.1 hk).1; simp at this; omega
    rw [List.getElem?_concat_length] at hk
    obtain rfl := Option.some.inj hk
    simpa using (ho v hv).append [] [o]

/-- The parameters of a block are local to it, when every block has one per
register. -/
theorem blockArgs_local {blocks : List Nat} {ops : List Operation}
    (hbl : ∀ n ∈ blocks, n = ebpfRegisters) {b : Nat} (hb : b < blocks.length) {k : Nat} :
    ∀ v ∈ blockArgs b, LocalTo blocks ops b k v := by
  intro v hv
  simp only [blockArgs, List.mem_map, List.mem_range] at hv
  obtain ⟨i, hi, rfl⟩ := hv
  exact ⟨rfl, _, List.getElem?_eq_getElem hb, (hbl _ (List.getElem_mem hb)).symm ▸ hi⟩

end

namespace Deserialize

/-- `v` is local to the insertion point of `s`. -/
def Here (s : Deserialize) (v : Val) : Prop := LocalTo s.blocks s.ops s.insertion s.ops.length v

/-- The loop invariant of `buildFunctionBody`, kept over the whole lift. -/
structure Inv (s : Deserialize) : Prop where
  blocks_eq : ∀ n ∈ s.blocks, n = ebpfRegisters
  insertion_lt : s.insertion < s.blocks.length
  lastBlock_lt : s.lastBlock < s.blocks.length
  jumpBlocks_lt : ∀ o b, s.jumpBlocks o = some b → b < s.blocks.length
  registers_local : ∀ v ∈ s.registers, s.Here v
  ops_local : OpsLocal s.blocks s.ops

/-- What translating instructions keeps: the blocks, the block index,
`m_lastBlock` and the insertion point. -/
structure Keeps (s s' : Deserialize) : Prop where
  blocks : s'.blocks = s.blocks
  jumpBlocks : s'.jumpBlocks = s.jumpBlocks
  lastBlock : s'.lastBlock = s.lastBlock
  insertion : s'.insertion = s.insertion

theorem Keeps.refl (s : Deserialize) : Keeps s s := ⟨rfl, rfl, rfl, rfl⟩

theorem Keeps.trans {s s' s'' : Deserialize} (h : Keeps s s') (h' : Keeps s' s'') :
    Keeps s s'' :=
  ⟨h'.blocks.trans h.blocks, h'.jumpBlocks.trans h.jumpBlocks, h'.lastBlock.trans h.lastBlock,
    h'.insertion.trans h.insertion⟩

variable {s s' : Deserialize}

/-! ### One operation, one register -/

theorem keeps_create (s : Deserialize) (k : OpKind) (args : List Val) :
    Keeps s (s.create k args).1 := ⟨rfl, rfl, rfl, rfl⟩

theorem Here.create {v : Val} (h : s.Here v) (k : OpKind) (args : List Val) :
    (s.create k args).1.Here v := by
  have h' := h.append [] [⟨s.insertion, k, args⟩]
  cases v with
  | arg => simpa [Here, Deserialize.create] using h'
  | res => simpa [Here, Deserialize.create, LocalTo, Nat.lt_succ_of_lt h'.1] using h'.2

/-- The result of a created operation is local to the insertion point. -/
theorem here_create (s : Deserialize) (k : OpKind) (args : List Val) :
    (s.create k args).1.Here (s.create k args).2 :=
  ⟨by simp [Deserialize.create], _, List.getElem?_concat_length _ _, rfl⟩

theorem Inv.create (h : s.Inv) (k : OpKind) {args : List Val} (ha : ∀ v ∈ args, s.Here v) :
    (s.create k args).1.Inv where
  blocks_eq := h.blocks_eq
  insertion_lt := h.insertion_lt
  lastBlock_lt := h.lastBlock_lt
  jumpBlocks_lt := h.jumpBlocks_lt
  registers_local v hv := (h.registers_local v hv).create k args
  ops_local := h.ops_local.push _ ha

theorem Inv.reg (h : s.Inv) {r : Reg} {v : Val} (hr : s.reg r = some v) : s.Here v :=
  h.registers_local v (List.getElem?_mem hr)

theorem Inv.setReg (h : s.Inv) {r : Reg} {v : Val} (hv : s.Here v)
    (hs : s.setReg r v = some s') : s'.Inv ∧ Keeps s s' := by
  unfold Deserialize.setReg at hs
  split at hs
  · cases hs
    refine ⟨⟨h.1, h.2, h.3, h.4, fun x hx => ?_, h.6⟩, ⟨rfl, rfl, rfl, rfl⟩⟩
    rcases List.mem_or_eq_of_mem_set hx with hx | rfl
    · exact h.registers_local x hx
    · exact hv
  · cases hs

theorem Inv.createSetReg (h : s.Inv) (k : OpKind) {args : List Val} (ha : ∀ v ∈ args, s.Here v)
    {r : Reg} (hs : (s.create k args).1.setReg r (s.create k args).2 = some s') :
    s'.Inv ∧ Keeps s s' :=
  have ⟨hi, hk⟩ := (h.create k ha).setReg (here_create s k args) hs
  ⟨hi, (keeps_create s k args).trans hk⟩

theorem Inv.createBinaryOp (h : s.Inv) {bin : Bin} (hs : s.createBinaryOp bin = some s') :
    s'.Inv ∧ Keeps s s' := by
  simp only [Deserialize.createBinaryOp, bind, Option.bind_eq_some] at hs
  obtain ⟨lhs, hl, hs⟩ := hs
  have hl := h.reg hl
  split at hs
  · simp only [pure, Option.some_bind] at hs
    have ⟨hi, hk⟩ := (h.create _ (by simp)).createSetReg _ (by simpa using ⟨hl.create _ _, here_create _ _ _⟩) hs
    exact ⟨hi, (keeps_create _ _ _).trans hk⟩
  · simp only [pure, Option.some_bind, Option.bind_eq_some] at hs
    obtain ⟨rhs, hr, hs⟩ := hs
    exact h.createSetReg _ (by simpa using ⟨hl, h.reg hr⟩) hs

theorem Inv.createUnaryOp (h : s.Inv) {un : Un} (hs : s.createUnaryOp un = some s') :
    s'.Inv ∧ Keeps s s' := by
  simp only [Deserialize.createUnaryOp, bind, Option.bind_eq_some] at hs
  obtain ⟨rhs, hr, hs⟩ := hs
  exact h.createSetReg _ (by simpa using h.reg hr) hs

theorem Inv.createMemOp (h : s.Inv) {mem : Mem} (hs : s.createMemOp mem = some s') :
    s'.Inv ∧ Keeps s s' := by
  simp only [Deserialize.createMemOp, bind, Option.bind_eq_some] at hs
  obtain ⟨base, hb, hs⟩ := hs
  have h1 := h.create (.constant mem.access.offset) (List.forall_mem_nil _)
  have hb := h1.reg hb
  have hoff := here_create s (.constant mem.access.offset) []
  split at hs
  · have ⟨hi, hk⟩ := h1.createSetReg _ (by simpa using ⟨hb, hoff⟩) hs
    exact ⟨hi, (keeps_create _ _ _).trans hk⟩
  · simp only [pure, Option.bind_eq_some, Option.some.injEq] at hs
    obtain ⟨v, hv, rfl⟩ := hs
    exact ⟨h1.create _ (by simpa using ⟨hb, hoff, h1.reg hv⟩),
      (keeps_create _ _ _).trans (keeps_create _ _ _)⟩

theorem Inv.createLoadMapOp (h : s.Inv) {l : LoadMapFd} (hs : s.createLoadMapOp l = some s') :
    s'.Inv ∧ Keeps s s' := by
  simp only [Deserialize.createLoadMapOp, bind, Option.bind_eq_some] at hs
  obtain ⟨cur, hc, hs⟩ := hs
  have h1 := h.create (.constant l.mapfd) (List.forall_mem_nil _)
  have ⟨hi, hk⟩ := h1.createSetReg _ (by simpa using ⟨h1.reg hc, here_create _ _ _⟩) hs
  exact ⟨hi, (keeps_create _ _ _).trans hk⟩

theorem Inv.buildJmpOp (h : s.Inv) {jmp : Jmp} (hs : s.buildJmpOp jmp = some s') :
    s'.Inv ∧ Keeps s s' := by
  unfold Deserialize.buildJmpOp at hs
  split at hs
  · simp only [bind, pure, Option.bind_eq_some, Option.some.injEq] at hs
    obtain ⟨b, -, rfl⟩ := hs
    exact ⟨h.create _ h.registers_local, keeps_create _ _ _⟩
  · cases hs
    exact ⟨h, Keeps.refl s⟩

theorem Inv.createJmpOp (h : s.Inv) {prog : InstructionSeq} {jmp : Jmp} {l : Nat}
    (hs : createJmpOp prog s jmp l = some s') : s'.Inv ∧ Keeps s s' := by
  unfold Deserialize.createJmpOp at hs
  simp only [bind, Option.bind_eq_some] at hs
  obtain ⟨_, -, _, -, _, -, hs⟩ := hs
  exact h.buildJmpOp hs

theorem Inv.createMLIR (h : s.Inv) {prog : InstructionSeq} {ins : Instruction} {l : Nat}
    (hs : createMLIR prog s ins l = some s') : s'.Inv ∧ Keeps s s' := by
  unfold Deserialize.createMLIR at hs
  split at hs
  · exact h.createBinaryOp hs
  · exact h.createUnaryOp hs
  · exact h.createLoadMapOp hs
  · exact h.createJmpOp hs
  · exact h.createMemOp hs
  all_goals cases hs; exact ⟨h, Keeps.refl s⟩

/-- **Translating a range keeps the invariant** and the insertion point. -/
theorem Inv.translate (prog : InstructionSeq) :
    ∀ {s s' : Deserialize} (ps : List Nat), s.Inv → translate prog s ps = some s' →
      s'.Inv ∧ Keeps s s'
  | s, s', [], h, hs => by cases hs; exact ⟨h, Keeps.refl s⟩
  | s, s', p :: ps, h, hs => by
    simp only [Deserialize.translate, bind, Option.bind_eq_some] at hs
    obtain ⟨li, -, s1, h1, hs⟩ := hs
    have ⟨i1, k1⟩ := h.createMLIR h1
    have ⟨i2, k2⟩ := Inv.translate prog ps i1 hs
    exact ⟨i2, k1.trans k2⟩

/-! ### Moving the insertion point -/

theorem Inv.enter (h : s.Inv) {b : Nat} (hb : b < s.blocks.length) : (s.enter b).Inv where
  blocks_eq := h.blocks_eq
  insertion_lt := hb
  lastBlock_lt := h.lastBlock_lt
  jumpBlocks_lt := h.jumpBlocks_lt
  registers_local := blockArgs_local h.blocks_eq hb
  ops_local := h.ops_local

/-! ### Finding the blocks -/

theorem Inv.incrementBlocks (h : s.Inv) (o : Nat) : (s.incrementBlocks o).Inv where
  blocks_eq n hn := by
    simp only [Deserialize.incrementBlocks, List.mem_append, List.mem_singleton] at hn
    exact hn.elim (h.blocks_eq n) id
  insertion_lt := by simp only [Deserialize.incrementBlocks, List.length_append]; have := h.insertion_lt; simp; omega
  lastBlock_lt := by simp only [Deserialize.incrementBlocks, List.length_append]; have := h.lastBlock_lt; simp; omega
  jumpBlocks_lt o' b hb := by
    simp only [Deserialize.incrementBlocks, List.length_append, List.length_singleton] at hb ⊢
    split at hb
    · cases hb; omega
    · have := h.jumpBlocks_lt _ _ hb; omega
  registers_local v hv := by simpa using (h.registers_local v hv).append [ebpfRegisters] []
  ops_local := h.ops_local.append_blocks _

theorem Inv.collectStep (h : s.Inv) (li : LabeledInstruction) : (s.collectStep li).Inv := by
  rcases li with ⟨label, ins⟩
  cases ins
  case jmp j =>
    have h1 : (if j.target ∈ s.jmpTargets then s else s.incrementBlocks j.target).Inv := by
      split
      exacts [h, h.incrementBlocks _]
    simp only [Deserialize.collectStep]
    split
    exacts [h1.incrementBlocks _, h1]
  all_goals exact h

theorem Inv.collectBlocks (h : s.Inv) {prog : InstructionSeq} (hs : s.collectBlocks prog = some s') :
    s'.Inv := by
  have hf : ∀ (l : List LabeledInstruction) (t : Deserialize), t.Inv → (l.foldl Deserialize.collectStep t).Inv :=
    fun l => l.rec (fun _ ht => ht) fun li _ ih t ht => ih _ (ht.collectStep li)
  dsimp only [Deserialize.collectBlocks] at hs
  split at hs
  · cases hs
    have := hf prog s h
    exact ⟨this.1, this.2, this.3, this.4, this.5, this.6⟩
  · cases hs

/-! ### The whole body -/

theorem Inv.closeBlock (h : s.Inv) {b next : Nat} (hb : s.insertion = b)
    (hs : s.closeBlock b next = some s') : s'.Inv := by
  unfold Deserialize.closeBlock at hs
  split at hs
  · exact Option.some.inj hs ▸ h
  · simp only [bind, pure, Option.bind_eq_some, Option.some.injEq] at hs
    obtain ⟨nb, hnb, rfl⟩ := hs
    subst hb
    have hc := h.create (.branch nb) h.registers_local
    exact ⟨hc.blocks_eq, hc.insertion_lt, h.jumpBlocks_lt _ _ hnb, hc.jumpBlocks_lt,
      hc.registers_local, hc.ops_local⟩

/-- **The boundary loop keeps the invariant.** A block is entered with the
registers reset to its parameters; the branch synthesized at its end carries
the registers, local to it. -/
theorem Inv.boundaryLoop (prog : InstructionSeq) :
    ∀ (bs : List Nat) {cur cur' : Nat} {s s' : Deserialize}, s.Inv →
      boundaryLoop prog bs cur s = some (cur', s') → s'.Inv
  | [], _, _, _, _, h, hs => by cases hs; exact h
  | next :: rest, cur, cur', s, s', h, hs => by
    simp only [Deserialize.boundaryLoop, bind, Option.bind_eq_some] at hs
    obtain ⟨b, hb, s1, h1, s2, h2, hs⟩ := hs
    have ⟨i1, k1⟩ := Inv.translate prog _ (h.enter (h.jumpBlocks_lt _ _ hb)) h1
    exact Inv.boundaryLoop prog rest (i1.closeBlock k1.insertion h2) hs

theorem Inv.buildFunctionBody (h : s.Inv) {prog : InstructionSeq}
    (hs : buildFunctionBody prog s = some s') : s'.Inv := by
  simp only [Deserialize.buildFunctionBody, bind, Option.bind_eq_some] at hs
  obtain ⟨s1, h1, ⟨cur, s2⟩, h2, hs⟩ := hs
  have i2 := Inv.boundaryLoop prog _ (h.collectBlocks h1) h2
  refine (Inv.translate prog _ ?_ hs).1
  split
  · exact i2.enter i2.lastBlock_lt
  · exact i2

theorem inv_init : init.Inv where
  blocks_eq := by simp [init]
  insertion_lt := by simp [init]
  lastBlock_lt := by simp [init]
  jumpBlocks_lt o b hb := by
    have : o = 0 ∧ 0 = b := by simpa [init] using hb
    simp [init, ← this.2]
  registers_local := blockArgs_local (by simp [init]) (by simp [init])
  ops_local := by simp [init, OpsLocal]

end Deserialize

/-- **Register values cross block boundaries only as block parameters.**
Every operand of every operation of a lifted function, the branches'
register vectors and the `ReturnOp`'s included, is a parameter of the
operation's own block or the result of an earlier operation of that block. -/
theorem buildXDPFunction_opsLocal {secs : List InstructionSeq} {f : Func}
    (h : buildXDPFunction secs = some f) : OpsLocal f.blocks f.ops := by
  simp only [buildXDPFunction, bind, pure, Option.bind_eq_some, Option.some.injEq] at h
  obtain ⟨prog, -, s, hs, rfl⟩ := h
  have i := Deserialize.inv_init.buildFunctionBody hs
  refine i.ops_local.push _ ?_
  simp only [List.mem_singleton, forall_eq]
  exact blockArgs_local i.blocks_eq i.lastBlock_lt _ (by simp [blockArgs, ebpfRegisters])

/-- The lift of `r1 = 1; goto +1; r1 = 2; r0 = r1; exit`: the jump's branch
passes the registers to block 1, whose operations use its parameters only. -/
theorem opsLocal_forward_jump :
    ∃ f, buildXDPFunction [[⟨0, .bin ⟨.mov, 1, .imm 1⟩⟩, ⟨1, .jmp ⟨none, 3⟩⟩,
        ⟨2, .bin ⟨.mov, 1, .imm 2⟩⟩, ⟨3, .bin ⟨.mov, 0, .reg 1⟩⟩, ⟨4, .exit⟩]] = some f ∧
      f.blockOps 1 = [⟨1, .bin .mov, [.arg 1 0, .arg 1 1]⟩, ⟨1, .ret, [.arg 1 0]⟩] ∧
      OpsLocal f.blocks f.ops :=
  ⟨_, rfl, rfl, @buildXDPFunction_opsLocal [[⟨0, .bin ⟨.mov, 1, .imm 1⟩⟩, ⟨1, .jmp ⟨none, 3⟩⟩,
    ⟨2, .bin ⟨.mov, 1, .imm 2⟩⟩, ⟨3, .bin ⟨.mov, 0, .reg 1⟩⟩, ⟨4, .exit⟩]] _ rfl⟩

end Ebpf
end Btor2Mlir
