import Btor2Mlir.Ebpf.Jumps
/-!
# Which sections the lifter accepts

The lifter fails at an `m_registers.at` out of range, at an assertion of
`createJmpOp` or `collectBlocks`, and at a missing entry of `m_jumpBlocks`.
`buildFunctionBody` translates every instruction of the section, those no
run reaches included: the ranges of the boundary loop and the range after it
cover every position (`lowerable_of_buildFunctionBody`). So whatever section
`buildXDPFunction` lifts, every instruction is one it can lower
(`Instruction.lowerable`): no `Bin`, `Un`, `Mem` or `LoadMapFd` names a
register beyond R10, and every jump targets a later instruction whose label
is its position (`buildXDPFunction_lowerable`). For a section whose body runs
forward (`ForwardBody`) the registers are all it takes: such a section is
lifted as soon as they are in range (`buildXDPFunction_forward_accepts`).
-/

namespace Btor2Mlir
namespace Ebpf

/-- The register an operand names, if any. -/
def Operand.regs : Operand → List Reg
  | .reg r => [r]
  | .imm _ => []

/-- The registers the lowering of an instruction reads or writes through
`m_registers.at`. -/
def Instruction.regs : Instruction → List Reg
  | .bin b => b.dst :: b.v.regs
  | .un u => [u.dst]
  | .mem m => [m.access.basereg, m.value]
  | .loadMapFd l => [l.dst]
  | _ => []

/-- What the lifter asks of the instruction `ins` labelled `l` in the section
`prog`: a jump targets a later instruction whose label is its position
(the two assertions of `createJmpOp`), and any other instruction names only
the registers R0 to R10. -/
def Instruction.lowerable (prog : InstructionSeq) (l : Nat) : Instruction → Bool
  | .jmp j => l < j.target && (prog[j.target]?.map (·.label)) == some j.target
  | ins => ins.regs.all (· < ebpfRegisters)

namespace Deserialize

variable {s s' : Deserialize} {prog : InstructionSeq} {ins : Instruction} {l : Nat}

theorem Appends.registers_length (h : Appends s s') : s'.registers.length = s.registers.length := by
  obtain ⟨new, regs, rfl, -, hl⟩ := h
  exact hl

theorem Appends.jumpBlocks (h : Appends s s') : s'.jumpBlocks = s.jumpBlocks := by
  obtain ⟨new, regs, rfl, -⟩ := h
  rfl

theorem lt_of_reg {r : Reg} {v : Val} (h : s.reg r = some v) : r < s.registers.length :=
  (List.getElem?_eq_some_iff.1 h).1

/-- A lowering that succeeds on `ebpfRegisters` registers had what it asks of
its instruction. -/
theorem lowerable_of_createMLIR (hlen : s.registers.length = ebpfRegisters)
    (hs : createMLIR prog s ins l = some s') : ins.lowerable prog l := by
  cases ins with
  | bin b =>
    obtain ⟨op, dst, v⟩ := b
    simp only [createMLIR, createBinaryOp, bind, Option.bind_eq_some] at hs
    obtain ⟨lhs, hlhs, hs⟩ := hs
    have hdst := lt_of_reg hlhs
    cases v with
    | imm i => simp [Instruction.lowerable, Instruction.regs, Operand.regs, ← hlen, hdst]
    | reg r =>
      simp only [pure, Option.some_bind, Option.bind_eq_some] at hs
      obtain ⟨rhs, hrhs, -⟩ := hs
      simp [Instruction.lowerable, Instruction.regs, Operand.regs, ← hlen, hdst, lt_of_reg hrhs]
  | un u =>
    simp only [createMLIR, createUnaryOp, bind, Option.bind_eq_some] at hs
    obtain ⟨rhs, hrhs, -⟩ := hs
    simp [Instruction.lowerable, Instruction.regs, ← hlen, lt_of_reg hrhs]
  | loadMapFd lm =>
    simp only [createMLIR, createLoadMapOp, bind, Option.bind_eq_some] at hs
    obtain ⟨cur, hcur, -⟩ := hs
    simp [Instruction.lowerable, Instruction.regs, ← hlen, (lt_of_reg hcur : lm.dst < s.registers.length)]
  | mem m =>
    simp only [createMLIR, createMemOp, bind, Option.bind_eq_some] at hs
    obtain ⟨base, hbase, hs⟩ := hs
    have hb := lt_of_reg hbase
    cases hl : m.isLoad
    · simp only [hl, Bool.false_eq_true, if_false, pure, Option.bind_eq_some] at hs
      obtain ⟨v, hv, -⟩ := hs
      simp [Instruction.lowerable, Instruction.regs, ← hlen] at hb hv ⊢
      exact ⟨hb, lt_of_reg hv⟩
    · simp only [hl, if_true] at hs
      simp [Instruction.lowerable, Instruction.regs, ← hlen] at hb ⊢
      exact ⟨hb, (setReg_eq_some hs).1⟩
  | jmp j =>
    simp only [createMLIR, createJmpOp, bind, Option.bind_eq_some, Option.guard_eq_some'] at hs
    obtain ⟨_, hlt, li, hli, _, hlab, -⟩ := hs
    simp [Instruction.lowerable, hlt, hli, hlab]
  | _ => rfl

@[simp] theorem registers_enter (s : Deserialize) (b : Nat) :
    (s.enter b).registers.length = ebpfRegisters := by
  simp [enter, blockArgs]

/-- Every position a successful `translate` visits holds an instruction the
lifter can lower. -/
theorem lowerable_of_translate :
    ∀ {s s' : Deserialize} {ps : List Nat}, s.registers.length = ebpfRegisters →
      translate prog s ps = some s' →
      ∀ p ∈ ps, ∃ li, prog[p]? = some li ∧ li.ins.lowerable prog li.label
  | _, _, [], _, _, _, hp => by cases hp
  | s, s', q :: ps, hlen, hs, p, hp => by
    simp only [translate, bind, Option.bind_eq_some] at hs
    obtain ⟨li, hli, s₁, h₁, hs⟩ := hs
    rcases List.mem_cons.1 hp with rfl | hp
    · exact ⟨li, hli, lowerable_of_createMLIR hlen h₁⟩
    · exact lowerable_of_translate ((appends_createMLIR h₁).1.registers_length.trans hlen) hs p hp

/-- The ranges of the boundary loop cover every offset from `cur` to the one
it stops at. -/
theorem lowerable_of_boundaryLoop :
    ∀ {rest : List Nat} {cur cur' : Nat} {s s' : Deserialize},
      boundaryLoop prog rest cur s = some (cur', s') →
      cur ≤ cur' ∧ ∀ p, cur ≤ p → p < cur' → ∃ li, prog[p]? = some li ∧ li.ins.lowerable prog li.label
  | [], _, _, _, _, hs => by
    cases hs
    exact ⟨le_rfl, fun p h1 h2 => absurd h2 (by omega)⟩
  | next :: rest, cur, cur', s, s', hs => by
    simp only [boundaryLoop, bind, Option.bind_eq_some] at hs
    obtain ⟨b, -, s₁, ht, s₂, -, hs⟩ := hs
    obtain ⟨hle, ih⟩ := lowerable_of_boundaryLoop hs
    refine ⟨le_trans (le_max_left _ _) hle, fun p h1 h2 => ?_⟩
    by_cases hp : p < next
    · exact lowerable_of_translate (registers_enter s b) ht p (List.mem_range'_1.2 ⟨h1, by omega⟩)
    · exact ih p (by omega) h2

/-- `buildFunctionBody` lowers every instruction of the section, those no run
reaches included. -/
theorem lowerable_of_buildFunctionBody (hs : buildFunctionBody prog init = some s') :
    ∀ li ∈ prog, li.ins.lowerable prog li.label := by
  intro li hli
  obtain ⟨i, hi⟩ := List.mem_iff_getElem?.1 hli
  have hlt : i < prog.length := (List.getElem?_eq_some_iff.1 hi).1
  simp only [buildFunctionBody, bind, Option.bind_eq_some] at hs
  obtain ⟨sC, -, ⟨ck, sL⟩, hloop, ht⟩ := hs
  obtain ⟨li', hli', hl⟩ : ∃ li', prog[i]? = some li' ∧ li'.ins.lowerable prog li'.label := by
    rcases Nat.lt_or_ge i ck with hik | hik
    · exact (lowerable_of_boundaryLoop hloop).2 i (Nat.zero_le _) hik
    · rw [if_pos (by omega)] at ht
      exact lowerable_of_translate (registers_enter _ _) ht i (List.mem_range'_1.2 ⟨hik, by omega⟩)
  rw [hi, Option.some.injEq] at hli'
  rwa [hli']

theorem reg_eq_of_lt {r : Reg} (h : r < s.registers.length) : s.reg r = some s.registers[r] :=
  List.getElem?_eq_getElem h

/-- An instruction lowered in place, whose registers are in range, is lowered
from any state with `ebpfRegisters` registers. -/
theorem exists_createMLIR_of_data (hd : ins.isData) (hr : ∀ r ∈ ins.regs, r < ebpfRegisters)
    (hlen : s.registers.length = ebpfRegisters) : ∃ s', createMLIR prog s ins l = some s' := by
  rw [← hlen] at hr
  cases ins with
  | bin b =>
    obtain ⟨op, dst, v⟩ := b
    have h1 : dst < s.registers.length := hr dst (by simp [Instruction.regs])
    cases v with
    | imm i => simp [createMLIR, createBinaryOp, setReg, reg_eq_of_lt h1, h1]
    | reg r =>
      have h2 : r < s.registers.length := hr r (by simp [Instruction.regs, Operand.regs])
      simp [createMLIR, createBinaryOp, setReg, reg_eq_of_lt h1, reg_eq_of_lt h2, h1]
  | un u =>
    have h1 : u.dst < s.registers.length := hr _ (by simp [Instruction.regs])
    simp [createMLIR, createUnaryOp, setReg, reg_eq_of_lt h1, h1]
  | loadMapFd lm =>
    have h1 : lm.dst < s.registers.length := hr _ (by simp [Instruction.regs])
    simp [createMLIR, createLoadMapOp, setReg, reg, List.getElem?_eq_getElem h1, h1]
  | mem m =>
    have h1 : m.access.basereg < s.registers.length := hr _ (by simp [Instruction.regs])
    have h2 : m.value < s.registers.length := hr _ (by simp [Instruction.regs])
    cases hl : m.isLoad <;>
      simp [createMLIR, createMemOp, setReg, reg, List.getElem?_eq_getElem h1,
        List.getElem?_eq_getElem h2, hl, h2]
  | _ => cases hd

theorem exists_createMLIR_jmp {t : Nat} (hl : l < t) (hli : prog[t]?.map (·.label) = some t)
    (hjb : (s.jumpBlocks t).isSome) : ∃ s', createMLIR prog s (.jmp ⟨none, t⟩) l = some s' := by
  obtain ⟨li, hli', hlab⟩ := Option.map_eq_some'.1 hli
  obtain ⟨d, hd⟩ := Option.isSome_iff_exists.1 hjb
  simp [createMLIR, createJmpOp, buildJmpOp, hl, hli', hlab, hd]

theorem exists_closeBlock {b next : Nat} (h : (s.jumpBlocks next).isSome) :
    ∃ s', s.closeBlock b next = some s' := by
  obtain ⟨d, hd⟩ := Option.isSome_iff_exists.1 h
  unfold closeBlock
  split_ifs
  · exact ⟨s, rfl⟩
  · simp [hd]

/-- An offset some jump targets is in `m_jmpTargets` once the loop of
`collectBlocks` has passed the jump. -/
theorem mem_jmpTargets_foldl {x : Nat} : ∀ {prog : InstructionSeq} {s : Deserialize},
    x ∈ s.jmpTargets ∨ x ∈ jumpTargets prog → x ∈ (prog.foldl collectStep s).jmpTargets
  | [], _, h => h.resolve_right (by simp [jumpTargets])
  | li :: prog, s, h => by
    show x ∈ (prog.foldl collectStep (s.collectStep li)).jmpTargets
    refine mem_jmpTargets_foldl ?_
    rw [jumpTargets_cons, List.mem_append, Option.mem_toList] at h
    rcases h with h | h | h
    exacts [.inl (mem_jmpTargets_collectStep.2 (.inl h)),
      .inl (mem_jmpTargets_collectStep.2 (.inr (.inl h))), .inr h]

end Deserialize

/-- Whatever section `buildXDPFunction` lifts, each of its instructions, run
or not, is one the lifter can lower: no `Bin`, `Un`, `Mem` or `LoadMapFd`
names a register beyond R10, and every jump, conditional or not, targets a
later instruction whose label is its position. -/
theorem buildXDPFunction_lowerable {prog : InstructionSeq} {sections : List InstructionSeq}
    {f : Func} (hf : buildXDPFunction (prog :: sections) = some f) :
    ∀ li ∈ prog, li.ins.lowerable prog li.label := by
  simp only [buildXDPFunction, List.head?_cons, Option.bind_eq_bind, Option.some_bind,
    Option.bind_eq_some] at hf
  obtain ⟨s, hs, -⟩ := hf
  exact Deserialize.lowerable_of_buildFunctionBody hs

/-- `goto +1; r3 = r4; exit`: the move no run reaches is lowered too. -/
theorem buildXDPFunction_lowerable_dead :
    (∃ f, buildXDPFunction [[⟨0, .jmp ⟨none, 2⟩⟩, ⟨1, .bin ⟨.mov, 3, .reg 4⟩⟩, ⟨2, .exit⟩]] = some f) ∧
    ∀ li ∈ ([⟨0, .jmp ⟨none, 2⟩⟩, ⟨1, .bin ⟨.mov, 3, .reg 4⟩⟩, ⟨2, .exit⟩] : InstructionSeq),
      li.ins.lowerable [⟨0, .jmp ⟨none, 2⟩⟩, ⟨1, .bin ⟨.mov, 3, .reg 4⟩⟩, ⟨2, .exit⟩] li.label :=
  ⟨⟨_, rfl⟩, @buildXDPFunction_lowerable _ [] _ rfl⟩

/-! ### Forward sections -/

section Forward

variable {body : InstructionSeq} (hw : ForwardBody body)
  (hregs : ∀ li ∈ body, ∀ r ∈ li.ins.regs, r < ebpfRegisters)
include hw hregs

/-- Every instruction of a forward section, its registers in range, is lowered
from any state with `ebpfRegisters` registers and a block for every jump
target. -/
theorem exists_createMLIR_forward {s : Deserialize} (hlen : s.registers.length = ebpfRegisters)
    (hjb : ∀ t ∈ jumpTargets body, (s.jumpBlocks t).isSome) {p : Nat} {li : LabeledInstruction}
    (hli : (body ++ [⟨body.length, .exit⟩])[p]? = some li) :
    ∃ s', Deserialize.createMLIR (body ++ [⟨body.length, .exit⟩]) s li.ins li.label = some s' := by
  rcases Nat.lt_or_ge p body.length with hp | hp
  · rw [List.getElem?_append_left hp] at hli
    obtain ⟨hlab, hd | ⟨t, ht, hpt, htn⟩⟩ := hw p li hli
    · exact Deserialize.exists_createMLIR_of_data hd (hregs li (List.getElem?_mem hli)) hlen
    have htj : t ∈ jumpTargets body := List.mem_filterMap.2
      ⟨li, List.getElem?_mem hli, by simp [LabeledInstruction.jumpTarget?, ht]⟩
    obtain ⟨li', hli'⟩ : ∃ li', (body ++ [⟨body.length, .exit⟩])[t]? = some li' :=
      ⟨_, List.getElem?_eq_getElem (by simp; omega)⟩
    rw [ht]
    refine Deserialize.exists_createMLIR_jmp (by omega) ?_ (hjb t htj)
    rw [hli', Option.map_some', hw.label t li' hli']
  · obtain ⟨hlt, rfl⟩ := List.getElem?_eq_some_iff.1 hli
    obtain rfl : p = body.length := by simp at hlt; omega
    simp [Deserialize.createMLIR]

theorem exists_translate_forward : ∀ {s : Deserialize} {ps : List Nat},
    s.registers.length = ebpfRegisters → (∀ t ∈ jumpTargets body, (s.jumpBlocks t).isSome) →
    (∀ p ∈ ps, p ≤ body.length) →
    ∃ s', Deserialize.translate (body ++ [⟨body.length, .exit⟩]) s ps = some s' ∧
      s'.jumpBlocks = s.jumpBlocks
  | s, [], _, _, _ => ⟨s, rfl, rfl⟩
  | s, p :: ps, hlen, hjb, hps => by
    obtain ⟨li, hli⟩ : ∃ li, (body ++ [⟨body.length, .exit⟩])[p]? = some li :=
      ⟨_, List.getElem?_eq_getElem (by simp; have := hps p (List.mem_cons_self _ _); omega)⟩
    obtain ⟨s₁, h₁⟩ := exists_createMLIR_forward hw hregs hlen hjb hli
    have happ := (Deserialize.appends_createMLIR h₁).1
    obtain ⟨s', ht, hjb'⟩ := exists_translate_forward (happ.registers_length.trans hlen)
      (by rwa [happ.jumpBlocks]) fun q hq => hps q (List.mem_cons_of_mem _ hq)
    refine ⟨s', ?_, hjb'.trans happ.jumpBlocks⟩
    simp only [Deserialize.translate, hli, h₁, bind, Option.some_bind, ht]

theorem exists_boundaryLoop_forward {jb : Nat → Option Nat}
    (hjb : ∀ t ∈ jumpTargets body, (jb t).isSome) :
    ∀ {rest : List Nat} {cur : Nat} {s : Deserialize}, s.jumpBlocks = jb → (jb cur).isSome →
      (∀ t ∈ rest, t ∈ jumpTargets body) →
      ∃ cur' s', Deserialize.boundaryLoop (body ++ [⟨body.length, .exit⟩]) rest cur s = some (cur', s') ∧
        s'.jumpBlocks = jb
  | [], cur, s, hs, _, _ => ⟨cur, s, rfl, hs⟩
  | next :: rest, cur, s, hs, hcur, hrest => by
    obtain ⟨b, hb⟩ := Option.isSome_iff_exists.1 (hs ▸ hcur)
    have hnext := hrest next (List.mem_cons_self _ _)
    obtain ⟨-, -, -, -, -, hnb⟩ := hw.jumpTarget hnext
    obtain ⟨s₁, ht, hjb₁⟩ : ∃ s₁, Deserialize.translate (body ++ [⟨body.length, .exit⟩]) (s.enter b)
        (List.range' cur (next - cur)) = some s₁ ∧ s₁.jumpBlocks = (s.enter b).jumpBlocks :=
      exists_translate_forward hw hregs (Deserialize.registers_enter s b)
        (by simpa only [Deserialize.enter, hs] using hjb)
        fun p hp => by rw [List.mem_range'_1] at hp; omega
    obtain ⟨s₂, hc⟩ := Deserialize.exists_closeBlock (b := b)
      (show (s₁.jumpBlocks next).isSome by rw [hjb₁, show (s.enter b).jumpBlocks = jb from hs]; exact hjb next hnext)
    have hjb₂ : s₂.jumpBlocks = jb := (Deserialize.closeBlock_frame hc).1.trans (hjb₁.trans hs)
    have hmax : (jb (max cur next)).isSome := by
      rcases le_total cur next with h | h
      · rw [max_eq_right h]; exact hjb next hnext
      · rw [max_eq_left h]; exact hcur
    obtain ⟨cur', s', hl, hjb'⟩ := exists_boundaryLoop_forward hjb hjb₂ hmax
      fun t ht => hrest t (List.mem_cons_of_mem _ ht)
    exact ⟨cur', s', by simp only [Deserialize.boundaryLoop, hb, ht, hc, bind, Option.some_bind, hl],
      hjb'⟩

/-- A section whose body runs forward is lifted as soon as its registers are
in range: `buildXDPFunction` then meets none of its failing `at`s and
assertions. -/
theorem buildXDPFunction_forward_accepts :
    ∃ f, buildXDPFunction [body ++ [⟨body.length, .exit⟩]] = some f := by
  obtain ⟨sC, hcol, hsC, -, hmem⟩ :=
    Deserialize.collectBlocks_of_fallThroughs_nil hw.fallThroughs_eq_nil
  have hidx := Deserialize.blockIndex_foldl_collectStep
    (body ++ ([⟨body.length, .exit⟩] : InstructionSeq)) Deserialize.blockIndex_init
  have hjbC := congrArg Deserialize.jumpBlocks hsC
  have hjb : ∀ t ∈ jumpTargets body, (sC.jumpBlocks t).isSome := fun t ht => by
    rw [hjbC]
    exact hidx.target t (Deserialize.mem_jmpTargets_foldl (.inr (by rwa [jumpTargets_append_exit])))
  have hjb0 : (sC.jumpBlocks 0).isSome := by
    rw [hjbC]
    simp only [(Deserialize.foldl_collectStep_frame (s := Deserialize.init) hw.not_zero).2.2]
    rfl
  obtain ⟨ck, sL, hloop, hjbL⟩ := exists_boundaryLoop_forward hw hregs hjb rfl hjb0
    fun t ht => by rw [← jumpTargets_append_exit body body.length]; exact (hmem t).1 ht
  obtain ⟨sB, ht⟩ : ∃ sB, Deserialize.translate (body ++ [⟨body.length, .exit⟩])
      (if ck < (body ++ ([⟨body.length, .exit⟩] : InstructionSeq)).length then sL.enter sL.lastBlock
        else sL)
      (List.range' ck ((body ++ ([⟨body.length, .exit⟩] : InstructionSeq)).length - ck)) = some sB := by
    by_cases hck : ck < (body ++ ([⟨body.length, .exit⟩] : InstructionSeq)).length
    · rw [if_pos hck]
      exact (exists_translate_forward hw hregs (Deserialize.registers_enter _ _)
        (by simpa only [Deserialize.enter, hjbL] using hjb)
        fun p hp => by rw [List.mem_range'_1] at hp; simp at hp; omega).imp fun _ h => h.1
    · rw [if_neg hck, Nat.sub_eq_zero_of_le (Nat.le_of_not_lt hck)]
      exact ⟨sL, rfl⟩
  simp only [buildXDPFunction, List.head?_cons, Option.bind_eq_bind, Option.some_bind,
    Deserialize.buildFunctionBody, hcol, hloop, ht]
  exact ⟨_, rfl⟩

end Forward

/-- A move, a jump over a store, and a store: a body that runs forward. -/
theorem forwardBody_skip : ForwardBody [⟨0, .bin ⟨.mov, 1, .imm 1⟩⟩, ⟨1, .jmp ⟨none, 3⟩⟩,
    ⟨2, .mem ⟨⟨.w8, 10, -8⟩, 1, false⟩⟩, ⟨3, .mem ⟨⟨.w8, 10, -16⟩, 1, false⟩⟩] := fun i li h =>
  match i, h with
  | 0, h | 2, h | 3, h => by obtain rfl := Option.some.inj h; exact ⟨rfl, .inl rfl⟩
  | 1, h => by obtain rfl := Option.some.inj h; exact ⟨rfl, .inr ⟨3, rfl, by decide, by decide⟩⟩
  | _ + 4, h => by cases h

/-- The section of `forwardBody_skip`, which names R1 and R10 only, is lifted. -/
theorem buildXDPFunction_forward_accepts_skip :
    ∃ f, buildXDPFunction [[⟨0, .bin ⟨.mov, 1, .imm 1⟩⟩, ⟨1, .jmp ⟨none, 3⟩⟩,
        ⟨2, .mem ⟨⟨.w8, 10, -8⟩, 1, false⟩⟩, ⟨3, .mem ⟨⟨.w8, 10, -16⟩, 1, false⟩⟩] ++
        [⟨4, .exit⟩]] = some f :=
  buildXDPFunction_forward_accepts forwardBody_skip (by decide)

end Ebpf
end Btor2Mlir
