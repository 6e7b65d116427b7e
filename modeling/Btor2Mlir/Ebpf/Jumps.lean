import Btor2Mlir.Ebpf.Simulation
/-!
# Lifting a section with forward jumps

`buildFunctionBody` cuts a section at the offsets `collectBlocks` lists, lowers
each range into the block of its first offset, and `closeBlock` ends a range
whose block does not end in a branch with a branch to the next one. A jump's
branch is not the end of its range, though: the instructions after it up to
the next offset go into the same block, after the branch. For a section whose
body is data instructions and unconditional jumps forward (`ForwardBody`) and
holds a jump, the lifted function has an operation after a terminator of its
block, which MLIR's verifier rejects, and every run that enters that block
fails (`buildXDPFunction_forward_jumps`). Two things put it there. A jump over
the instruction after it leaves that instruction in its own range, where no
jump leads (`boundaryLoop_after_branch`). When every jump goes to the next
instruction, every range ends in a branch, so `closeBlock` never moves
`m_lastBlock` off the entry block, and the last range and the `ReturnOp` land
there, after the first range's branch (`boundaryLoop_of_jumps`).
-/

namespace Btor2Mlir
namespace Ebpf

/-- The instructions lowered into operations computed in place: `Bin`, `Un`,
`Mem` and `LoadMapFd`. -/
def Instruction.isData : Instruction → Bool
  | .bin _ | .un _ | .mem _ | .loadMapFd _ => true
  | _ => false

namespace Deserialize

variable {s s' s'' : Deserialize}

/-! ### The block index `collectBlocks` builds -/

/-- `m_jumpBlocks` sends different offsets to different blocks, each already
allocated, and every offset of `m_jmpTargets` to one. -/
structure BlockIndex (s : Deserialize) : Prop where
  lt : ∀ o b, s.jumpBlocks o = some b → b < s.blocks.length
  inj : ∀ o o' b, s.jumpBlocks o = some b → s.jumpBlocks o' = some b → o = o'
  target : ∀ t ∈ s.jmpTargets, (s.jumpBlocks t).isSome

@[simp] theorem jumpBlocks_incrementBlocks (s : Deserialize) (t o : Nat) :
    (s.incrementBlocks t).jumpBlocks o = if o = t then some s.blocks.length else s.jumpBlocks o :=
  rfl

theorem BlockIndex.incrementBlocks (h : s.BlockIndex) (t : Nat) : (s.incrementBlocks t).BlockIndex where
  lt o b hb := by
    rw [jumpBlocks_incrementBlocks] at hb
    simp only [Deserialize.incrementBlocks, List.length_append, List.length_singleton]
    split_ifs at hb
    · cases hb; omega
    · have := h.lt _ _ hb; omega
  inj o o' b h1 h2 := by
    rw [jumpBlocks_incrementBlocks] at h1 h2
    split_ifs at h1 h2 with ho ho'
    · exact ho.trans ho'.symm
    · cases h1; exact absurd (h.lt _ _ h2) (lt_irrefl _)
    · cases h2; exact absurd (h.lt _ _ h1) (lt_irrefl _)
    · exact h.inj _ _ _ h1 h2
  target x hx := by
    rw [jumpBlocks_incrementBlocks]
    by_cases ho : x = t
    · simp [ho]
    · rw [if_neg ho]
      exact h.target x ((List.mem_insert_iff.1 hx).resolve_left ho)

theorem BlockIndex.collectStep (h : s.BlockIndex) (li : LabeledInstruction) :
    (s.collectStep li).BlockIndex := by
  obtain ⟨label, ins⟩ := li
  cases ins with
  | jmp j =>
    have h1 : (if j.target ∈ s.jmpTargets then s else s.incrementBlocks j.target).BlockIndex := by
      split_ifs
      exacts [h, h.incrementBlocks _]
    simp only [Deserialize.collectStep]
    by_cases hc : j.cond.isSome = true
    · rw [if_pos hc]
      exact h1.incrementBlocks _
    · rw [if_neg hc]
      exact h1
  | _ => exact h

theorem blockIndex_foldl_collectStep (prog : InstructionSeq) (h : s.BlockIndex) :
    (prog.foldl Deserialize.collectStep s).BlockIndex := by
  induction prog generalizing s with
  | nil => exact h
  | cons li prog ih => exact ih (h.collectStep li)

theorem blockIndex_init : init.BlockIndex where
  lt o b hb := by
    by_cases ho : o = 0 <;> simp [init, ho] at hb
    simp [init, ← hb]
  inj o o' b h1 h2 := by
    by_cases ho : o = 0 <;> by_cases ho' : o' = 0 <;> simp_all [init]
  target _ h := by cases h

theorem collectStep_frame (s : Deserialize) (li : LabeledInstruction) :
    (s.collectStep li).ops = s.ops ∧ (s.collectStep li).lastBlock = s.lastBlock := by
  obtain ⟨label, ins⟩ := li
  cases ins with
  | jmp j => simp only [Deserialize.collectStep]; split_ifs <;> exact ⟨rfl, rfl⟩
  | _ => exact ⟨rfl, rfl⟩

theorem jumpBlocks_collectStep {li : LabeledInstruction} {o : Nat} (ht : li.jumpTarget? ≠ some o)
    (hf : li.fallThrough? ≠ some o) : (s.collectStep li).jumpBlocks o = s.jumpBlocks o := by
  obtain ⟨label, ins⟩ := li
  cases ins with
  | jmp j =>
    have ho : o ≠ j.target := by rintro rfl; exact ht rfl
    simp only [Deserialize.collectStep]
    by_cases hc : j.cond.isSome = true
    · have ho' : o ≠ label + 1 := by
        rintro rfl; exact hf (by simp [LabeledInstruction.fallThrough?, hc])
      rw [if_pos hc, jumpBlocks_incrementBlocks, if_neg ho']
      split_ifs <;> simp [ho]
    · rw [if_neg hc]
      split_ifs <;> simp [ho]
  | _ => rfl

/-- The loop of `collectBlocks` keeps the operations and `m_lastBlock`, and the
block of every offset no jump names. -/
theorem foldl_collectStep_frame {o : Nat} : ∀ {prog : InstructionSeq} {s : Deserialize},
    (∀ li ∈ prog, li.jumpTarget? ≠ some o ∧ li.fallThrough? ≠ some o) →
    (prog.foldl collectStep s).ops = s.ops ∧ (prog.foldl collectStep s).lastBlock = s.lastBlock ∧
      (prog.foldl collectStep s).jumpBlocks o = s.jumpBlocks o
  | [], _, _ => ⟨rfl, rfl, rfl⟩
  | li :: prog, s, h => by
    obtain ⟨h1, h2, h3⟩ := foldl_collectStep_frame (s := s.collectStep li)
      fun li' hli' => h li' (List.mem_cons_of_mem _ hli')
    obtain ⟨ht, hf⟩ := h li (List.mem_cons_self _ _)
    exact ⟨h1.trans (collectStep_frame s li).1, h2.trans (collectStep_frame s li).2,
      h3.trans (jumpBlocks_collectStep ht hf)⟩

/-- Without conditional jumps, `collectBlocks` lists every jump target once,
in increasing order. -/
theorem collectBlocks_of_fallThroughs_nil {prog : InstructionSeq} (hft : fallThroughs prog = []) :
    ∃ s, init.collectBlocks prog = some s ∧
      s = { prog.foldl collectStep init with startOfNextBlock := s.startOfNextBlock } ∧
      s.startOfNextBlock.Sorted (· < ·) ∧ ∀ x, x ∈ s.startOfNextBlock ↔ x ∈ jumpTargets prog := by
  have hnum : (prog.foldl collectStep init).numBlocks =
      (prog.foldl collectStep init).startOfNextBlock.length := by
    simpa using numBlocks_foldl_collectStep prog init
  have hcount (x : Nat) : (prog.foldl collectStep init).startOfNextBlock.count x =
      if targetFirst x prog then 1 else 0 := by
    simpa [hft] using count_foldl_collectStep x prog init
  set l := (prog.foldl collectStep init).startOfNextBlock
  have hnd : l.Nodup := List.nodup_iff_count_le_one.2 fun x => by rw [hcount]; split_ifs <;> simp
  have hperm : (l.insertionSort (· ≤ ·)).Perm l := List.perm_insertionSort _ l
  refine ⟨_, by simp only [collectBlocks, if_pos hnum]; rfl, rfl,
    (List.sorted_insertionSort _ l).lt_of_le (hperm.nodup_iff.2 hnd), fun x => ?_⟩
  have hx := targetFirst_or_mem_fallThroughs x prog
  rw [hft, List.mem_nil_iff, or_false, or_false] at hx
  rw [hperm.mem_iff, ← List.count_pos_iff, hcount, ← hx]
  split_ifs with h <;> simp [h]
  
/-! ### What translating a range appends -/

/-- `s'` is `s` with operations of its insertion block appended and its
registers changed in place. -/
def Appends (s s' : Deserialize) : Prop :=
  ∃ new regs, s' = { s with ops := s.ops ++ new, registers := regs } ∧
    (∀ o ∈ new, o.block = s.insertion) ∧ regs.length = s.registers.length

theorem Appends.refl (s : Deserialize) : Appends s s :=
  ⟨[], s.registers, by simp, by simp, rfl⟩

theorem Appends.trans (h : Appends s s') (h' : Appends s' s'') : Appends s s'' := by
  obtain ⟨new, regs, rfl, hb, hl⟩ := h
  obtain ⟨new', regs', rfl, hb', hl'⟩ := h'
  exact ⟨new ++ new', regs', by simp, fun o ho => (List.mem_append.1 ho).elim (hb o) (hb' o),
    hl'.trans hl⟩

theorem appends_create (s : Deserialize) (k : OpKind) (vs : List Val) : Appends s (s.create k vs).1 :=
  ⟨[⟨s.insertion, k, vs⟩], s.registers, rfl, by simp, rfl⟩

theorem Appends.setReg (h : Appends s s') {r : Reg} {v : Val} (hs : s'.setReg r v = some s'') :
    Appends s s'' := by
  obtain ⟨-, rfl⟩ := setReg_eq_some hs
  exact h.trans ⟨[], s'.registers.set r v, by simp, by simp, List.length_set _ _ _⟩

/-- `createMLIR` appends operations to the insertion block; a data instruction
or an unconditional jump appends at least one, its first operation created
before any other. -/
theorem appends_createMLIR {prog : InstructionSeq} {ins : Instruction} {l : Nat}
    (hs : createMLIR prog s ins l = some s') :
    Appends s s' ∧ (ins.isData ∨ (∃ t, ins = .jmp ⟨none, t⟩) → ∃ k vs, Appends (s.create k vs).1 s') := by
  cases ins with
  | bin bin =>
    obtain ⟨op, dst, v⟩ := bin
    simp only [createMLIR, createBinaryOp, bind, Option.bind_eq_some] at hs
    obtain ⟨lhs, -, hs⟩ := hs
    cases v with
    | imm i =>
      have h := (appends_create _ _ _).setReg hs
      exact ⟨(appends_create _ _ _).trans h, fun _ => ⟨_, _, h⟩⟩
    | reg r =>
      simp only [pure, Option.some_bind, Option.bind_eq_some] at hs
      obtain ⟨rhs, -, hs⟩ := hs
      have h := (Appends.refl _).setReg hs
      exact ⟨(appends_create _ _ _).trans h, fun _ => ⟨_, _, h⟩⟩
  | un u =>
    simp only [createMLIR, createUnaryOp, bind, Option.bind_eq_some] at hs
    obtain ⟨rhs, -, hs⟩ := hs
    have h := (Appends.refl _).setReg hs
    exact ⟨(appends_create _ _ _).trans h, fun _ => ⟨_, _, h⟩⟩
  | loadMapFd lm =>
    simp only [createMLIR, createLoadMapOp, bind, Option.bind_eq_some] at hs
    obtain ⟨cur, -, hs⟩ := hs
    have h := (appends_create _ _ _).setReg hs
    exact ⟨(appends_create _ _ _).trans h, fun _ => ⟨_, _, h⟩⟩
  | mem m =>
    simp only [createMLIR, createMemOp, bind, Option.bind_eq_some] at hs
    obtain ⟨base, -, hs⟩ := hs
    cases hl : m.isLoad
    · simp only [hl, Bool.false_eq_true, if_false, pure, Option.bind_eq_some, Option.some.injEq] at hs
      obtain ⟨v, -, rfl⟩ := hs
      exact ⟨(appends_create _ _ _).trans (appends_create _ _ _), fun _ => ⟨_, _, appends_create _ _ _⟩⟩
    · simp only [hl, if_true] at hs
      have h := (appends_create _ _ _).setReg hs
      exact ⟨(appends_create _ _ _).trans h, fun _ => ⟨_, _, h⟩⟩
  | jmp j =>
    simp only [createMLIR, createJmpOp, bind, Option.bind_eq_some] at hs
    obtain ⟨_, -, _, -, _, -, hs⟩ := hs
    unfold buildJmpOp at hs
    cases hc : j.cond with
    | none =>
      simp only [hc, bind, pure, Option.bind_eq_some, Option.some.injEq] at hs
      obtain ⟨nb, -, rfl⟩ := hs
      exact ⟨appends_create _ _ _, fun _ => ⟨_, _, Appends.refl _⟩⟩
    | some c =>
      simp only [hc, Option.some.injEq] at hs
      subst hs
      refine ⟨Appends.refl _, fun h => ?_⟩
      rcases h with h | ⟨t, ht⟩
      · cases h
      · rw [Instruction.jmp.injEq] at ht
        rw [ht] at hc
        cases hc
  | _ =>
    cases hs
    exact ⟨Appends.refl _, fun h => by rcases h with h | ⟨t, ⟨⟩⟩; cases h⟩

theorem appends_translate {prog : InstructionSeq} :
    ∀ {s s' : Deserialize} {ps : List Nat}, translate prog s ps = some s' → Appends s s'
  | s, s', [], hs => by cases hs; exact Appends.refl s
  | s, s', p :: ps, hs => by
    simp only [translate, bind, Option.bind_eq_some] at hs
    obtain ⟨li, -, s1, h1, hs⟩ := hs
    exact (appends_createMLIR h1).1.trans (appends_translate hs)


/-! ### Jumps and block ends -/

/-- `createJmpOp` on an unconditional jump: the target is a later instruction
whose label is its position, and the branch to its block carries the
registers. -/
theorem createJmpOp_eq {prog : InstructionSeq} {t l : Nat}
    (hs : createJmpOp prog s ⟨none, t⟩ l = some s') :
    l < t ∧ t < prog.length ∧ ∃ d, s.jumpBlocks t = some d ∧ s' = (s.create (.branch d) s.registers).1 := by
  simp only [createJmpOp, buildJmpOp, bind, pure, Option.bind_eq_some, Option.guard_eq_some',
    Option.some.injEq] at hs
  obtain ⟨_, hl, li, hli, _, -, d, hd, rfl⟩ := hs
  exact ⟨hl, (List.getElem?_eq_some_iff.1 hli).1, d, hd, rfl⟩

/-- `closeBlock`: a block ending in a terminator is left as it is; any other
gets a branch to the block at `next` carrying the registers, and that block
becomes `m_lastBlock`. -/
theorem closeBlock_eq {b next : Nat} (hs : s.closeBlock b next = some s') :
    (s.endsInTerminator b = true ∧ s' = s) ∨
      (s.endsInTerminator b = false ∧ ∃ d, s.jumpBlocks next = some d ∧
        s' = { ({ s with insertion := b }.create (.branch d) s.registers).1 with lastBlock := d }) := by
  unfold closeBlock at hs
  cases h : s.endsInTerminator b
  · simp only [h, Bool.false_eq_true, if_false, bind, pure, Option.bind_eq_some,
      Option.some.injEq] at hs
    obtain ⟨d, hd, rfl⟩ := hs
    exact .inr ⟨rfl, d, hd, rfl⟩
  · simp only [h, if_true, Option.some.injEq] at hs
    exact .inl ⟨rfl, hs.symm⟩

end Deserialize

theorem LabeledInstruction.jumpTarget?_eq_some {li : LabeledInstruction} {t : Nat}
    (h : li.jumpTarget? = some t) : ∃ c, li.ins = .jmp ⟨c, t⟩ := by
  obtain ⟨label, ins⟩ := li
  cases ins with
  | jmp j => exact ⟨j.cond, by simp only [LabeledInstruction.jumpTarget?, Option.some.injEq] at h; rw [← h]⟩
  | _ => cases h

theorem Deserialize.closeBlock_frame {s s' : Deserialize} {b next : Nat}
    (hs : s.closeBlock b next = some s') :
    s'.jumpBlocks = s.jumpBlocks ∧ ∃ new, s'.ops = s.ops ++ new ∧ ∀ o ∈ new, o.block = b := by
  rcases Deserialize.closeBlock_eq hs with ⟨-, rfl⟩ | ⟨-, d, -, rfl⟩
  · exact ⟨rfl, [], by simp, by simp⟩
  · exact ⟨rfl, _, rfl, by simp⟩


/-! ### The boundary loop -/

/-- The body of a section the lifter handles in full: labels are positions,
and every instruction is a `Bin`, `Un`, `Mem` or `LoadMapFd`, or an
unconditional jump to a later instruction of the section (the `Exit` after the
body included). -/
def ForwardBody (body : InstructionSeq) : Prop :=
  ∀ (i : Nat) (li : LabeledInstruction), body[i]? = some li → li.label = i ∧
    (li.ins.isData ∨ ∃ t, li.ins = .jmp ⟨none, t⟩ ∧ i < t ∧ t ≤ body.length)

section Loop

variable {body : InstructionSeq}

theorem ForwardBody.label (hw : ForwardBody body) : ∀ (i : Nat) (li : LabeledInstruction),
    (body ++ [⟨body.length, .exit⟩])[i]? = some li → li.label = i := by
  intro i li hi
  rcases Nat.lt_or_ge i body.length with hlt | hge
  · rw [List.getElem?_append_left hlt] at hi
    exact (hw i li hi).1
  · obtain ⟨hlt, rfl⟩ := List.getElem?_eq_some_iff.1 hi
    simp at hlt
    simp [List.getElem_append_right hge, show i = body.length by omega]

theorem ForwardBody.jumpTarget (hw : ForwardBody body) {t : Nat} (ht : t ∈ jumpTargets body) :
    ∃ i li, body[i]? = some li ∧ li.ins = .jmp ⟨none, t⟩ ∧ i < t ∧ t ≤ body.length := by
  obtain ⟨li, hli, hjt⟩ := List.mem_filterMap.1 ht
  obtain ⟨i, hi⟩ := List.mem_iff_getElem?.1 hli
  obtain ⟨c, hc⟩ := LabeledInstruction.jumpTarget?_eq_some hjt
  rcases (hw i li hi).2 with hd | ⟨t', ht', hit, htn⟩
  · rw [hc] at hd; cases hd
  · rw [hc, Instruction.jmp.injEq, Jmp.mk.injEq] at ht'
    obtain ⟨rfl, rfl⟩ := ht'
    exact ⟨i, li, hi, hc, hit, htn⟩

theorem ForwardBody.fallThroughs_eq_nil (hw : ForwardBody body) :
    fallThroughs (body ++ [⟨body.length, .exit⟩]) = [] := by
  refine List.filterMap_eq_nil_iff.2 fun li hli => ?_
  rcases List.mem_append.1 hli with hli | hli
  · obtain ⟨i, hi⟩ := List.mem_iff_getElem?.1 hli
    obtain ⟨label, ins⟩ := li
    rcases (hw i _ hi).2 with hd | ⟨t, rfl, -⟩
    · cases ins <;> first | rfl | cases hd
    · rfl
  · rw [List.mem_singleton.1 hli]
    rfl

theorem jumpTargets_append_exit (body : InstructionSeq) (l : Nat) :
    jumpTargets (body ++ [⟨l, .exit⟩]) = jumpTargets body := by
  simp [jumpTargets, LabeledInstruction.jumpTarget?]

/-- No jump of the section targets its first instruction, and no jump falls
through. -/
theorem ForwardBody.not_zero (hw : ForwardBody body) :
    ∀ li ∈ body ++ [⟨body.length, .exit⟩], li.jumpTarget? ≠ some 0 ∧ li.fallThrough? ≠ some 0 := by
  intro li hli
  refine ⟨fun h0 => ?_, fun h0 => ?_⟩
  · have h0' : 0 ∈ jumpTargets body := by
      rw [← jumpTargets_append_exit body body.length]
      exact List.mem_filterMap.2 ⟨li, hli, h0⟩
    obtain ⟨_, _, -, -, hi, -⟩ := hw.jumpTarget h0'
    omega
  · have h0' : 0 ∈ fallThroughs (body ++ [⟨body.length, .exit⟩]) :=
      List.mem_filterMap.2 ⟨li, hli, h0⟩
    rw [hw.fallThroughs_eq_nil] at h0'
    cases h0'

end Loop

/-! ### A terminator with an operation after it -/

/-- Some operation comes after a terminator of its block. MLIR's verifier
rejects such a function: a terminator is the last operation of its block. -/
def AfterTerminator (ops : List Operation) : Prop :=
  ∃ o o', [o, o'].Sublist ops ∧ o.block = o'.block ∧ o.kind.isTerminator = true

theorem AfterTerminator.append {ops : List Operation} (h : AfterTerminator ops)
    (new : List Operation) : AfterTerminator (ops ++ new) :=
  let ⟨o, o', hs, hb, ht⟩ := h
  ⟨o, o', hs.trans (List.sublist_append_left _ _), hb, ht⟩

/-- The operations of one block, in the order `runFunc` executes them, are
`blockOps`; an operation after a terminator sits in one of them. -/
theorem AfterTerminator.blockOps {f : Func} (h : AfterTerminator f.ops) :
    ∃ b o o', [o, o'].Sublist (f.blockOps b) ∧ o.kind.isTerminator = true := by
  obtain ⟨o, o', hs, hb, ht⟩ := h
  refine ⟨o.block, o, o', ?_, ht⟩
  simpa [hb] using hs.filter fun x => decide (x.block = o'.block)

namespace Deserialize

variable {s s' : Deserialize} {prog : InstructionSeq}

theorem Appends.afterTerminator (h : Appends s s') (ha : AfterTerminator s.ops) :
    AfterTerminator s'.ops := by
  obtain ⟨new, regs, rfl, -⟩ := h
  exact ha.append new

theorem translate_cons_inv {p : Nat} {ps : List Nat} {li : LabeledInstruction}
    (hli : prog[p]? = some li) (h : translate prog s (p :: ps) = some s') :
    ∃ s₁, createMLIR prog s li.ins li.label = some s₁ ∧ translate prog s₁ ps = some s' := by
  simpa only [translate, hli, bind, Option.some_bind, Option.bind_eq_some] using h

/-- A range holding an unconditional jump and the instruction after it, a data
instruction or a jump: that instruction's operations go into the jump's block,
after its branch. -/
theorem translate_after_branch {c m i t : Nat} {li li' : LabeledInstruction}
    (hli : prog[i]? = some li) (hj : li.ins = .jmp ⟨none, t⟩) (hli' : prog[i + 1]? = some li')
    (hd : li'.ins.isData ∨ ∃ t', li'.ins = .jmp ⟨none, t'⟩) (hci : c ≤ i) (him : i + 1 < c + m)
    (ht : translate prog s (List.range' c m) = some s') : AfterTerminator s'.ops := by
  obtain ⟨k, rfl⟩ : ∃ k, m = k + 2 + (i - c) := ⟨m - (i - c) - 2, by omega⟩
  rw [← List.range'_append_1, show c + (i - c) = i by omega, List.range'_succ, List.range'_succ,
    translate_append, Option.bind_eq_some] at ht
  obtain ⟨s₁, -, ht⟩ := ht
  obtain ⟨s₂, h₂, ht⟩ := translate_cons_inv hli ht
  obtain ⟨s₃, h₃, ht⟩ := translate_cons_inv hli' ht
  rw [hj] at h₂
  obtain ⟨-, -, d, -, rfl⟩ := createJmpOp_eq h₂
  obtain ⟨k', vs, new, regs, rfl, -⟩ := (appends_createMLIR h₃).2 hd
  refine (appends_translate ht).afterTerminator
    ⟨⟨s₁.insertion, .branch d, s₁.registers⟩, ⟨s₁.insertion, k', vs⟩, ?_, rfl, rfl⟩
  simp only [create, List.append_assoc, List.singleton_append]
  exact List.sublist_append_of_sublist_right
    (List.cons_sublist_cons.2 (List.cons_sublist_cons.2 (List.nil_sublist _)))

theorem exists_of_endsInTerminator {b : Nat} (h : s.endsInTerminator b = true) :
    ∃ o ∈ s.ops, o.block = b ∧ o.kind.isTerminator = true := by
  unfold endsInTerminator at h
  cases hl : (s.ops.filter (·.block = b)).getLast? with
  | none => simp [hl] at h
  | some o =>
    obtain ⟨ho, hb⟩ := List.mem_filter.1 (List.mem_of_getLast?_eq_some hl)
    exact ⟨o, ho, by simpa using hb, by simpa [hl] using h⟩

/-- A range ending in an unconditional jump leaves its block ending in the
jump's branch. -/
theorem endsInTerminator_translate_jmp {c m t : Nat} {li : LabeledInstruction} (hm : 0 < m)
    (ht : translate prog s (List.range' c m) = some s') (hli : prog[c + m - 1]? = some li)
    (hj : li.ins = .jmp ⟨none, t⟩) : s'.endsInTerminator s.insertion = true := by
  obtain ⟨k, rfl⟩ : ∃ k, m = k + 1 := ⟨m - 1, by omega⟩
  rw [List.range'_concat, Nat.one_mul, translate_append, Option.bind_eq_some] at ht
  obtain ⟨sm, hsm, ht⟩ := ht
  rw [show c + (k + 1) - 1 = c + k by omega] at hli
  obtain ⟨s₁, h₁, ht⟩ := translate_cons_inv hli ht
  cases ht
  rw [hj] at h₁
  obtain ⟨-, -, d, -, rfl⟩ := createJmpOp_eq h₁
  obtain ⟨new, regs, rfl, -⟩ := appends_translate hsm
  simp [endsInTerminator, create, OpKind.isTerminator]

theorem boundaryLoop_appends : ∀ {rest : List Nat} {cur cur' : Nat} {s s' : Deserialize},
    boundaryLoop prog rest cur s = some (cur', s') → ∃ new, s'.ops = s.ops ++ new
  | [], _, _, _, _, hs => by cases hs; exact ⟨[], (List.append_nil _).symm⟩
  | next :: rest, cur, cur', s, s', hs => by
    simp only [boundaryLoop, bind, Option.bind_eq_some] at hs
    obtain ⟨b, -, s₁, ht, s₂, hc, hs⟩ := hs
    obtain ⟨new₁, regs, rfl, -⟩ := appends_translate ht
    obtain ⟨-, new₂, hops₂, -⟩ := closeBlock_frame hc
    obtain ⟨new₃, hops₃⟩ := boundaryLoop_appends hs
    exact ⟨new₁ ++ new₂ ++ new₃, by rw [hops₃, hops₂]; simp [enter]⟩

/-- A jump over the instruction after it, where no block starts: the range
holding the jump holds that instruction too, after the jump's branch. -/
theorem boundaryLoop_after_branch {i t : Nat} {li li' : LabeledInstruction}
    (hli : prog[i]? = some li) (hj : li.ins = .jmp ⟨none, t⟩) (hli' : prog[i + 1]? = some li')
    (hd : li'.ins.isData ∨ ∃ t', li'.ins = .jmp ⟨none, t'⟩) :
    ∀ {rest : List Nat} {cur cur' : Nat} {s s' : Deserialize},
      boundaryLoop prog rest cur s = some (cur', s') → (cur :: rest).Sorted (· < ·) → cur ≤ i →
      i + 1 ∉ rest → (∃ n ∈ rest, i < n) → AfterTerminator s'.ops
  | [], _, _, _, _, _, _, _, _, ⟨_, hn, _⟩ => by cases hn
  | next :: rest, cur, cur', s, s', hs, hsort, hci, hi1, ⟨n, hn, hin⟩ => by
    have hcn : cur < next := List.rel_of_sorted_cons hsort next (List.mem_cons_self _ _)
    simp only [boundaryLoop, bind, Option.bind_eq_some] at hs
    obtain ⟨b, -, s₁, ht, s₂, hc, hs⟩ := hs
    rw [max_eq_right hcn.le] at hs
    by_cases hnext : i < next
    · have hne : i + 1 ≠ next := fun h => hi1 (h ▸ List.mem_cons_self _ _)
      have h₁ := translate_after_branch hli hj hli' hd hci (by omega) ht
      obtain ⟨-, new₂, hops₂, -⟩ := closeBlock_frame hc
      obtain ⟨new₃, hops₃⟩ := boundaryLoop_appends hs
      rw [hops₃, hops₂]
      exact (h₁.append _).append _
    · exact boundaryLoop_after_branch hli hj hli' hd hs hsort.of_cons (by omega)
        (fun h => hi1 (List.mem_cons_of_mem _ h))
        ⟨n, (List.mem_cons.1 hn).resolve_left fun h => hnext (h ▸ hin), hin⟩

/-- A boundary loop whose ranges each end in an unconditional jump: each block
ends in the jump's branch, so `closeBlock` adds nothing and `m_lastBlock` does
not move, and the block of the first offset gets a terminator. -/
theorem boundaryLoop_of_jumps : ∀ {rest : List Nat} {cur cur' : Nat} {s s' : Deserialize},
    boundaryLoop prog rest cur s = some (cur', s') → (cur :: rest).Sorted (· < ·) →
    (∀ n ∈ rest, ∃ li t, prog[n - 1]? = some li ∧ li.ins = .jmp ⟨none, t⟩) →
    s'.lastBlock = s.lastBlock ∧ ∀ b, rest ≠ [] → s.jumpBlocks cur = some b →
      ∃ o ∈ s'.ops, o.block = b ∧ o.kind.isTerminator = true
  | [], _, _, _, _, hs, _, _ => by cases hs; exact ⟨rfl, fun _ h => absurd rfl h⟩
  | next :: rest, cur, cur', s, s', hs, hsort, hj => by
    have hcn : cur < next := List.rel_of_sorted_cons hsort next (List.mem_cons_self _ _)
    simp only [boundaryLoop, bind, Option.bind_eq_some] at hs
    obtain ⟨b, hb, s₁, ht, s₂, hc, hs⟩ := hs
    rw [max_eq_right hcn.le] at hs
    obtain ⟨li, t, hli, hjt⟩ := hj next (List.mem_cons_self _ _)
    have hend : s₁.endsInTerminator b = true := endsInTerminator_translate_jmp (by omega) ht
      (by rwa [show cur + (next - cur) - 1 = next - 1 by omega]) hjt
    rcases closeBlock_eq hc with ⟨-, rfl⟩ | ⟨hT, -⟩
    · obtain ⟨new, regs, rfl, -⟩ := appends_translate ht
      obtain ⟨hlast, -⟩ := boundaryLoop_of_jumps hs hsort.of_cons
        fun n hn => hj n (List.mem_cons_of_mem _ hn)
      obtain ⟨new₃, hops₃⟩ := boundaryLoop_appends hs
      obtain ⟨o, ho, hob, hot⟩ := exists_of_endsInTerminator hend
      refine ⟨hlast, fun b' _ hb' => ?_⟩
      obtain rfl : b' = b := Option.some.inj (hb'.symm.trans hb)
      exact ⟨o, by rw [hops₃]; exact List.mem_append_left _ ho, hob, hot⟩
    · rw [hend] at hT
      cases hT

end Deserialize

/-! ### Running a block with a terminator inside -/

section Run

variable {V : Type} {I : Interp V} {b : Nat} {args : List V} {o o' : Operation}

theorem execBlock_terminator {k : Nat} {rest : List (Nat × Operation)} {env : Nat → Option V}
    {log : List (Effect V)} (ht : o.kind.isTerminator = true) (hr : rest ≠ []) :
    execBlock I b args ((k, o) :: rest) env log = none := by
  have he : rest.isEmpty = false := List.isEmpty_eq_false.2 hr
  obtain ⟨blk, kind, operands⟩ := o
  cases kind <;> simp [OpKind.isTerminator] at ht <;> simp [execBlock, he]

/-- A block with an operation after a terminator fails: the run reaches the
first terminator and finds operations after it. -/
theorem execBlock_of_after_terminator (ht : o.kind.isTerminator = true) :
    ∀ {L : List (Nat × Operation)} {env : Nat → Option V} {log : List (Effect V)},
      [o, o'].Sublist (L.map Prod.snd) → execBlock I b args L env log = none
  | [], _, _, h => absurd h.length_le (by simp)
  | (k, x) :: L, env, log, h => by
    have hne : L ≠ [] := by rintro rfl; exact absurd h.length_le (by simp)
    by_cases hx : x.kind.isTerminator = true
    · exact execBlock_terminator hx hne
    have hL : [o, o'].Sublist (L.map Prod.snd) := by
      rcases List.sublist_cons_iff.1 h with h | ⟨r, hr, -⟩
      · exact h
      · obtain rfl := (List.cons.inj hr).1
        exact absurd ht hx
    by_cases hs : ∃ w, x.kind = .store w
    · obtain ⟨w, hw⟩ := hs
      rw [execBlock_store hw]
      exact Option.bind_eq_none.2 fun _ _ => execBlock_of_after_terminator ht hL
    · rw [execBlock_value (by simpa using hx) fun w hw => hs ⟨w, hw⟩]
      exact Option.bind_eq_none.2 fun _ _ => execBlock_of_after_terminator ht hL

/-- Every run entering a block with an operation after a terminator fails. -/
theorem runFunc_of_after_terminator {f : Func} (hs : [o, o'].Sublist (f.blockOps b))
    (ht : o.kind.isTerminator = true) (fuel : Nat) (log : List (Effect V)) :
    runFunc I f (fuel + 1) b args log = none := by
  have hmap : (f.ops.enum.filter (·.2.block = b)).map Prod.snd = f.blockOps b := by
    have h : (f.ops.enum.map Prod.snd).filter (·.block = b) =
        (f.ops.enum.filter (·.2.block = b)).map Prod.snd := List.filter_map _ _
    rw [← h, List.enum_map_snd]
    rfl
  rw [runFunc, execBlock_of_after_terminator ht (hmap ▸ hs)]
  rfl

end Run

/-! ### The lifted section -/

section Lift

variable {body : InstructionSeq}

/-- The first jump over the instruction after it: no jump leads to that
instruction, as a jump that did would come before and skip it too. -/
theorem ForwardBody.exists_skip_not_target (hw : ForwardBody body)
    (h : ∃ (i : Nat) (li : LabeledInstruction) (t : Nat), body[i]? = some li ∧
      li.ins = .jmp ⟨none, t⟩ ∧ i + 1 < t) :
    ∃ (i : Nat) (li : LabeledInstruction) (t : Nat), body[i]? = some li ∧ li.ins = .jmp ⟨none, t⟩ ∧ i + 1 < t ∧
      i + 1 ∉ jumpTargets body := by
  classical
  obtain ⟨li, t, hli, hj, hit⟩ := Nat.find_spec h
  refine ⟨Nat.find h, li, t, hli, hj, hit, fun hmem => ?_⟩
  obtain ⟨j, lj, hlj, hjj, hji, -⟩ := hw.jumpTarget hmem
  have hne : j ≠ Nat.find h := by
    rintro rfl
    rw [hli, Option.some.injEq] at hlj
    subst hlj
    rw [hj, Instruction.jmp.injEq, Jmp.mk.injEq] at hjj
    omega
  exact Nat.find_min h (show j < Nat.find h by omega) ⟨lj, _, hlj, hjj, by omega⟩

/-- A section whose body runs forward and holds a jump is lifted to a function
with an operation after a terminator of its block, which MLIR's verifier
rejects; every run entering that block fails. A jump over the instruction
after it puts that instruction after its branch; when every jump goes to the
next instruction, the last range and the `ReturnOp` go after the entry
block's branch. -/
theorem buildXDPFunction_forward_jumps (hw : ForwardBody body)
    (hj : ∃ (i : Nat) (li : LabeledInstruction) (t : Nat), body[i]? = some li ∧ li.ins = .jmp ⟨none, t⟩)
    {f : Func} (hf : buildXDPFunction [body ++ [⟨body.length, .exit⟩]] = some f) :
    ∃ b o o', [o, o'].Sublist (f.blockOps b) ∧ o.kind.isTerminator = true ∧
      ∀ (V : Type) (I : Interp V) fuel args log, runFunc I f (fuel + 1) b args log = none := by
  obtain ⟨sC, hcol, hsC, hsorted, hmem⟩ :=
    Deserialize.collectBlocks_of_fallThroughs_nil hw.fallThroughs_eq_nil
  have hmem' : ∀ x, x ∈ sC.startOfNextBlock ↔ x ∈ jumpTargets body := fun x => by
    rw [hmem, jumpTargets_append_exit]
  have hsorted0 : (0 :: sC.startOfNextBlock).Sorted (· < ·) := List.sorted_cons.2
    ⟨fun t ht => by obtain ⟨_, _, -, -, hi, -⟩ := hw.jumpTarget ((hmem' t).1 ht); omega, hsorted⟩
  simp only [buildXDPFunction, List.head?_cons, Option.bind_eq_bind, Option.some_bind,
    Deserialize.buildFunctionBody, hcol, Option.bind_eq_some] at hf
  obtain ⟨sB, ⟨⟨ck, sL⟩, hloop, ht⟩, hf⟩ := hf
  obtain rfl := Option.some.inj hf
  -- the last range only appends, in the block `m_lastBlock` names
  obtain ⟨hlastB, newB, hopsB⟩ : sB.lastBlock = sL.lastBlock ∧ ∃ new, sB.ops = sL.ops ++ new := by
    obtain ⟨new, regs, rfl, -⟩ := Deserialize.appends_translate ht
    split_ifs <;> exact ⟨rfl, new, rfl⟩
  have hprog : ∀ {i li}, body[i]? = some li → (body ++ [⟨body.length, .exit⟩])[i]? = some li :=
    fun h => by rw [List.getElem?_append_left (List.getElem?_eq_some_iff.1 h).1]; exact h
  have htarget : ∀ {i : Nat} {li : LabeledInstruction} {t : Nat}, body[i]? = some li →
      li.ins = .jmp ⟨none, t⟩ → t ∈ sC.startOfNextBlock :=
    fun hli hjt => (hmem' _).2 (List.mem_filterMap.2
      ⟨_, List.getElem?_mem hli, by simp [LabeledInstruction.jumpTarget?, hjt]⟩)
  have hafter : AfterTerminator (sB.ops ++ [⟨sB.lastBlock, .ret, [.arg sB.lastBlock 0]⟩]) := by
    by_cases hskip : ∃ (i : Nat) (li : LabeledInstruction) (t : Nat), body[i]? = some li ∧
        li.ins = .jmp ⟨none, t⟩ ∧ i + 1 < t
    · -- the first jump over the instruction after it puts that instruction after its branch
      obtain ⟨i, li, t, hli, hjt, hit, hnt⟩ := hw.exists_skip_not_target hskip
      have htn : t ≤ body.length := by
        rcases (hw i li hli).2 with hd | ⟨t', ht', -, htn⟩
        · rw [hjt] at hd; cases hd
        · rw [hjt, Instruction.jmp.injEq, Jmp.mk.injEq] at ht'; omega
      obtain ⟨li', hli'⟩ : ∃ li', body[i + 1]? = some li' :=
        ⟨_, List.getElem?_eq_getElem (by omega)⟩
      have h := Deserialize.boundaryLoop_after_branch (hprog hli) hjt (hprog hli')
        ((hw _ _ hli').2.imp_right fun ⟨t', h, _⟩ => ⟨t', h⟩) hloop hsorted0 (Nat.zero_le i)
        (fun h => hnt ((hmem' _).1 h)) ⟨t, htarget hli hjt, by omega⟩
      rw [hopsB]
      exact (h.append _).append _
    · -- every jump goes to the next instruction: the `ReturnOp` follows the entry block's branch
      push_neg at hskip
      have hnext : ∀ n ∈ sC.startOfNextBlock, ∃ li t,
          (body ++ [⟨body.length, .exit⟩])[n - 1]? = some li ∧ li.ins = .jmp ⟨none, t⟩ := by
        intro n hn
        obtain ⟨j, lj, hlj, hjj, hjn, -⟩ := hw.jumpTarget ((hmem' n).1 hn)
        have := hskip j lj n hlj hjj
        exact ⟨lj, n, by rw [show n - 1 = j by omega]; exact hprog hlj, hjj⟩
      obtain ⟨hlast, hterm⟩ := Deserialize.boundaryLoop_of_jumps hloop hsorted0 hnext
      obtain ⟨i, li, t, hli, hjt⟩ := hj
      have hne : sC.startOfNextBlock ≠ [] := List.ne_nil_of_mem (htarget hli hjt)
      have hframe := Deserialize.foldl_collectStep_frame (s := Deserialize.init) hw.not_zero
      have hjb0 : sC.jumpBlocks 0 = some 0 := (congrArg Deserialize.jumpBlocks hsC ▸ hframe.2.2 :)
      obtain ⟨o, ho, hob, hot⟩ := hterm 0 hne hjb0
      refine ⟨o, ⟨sB.lastBlock, .ret, [.arg sB.lastBlock 0]⟩, ?_, ?_, hot⟩
      · rw [hopsB]
        exact (List.singleton_sublist.2 (List.mem_append_left _ ho)).append (List.Sublist.refl _)
      · rw [hob, hlastB, hlast, congrArg Deserialize.lastBlock hsC]
        exact hframe.2.1.symm
  obtain ⟨b, o, o', hs, hot⟩ := @AfterTerminator.blockOps ⟨sB.blocks, _⟩ hafter
  exact ⟨b, o, o', hs, hot, fun _ I fuel _ log => runFunc_of_after_terminator hs hot fuel log⟩

/-- `0: goto 2; 1: r1 = 1; 2: exit`: the move, which no jump reaches, is
lowered after the jump's branch in the entry block. -/
theorem buildXDPFunction_forward_jumps_dead :
    ∃ f, buildXDPFunction [[⟨0, .jmp ⟨none, 2⟩⟩, ⟨1, .bin ⟨.mov, 1, .imm 1⟩⟩] ++ [⟨2, .exit⟩]] =
        some f ∧ ∃ b o o', [o, o'].Sublist (f.blockOps b) ∧ o.kind.isTerminator = true ∧
          ∀ (V : Type) (I : Interp V) fuel args log, runFunc I f (fuel + 1) b args log = none :=
  ⟨_, rfl, @buildXDPFunction_forward_jumps [⟨0, .jmp ⟨none, 2⟩⟩, ⟨1, .bin ⟨.mov, 1, .imm 1⟩⟩]
    (fun i li h => match i, h with
      | 0, h => by obtain rfl := Option.some.inj h; exact ⟨rfl, .inr ⟨2, rfl, by decide, by decide⟩⟩
      | 1, h => by obtain rfl := Option.some.inj h; exact ⟨rfl, .inl rfl⟩
      | _ + 2, h => by cases h) ⟨0, _, 2, rfl, rfl⟩ _ rfl⟩

example : (buildXDPFunction [[⟨0, .jmp ⟨none, 2⟩⟩, ⟨1, .bin ⟨.mov, 1, .imm 1⟩⟩, ⟨2, .exit⟩]]).map
      (fun f => ((f.blockOps 0).map (·.kind), (f.blockOps 1).map (·.kind))) =
    some ([.branch 1, .constant 1, .bin .mov, .branch 1], [.ret]) := by
  decide


end Lift

end Ebpf
end Btor2Mlir
