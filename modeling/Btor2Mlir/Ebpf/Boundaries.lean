import Btor2Mlir.Ebpf.Lifter

/-!
# Block boundaries: what `collectBlocks` lists

`collectBlocks` walks the section once. A jump's target becomes a block start
unless `m_jmpTargets` already holds it; a conditional jump's fall-through
`label + 1` always becomes one, unchecked. `incrementBlocks` appends the offset,
counts it and enters it into `m_jmpTargets`. So the sorted list holds exactly
the jump targets and the fall-throughs, and `m_numBlocks` is its length
(`collectBlocks_init`). An offset is listed once for every conditional jump that
falls through to it, and once more if a jump targets it before any
fall-through reaches it (`count_foldl_collectStep`). A conditional jump to the
next instruction lists that offset twice, and the lifted block for it
branches to itself (`collectBlocks_jump_to_next`).

Key definitions: `jumpTargets`, `fallThroughs`, `targetFirst`.
-/

namespace Btor2Mlir
namespace Ebpf

namespace LabeledInstruction

/-- The offset a jump names, the first one `collectBlocks` considers. -/
def jumpTarget? (li : LabeledInstruction) : Option Nat :=
  match li.ins with
  | .jmp jmp => some jmp.target
  | _ => none

/-- The fall-through `label + 1` of a conditional jump. -/
def fallThrough? (li : LabeledInstruction) : Option Nat :=
  match li.ins with
  | .jmp jmp => if jmp.cond.isSome then some (li.label + 1) else none
  | _ => none

end LabeledInstruction

/-- Every jump target of the section, in order. -/
def jumpTargets (prog : InstructionSeq) : List Nat := prog.filterMap (·.jumpTarget?)

/-- Every fall-through of a conditional jump of the section, in order. -/
def fallThroughs (prog : InstructionSeq) : List Nat := prog.filterMap (·.fallThrough?)

/-- A jump targets `x` before any conditional jump falls through to it (a jump
is read before its own fall-through). -/
def targetFirst (x : Nat) : InstructionSeq → Bool
  | [] => false
  | li :: prog => li.jumpTarget? == some x || (li.fallThrough? != some x && targetFirst x prog)

theorem count_toList (x : Nat) (o : Option Nat) :
    o.toList.count x = if o = some x then 1 else 0 := by
  cases o <;> simp [List.count_singleton', eq_comm]

@[simp] theorem jumpTargets_cons (li : LabeledInstruction) (prog : InstructionSeq) :
    jumpTargets (li :: prog) = li.jumpTarget?.toList ++ jumpTargets prog := by
  cases h : li.jumpTarget? <;> simp [jumpTargets, h]

@[simp] theorem fallThroughs_cons (li : LabeledInstruction) (prog : InstructionSeq) :
    fallThroughs (li :: prog) = li.fallThrough?.toList ++ fallThroughs prog := by
  cases h : li.fallThrough? <;> simp [fallThroughs, h]

theorem mem_jumpTargets_of_targetFirst {x : Nat} :
    ∀ {prog : InstructionSeq}, targetFirst x prog → x ∈ jumpTargets prog
  | [], h => by simp [targetFirst] at h
  | li :: prog, h => by
    simp only [targetFirst, Bool.or_eq_true, beq_iff_eq, Bool.and_eq_true, bne_iff_ne, ne_eq] at h
    rcases h with h | ⟨-, h⟩
    · simp [h]
    · simp [mem_jumpTargets_of_targetFirst h]

/-- The offsets a run lists: a target listed first, or a fall-through. -/
theorem targetFirst_or_mem_fallThroughs (x : Nat) : ∀ prog : InstructionSeq,
    (targetFirst x prog ∨ x ∈ fallThroughs prog) ↔ (x ∈ jumpTargets prog ∨ x ∈ fallThroughs prog)
  | [] => by simp [targetFirst, jumpTargets, fallThroughs]
  | li :: prog => by
    simp only [targetFirst, Bool.or_eq_true, beq_iff_eq, Bool.and_eq_true, bne_iff_ne, ne_eq,
      jumpTargets_cons, fallThroughs_cons, List.mem_append, Option.mem_toList, Option.mem_def]
    by_cases hF : li.fallThrough? = some x
    · simp [hF]
    · simp only [hF, not_false_eq_true, true_and, false_or, or_assoc,
        targetFirst_or_mem_fallThroughs x prog]

namespace Deserialize

@[simp] theorem startOfNextBlock_incrementBlocks (s : Deserialize) (t : Nat) :
    (s.incrementBlocks t).startOfNextBlock = s.startOfNextBlock ++ [t] := rfl

@[simp] theorem numBlocks_incrementBlocks (s : Deserialize) (t : Nat) :
    (s.incrementBlocks t).numBlocks = s.numBlocks + 1 := rfl

@[simp] theorem jmpTargets_incrementBlocks (s : Deserialize) (t : Nat) :
    (s.incrementBlocks t).jmpTargets = s.jmpTargets.insert t := rfl

@[simp] theorem startOfNextBlock_init : init.startOfNextBlock = [] := rfl

@[simp] theorem numBlocks_init : init.numBlocks = 0 := rfl

@[simp] theorem jmpTargets_init : init.jmpTargets = [] := rfl

variable {s : Deserialize} {li : LabeledInstruction} {x : Nat}

/-- `incrementBlocks` keeps `m_numBlocks` in step with the list. -/
theorem numBlocks_collectStep :
    (collectStep s li).numBlocks + s.startOfNextBlock.length =
      s.numBlocks + (collectStep s li).startOfNextBlock.length := by
  obtain ⟨label, ins⟩ := li
  cases ins with
  | jmp jmp =>
    simp only [collectStep]
    split_ifs <;> simp <;> omega
  | _ => rfl

theorem count_collectStep :
    (collectStep s li).startOfNextBlock.count x = s.startOfNextBlock.count x +
      (if li.jumpTarget? = some x ∧ x ∉ s.jmpTargets then 1 else 0) +
      (if li.fallThrough? = some x then 1 else 0) := by
  obtain ⟨label, ins⟩ := li
  cases ins with
  | jmp jmp =>
    simp only [collectStep, LabeledInstruction.jumpTarget?, LabeledInstruction.fallThrough?,
      Option.some.injEq, Option.ite_none_right_eq_some]
    rcases eq_or_ne jmp.target x with rfl | hx <;> split_ifs <;> simp_all [List.count_cons]
  | _ => simp [collectStep, LabeledInstruction.jumpTarget?, LabeledInstruction.fallThrough?]

theorem mem_jmpTargets_collectStep :
    x ∈ (collectStep s li).jmpTargets ↔
      x ∈ s.jmpTargets ∨ li.jumpTarget? = some x ∨ li.fallThrough? = some x := by
  obtain ⟨label, ins⟩ := li
  cases ins with
  | jmp jmp =>
    simp only [collectStep, LabeledInstruction.jumpTarget?, LabeledInstruction.fallThrough?]
    split_ifs <;> simp [List.mem_insert_iff] <;> aesop
  | _ => simp [collectStep, LabeledInstruction.jumpTarget?, LabeledInstruction.fallThrough?]

/-- The loop of `collectBlocks` keeps `m_numBlocks` in step with the list. -/
theorem numBlocks_foldl_collectStep : ∀ (prog : InstructionSeq) (s : Deserialize),
    (prog.foldl collectStep s).numBlocks + s.startOfNextBlock.length =
      s.numBlocks + (prog.foldl collectStep s).startOfNextBlock.length
  | [], _ => rfl
  | li :: prog, s => by
    have := numBlocks_foldl_collectStep prog (collectStep s li)
    have := @numBlocks_collectStep s li
    simp only [List.foldl_cons]
    omega

/-- How often the loop of `collectBlocks` lists `x`, from any state: once per
fall-through to `x`, and once more if a jump targets `x` first and `x` was not
yet a jump target. -/
theorem count_foldl_collectStep (x : Nat) : ∀ (prog : InstructionSeq) (s : Deserialize),
    (prog.foldl collectStep s).startOfNextBlock.count x =
      s.startOfNextBlock.count x + (fallThroughs prog).count x +
        if x ∉ s.jmpTargets ∧ targetFirst x prog then 1 else 0
  | [], s => by simp [targetFirst, fallThroughs]
  | li :: prog, s => by
    rw [List.foldl_cons, count_foldl_collectStep x prog, count_collectStep, fallThroughs_cons,
      List.count_append]
    have hmem := @mem_jmpTargets_collectStep s li x
    simp only [hmem, targetFirst, count_toList, Bool.or_eq_true, beq_iff_eq, Bool.and_eq_true,
      bne_iff_ne, ne_eq]
    by_cases hN : x ∈ s.jmpTargets <;> by_cases hA : li.jumpTarget? = some x <;> simp [hA, hN] <;>
      omega

end Deserialize

/-- What `collectBlocks` lists for a section: every jump target and every
fall-through, sorted ascending and counted by `m_numBlocks`. An offset is
listed once per fall-through to it, and once more if a jump targets it first.
The list is strictly increasing when no two conditional jumps share a
fall-through and no fall-through is a jump target. -/
theorem collectBlocks_init (prog : InstructionSeq) :
    ∃ s, Deserialize.init.collectBlocks prog = some s ∧
      s.startOfNextBlock.Sorted (· ≤ ·) ∧
      s.numBlocks = s.startOfNextBlock.length ∧
      (∀ x, x ∈ s.startOfNextBlock ↔ x ∈ jumpTargets prog ∨ x ∈ fallThroughs prog) ∧
      (∀ x, s.startOfNextBlock.count x =
        (fallThroughs prog).count x + if targetFirst x prog then 1 else 0) ∧
      ((fallThroughs prog).Nodup → (∀ x ∈ fallThroughs prog, x ∉ jumpTargets prog) →
        s.startOfNextBlock.Sorted (· < ·)) := by
  have hnum : (prog.foldl Deserialize.collectStep Deserialize.init).numBlocks =
      (prog.foldl Deserialize.collectStep Deserialize.init).startOfNextBlock.length := by
    simpa using Deserialize.numBlocks_foldl_collectStep prog Deserialize.init
  have hcount (x : Nat) :
      (prog.foldl Deserialize.collectStep Deserialize.init).startOfNextBlock.count x =
        (fallThroughs prog).count x + if targetFirst x prog then 1 else 0 := by
    simpa using Deserialize.count_foldl_collectStep x prog Deserialize.init
  set l := (prog.foldl Deserialize.collectStep Deserialize.init).startOfNextBlock
  have hperm : (l.insertionSort (· ≤ ·)).Perm l := List.perm_insertionSort _ l
  have hsorted : (l.insertionSort (· ≤ ·)).Sorted (· ≤ ·) := List.sorted_insertionSort _ l
  have hcount' (x : Nat) : (l.insertionSort (· ≤ ·)).count x =
      (fallThroughs prog).count x + if targetFirst x prog then 1 else 0 := by
    rw [hperm.count_eq, hcount]
  refine ⟨_, by simp only [Deserialize.collectBlocks, if_pos hnum]; rfl, hsorted,
    by simp [hperm.length_eq, hnum], fun x => ?_, hcount', fun hnd hdisj => hsorted.lt_of_le ?_⟩
  · rw [← targetFirst_or_mem_fallThroughs, ← List.count_pos_iff, hcount', ← List.count_pos_iff]
    split_ifs <;> simp_all
  · rw [List.nodup_iff_count_le_one] at hnd ⊢
    intro x
    rw [hcount']
    split_ifs with h
    · rw [List.count_eq_zero_of_not_mem fun hx => hdisj x hx (mem_jumpTargets_of_targetFirst h)]
    · simpa using hnd x

/-- `0: if r0 == 0 goto 1; 1: exit`. The conditional jump's target is its own
fall-through, so offset 1 is listed and counted twice and the list is not
strictly increasing. The boundary loop then visits offset 1 twice: the second
time, the block now registered for it (block 2) is still empty, so it gets a
branch to itself, and the exit lands after that branch. Block 1, allocated
for offset 1 the first time, is left without any operation. -/
theorem collectBlocks_jump_to_next :
    (Deserialize.init.collectBlocks [⟨0, .jmp ⟨some ⟨.eq, 0, .imm 0⟩, 1⟩⟩, ⟨1, .exit⟩]).map
        (fun s => (s.startOfNextBlock, s.numBlocks)) = some ([1, 1], 2) ∧
      ¬ [1, 1].Sorted (· < ·) ∧
      (buildXDPFunction [[⟨0, .jmp ⟨some ⟨.eq, 0, .imm 0⟩, 1⟩⟩, ⟨1, .exit⟩]]).map
        (fun f => (f.blocks.length, (f.blockOps 1).map (·.kind), (f.blockOps 2).map (·.kind))) =
        some (3, [], [.branch 2, .ret]) := by
  decide

end Ebpf
end Btor2Mlir
