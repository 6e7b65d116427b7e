import Btor2Mlir.Ebpf.Semantics
import Btor2Mlir.Ebpf.Boundaries

/-!
# The lifter as a symbolic executor

While it translates a block, the lifter keeps in `m_registers` an operand for
each register: a parameter of the block or the result of an operation it
created. `Sim` relates those operands to the values the section's run holds in
the registers, in block `b` with parameters `args` and the results `env`
computed so far. `Emits` says the operations created since `s`, executed in
the block ahead of whatever follows them, take `env` and the store log to
`env'` and `log'`; `Lifts` is the two together.

Every instruction the section executes in place (`Bin`, `Un`, `Mem`,
`LoadMapFd`) is lowered keeping the relation (`Sim.createMLIR`), so a stretch
of the section with no jump and no `Exit` is lowered into operations that
compute its registers and log its stores, in order (`Sim.translate`). A
section without jumps whose one `Exit` ends it is lifted into the entry block
alone, which logs exactly the section's stores and returns R0's entry value
(`buildXDPFunction_jump_free`).
-/

namespace Btor2Mlir
namespace Ebpf

variable {V : Type} {I : Interp V} {regs regs' : List V} {log log' : List (Effect V)}

theorem execIns_un_eq {u : Un} (h : execIns I regs log (.un u) = some (regs', log')) :
    ∃ x, regs[u.dst]? = some x ∧ regs' = regs.set u.dst (I.op (.un u.op) [x]) ∧ log' = log := by
  simp only [execIns, setReg?, bind, pure, Option.bind_eq_some, Option.ite_none_right_eq_some,
    Option.some.injEq, Prod.mk.injEq] at h
  obtain ⟨x, hx, _, ⟨-, rfl⟩, rfl, rfl⟩ := h
  exact ⟨x, hx, rfl, rfl⟩

theorem execIns_bin_eq {bin : Bin} (h : execIns I regs log (.bin bin) = some (regs', log')) :
    ∃ x y, regs[bin.dst]? = some x ∧ bin.v.eval I regs = some y ∧
      regs' = regs.set bin.dst (I.op (.bin bin.op) [x, y]) ∧ log' = log := by
  simp only [execIns, setReg?, bind, pure, Option.bind_eq_some, Option.ite_none_right_eq_some,
    Option.some.injEq, Prod.mk.injEq] at h
  obtain ⟨x, hx, y, hy, _, ⟨-, rfl⟩, rfl, rfl⟩ := h
  exact ⟨x, y, hx, hy, rfl, rfl⟩

theorem execIns_load_eq {m : Mem} (hl : m.isLoad = true)
    (h : execIns I regs log (.mem m) = some (regs', log')) :
    ∃ base, regs[m.access.basereg]? = some base ∧ m.value < regs.length ∧
      regs' = regs.set m.value
        (I.op (.load m.access.width) [base, I.op (.constant m.access.offset) []]) ∧ log' = log := by
  simp only [execIns, setReg?, bind, pure, Option.bind_eq_some, Option.ite_none_right_eq_some,
    Option.some.injEq, Prod.mk.injEq, hl, if_true] at h
  obtain ⟨base, hb, _, ⟨hv, rfl⟩, rfl, rfl⟩ := h
  exact ⟨base, hb, hv, rfl, rfl⟩

theorem execIns_store_eq {m : Mem} (hl : m.isLoad = false)
    (h : execIns I regs log (.mem m) = some (regs', log')) :
    ∃ base y, regs[m.access.basereg]? = some base ∧ regs[m.value]? = some y ∧ regs' = regs ∧
      log' = log ++ [(m.access.width, [base, I.op (.constant m.access.offset) [], y])] := by
  simp only [execIns, bind, pure, Option.bind_eq_some, Option.some.injEq, Prod.mk.injEq, hl,
    Bool.false_eq_true, if_false] at h
  obtain ⟨base, hb, y, hy, rfl, rfl⟩ := h
  exact ⟨base, y, hb, hy, rfl, rfl⟩

theorem execIns_loadMapFd_eq {l : LoadMapFd}
    (h : execIns I regs log (.loadMapFd l) = some (regs', log')) :
    ∃ x, regs[l.dst]? = some x ∧
      regs' = regs.set l.dst (I.op .loadMap [x, I.op (.constant l.mapfd) []]) ∧ log' = log := by
  simp only [execIns, setReg?, bind, pure, Option.bind_eq_some, Option.ite_none_right_eq_some,
    Option.some.injEq, Prod.mk.injEq] at h
  obtain ⟨x, hx, _, ⟨-, rfl⟩, rfl, rfl⟩ := h
  exact ⟨x, hx, rfl, rfl⟩

variable (I) (b : Nat) (args : List V)

/-- An operand's value in block `b` with parameters `args`, the results so far
in `env`. -/
def argVal (env : Nat → Option V) : Val → Option V
  | .arg b' i => if b' = b then args[i]? else none
  | .res k => env k

/-- The lifter's registers `s.registers` hold, in block `b` with parameters
`args` and the results `env` computed so far, the values `regs`; no operation
at or after `s.ops.length` has run yet. -/
structure Sim (s : Deserialize) (env : Nat → Option V) (regs : List V) : Prop where
  fresh : ∀ k, s.ops.length ≤ k → env k = none
  length : s.registers.length = regs.length
  reg : ∀ (r : Nat) (v : Val), s.registers[r]? = some v → argVal b args env v = regs[r]?

/-- `s'` is `s` with its registers changed and operations of block `b`
appended, none a terminator, which, executed from `env` and `log` before
whatever follows them in the block, leave `env'` and `log'`. -/
def Emits (s s' : Deserialize) (env env' : Nat → Option V) (log log' : List (Effect V)) : Prop :=
  ∃ new regs, s' = { s with ops := s.ops ++ new, registers := regs } ∧
    (∀ o ∈ new, o.block = b ∧ o.kind.isTerminator = false) ∧
    ∀ rest, execBlock I b args (new.enumFrom s.ops.length ++ rest) env log =
      execBlock I b args rest env' log'

/-- The lifter went from `s` to `s'` while the section went from `regs` and
`log` to `regs'` and `log'`: the registers of `s'` hold `regs'`, and the
operations added take `env` and `log` to `log'`. -/
def Lifts (s s' : Deserialize) (env : Nat → Option V) (regs' : List V)
    (log log' : List (Effect V)) : Prop :=
  ∃ env', Sim b args s' env' regs' ∧ Emits I b args s s' env env' log log'

variable {I b args}
variable {s s' s'' : Deserialize} {env env' env'' : Nat → Option V} {log'' : List (Effect V)}

theorem execBlock_value {k : Nat} {o : Operation} (ht : o.kind.isTerminator = false)
    (hs : ∀ w, o.kind ≠ .store w) (rest : List (Nat × Operation)) :
    execBlock I b args ((k, o) :: rest) env log =
      (o.operands.mapM (argVal b args env)).bind fun vals =>
        execBlock I b args rest (fun k' => if k' = k then some (I.op o.kind vals) else env k') log := by
  obtain ⟨blk, kind, operands⟩ := o
  cases kind <;> first | rfl | exact (hs _ rfl).elim | simp [OpKind.isTerminator] at ht

theorem execBlock_store {k : Nat} {o : Operation} {w : Width} (hs : o.kind = .store w)
    (rest : List (Nat × Operation)) :
    execBlock I b args ((k, o) :: rest) env log =
      (o.operands.mapM (argVal b args env)).bind fun vals =>
        execBlock I b args rest env (log ++ [(w, vals)]) := by
  obtain ⟨blk, kind, operands⟩ := o
  subst hs
  rfl

/-- A return that is the block's last operation. -/
theorem execBlock_ret {k : Nat} {o : Operation} (hr : o.kind = .ret) :
    execBlock I b args [(k, o)] env log =
      (o.operands.mapM (argVal b args env)).bind fun vals =>
        vals.head?.bind fun v => some (.ret v, log) := by
  obtain ⟨blk, kind, operands⟩ := o
  subst hr
  rfl

/-- A result already computed keeps its value when an operation that has not
run yet gets one. -/
theorem argVal_update_of_fresh {n : Nat} {y x : V} {v : Val} (hn : env n = none)
    (hv : argVal b args env v = some x) :
    argVal b args (fun k' => if k' = n then some y else env k') v = some x := by
  cases v with
  | arg => simpa [argVal] using hv
  | res k =>
    have hk : k ≠ n := by rintro rfl; simp [argVal, hn] at hv
    simpa [argVal, hk] using hv

namespace Deserialize

@[simp] theorem create_registers (s : Deserialize) (k : OpKind) (vs : List Val) :
    (s.create k vs).1.registers = s.registers := rfl

@[simp] theorem create_reg (s : Deserialize) (k : OpKind) (vs : List Val) (r : Reg) :
    (s.create k vs).1.reg r = s.reg r := rfl

@[simp] theorem create_ops (s : Deserialize) (k : OpKind) (vs : List Val) :
    (s.create k vs).1.ops = s.ops ++ [⟨s.insertion, k, vs⟩] := rfl

theorem setReg_of_lt {r : Reg} (v : Val) (hr : r < s.registers.length) :
    s.setReg r v = some { s with registers := s.registers.set r v } := if_pos hr

theorem setReg_eq_some {r : Reg} {v : Val} (h : s.setReg r v = some s') :
    r < s.registers.length ∧ s' = { s with registers := s.registers.set r v } := by
  unfold setReg at h
  split_ifs at h with hr
  exact ⟨hr, (Option.some.inj h).symm⟩

end Deserialize

/-- A register the section reads holds, in the lifter, an operand with the
same value. -/
theorem Sim.exists_reg (h : Sim b args s env regs) {r : Nat} {x : V} (hx : regs[r]? = some x) :
    ∃ v, s.reg r = some v ∧ argVal b args env v = some x := by
  obtain ⟨hlt, -⟩ := List.getElem?_eq_some_iff.1 hx
  have hlt' : r < s.registers.length := h.length ▸ hlt
  exact ⟨s.registers[r], List.getElem?_eq_getElem hlt',
    (h.reg r _ (List.getElem?_eq_getElem hlt')).trans hx⟩

theorem Emits.refl {regs : List Val} :
    Emits I b args s { s with registers := regs } env env log log :=
  ⟨[], regs, by simp, by simp, fun _ => rfl⟩

theorem Emits.trans (h : Emits I b args s s' env env' log log')
    (h' : Emits I b args s' s'' env' env'' log' log'') : Emits I b args s s'' env env'' log log'' := by
  obtain ⟨new, regs, rfl, hb, he⟩ := h
  obtain ⟨new', regs', rfl, hb', he'⟩ := h'
  refine ⟨new ++ new', regs', by simp, fun o ho => (List.mem_append.1 ho).elim (hb o) (hb' o),
    fun rest => ?_⟩
  rw [List.enumFrom_append, List.append_assoc, he]
  simpa using he' rest

theorem Emits.insertion (h : Emits I b args s s' env env' log log') : s'.insertion = s.insertion := by
  obtain ⟨new, regs, rfl, -⟩ := h
  rfl

/-- A value operation created at the insertion point computes its kind over
the values of its operands. -/
theorem Sim.create (h : Sim b args s env regs) (hb : s.insertion = b) {k : OpKind}
    (ht : k.isTerminator = false) (hs : ∀ w, k ≠ .store w) {vs : List Val} {xs : List V}
    (hvs : vs.mapM (argVal b args env) = some xs) :
    Sim b args (s.create k vs).1 (fun k' => if k' = s.ops.length then some (I.op k xs) else env k')
        regs ∧
      argVal b args (fun k' => if k' = s.ops.length then some (I.op k xs) else env k')
        (s.create k vs).2 = some (I.op k xs) ∧
      ∀ log, Emits I b args s (s.create k vs).1 env
        (fun k' => if k' = s.ops.length then some (I.op k xs) else env k') log log := by
  refine ⟨⟨fun k' hk' => ?_, h.length, fun r v hr => ?_⟩, by simp [Deserialize.create, argVal],
    fun log => ⟨[⟨s.insertion, k, vs⟩], s.registers, rfl, by simp [hb, ht], fun rest => ?_⟩⟩
  · simp only [Deserialize.create_ops, List.length_append, List.length_singleton] at hk'
    simp [show k' ≠ s.ops.length by omega, h.fresh k' (by omega)]
  · obtain ⟨hlt, -⟩ := List.getElem?_eq_some_iff.1 hr
    have hlt' : r < regs.length := h.length ▸ hlt
    have hv : argVal b args env v = some regs[r] :=
      (h.reg r v hr).trans (List.getElem?_eq_getElem hlt')
    rw [argVal_update_of_fresh (h.fresh _ le_rfl) hv, List.getElem?_eq_getElem hlt']
  · show execBlock I b args ((s.ops.length, ⟨s.insertion, k, vs⟩) :: rest) env log = _
    rw [execBlock_value ht hs, hvs]
    rfl

theorem mapM_argVal_nil : ([] : List Val).mapM (argVal b args env) = some [] := rfl

theorem mapM_argVal_cons {v : Val} {vs : List Val} {x : V} {xs : List V}
    (hv : argVal b args env v = some x) (hvs : vs.mapM (argVal b args env) = some xs) :
    (v :: vs).mapM (argVal b args env) = some (x :: xs) := by
  rw [List.mapM_cons, hv, hvs]
  rfl

theorem Emits.lifts (he : Emits I b args s s' env env' log log')
    (hl : Lifts I b args s' s'' env' regs' log' log'') : Lifts I b args s s'' env regs' log log'' :=
  let ⟨env'', hs, he'⟩ := hl
  ⟨env'', hs, he.trans he'⟩

theorem Sim.set (h : Sim b args s env regs) (r : Reg) {v : Val} {x : V}
    (hv : argVal b args env v = some x) :
    Sim b args { s with registers := s.registers.set r v } env (regs.set r x) := by
  refine ⟨h.fresh, by simp [h.length], fun r' v' hr' => ?_⟩
  rw [List.getElem?_set] at hr' ⊢
  by_cases hrr : r = r'
  · subst hrr
    simp only [if_true, Option.ite_none_right_eq_some, Option.some.injEq] at hr'
    obtain ⟨hlt, rfl⟩ := hr'
    simp [hv, ← h.length, hlt]
  · simpa only [if_neg hrr] using h.reg r' v' (by simpa only [if_neg hrr] using hr')

/-- A store created at the insertion point appends its effect to the log. -/
theorem Sim.createStore (h : Sim b args s env regs) (hb : s.insertion = b) {w : Width}
    {vs : List Val} {xs : List V} (hvs : vs.mapM (argVal b args env) = some xs) :
    Lifts I b args s (s.create (.store w) vs).1 env regs log (log ++ [(w, xs)]) := by
  refine ⟨env, ⟨fun k hk => h.fresh k (by simp at hk; omega), h.length, h.reg⟩,
    [⟨s.insertion, .store w, vs⟩], s.registers, rfl, by simp [hb, OpKind.isTerminator],
    fun rest => ?_⟩
  show execBlock I b args ((s.ops.length, ⟨s.insertion, .store w, vs⟩) :: rest) env log = _
  rw [execBlock_store rfl, hvs]
  rfl

/-- A value operation whose result goes to register `r`. -/
theorem Sim.createSetReg (h : Sim b args s env regs) (hb : s.insertion = b) {k : OpKind}
    (ht : k.isTerminator = false) (hs : ∀ w, k ≠ .store w) {vs : List Val} {xs : List V}
    (hvs : vs.mapM (argVal b args env) = some xs) {r : Reg} (hr : r < regs.length) :
    ∃ s', (s.create k vs).1.setReg r (s.create k vs).2 = some s' ∧
      ∀ log, Lifts I b args s s' env (regs.set r (I.op k xs)) log log := by
  obtain ⟨hc, hv, he⟩ := h.create (I := I) hb ht hs hvs
  exact ⟨_, Deserialize.setReg_of_lt _ (by simpa [h.length] using hr),
    fun log => ⟨_, hc.set r hv, (he log).trans Emits.refl⟩⟩

theorem Sim.createUnaryOp (h : Sim b args s env regs) (hb : s.insertion = b) {u : Un}
    (hx : execIns I regs log (.un u) = some (regs', log')) :
    ∃ s', s.createUnaryOp u = some s' ∧ Lifts I b args s s' env regs' log log' := by
  obtain ⟨x, hrx, rfl, rfl⟩ := execIns_un_eq hx
  obtain ⟨v, hv, hvx⟩ := h.exists_reg hrx
  obtain ⟨s', hs', hl⟩ := h.createSetReg (I := I) (k := .un u.op) hb rfl (fun _ => nofun)
    (mapM_argVal_cons hvx mapM_argVal_nil) (List.getElem?_eq_some_iff.1 hrx).1
  exact ⟨s', by rw [Deserialize.createUnaryOp, hv]; exact hs', hl _⟩

theorem Sim.createBinaryOp (h : Sim b args s env regs) (hb : s.insertion = b) {bin : Bin}
    (hx : execIns I regs log (.bin bin) = some (regs', log')) :
    ∃ s', s.createBinaryOp bin = some s' ∧ Lifts I b args s s' env regs' log log' := by
  obtain ⟨op, dst, v⟩ := bin
  obtain ⟨x, y, hrx, hy, rfl, rfl⟩ := execIns_bin_eq hx
  have hr := (List.getElem?_eq_some_iff.1 hrx).1
  cases v with
  | imm i =>
    obtain rfl : I.op (.constant i) [] = y := Option.some.inj hy
    obtain ⟨hc, hcv, he⟩ := h.create (I := I) (k := .constant i) hb rfl (fun _ => nofun)
      mapM_argVal_nil
    obtain ⟨lv, hlv, hlvx⟩ := hc.exists_reg hrx
    obtain ⟨s', hs', hl⟩ := hc.createSetReg (I := I) (k := .bin op) (by simpa using hb) rfl
      (fun _ => nofun) (mapM_argVal_cons hlvx (mapM_argVal_cons hcv mapM_argVal_nil)) hr
    rw [Deserialize.create_reg] at hlv
    exact ⟨s', by rw [Deserialize.createBinaryOp, hlv]; exact hs', (he _).lifts (hl _)⟩
  | reg r =>
    obtain ⟨lv, hlv, hlvx⟩ := h.exists_reg hrx
    obtain ⟨w, hw, hwy⟩ := h.exists_reg (r := r) hy
    obtain ⟨s', hs', hl⟩ := h.createSetReg (I := I) (k := .bin op) hb rfl
      (fun _ => nofun) (mapM_argVal_cons hlvx (mapM_argVal_cons hwy mapM_argVal_nil)) hr
    exact ⟨s', by simp only [Deserialize.createBinaryOp, hlv, hw]; exact hs', hl _⟩

theorem Sim.createMemOp (h : Sim b args s env regs) (hb : s.insertion = b) {m : Mem}
    (hx : execIns I regs log (.mem m) = some (regs', log')) :
    ∃ s', s.createMemOp m = some s' ∧ Lifts I b args s s' env regs' log log' := by
  obtain ⟨hc, hcv, he⟩ := h.create (I := I) (k := .constant m.access.offset) hb rfl
    (fun _ => nofun) mapM_argVal_nil
  have hb' : (s.create (.constant m.access.offset) []).1.insertion = b := by simpa using hb
  cases hl : m.isLoad
  · obtain ⟨base, y, hbase, hy, rfl, rfl⟩ := execIns_store_eq hl hx
    obtain ⟨vb, hvb, hvbx⟩ := hc.exists_reg hbase
    obtain ⟨vy, hvy, hvyx⟩ := hc.exists_reg hy
    refine ⟨_, ?_, (he _).lifts (hc.createStore hb'
      (mapM_argVal_cons hvbx (mapM_argVal_cons hcv (mapM_argVal_cons hvyx mapM_argVal_nil))))⟩
    simp only [Deserialize.createMemOp, hvb, hvy, hl]
    rfl
  · obtain ⟨base, hbase, hr, rfl, rfl⟩ := execIns_load_eq hl hx
    obtain ⟨vb, hvb, hvbx⟩ := hc.exists_reg hbase
    obtain ⟨s', hs', hl'⟩ := hc.createSetReg (I := I) (k := .load m.access.width) hb' rfl
      (fun _ => nofun) (mapM_argVal_cons hvbx (mapM_argVal_cons hcv mapM_argVal_nil)) hr
    refine ⟨s', ?_, (he _).lifts (hl' _)⟩
    simp only [Deserialize.createMemOp, hvb, hl]
    exact hs'

theorem Sim.createLoadMapOp (h : Sim b args s env regs) (hb : s.insertion = b) {l : LoadMapFd}
    (hx : execIns I regs log (.loadMapFd l) = some (regs', log')) :
    ∃ s', s.createLoadMapOp l = some s' ∧ Lifts I b args s s' env regs' log log' := by
  obtain ⟨x, hrx, rfl, rfl⟩ := execIns_loadMapFd_eq hx
  obtain ⟨hc, hcv, he⟩ := h.create (I := I) (k := .constant l.mapfd) hb rfl
    (fun _ => nofun) mapM_argVal_nil
  obtain ⟨v, hv, hvx⟩ := hc.exists_reg hrx
  obtain ⟨s', hs', hl⟩ := hc.createSetReg (I := I) (k := .loadMap) (by simpa using hb) rfl
    (fun _ => nofun) (mapM_argVal_cons hvx (mapM_argVal_cons hcv mapM_argVal_nil))
    (List.getElem?_eq_some_iff.1 hrx).1
  refine ⟨s', ?_, (he _).lifts (hl _)⟩
  simp only [Deserialize.createLoadMapOp, hv]
  exact hs'

/-- Every instruction the section executes in place, the lifter lowers into
operations that compute the same registers and log the same stores. -/
theorem Sim.createMLIR (h : Sim b args s env regs) (hb : s.insertion = b) (prog : InstructionSeq)
    (l : Nat) {ins : Instruction} (hx : execIns I regs log ins = some (regs', log')) :
    ∃ s', Deserialize.createMLIR prog s ins l = some s' ∧ Lifts I b args s s' env regs' log log' := by
  cases ins with
  | bin bin => exact h.createBinaryOp hb hx
  | un u => exact h.createUnaryOp hb hx
  | loadMapFd lm => exact h.createLoadMapOp hb hx
  | mem m => exact h.createMemOp hb hx
  | _ => cases hx

variable {prog : InstructionSeq} {fuel pc : Nat} {li : LabeledInstruction}

/-- An instruction other than a jump or `Exit` is executed in place and the
run goes on at the next position. -/
theorem runSection_step (hli : prog[pc]? = some li) (hj : li.jumpTarget? = none)
    (he : li.ins ≠ .exit) :
    runSection I prog (fuel + 1) pc regs log =
      (execIns I regs log li.ins).bind fun r => runSection I prog fuel (pc + 1) r.1 r.2 := by
  obtain ⟨label, ins⟩ := li
  rw [runSection, hli]
  cases ins <;> first | rfl | exact (he rfl).elim | simp [LabeledInstruction.jumpTarget?] at hj

theorem runSection_exit (hli : prog[pc]? = some li) (he : li.ins = .exit) :
    runSection I prog (fuel + 1) pc regs log = regs[0]?.map (·, log) := by
  obtain ⟨label, ins⟩ := li
  subst he
  rw [runSection, hli]
  cases regs[0]? <;> rfl

theorem translate_cons {p : Nat} {ps : List Nat} (hli : prog[p]? = some li)
    (hc : Deserialize.createMLIR prog s li.ins li.label = some s') :
    Deserialize.translate prog s (p :: ps) = Deserialize.translate prog s' ps := by
  rw [Deserialize.translate, hli]
  simp [hc]

/-- The lifter, translating a stretch `body` of the section at `pc` into
block `b`, and the section, running through it, keep in step: when the
stretch has no jump and no `Exit`, the operations it is lowered to compute,
in order, the registers and stores of the run, and the run goes on after the
stretch. -/
theorem Sim.translate (h : Sim b args s env regs) (hb : s.insertion = b)
    {body post : InstructionSeq} (hprog : prog.drop pc = body ++ post)
    (hlin : ∀ li ∈ body, li.jumpTarget? = none ∧ li.ins ≠ .exit) {r : V × List (Effect V)}
    (hrun : runSection I prog fuel pc regs log = some r) :
    ∃ s' regs' log', Deserialize.translate prog s (List.range' pc body.length) = some s' ∧
      Lifts I b args s s' env regs' log log' ∧
      runSection I prog (fuel - body.length) (pc + body.length) regs' log' = some r := by
  induction body generalizing pc s env regs log fuel with
  | nil => exact ⟨s, regs, log, rfl, ⟨env, h, Emits.refl⟩, hrun⟩
  | cons li body ih =>
    obtain ⟨hj, he⟩ := hlin li (List.mem_cons_self _ _)
    have hli : prog[pc]? = some li := by rw [← List.head?_drop, hprog]; rfl
    have hprog' : prog.drop (pc + 1) = body ++ post := by rw [← List.tail_drop, hprog]; rfl
    cases fuel with
    | zero => cases hrun
    | succ fuel =>
      rw [runSection_step hli hj he, Option.bind_eq_some] at hrun
      obtain ⟨⟨regs₁, log₁⟩, hx, hrun⟩ := hrun
      obtain ⟨s₁, hc, env₁, h₁, he₁⟩ := h.createMLIR hb prog li.label hx
      obtain ⟨s', regs', log', ht, hl, hrun'⟩ := ih h₁ (he₁.insertion.trans hb) hprog'
        (fun li hli => hlin li (List.mem_cons_of_mem _ hli)) hrun
      refine ⟨s', regs', log', ?_, he₁.lifts hl, ?_⟩
      · rw [List.length_cons, List.range'_succ, translate_cons hli hc]
        exact ht
      · simpa [Nat.add_assoc, Nat.add_comm 1] using hrun'

theorem translate_append {ps qs : List Nat} :
    Deserialize.translate prog s (ps ++ qs) =
      (Deserialize.translate prog s ps).bind fun s' => Deserialize.translate prog s' qs := by
  induction ps generalizing s with
  | nil => rfl
  | cons p ps ih =>
    rw [List.cons_append, Deserialize.translate, Deserialize.translate]
    simp only [Option.bind_eq_bind, Option.bind_assoc, ih]

/-- A block entered with `args` holds them in its parameters. -/
theorem Sim.enter (hargs : args.length = ebpfRegisters) (s : Deserialize) (b : Nat) :
    Sim b args (s.enter b) (fun _ => none) args where
  fresh _ _ := rfl
  length := by simp [Deserialize.enter, blockArgs, hargs]
  reg r v hr := by
    simp only [Deserialize.enter, blockArgs, List.getElem?_map, Option.map_eq_some'] at hr
    obtain ⟨w, hw, rfl⟩ := hr
    obtain ⟨hlt, rfl⟩ := List.getElem?_eq_some_iff.1 hw
    simp [argVal]

/-- The entry block's parameters hold the initial registers. -/
theorem Sim.init (hargs : args.length = ebpfRegisters) :
    Sim 0 args Deserialize.init (fun _ => none) args :=
  Sim.enter hargs Deserialize.init 0

namespace Deserialize

@[simp] theorem ops_init : init.ops = [] := rfl

@[simp] theorem lastBlock_init : init.lastBlock = 0 := rfl

end Deserialize

theorem collectStep_of_jumpTarget (hj : li.jumpTarget? = none) :
    Deserialize.collectStep s li = s := by
  obtain ⟨label, ins⟩ := li
  cases ins <;> first | rfl | simp [LabeledInstruction.jumpTarget?] at hj

/-- Without jumps, `buildFunctionBody` finds no boundary and translates the
whole section into the entry block. -/
theorem buildFunctionBody_of_jump_free (hj : ∀ li ∈ prog, li.jumpTarget? = none) :
    Deserialize.buildFunctionBody prog Deserialize.init =
      Deserialize.translate prog Deserialize.init (List.range' 0 prog.length) := by
  have hfold : ∀ (l : InstructionSeq), (∀ li ∈ l, li.jumpTarget? = none) →
      l.foldl Deserialize.collectStep Deserialize.init = Deserialize.init := by
    intro l hl
    induction l with
    | nil => rfl
    | cons li l ih =>
      rw [List.foldl_cons, collectStep_of_jumpTarget (hl li (List.mem_cons_self _ _))]
      exact ih fun li h => hl li (List.mem_cons_of_mem _ h)
  rw [Deserialize.buildFunctionBody, Deserialize.collectBlocks, hfold prog hj]
  show Deserialize.translate prog (if 0 < prog.length then Deserialize.init.enter 0 else
    Deserialize.init) (List.range' 0 (prog.length - 0)) = _
  rw [show Deserialize.init.enter 0 = Deserialize.init from rfl, ite_self, Nat.sub_zero]

theorem runFunc_of_ret {f : Func} {v : V}
    (h : execBlock I b args (f.ops.enum.filter (·.2.block = b)) (fun _ => none) log =
      some (.ret v, log')) :
    runFunc I f (fuel + 1) b args log = some (v, log') := by
  rw [runFunc, h]
  rfl

/-- A section without jumps, whose one `Exit` ends it, is lifted into the
entry block alone. Run under any interpretation, the lifted function logs
exactly the stores the section's run logs, in order, and returns R0 as it
stood on entry: the `ReturnOp` reads the entry block's first parameter, not
the register. -/
theorem buildXDPFunction_jump_free {body : InstructionSeq} {l : Nat}
    (hbody : ∀ li ∈ body, li.jumpTarget? = none ∧ li.ins ≠ .exit)
    (hargs : args.length = ebpfRegisters) {v : V} {log : List (Effect V)}
    (hrun : runSection I (body ++ [⟨l, .exit⟩]) fuel 0 args [] = some (v, log)) :
    ∃ f, buildXDPFunction [body ++ [⟨l, .exit⟩]] = some f ∧
      runFunc I f 1 0 args [] = args[0]?.map (·, log) := by
  obtain ⟨s', regs', log', ht, ⟨env', -, new, regsN, hs', hblk, he⟩, hrest⟩ :=
    (Sim.init hargs).translate (I := I) rfl (List.drop_zero _) hbody hrun
  have hexit : (body ++ [⟨l, .exit⟩])[body.length]? = some ⟨l, .exit⟩ := by simp
  obtain ⟨fuel', hf⟩ : ∃ f', fuel - body.length = f' + 1 := by
    cases h : fuel - body.length with
    | zero => rw [h] at hrest; cases hrest
    | succ f' => exact ⟨f', rfl⟩
  rw [hf, Nat.zero_add, runSection_exit hexit rfl] at hrest
  obtain rfl : log' = log := by
    cases h : regs'[0]? with
    | none => rw [h] at hrest; cases hrest
    | some a => rw [h] at hrest; exact (Prod.mk.inj (Option.some.inj hrest)).2
  have hbuild : Deserialize.buildFunctionBody (body ++ [⟨l, .exit⟩]) Deserialize.init = some s' := by
    rw [buildFunctionBody_of_jump_free, List.length_append, List.length_singleton,
      List.range'_concat, Nat.one_mul, Nat.zero_add, translate_append, ht]
    · exact translate_cons hexit rfl
    · intro li hli
      rcases List.mem_append.1 hli with hli | hli
      · exact (hbody li hli).1
      · rw [List.mem_singleton.1 hli]
        rfl
  obtain ⟨a0, ha0⟩ : ∃ a, args[0]? = some a := ⟨_, List.getElem?_eq_getElem (by rw [hargs]; decide)⟩
  refine ⟨⟨s'.blocks, s'.ops ++ [⟨s'.lastBlock, .ret, [.arg s'.lastBlock 0]⟩]⟩, ?_, ?_⟩
  · simp only [buildXDPFunction, List.head?_cons, Option.bind_eq_bind, Option.some_bind, hbuild]
    rfl
  rw [ha0, Option.map_some']
  subst hs'
  refine runFunc_of_ret ?_
  simp only [Deserialize.ops_init, Deserialize.lastBlock_init, List.nil_append] at he ⊢
  rw [List.filter_eq_self.2, List.enum_append]
  · refine (he _).trans ((execBlock_ret rfl).trans ?_)
    rw [mapM_argVal_cons (show argVal 0 args env' (.arg 0 0) = some a0 by simpa [argVal] using ha0)
      mapM_argVal_nil]
    rfl
  · intro x hx
    rcases List.mem_append.1 (List.snd_mem_of_mem_enum hx) with h | h
    · simp [(hblk _ h).1]
    · simp [List.mem_singleton.1 h]

/-- `*(u64 *)(r10 - 8) = r1; r0 = r1; exit`: both log the store; the section
returns `MoveOp(r0, r1)`, its lift R0's entry value. -/
theorem buildXDPFunction_jump_free_store :
    runSection ⟨.app, fun _ _ _ => false⟩
        ([⟨0, .mem ⟨⟨.w8, 10, -8⟩, 1, false⟩⟩, ⟨1, .bin ⟨.mov, 0, .reg 1⟩⟩] ++ [⟨2, .exit⟩]) 3 0
        initTerms [] =
      some (.app (.bin .mov) [.init 0, .init 1], [(.w8, [.init 10, .app (.constant (-8)) [], .init 1])]) ∧
    ∃ f, buildXDPFunction
        [[⟨0, .mem ⟨⟨.w8, 10, -8⟩, 1, false⟩⟩, ⟨1, .bin ⟨.mov, 0, .reg 1⟩⟩] ++ [⟨2, .exit⟩]] = some f ∧
      runFunc ⟨.app, fun _ _ _ => false⟩ f 1 0 initTerms [] =
        some (.init 0, [(.w8, [.init 10, .app (.constant (-8)) [], .init 1])]) :=
  ⟨rfl, buildXDPFunction_jump_free (by decide) (by decide) (show runSection _ _ 3 _ _ _ = _ by rfl)⟩

end Ebpf
end Btor2Mlir
