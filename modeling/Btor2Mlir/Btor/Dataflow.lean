import Btor2Mlir.Dataflow
import Btor2Mlir.Btor.InPlace
import Btor2Mlir.Btor.Reorder
import Btor2Mlir.Btor.Order

/-!
# The liveness pass keeps what the body computes

Each conversion of the pass is a `substitute`: an in-place write over the
write's operands, created right after it, takes over its uses; with arrays as
values the two compute the same (`evalValue_writeInPlace`). The moves of reads
in `moveReadOpsBefore` change only the order. So each turn of the loop keeps
the `Renaming` invariant, and the whole pass keeps the meaning of every value
of the body, up to renaming converted writes to their in-place writes.

On an SSA-ordered body the value run `runValue` reaches the branch exactly
when every operation before it has a value, and gives the branch its
operands' denotations (`runValue_eq`). Together: when the pass leaves its
output SSA-ordered, the output's value run gives the branch what the body's
did. Order is the one thing the dataflow reading does not see, and the pass
can break it (`btorLivenessPass_breaks_ssa`).
-/

namespace Btor2Mlir
namespace Btor

variable {I : Interp}

theorem evalValue_writeInPlace (args : List BVal) :
    evalValue I .writeInPlace args = evalValue I .write args := by
  rcases args with _ | ⟨_ | _, _ | ⟨_ | _, _ | ⟨_ | _, _ | _⟩⟩⟩ <;> rfl

/-- The conversion the pass makes: a `WriteOp` into a `WriteInPlaceOp`. -/
def Converts (a b : OpKind) : Prop := a = .write ∧ b = .writeInPlace

/-! ### The loop of the pass -/

section Loop

variable {uo : UseOrder OpKind} {f cur cur' : Func} {σ : Val → Val} {rest : List BOp} {op : BOp}

/-- One turn of the loop keeps the invariant: a move of reads then a
substitution. -/
theorem visitOp_renaming
    (h : Renaming (evalValue I) Converts f.ops f.body (op :: rest) cur.ops cur.body σ)
    (hop : op ∈ f.body) (hrest : ∀ o ∈ rest, o.id ≠ op.id) (hv : visitOp uo cur op = some cur') :
    ∃ σ', Renaming (evalValue I) Converts f.ops f.body rest cur'.ops cur'.body σ' := by
  rcases visitOp_cases hv with ⟨rfl, -⟩ | ⟨w, hk, hw, hr⟩
  · exact ⟨σ, h.tail⟩
  obtain ⟨f₁, hl, rfl⟩ := replaceWithWriteInPlace_success hr
  obtain ⟨he, hb⟩ := resultIsLiveAfter_frame hl
  have hops : f₁.ops.Perm cur.ops := by simpa only [Func.ops, he] using hb.append_left cur.entry
  have h₁ := h.perm hops hb (List.sublist_append_right _ _)
  have hw₁ : opById f₁.body op.id = some w :=
    (opById_perm hb h₁.nodup_cur op.id).trans hw
  have hwk : w.kind = .write := (h₁.kind_eq hop hw₁).trans hk
  have hscope : ((replaceAllUsesWith f₁.entry (.res w.id) (.res (fresh f₁.ops)) ++
      substitute f₁.body w ⟨fresh f₁.ops, .writeInPlace, w.operands⟩).map (·.id)).Perm
      (fresh f₁.ops :: f₁.ops.map (·.id)) := by
    rw [List.map_append, ids_replaceAllUsesWith, Func.ops, List.map_append]
    exact ((ids_substitute (opById_mem hw₁) _).append_left _).trans List.perm_middle
  exact ⟨_, h₁.convert hop hrest hw₁ ⟨hwk, rfl⟩ (fun _ ha => by cases hwk ▸ ha.2)
    (fun args => by rw [hwk]; exact evalValue_writeInPlace args) hscope
    (List.sublist_append_right _ _)⟩

/-- **The pass keeps what the body means.** Under every interpretation, for
some renaming `σ`: every operation of the body is in the output with its
operands renamed, every other operation of the output is an in-place write a
write's result was renamed to, and every value the body has or names means,
renamed, what it meant, from every input, at every depth. -/
theorem btorLivenessPass_denote {f' : Func} (hids : (f.ops.map (·.id)).Nodup)
    (h : btorLivenessPass uo f = some f') :
    ∃ σ, Renaming (evalValue I) Converts f.ops f.body [] f'.ops f'.body σ :=
  Renaming.foldlM Func.ops Func.body visitOp_renaming
    (Renaming.init hids (List.sublist_append_right _ _)) (fun _ h => h) (Func.nodup_body hids) h

end Loop

/-! ### The value run of an SSA-ordered body -/

/-- `x` has its value once the operations `pre` at the head of `blk` have run:
it is a block argument, a value no operation of `blk` defines, or the result
of one of `pre`. -/
def Ready (blk pre : List BOp) (x : Val) : Prop := ∀ o ∈ blk, x = .res o.id → o ∈ pre

instance (blk pre : List BOp) (x : Val) : Decidable (Ready blk pre x) :=
  inferInstanceAs (Decidable (∀ o ∈ blk, x = .res o.id → o ∈ pre))

section Run

variable {V : Type} {eval : OpKind → List V → Option V} {blk : List BOp} {input : Val → Option V}
  {pre post : List BOp} {o br : BOp}

theorem SSAOrdered.ready (hssa : SSAOrdered blk) (h : blk = pre ++ o :: post) {x : Val}
    (hx : x ∈ o.operands) : Ready blk pre x := by
  rintro o' ho' rfl
  subst h
  simpa [List.take_left] using
    hssa ⟨pre.length, by simp⟩ o' ho' (by simpa [List.getElem_append_right] using hx)

theorem denote_outside {k : Nat} (h : opById blk k = none) (fuel : Nat) :
    denote eval blk input fuel (.res k) = input (.res k) := by
  cases fuel <;> simp [denote_res_zero, denote_res_succ, h]

theorem denote_of_ready_nil {x : Val} (hx : Ready blk [] x) (fuel : Nat) :
    denote eval blk input fuel x = input x := by
  cases x with
  | arg => simp
  | res k =>
    cases h : opById blk k with
    | none => exact denote_outside h fuel
    | some o => cases hx o (opById_mem h) (by rw [opById_id h])

variable (hssa : SSAOrdered blk) (hn : (blk.map (·.id)).Nodup)
include hssa hn

/-- On an SSA-ordered body, a value ready after the first `i` operations has
its value at depth `i`, and keeps it at every greater depth. -/
theorem denote_stable : ∀ (i : Nat) (x : Val), Ready blk (blk.take i) x → ∀ fuel, i ≤ fuel →
    denote eval blk input fuel x = denote eval blk input i x
  | 0, x, hx, fuel, _ => by
    rw [denote_of_ready_nil (by simpa using hx), denote_of_ready_nil (by simpa using hx)]
  | i + 1, x, hx, fuel, hf => by
    by_cases hx' : Ready blk (blk.take i) x
    · rw [denote_stable i x hx' fuel (by omega), denote_stable i x hx' (i + 1) (by omega)]
    obtain ⟨o, ho, rfl, hno⟩ : ∃ o ∈ blk, x = .res o.id ∧ o ∉ blk.take i := by
      simpa [Ready] using hx'
    have hi : blk[i]? = some o := by
      simpa [List.take_succ, hno] using hx o ho rfl
    obtain ⟨hlt, rfl⟩ := List.getElem?_eq_some_iff.1 hi
    obtain ⟨fuel, rfl⟩ : ∃ n, fuel = n + 1 := ⟨fuel - 1, by omega⟩
    have hops : ∀ y ∈ blk[i].operands, denote eval blk input fuel y = denote eval blk input i y :=
      fun y hy => denote_stable i y (fun o' ho' he => hssa ⟨i, hlt⟩ o' ho' (he ▸ hy)) fuel (by omega)
    simp only [denote_res_succ, opById_of_nodup hn ho, mapM_congr hops]

/-- From the body's length on, the denotation no longer depends on the depth. -/
theorem denote_of_length_le {fuel : Nat} (h : blk.length ≤ fuel) :
    denote eval blk input fuel = denote eval blk input blk.length :=
  funext fun x => denote_stable hssa hn _ x (fun o ho _ => by rwa [List.take_of_length_le le_rfl])
    fuel h

/-- An operation of an SSA-ordered body denotes its kind over its operands'
values. -/
theorem denote_op (h : blk = pre ++ o :: post) :
    denote eval blk input blk.length (.res o.id) =
      (o.operands.mapM (denote eval blk input blk.length)).bind (eval o.kind) := by
  have hlen : blk.length = (blk.length - 1) + 1 := by simp [h]; omega
  have hpre : pre.length ≤ blk.length - 1 := by simp [h]
  have htake : blk.take pre.length = pre := by rw [h, List.take_left]
  have hops : ∀ y ∈ o.operands, denote eval blk input (blk.length - 1) y =
      denote eval blk input blk.length y := fun y hy => by
    have hy : Ready blk (blk.take pre.length) y := by rw [htake]; exact hssa.ready h hy
    rw [denote_stable hssa hn _ y hy _ hpre, denote_stable hssa hn _ y hy blk.length (by omega)]
  conv_lhs => rw [hlen, denote_res_succ, opById_of_nodup hn (by simp [h])]
  simp only [mapM_congr hops]

end Run

theorem runValue_cons_branch {rest : List BOp} {env : Val → Option BVal} {o : BOp}
    (h : o.kind = .branch) : runValue I (o :: rest) env = (o.operands.mapM env).map (env, ·) := by
  obtain ⟨_, kind, _⟩ := o
  subst h
  simp [runValue, Option.map_eq_bind]

theorem runValue_cons_of_ne {rest : List BOp} {env : Val → Option BVal} {o : BOp}
    (h : o.kind ≠ .branch) : runValue I (o :: rest) env = (o.operands.mapM env).bind fun args =>
      (evalValue I o.kind args).bind fun v => runValue I rest (update env (.res o.id) (some v)) := by
  obtain ⟨_, kind, _⟩ := o
  cases kind <;> first | exact absurd rfl h | rfl

section RunValue

variable {blk : List BOp} {input : Val → Option BVal} {pre post : List BOp} {br : BOp}
  (hssa : SSAOrdered blk) (hn : (blk.map (·.id)).Nodup) (hbr : br.kind = .branch)
include hssa hn hbr

/-- The value run of an SSA-ordered body, from the operations `pre₂` before its
first branch on, with `env` holding the value of everything `pre₁` leaves
ready. -/
theorem runValue_from : ∀ (pre₁ pre₂ : List BOp) (env : Val → Option BVal),
    blk = pre₁ ++ pre₂ ++ br :: post → (∀ o ∈ pre₂, o.kind ≠ .branch) →
    (∀ x, Ready blk pre₁ x → env x = denote (evalValue I) blk input blk.length x) →
    (runValue I (pre₂ ++ br :: post) env).map Prod.snd =
      if ∀ o ∈ pre₂, (denote (evalValue I) blk input blk.length (.res o.id)).isSome then
        br.operands.mapM (denote (evalValue I) blk input blk.length) else none
  | pre₁, [], env, hblk, _, henv => by
    rw [List.nil_append, runValue_cons_branch hbr, Option.map_map, if_pos (by simp),
      mapM_congr fun x hx => henv x (hssa.ready (by simpa using hblk) hx)]
    exact Option.map_id'
  | pre₁, o :: pre₂, env, hblk, hpre, henv => by
    have hblk' : blk = pre₁ ++ o :: (pre₂ ++ br :: post) := by simp [hblk]
    rw [List.cons_append, runValue_cons_of_ne (hpre o (List.mem_cons_self _ _)),
      mapM_congr fun x hx => henv x (hssa.ready hblk' hx), ← Option.bind_assoc,
      ← denote_op hssa hn hblk']
    cases hv : denote (evalValue I) blk input blk.length (.res o.id) with
    | none => simp [hv]
    | some v =>
      simp only [Option.some_bind, List.forall_mem_cons, hv, Option.isSome_some, true_and]
      refine runValue_from (pre₁ ++ [o]) pre₂ _ (by simp [hblk])
        (fun o' ho' => hpre o' (List.mem_cons_of_mem _ ho')) fun x hx => ?_
      by_cases hxo : x = .res o.id
      · simp [update, hxo, hv]
      · rw [update, if_neg hxo]
        refine henv x fun o' ho' he => ?_
        rcases List.mem_append.1 (hx o' ho' he) with h | h
        · exact h
        · exact absurd (List.mem_singleton.1 h ▸ he) hxo

/-- **The value run of an SSA-ordered body is its denotation.** The run
reaches the first branch `br`, after `pre`, exactly when every operation of
`pre` has a value, and then gives `br` the values of its operands. -/
theorem runValue_eq (hblk : blk = pre ++ br :: post) (hpre : ∀ o ∈ pre, o.kind ≠ .branch) :
    (runValue I blk input).map Prod.snd =
      if ∀ o ∈ pre, (denote (evalValue I) blk input blk.length (.res o.id)).isSome then
        br.operands.mapM (denote (evalValue I) blk input blk.length) else none :=
  (congrArg (fun l => (runValue I l input).map Prod.snd) hblk).trans <|
    runValue_from hssa hn hbr [] pre input (by simpa using hblk) hpre fun _ hx =>
      (denote_of_ready_nil hx _).symm

end RunValue

/-! ### The pass keeps the value run -/

variable {uo : UseOrder OpKind} {f f' : Func} {pre : List BOp} {br : BOp} {input : Val → Option BVal}

/-- The output of the pass on a body ending in its only branch `br`: its
operations have distinct ids, and its first branch `br'` takes the renamed
operands of `br`. When every operation of `pre` has a value, so does every
operation before `br'`, and the two branches' operands have the same values. -/
theorem btorLivenessPass_branch (hids : (f.ops.map (·.id)).Nodup)
    (h : btorLivenessPass uo f = some f') (hssa : SSAOrdered f.body) (hssa' : SSAOrdered f'.body)
    (hbody : f.body = pre ++ [br]) (hbr : br.kind = .branch) (hpre : ∀ o ∈ pre, o.kind ≠ .branch)
    (hall : ∀ o ∈ pre, (denote (evalValue I) f.body input f.body.length (.res o.id)).isSome) :
    (f'.body.map (·.id)).Nodup ∧ ∃ s br' t, f'.body = s ++ br' :: t ∧ br'.kind = .branch ∧
      (∀ o ∈ s, o.kind ≠ .branch) ∧
      (∀ o ∈ s, (denote (evalValue I) f'.body input f'.body.length (.res o.id)).isSome) ∧
      br'.operands.mapM (denote (evalValue I) f'.body input f'.body.length) =
        br.operands.mapM (denote (evalValue I) f.body input f.body.length) := by
  obtain ⟨σ, hR⟩ := btorLivenessPass_denote (I := I) hids h
  have hs := List.sublist_append_right f.entry f.body
  have hn' := hR.nodup_cur
  have hD : denote (evalValue I) f.body input f.body.length =
      denote (evalValue I) f.body input (f.body.length + f'.body.length + 1) :=
    (denote_of_length_le hssa (Func.nodup_body hids) (by omega)).symm
  have hD' : denote (evalValue I) f'.body input f'.body.length =
      denote (evalValue I) f'.body input (f.body.length + f'.body.length + 1) :=
    (denote_of_length_le hssa' hn' (by omega)).symm
  have hmem : ∀ o ∈ f.body, o ∈ pre ∨ o = br := fun o ho => by simpa [hbody] using ho
  obtain ⟨br', hbr', hid, hkd, hops⟩ := hR.kept br (by simp [hbody])
  obtain ⟨s, t, hst⟩ := List.append_of_mem hbr'
  have hs' : ∀ o ∈ s, o.kind ≠ .branch := fun o ho hk => by
    rcases hR.new o (by simp [hst, ho]) with ⟨o₀, ho₀, hid₀, hk₀⟩ | ⟨-, -, ⟨-, hw⟩, -⟩
    · rcases hmem o₀ ho₀ with h | rfl
      · exact hpre o₀ h (hk₀.symm.trans hk)
      · exact (ids_ne_of_nodup (hst ▸ hn')).1 o ho (hid₀.trans hid.symm)
    · rw [hk] at hw
      cases hw
  refine ⟨hn', s, br', t, hst, hkd ▸ hbr, hs', fun o ho => ?_, ?_⟩
  · obtain ⟨o₀, ho₀, hk₀, he⟩ := hR.denote_new hids hs (show o ∈ f'.body by simp [hst, ho])
    rw [hD', he, ← hD]
    rcases hmem o₀ ho₀ with h | rfl
    · exact hall o₀ h
    · rcases hk₀ with hk₀ | ⟨hk₀, -⟩
      · exact absurd (hk₀ ▸ hbr) (hs' o ho)
      · exact absurd (hbr.symm.trans hk₀) nofun
  · rw [hD', hops,
      mapM_map_congr fun x hx => hR.means input _ x (within_operand (hs.subset (by simp [hbody])) hx),
      ← hD]

/-- **The pass keeps the value run.** For a body with distinct ids, SSA-ordered
and ending in its only branch, where no read that shares an operand with a
select uses the select or a later operation (so the output stays SSA-ordered): when
the value run of the body reaches the branch with operand values `args`, the
value run of the output reaches its branch with the same values. -/
theorem btorLivenessPass_runValue (hids : (f.ops.map (·.id)).Nodup)
    (h : btorLivenessPass uo f = some f') (hssa : SSAOrdered f.body) (hreads : ReadsEarly f.body)
    (hbody : f.body = pre ++ [br]) (hbr : br.kind = .branch) (hpre : ∀ o ∈ pre, o.kind ≠ .branch)
    {args : List BVal} (hrun : (runValue I f.body input).map Prod.snd = some args) :
    (runValue I f'.body input).map Prod.snd = some args := by
  have hssa' : SSAOrdered f'.body := ssaOrdered_of_ordered
    (OrderInv.btorLivenessPass ⟨hids, hssa.ordered (Func.nodup_body hids), hreads⟩ h).ordered
  rw [runValue_eq hssa (Func.nodup_body hids) hbr hbody hpre] at hrun
  split_ifs at hrun with hall
  obtain ⟨hn', s, br', t, hst, hbr', hs, hall', hops⟩ :=
    btorLivenessPass_branch hids h hssa hssa' hbody hbr hpre hall
  rw [runValue_eq hssa' hn' hbr' hst hs, if_pos hall', hops, hrun]

/-- `v = 1`, `A` all zeros, `i = 0`, `c = 1`. -/
def selectInput : Val → Option BVal
  | .arg 1 0 => some (.int 1)
  | .arg 1 1 => some (.arr fun _ => 0)
  | .arg 1 2 => some (.int 0)
  | .arg 1 3 => some (.int 1)
  | _ => none

/-- `w = write v, A[i]; s = ite c, w, A; r = read A[i]; br s, r`: the pass
moves the read above the select, converts the write, and the output's run
gives the branch the new array and the old element. -/
theorem btorLivenessPass_runValue_select :
    btorLivenessPass .textual ⟨[], [⟨0, .write, [.arg 1 0, .arg 1 1, .arg 1 2]⟩,
        ⟨1, .ite, [.arg 1 3, .res 0, .arg 1 1]⟩, ⟨2, .read, [.arg 1 1, .arg 1 2]⟩,
        ⟨3, .branch, [.res 1, .res 2]⟩]⟩ =
      some ⟨[], [⟨0, .write, [.arg 1 0, .arg 1 1, .arg 1 2]⟩,
        ⟨4, .writeInPlace, [.arg 1 0, .arg 1 1, .arg 1 2]⟩, ⟨2, .read, [.arg 1 1, .arg 1 2]⟩,
        ⟨1, .ite, [.arg 1 3, .res 4, .arg 1 1]⟩, ⟨3, .branch, [.res 1, .res 2]⟩]⟩ ∧
    (runValue (fun _ _ => none) [⟨0, .write, [.arg 1 0, .arg 1 1, .arg 1 2]⟩,
        ⟨4, .writeInPlace, [.arg 1 0, .arg 1 1, .arg 1 2]⟩, ⟨2, .read, [.arg 1 1, .arg 1 2]⟩,
        ⟨1, .ite, [.arg 1 3, .res 4, .arg 1 1]⟩, ⟨3, .branch, [.res 1, .res 2]⟩]
        selectInput).map Prod.snd = some [.arr (store (fun _ => 0) 0 1), .int 0] := by
  refine ⟨?h, btorLivenessPass_runValue (by decide) ?h (by decide) (by decide)
    (show [_, _, _, _] = [_, _, _] ++ [_] from rfl) rfl (by decide) rfl⟩
  decide

end Btor
end Btor2Mlir
