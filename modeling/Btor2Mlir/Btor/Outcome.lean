import Btor2Mlir.Btor.Liveness

/-!
# What `BtorLivenessPass` does with a write it does not convert

`resultIsLiveAfter` declines a write, returning failure with the function
unchanged, when the write's result has not exactly one use, or when that use
is neither a branch nor a select. A select that is not the idiom
`usedInITEPattern` expects fails one of its assertions. `runOnOperation`
asserts that every write converts, so the pass aborts at the first write it
does not convert.

A write the pass converts stays where it was, with no use left: its uses now
name the `WriteInPlaceOp`. So the pass aborts on its own output whenever that
holds a write.
-/

namespace Btor2Mlir
namespace Btor

variable {uo : UseOrder OpKind} {f g : Func} {w s u o : BOp} {k t : Nat} {r : LogicalResult}

/-! ### Finding definitions and users -/

theorem opsMatch_res (h : opById f.ops k = some u) (kd : OpKind) :
    opsMatch f (.res k) kd = (u.kind == kd) := by
  simp [opsMatch, Func.defOp, h]

theorem writeBase_res (h : opById f.ops k = some u) : writeBase f (.res k) = u.operands[1]? := by
  simp [writeBase, Func.defOp, h]

/-- A value that `opsMatch` finds is the result of an operation of that kind. -/
theorem exists_of_opsMatch {v : Val} {kd : OpKind} (h : opsMatch f v kd = true) :
    ∃ d, v = .res d.id ∧ opById f.ops d.id = some d ∧ d.kind = kd := by
  cases v with
  | arg => simp [opsMatch, Func.defOp] at h
  | res k =>
    cases hk : opById f.ops k with
    | none => simp [opsMatch, Func.defOp, hk] at h
    | some d =>
      rw [opsMatch_res hk, beq_iff_eq] at h
      exact ⟨d, by rw [opById_id hk], by rwa [opById_id hk], h⟩

/-- The owner of a value's only use. -/
theorem exists_user {v : Val} (hu : usesIn f.ops v = [k]) : ∃ u, opById f.ops k = some u := by
  obtain ⟨o, ho, hid, -⟩ := (mem_usesIn _ _ _).1 (hu ▸ List.mem_singleton_self k)
  exact opById_isSome ⟨o, ho, hid⟩

/-! ### Outcomes of `resultIsLiveAfter` -/

/-- A write whose result has not exactly one use is declined. -/
theorem resultIsLiveAfter_of_numUses (he : usesIn f.entry (.res w.id) = [])
    (h : f.numUses (.res w.id) ≠ 1) : resultIsLiveAfter uo f w = some (.failure, f) := by
  simp [resultIsLiveAfter, he, h]

/-- A write with one use: what `resultIsLiveAfter` does depends on the user's kind. -/
theorem resultIsLiveAfter_of_use (he : usesIn f.entry (.res w.id) = [])
    (hu : usesIn f.ops (.res w.id) = [k]) (hk : opById f.ops k = some u) :
    resultIsLiveAfter uo f w = switchOnUser uo f u := by
  simp [resultIsLiveAfter, he, Func.numUses, hu, uo.order_eq_singleton hu, hk]

/-- `resultIsLiveAfter` reads only the write's result. -/
theorem resultIsLiveAfter_congr (h : o.id = w.id) :
    resultIsLiveAfter uo f o = resultIsLiveAfter uo f w := by
  unfold resultIsLiveAfter
  rw [h]

theorem usedInITEPattern_of_numUses (h : f.numUses (.res s.id) ≠ 1) :
    usedInITEPattern uo f s = none := by
  simp [usedInITEPattern, h]

theorem usedInITEPattern_of_use (hu : usesIn f.ops (.res s.id) = [k])
    (hk : opById f.ops k = some u) (hb : u.kind ≠ .branch) : usedInITEPattern uo f s = none := by
  simp [usedInITEPattern, Func.numUses, hu, uo.order_eq_singleton hu, hk, hb]

/-- A select whose result is not used exactly once, by a branch, fails an
assertion. -/
theorem usedInITEPattern_of_not_branch
    (h : ¬ ∃ k u, usesIn f.ops (.res s.id) = [k] ∧ opById f.ops k = some u ∧ u.kind = .branch) :
    usedInITEPattern uo f s = none := by
  by_cases hn : f.numUses (.res s.id) = 1
  · obtain ⟨k, hk⟩ := List.length_eq_one.1 hn
    obtain ⟨u, hu⟩ := exists_user hk
    exact usedInITEPattern_of_use hk hu fun hb => h ⟨k, u, hk, hu, hb⟩
  · exact usedInITEPattern_of_numUses hn

/-- The write is the select's true value, and the false value is not its base. -/
theorem usedInITEPattern_of_true_ne_base (hw : opById f.ops w.id = some w)
    (hwk : w.kind = .write) (ht : s.operands[1]? = some (.res w.id))
    (hne : s.operands[2]? ≠ w.operands[1]?) : usedInITEPattern uo f s = none := by
  rw [Option.eq_none_iff_forall_not_mem]
  intro p hp
  simp only [usedInITEPattern, bind, Option.mem_def, Option.bind_eq_some, ht, Option.some_bind,
    opsMatch_res hw, hwk, beq_self_eq_true, ↓reduceIte, writeBase_res hw,
    Option.guard_eq_some'] at hp
  obtain ⟨-, -, -, -, -, -, e, he, -, -, -, hb, -⟩ := hp
  exact hne (he.trans hb)

/-- The write is the select's false value, and the true value is not its base.
If the true value is itself a write, its base cannot be the write, whose only
user is the select. -/
theorem usedInITEPattern_of_false_ne_base (hw : opById f.ops w.id = some w)
    (hu : usesIn f.ops (.res w.id) = [s.id])
    (hs : opById f.ops s.id = some s) (hsk : s.kind = .ite)
    (hf : s.operands[2]? = some (.res w.id)) (hne : s.operands[1]? ≠ w.operands[1]?) :
    usedInITEPattern uo f s = none := by
  rw [Option.eq_none_iff_forall_not_mem]
  intro p hp
  simp only [usedInITEPattern, bind, Option.mem_def, Option.bind_eq_some, hf, Option.some_bind,
    Option.guard_eq_some'] at hp
  obtain ⟨-, -, -, -, -, -, t, ht, hp⟩ := hp
  split at hp
  · rename_i hd
    obtain ⟨d, rfl, hd, hdk⟩ := exists_of_opsMatch hd
    simp only [Option.bind_eq_some, Option.guard_eq_some', writeBase_res hd] at hp
    obtain ⟨-, -, -, hb, -⟩ := hp
    have hdw : d.id ∈ usesIn f.ops (.res w.id) :=
      (mem_usesIn _ _ _).2 ⟨d, opById_mem hd, rfl, List.getElem?_mem hb.symm⟩
    rw [hu, List.mem_singleton] at hdw
    rw [hdw, hs] at hd
    cases hd
    simp [hsk] at hdk
  · simp only [Option.bind_eq_some, Option.guard_eq_some', writeBase_res hw] at hp
    obtain ⟨-, -, -, -, -, hb, -⟩ := hp
    exact hne (ht.trans hb)

/-! ### What `resultIsLiveAfter` changes -/

/-- `moveReadOps` keeps the entry block and permutes the body, as long as the
operation it moves reads before is in the body. -/
theorem moveReadOps_frame {us : List Nat} (hp : ∃ o ∈ f.body, o.id = t)
    (h : moveReadOps t us f = some (r, g)) : g.entry = f.entry ∧ g.body.Perm f.body := by
  induction us generalizing f with
  | nil => cases h; exact ⟨rfl, .refl _⟩
  | cons u us ih =>
    simp only [moveReadOps] at h
    by_cases hu : u = t
    · rw [if_pos hu] at h
      exact ih hp h
    · rw [if_neg hu] at h
      split at h
      · cases h
      · exact ih hp h
      · split at h
        · have hm := moveBefore_perm hp hu
          obtain ⟨o, ho, hot⟩ := hp
          obtain ⟨he, hb⟩ := ih ⟨o, hm.symm.subset ho, hot⟩ h
          exact ⟨he, hb.trans hm⟩
        · cases h; exact ⟨rfl, .refl _⟩

theorem usedInITEPattern_frame (hp : ∃ o ∈ f.body, o.id = s.id)
    (h : usedInITEPattern uo f s = some (r, g)) : g.entry = f.entry ∧ g.body.Perm f.body := by
  simp only [usedInITEPattern, moveReadOpsBefore, bind, Option.bind_eq_some] at h
  obtain ⟨_, _, _, _, _, _, _, _, _, _, h⟩ := h
  split at h <;> simp only [Option.bind_eq_some] at h
  · obtain ⟨-, -, -, -, h⟩ := h
    exact moveReadOps_frame hp h
  · obtain ⟨-, -, -, -, -, -, h⟩ := h
    exact moveReadOps_frame hp h

/-- `resultIsLiveAfter` keeps the entry block and permutes the body. -/
theorem resultIsLiveAfter_frame (h : resultIsLiveAfter uo f w = some (r, g)) :
    g.entry = f.entry ∧ g.body.Perm f.body := by
  have he : usesIn f.entry (.res w.id) = [] := by
    have h' := h
    simp only [resultIsLiveAfter, bind, Option.bind_eq_some, Option.guard_eq_some'] at h'
    obtain ⟨_, he, _⟩ := h'
    exact he
  by_cases hn : f.numUses (.res w.id) = 1
  · obtain ⟨k, hk⟩ := List.length_eq_one.1 hn
    obtain ⟨u, hu⟩ := exists_user hk
    rw [resultIsLiveAfter_of_use he hk hu] at h
    unfold switchOnUser at h
    split at h
    · cases h; exact ⟨rfl, .refl _⟩
    · have hb : usesIn f.body (.res w.id) = [k] := by simpa [Func.ops, he] using hk
      obtain ⟨o, ho, hid, -⟩ := (mem_usesIn _ _ _).1 (hb ▸ List.mem_singleton_self k)
      exact usedInITEPattern_frame ⟨o, ho, hid.trans (opById_id hu).symm⟩ h
    · cases h; exact ⟨rfl, .refl _⟩
  · rw [resultIsLiveAfter_of_numUses he hn] at h
    cases h; exact ⟨rfl, .refl _⟩

/-! ### What a converted write leaves -/

/-- On success `replaceWithWriteInPlace` creates the in-place write over the
write's operands, with a fresh id, right after the write, and moves every use
of the write to it. -/
theorem replaceWithWriteInPlace_success (h : replaceWithWriteInPlace uo f w = some (.success, g)) :
    ∃ f', resultIsLiveAfter uo f w = some (.success, f') ∧
      g = ⟨replaceAllUsesWith f'.entry (.res w.id) (.res (fresh f'.ops)),
        replaceAllUsesWith (insertAfter w.id ⟨fresh f'.ops, .writeInPlace, w.operands⟩ f'.body)
          (.res w.id) (.res (fresh f'.ops))⟩ := by
  simp only [replaceWithWriteInPlace, bind, Option.bind_eq_some] at h
  obtain ⟨⟨st, f'⟩, h1, h2⟩ := h
  cases st
  · simp only [pure, Option.some.injEq, Prod.mk.injEq] at h2
    exact ⟨f', h1, h2.2.symm⟩
  · simp [pure] at h2

section Replace
variable (h : replaceWithWriteInPlace uo f w = some (.success, g)) (hw : w ∈ f.body)
include h

/-- Every operation of the body is still there, under its id and kind. -/
theorem replaceWithWriteInPlace_keeps (ho : o ∈ f.body) :
    ∃ o' ∈ g.body, o'.id = o.id ∧ o'.kind = o.kind := by
  obtain ⟨f', hl, rfl⟩ := replaceWithWriteInPlace_success h
  have ho' := mem_insertAfter_of_mem (t := w.id)
    (x := ⟨fresh f'.ops, .writeInPlace, w.operands⟩) ((resultIsLiveAfter_frame hl).2.mem_iff.2 ho)
  exact ⟨_, List.mem_map_of_mem _ ho', rfl, rfl⟩

/-- The only operation the body gains is the in-place write. -/
theorem replaceWithWriteInPlace_new (ho : o ∈ g.body) :
    o.kind = .writeInPlace ∨ ∃ o' ∈ f.body, o'.id = o.id ∧ o'.kind = o.kind := by
  obtain ⟨f', hl, rfl⟩ := replaceWithWriteInPlace_success h
  obtain ⟨o', ho', rfl⟩ := mem_replaceAllUsesWith.1 ho
  rcases eq_or_mem_of_mem_insertAfter ho' with rfl | ho'
  · exact .inl rfl
  · exact .inr ⟨o', (resultIsLiveAfter_frame hl).2.mem_iff.1 ho', rfl, rfl⟩

include hw in
/-- A result used after the conversion is not the write's: it is the new
in-place write's, named by no operation before, or it was used before. -/
theorem replaceWithWriteInPlace_uses (ho : o ∈ g.ops) (hk : .res k ∈ o.operands) :
    k ≠ w.id ∧ ((∀ x ∈ f.ops, x.id ≠ k) ∨ ∃ x ∈ f.ops, .res k ∈ x.operands) := by
  obtain ⟨f', hl, rfl⟩ := replaceWithWriteInPlace_success h
  obtain ⟨he, hb⟩ := resultIsLiveAfter_frame hl
  have hops : f'.ops.Perm f.ops := by simpa only [Func.ops, he] using hb.append_left f.entry
  have hfresh : ∀ x ∈ f.ops, x.id < fresh (f'.entry ++ f'.body) :=
    fun x hx => id_lt_fresh (hops.mem_iff.2 hx)
  have hwf := hfresh w (List.mem_append_right _ hw)
  simp only [Func.ops, replaceAllUsesWith, ← List.map_append] at ho
  obtain ⟨o', ho', rfl⟩ := List.mem_map.1 ho
  rcases mem_replaceUses_operands.1 hk with ⟨hk, hne⟩ | ⟨hk, -⟩
  · refine ⟨fun he => hne (he ▸ rfl), .inr ?_⟩
    rcases List.mem_append.1 ho' with ho' | ho'
    · exact ⟨o', hops.mem_iff.1 (List.mem_append_left _ ho'), hk⟩
    · rcases eq_or_mem_of_mem_insertAfter ho' with rfl | ho'
      · exact ⟨w, List.mem_append_right _ hw, hk⟩
      · exact ⟨o', hops.mem_iff.1 (List.mem_append_right _ ho'), hk⟩
  · cases hk
    exact ⟨by omega, .inl fun x hx => by have := hfresh x hx; omega⟩

end Replace

/-! ### The loop -/

/-- What one turn of the loop can do: nothing, for an operation that is not
a write (or is gone), or convert the write as it is by then. -/
theorem visitOp_cases {cur cur' : Func} {op : BOp} (h : visitOp uo cur op = some cur') :
    (cur' = cur ∧ (op.kind ≠ .write ∨ opById cur.body op.id = none)) ∨
      ∃ o, op.kind = .write ∧ opById cur.body op.id = some o ∧
        replaceWithWriteInPlace uo cur o = some (.success, cur') := by
  unfold visitOp at h
  split at h
  · rename_i o hk ho
    simp only [bind, pure, Option.bind_eq_some, Option.guard_eq_some', Option.some.injEq] at h
    obtain ⟨⟨st, c⟩, hr, -, hs, hc⟩ := h
    dsimp only at hs hc
    subst hs hc
    exact .inr ⟨o, hk, ho, hr⟩
  · rename_i hno
    cases h
    by_cases hk : op.kind = .write
    · exact .inl ⟨rfl, .inr (Option.eq_none_iff_forall_not_mem.2 fun o ho => hno o hk ho)⟩
    · exact .inl ⟨rfl, .inl hk⟩

theorem foldlM_visitOp_of_no_write {cur : Func} {l : List BOp} (h : ∀ o ∈ l, o.kind ≠ .write) :
    l.foldlM (visitOp uo) cur = some cur := by
  induction l with
  | nil => rfl
  | cons o l ih =>
    have ho : visitOp uo cur o = some cur := by
      unfold visitOp
      split
      · rename_i hk _; exact absurd hk (h o (List.mem_cons_self _ _))
      · rfl
    simp [ho, ih fun x hx => h x (List.mem_cons_of_mem _ hx)]

/-- What the loop keeps of the function `f` it started from, once it has
visited `done`: every operation of `f`'s body is still there under its id and
kind, every write of the body is one of `f`'s, and no operation uses a write
that was visited. -/
structure LoopInv (f : Func) (done : List BOp) (cur : Func) : Prop where
  kept : ∀ o ∈ f.body, ∃ o' ∈ cur.body, o'.id = o.id ∧ o'.kind = o.kind
  writes : ∀ o ∈ cur.body, o.kind = .write → ∃ o' ∈ f.body, o'.id = o.id ∧ o'.kind = .write
  unused : ∀ o ∈ done, o.kind = .write → ∀ x ∈ cur.ops, .res o.id ∉ x.operands

theorem LoopInv.init : LoopInv f [] f :=
  ⟨fun o ho => ⟨o, ho, rfl, rfl⟩, fun o ho hk => ⟨o, ho, rfl, hk⟩, by simp⟩

/-- One turn of the loop keeps the invariant, with its operation visited. -/
theorem LoopInv.visit {done : List BOp} {cur cur' : Func} {op : BOp}
    (hi : LoopInv f done cur) (hd : ∀ o ∈ done, o ∈ f.body) (hop : op ∈ f.body)
    (h : visitOp uo cur op = some cur') : LoopInv f (done ++ [op]) cur' := by
  rcases visitOp_cases h with ⟨rfl, hn⟩ | ⟨o, hk, ho, hr⟩
  · refine ⟨hi.kept, hi.writes, fun o' ho' hk' => ?_⟩
    rcases List.mem_append.1 ho' with ho' | ho'
    · exact hi.unused o' ho' hk'
    · obtain rfl := List.mem_singleton.1 ho'
      obtain ⟨x, hx, hid, -⟩ := hi.kept o' hop
      obtain ⟨y, hy⟩ := opById_isSome ⟨x, hx, hid⟩
      simp [hy, hk'] at hn
  · have hob := opById_mem ho
    refine ⟨fun x hx => ?_, fun x hx hxk => ?_, fun x hx hxk y hy hyx => ?_⟩
    · obtain ⟨x', hx', hid, hkd⟩ := hi.kept x hx
      obtain ⟨x'', hx'', hid', hkd'⟩ := replaceWithWriteInPlace_keeps hr hx'
      exact ⟨x'', hx'', hid'.trans hid, hkd'.trans hkd⟩
    · rcases replaceWithWriteInPlace_new hr hx with h' | ⟨x', hx', hid, hkd⟩
      · simp [hxk] at h'
      · obtain ⟨x'', hx'', hid', hkd'⟩ := hi.writes x' hx' (hkd.trans hxk)
        exact ⟨x'', hx'', hid'.trans hid, hkd'⟩
    · obtain ⟨hne, hnew | ⟨z, hz, hzx⟩⟩ := replaceWithWriteInPlace_uses hr hob hy hyx
      · obtain ⟨z, hz, hid, -⟩ := hi.kept x (List.mem_append.1 hx |>.elim (hd x) fun h' =>
          List.mem_singleton.1 h' ▸ hop)
        exact hnew z (List.mem_append_right _ hz) hid
      · rcases List.mem_append.1 hx with hx | hx
        · exact hi.unused x hx hxk z hz hzx
        · rw [List.mem_singleton.1 hx, ← opById_id ho] at hne
          exact hne rfl

/-- The loop keeps the invariant over any part of `f`'s body. -/
theorem LoopInv.fold {l done : List BOp} {cur cur' : Func} (hi : LoopInv f done cur)
    (hd : ∀ o ∈ done ++ l, o ∈ f.body) (h : l.foldlM (visitOp uo) cur = some cur') :
    LoopInv f (done ++ l) cur' := by
  induction l generalizing done cur with
  | nil => cases h; simpa using hi
  | cons op l ih =>
    simp only [List.foldlM_cons, bind, Option.bind_eq_some] at h
    obtain ⟨c, hc, h⟩ := h
    have hi' := hi.visit (fun o ho => hd o (by simp [ho])) (hd op (by simp)) hc
    simpa using ih hi' (by simpa using hd) h

/-- **A write the loop reaches decides.** The pass aborts when
`resultIsLiveAfter` does not accept a write of the body, as the function is
when the loop reaches it. -/
theorem btorLivenessPass_of_write {pre post : List BOp} {cur : Func}
    (hb : f.body = pre ++ w :: post) (hcur : pre.foldlM (visitOp uo) f = some cur)
    (hw : w.kind = .write) (hd : ∀ g, resultIsLiveAfter uo cur w ≠ some (.success, g)) :
    btorLivenessPass uo f = none := by
  have hi := LoopInv.init.fold (fun o ho => by rw [List.nil_append] at ho; simp [hb, ho]) hcur
  have hv : visitOp uo cur w = none := by
    rw [Option.eq_none_iff_forall_not_mem]
    intro c hc
    rcases visitOp_cases hc with ⟨-, hk | hn⟩ | ⟨o, -, ho, hr⟩
    · exact hk hw
    · obtain ⟨o', ho', hid, -⟩ := hi.kept w (by simp [hb])
      obtain ⟨o, ho⟩ := opById_isSome ⟨o', ho', hid⟩
      simp [hn] at ho
    · obtain ⟨f', hl, -⟩ := replaceWithWriteInPlace_success hr
      exact hd f' (resultIsLiveAfter_congr (opById_id ho) ▸ hl)
  simp [btorLivenessPass, hb, List.foldlM_append, hcur, hv]

/-- **Converted writes are left with no use.** Every write of the pass's
output is one of the input's, and no operation uses it. -/
theorem btorLivenessPass_writes_unused {f' : Func} (h : btorLivenessPass uo f = some f') :
    ∀ o ∈ f'.body, o.kind = .write → f'.numUses (.res o.id) = 0 := by
  have hi := LoopInv.init.fold (l := f.body) (fun o ho => by simpa using ho) h
  intro o ho hk
  obtain ⟨o', ho', hid, hk'⟩ := hi.writes o ho hk
  have hu := hi.unused o' (by simpa using ho') hk'
  rw [hid] at hu
  simpa [Func.numUses] using (usesIn_eq_nil _ _).2 hu

/-- **The pass rejects its own output** when it holds a write: the first one
has no use, so `resultIsLiveAfter` declines it. -/
theorem btorLivenessPass_output_aborts {f' : Func} (h : btorLivenessPass uo f = some f')
    (hw : ∃ o ∈ f.body, o.kind = .write) (uo' : UseOrder OpKind) : btorLivenessPass uo' f' = none := by
  have hi := LoopInv.init.fold (l := f.body) (fun o ho => by simpa using ho) h
  obtain ⟨o, ho, hk⟩ := hw
  obtain ⟨o', ho', -, hk'⟩ := hi.kept o ho
  obtain ⟨w₁, hw₁⟩ : ∃ w₁, f'.body.find? (·.kind = .write) = some w₁ :=
    Option.isSome_iff_exists.1 (List.find?_isSome.2 ⟨o', ho', by simpa [hk'] using hk⟩)
  obtain ⟨hk₁, pre, post, hb, hpre⟩ := List.find?_eq_some.1 hw₁
  have hk₁ : w₁.kind = .write := by simpa using hk₁
  have hz : usesIn f'.ops (.res w₁.id) = [] := by
    simpa [Func.numUses] using btorLivenessPass_writes_unused h w₁ (by simp [hb]) hk₁
  have he : usesIn f'.entry (.res w₁.id) = [] := by
    simp only [Func.ops, usesIn_append, List.append_eq_nil] at hz
    exact hz.1
  refine btorLivenessPass_of_write hb (foldlM_visitOp_of_no_write fun x hx => by simpa using hpre x hx) hk₁
    fun g hg => ?_
  rw [resultIsLiveAfter_of_numUses he (by simp [Func.numUses, hz])] at hg
  cases hg
/-! ### A write the pass does not convert -/

/-- **`BtorLivenessPass` aborts where it could decline.** Take any write `w`
of the body, and the function `cur` as the loop reaches it, where `w`'s
result is still a write's and has no use in the entry block.
`resultIsLiveAfter` declines it, leaving the function as it was, when its
result has not exactly one use, or when the one use is neither a branch nor a
select. It fails an assertion when the use is a select whose result is not
used once by a branch, or whose other value is not `w`'s base. Unless it
accepts `w`, the pass aborts; and when the pass succeeds, every write of its
output has no use, so the pass aborts on that output. -/
theorem btorLivenessPass_aborts_on_decline {uo : UseOrder OpKind} {f cur : Func}
    {pre post : List BOp} {w : BOp} (hb : f.body = pre ++ w :: post) (hw : w.kind = .write)
    (hcur : pre.foldlM (visitOp uo) f = some cur) (hdef : opsMatch cur (.res w.id) .write = true)
    (he : usesIn cur.entry (.res w.id) = []) :
    (cur.numUses (.res w.id) ≠ 1 → resultIsLiveAfter uo cur w = some (.failure, cur)) ∧
    (∀ k u, usesIn cur.ops (.res w.id) = [k] → opById cur.ops k = some u →
      u.kind ≠ .branch → u.kind ≠ .ite → resultIsLiveAfter uo cur w = some (.failure, cur)) ∧
    (∀ k s, usesIn cur.ops (.res w.id) = [k] → opById cur.ops k = some s → s.kind = .ite →
      (¬ ∃ k' u, usesIn cur.ops (.res s.id) = [k'] ∧ opById cur.ops k' = some u ∧ u.kind = .branch) ∨
        (s.operands[1]? = some (.res w.id) ∧ s.operands[2]? ≠ writeBase cur (.res w.id)) ∨
        (s.operands[2]? = some (.res w.id) ∧ s.operands[1]? ≠ writeBase cur (.res w.id)) →
      resultIsLiveAfter uo cur w = none) ∧
    ((∀ g, resultIsLiveAfter uo cur w ≠ some (.success, g)) → btorLivenessPass uo f = none) ∧
    (∀ f', btorLivenessPass uo f = some f' →
      (∀ o ∈ f'.body, o.kind = .write → f'.numUses (.res o.id) = 0) ∧
        ∀ uo', btorLivenessPass uo' f' = none) := by
  obtain ⟨d, hdw, hd, hdk⟩ := exists_of_opsMatch hdef
  have hid : w.id = d.id := Val.res.inj hdw
  rw [hid, writeBase_res hd, ← hid]
  refine ⟨resultIsLiveAfter_of_numUses he, fun k u hu hk hbr hite => ?_,
    fun k s hu hk hs hc => ?_, btorLivenessPass_of_write hb hcur hw,
    fun f' h => ⟨btorLivenessPass_writes_unused h,
      btorLivenessPass_output_aborts h ⟨w, by simp [hb], hw⟩⟩⟩
  · rw [resultIsLiveAfter_of_use he hu hk]
    unfold switchOnUser
    split <;> simp_all
  · rw [resultIsLiveAfter_of_use he hu hk, switchOnUser, hs]
    obtain rfl := opById_id hk
    rw [hid] at hu hc
    rcases hc with hc | ⟨ht, hne⟩ | ⟨hf, hne⟩
    · exact usedInITEPattern_of_not_branch hc
    · exact usedInITEPattern_of_true_ne_base hd hdk ht hne
    · exact usedInITEPattern_of_false_ne_base hd hu hk hs hf hne

/-- `w0 = write v, A[i]; w1 = write u, A[i]; r = read w1[i]; br w0, w1, r`:
the loop converts `w0` and reaches `w1`, whose result has two uses, so
`resultIsLiveAfter` declines it and the pass aborts. -/
theorem aborts_on_decline_two_uses :
    (⟨[], [⟨0, .write, [.arg 1 0, .arg 1 1, .arg 1 2]⟩, ⟨4, .writeInPlace, [.arg 1 0, .arg 1 1, .arg 1 2]⟩,
        ⟨1, .write, [.arg 1 3, .arg 1 1, .arg 1 2]⟩, ⟨2, .read, [.res 1, .arg 1 1]⟩,
        ⟨3, .branch, [.res 4, .res 1, .res 2]⟩]⟩ : Func).numUses (.res 1) = 2 ∧
      resultIsLiveAfter .textual ⟨[], [⟨0, .write, [.arg 1 0, .arg 1 1, .arg 1 2]⟩,
        ⟨4, .writeInPlace, [.arg 1 0, .arg 1 1, .arg 1 2]⟩, ⟨1, .write, [.arg 1 3, .arg 1 1, .arg 1 2]⟩,
        ⟨2, .read, [.res 1, .arg 1 1]⟩, ⟨3, .branch, [.res 4, .res 1, .res 2]⟩]⟩
        ⟨1, .write, [.arg 1 3, .arg 1 1, .arg 1 2]⟩ =
        some (.failure, ⟨[], [⟨0, .write, [.arg 1 0, .arg 1 1, .arg 1 2]⟩,
          ⟨4, .writeInPlace, [.arg 1 0, .arg 1 1, .arg 1 2]⟩, ⟨1, .write, [.arg 1 3, .arg 1 1, .arg 1 2]⟩,
          ⟨2, .read, [.res 1, .arg 1 1]⟩, ⟨3, .branch, [.res 4, .res 1, .res 2]⟩]⟩) ∧
      btorLivenessPass .textual ⟨[], [⟨0, .write, [.arg 1 0, .arg 1 1, .arg 1 2]⟩,
        ⟨1, .write, [.arg 1 3, .arg 1 1, .arg 1 2]⟩, ⟨2, .read, [.res 1, .arg 1 1]⟩,
        ⟨3, .branch, [.res 0, .res 1, .res 2]⟩]⟩ = none :=
  have h := @btorLivenessPass_aborts_on_decline .textual
    ⟨[], [⟨0, .write, [.arg 1 0, .arg 1 1, .arg 1 2]⟩, ⟨1, .write, [.arg 1 3, .arg 1 1, .arg 1 2]⟩,
      ⟨2, .read, [.res 1, .arg 1 1]⟩, ⟨3, .branch, [.res 0, .res 1, .res 2]⟩]⟩
    ⟨[], [⟨0, .write, [.arg 1 0, .arg 1 1, .arg 1 2]⟩, ⟨4, .writeInPlace, [.arg 1 0, .arg 1 1, .arg 1 2]⟩,
      ⟨1, .write, [.arg 1 3, .arg 1 1, .arg 1 2]⟩, ⟨2, .read, [.res 1, .arg 1 1]⟩,
      ⟨3, .branch, [.res 4, .res 1, .res 2]⟩]⟩
    [⟨0, .write, [.arg 1 0, .arg 1 1, .arg 1 2]⟩]
    [⟨2, .read, [.res 1, .arg 1 1]⟩, ⟨3, .branch, [.res 0, .res 1, .res 2]⟩]
    ⟨1, .write, [.arg 1 3, .arg 1 1, .arg 1 2]⟩ rfl rfl (by decide) (by decide) rfl
  ⟨by decide, h.1 (by decide), h.2.2.2.1 fun g hg => by rw [h.1 (by decide)] at hg; cases hg⟩

/-- `w = write v, A[i]; br w`: the pass converts the write, and then aborts on
its own output, where the write has no use. -/
theorem btorLivenessPass_twice_write_branch :
    btorLivenessPass .textual ⟨[], [⟨0, .write, [.arg 1 0, .arg 1 1, .arg 1 2]⟩,
        ⟨1, .branch, [.res 0]⟩]⟩ =
      some ⟨[], [⟨0, .write, [.arg 1 0, .arg 1 1, .arg 1 2]⟩,
        ⟨2, .writeInPlace, [.arg 1 0, .arg 1 1, .arg 1 2]⟩, ⟨1, .branch, [.res 2]⟩]⟩ ∧
    btorLivenessPass .textual ⟨[], [⟨0, .write, [.arg 1 0, .arg 1 1, .arg 1 2]⟩,
        ⟨2, .writeInPlace, [.arg 1 0, .arg 1 1, .arg 1 2]⟩, ⟨1, .branch, [.res 2]⟩]⟩ = none := by
  decide

end Btor
end Btor2Mlir
