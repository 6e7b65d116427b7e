import Btor2Mlir.Dataflow
import Btor2Mlir.Btor.Reorder

/-!
# When the pass keeps SSA order

The pass reorders the body in two ways. Converting a write is a `substitute`,
which keeps every use after its definition (`Ordered.substitute`). Lifting a
read above a select in `moveReadOpsBefore` keeps it only when the read uses
nothing defined at or after the select: a read of the select's operand whose
index is computed after the select ends up above its index. `ReadsEarly` asks
this of every read that shares an operand with a select, which covers every
read the walk may lift. The pass keeps it along with the order, so on a body
that has it the output is SSA-ordered (`btorLivenessPass_keeps_ssa`), the
hypothesis the theorems on the output's runs take.
-/

namespace Btor2Mlir
namespace Btor

/-- `r` is a read that shares an operand with the select `t`, so the walk of
`moveReadOpsBefore` may lift it above `t`, and it uses the result of `d`. -/
def LiftedUse (t r d : BOp) : Prop :=
  t.kind = .ite ∧ r.kind = .read ∧ (∃ x ∈ t.operands, x ∈ r.operands) ∧ Val.res d.id ∈ r.operands

instance (t r d : BOp) : Decidable (LiftedUse t r d) :=
  inferInstanceAs (Decidable (t.kind = .ite ∧ r.kind = .read ∧ (∃ x ∈ t.operands, x ∈ r.operands) ∧
    Val.res d.id ∈ r.operands))

/-- No read of `blk` that shares an operand with a select uses the select's
result or that of an operation after it. -/
def ReadsEarly (blk : List BOp) : Prop :=
  blk.Pairwise (fun t d => ∀ r ∈ blk, ¬ LiftedUse t r d) ∧ ∀ t ∈ blk, ∀ r ∈ blk, ¬ LiftedUse t r t

instance (blk : List BOp) : Decidable (ReadsEarly blk) :=
  inferInstanceAs (Decidable (blk.Pairwise (fun t d => ∀ r ∈ blk, ¬ LiftedUse t r d) ∧
    ∀ t ∈ blk, ∀ r ∈ blk, ¬ LiftedUse t r t))

/-! ### SSA order as a relation between positions -/

section Ordered

variable {blk : List BOp}

/-- With distinct ids, `SSAOrdered` says that no operation uses itself or a
later one. -/
theorem SSAOrdered.ordered (hn : (blk.map (·.id)).Nodup) (h : SSAOrdered blk) : Ordered blk := by
  have key : ∀ i j (hi : i < blk.length) (hj : j < blk.length), i ≤ j → blk[i].NoUse blk[j] := by
    intro i j hi hj hij hu
    obtain ⟨j', hj', he⟩ := List.mem_take_iff_getElem.1 (h ⟨i, hi⟩ blk[j] (List.getElem_mem _) hu)
    have hlt : j' < j := Nat.lt_of_lt_of_le (Nat.lt_min.1 hj').1 hij
    exact List.pairwise_iff_getElem.1 hn j' j (by simpa using (Nat.lt_min.1 hj').2)
      (by simpa using hj) hlt (by simp [he])
  refine ⟨List.pairwise_iff_getElem.2 fun i j hi hj hij => key i j hi hj hij.le, fun o ho => ?_⟩
  obtain ⟨i, hi, rfl⟩ := List.mem_iff_getElem.1 ho
  exact key i i hi hi le_rfl

theorem ssaOrdered_of_ordered (h : Ordered blk) : SSAOrdered blk := by
  rintro ⟨i, hi⟩ o ho hu
  obtain ⟨j, hj, rfl⟩ := List.mem_iff_getElem.1 ho
  rcases lt_trichotomy j i with hji | rfl | hij
  · exact List.mem_take_iff_getElem.2 ⟨j, lt_min hji hj, rfl⟩
  · exact absurd hu (h.2 _ ho)
  · exact absurd hu (List.pairwise_iff_getElem.1 h.1 i j hi hj hij)

end Ordered

/-! ### What each change keeps -/

/-- What every turn of the pass keeps: distinct ids, the body in order, and
`ReadsEarly`. -/
structure OrderInv (f : Func) : Prop where
  nodup : (f.ops.map (·.id)).Nodup
  ordered : Ordered f.body
  early : ReadsEarly f.body

variable {uo : UseOrder OpKind} {f g : Func} {T o w x : BOp} {A : Val} {P Q Q' blk : List BOp}

/-- A read that shares an operand with the select `T` uses nothing from `T` on. -/
theorem ReadsEarly.noUse (h : ReadsEarly (P ++ T :: Q)) (hT : T.kind = .ite)
    (ho : o ∈ P ++ T :: Q) (hok : o.kind = .read) (hA : ∃ x ∈ T.operands, x ∈ o.operands) :
    ∀ d ∈ T :: Q, o.NoUse d := by
  intro d hd hu
  rcases List.mem_cons.1 hd with rfl | hd
  · exact h.2 d (by simp) o ho ⟨hT, hok, hA, hu⟩
  · exact (List.pairwise_cons.1 (List.pairwise_append.1 h.1).2.1).1 d hd o ho ⟨hT, hok, hA, hu⟩

/-- **Lifting a read right above the select keeps the invariant**, when the
read shares an operand with the select. -/
theorem OrderInv.lift (hi : OrderInv f) (hb : f.body = P ++ T :: Q) (hT : T.kind = .ite)
    (ho : o ∈ Q) (hok : o.kind = .read) (hA : ∃ x ∈ T.operands, x ∈ o.operands)
    (hsub : Q'.Sublist Q) (hperm : (P ++ o :: T :: Q').Perm f.body) :
    OrderInv { f with body := P ++ o :: T :: Q' } := by
  have hmem : ∀ y ∈ P ++ o :: T :: Q', y ∈ P ++ T :: Q := fun y hy => hb ▸ hperm.subset hy
  have hord : Ordered (P ++ T :: Q) := hb ▸ hi.ordered
  have hearly : ReadsEarly (P ++ T :: Q) := hb ▸ hi.early
  have hnou := hearly.noUse hT (by simp [ho]) hok hA
  refine ⟨((hperm.append_left f.entry).map _).nodup_iff.2 hi.nodup,
    ⟨pairwise_lift hord.1 ho hsub fun d hd => hnou d ((hsub.cons_cons T).subset hd),
      fun y hy => hord.2 y (hmem y hy)⟩,
    pairwise_lift (hearly.1.imp fun h r hr => h r (hmem r hr)) ho hsub fun _ _ _ _ hl => ?_,
    fun t ht r hr => hearly.2 t (hmem t ht) r (hmem r hr)⟩
  cases hok.symm.trans hl.1

/-- The walk of `moveReadOpsBefore` over users of an operand `A` of the select
`T` keeps the invariant. -/
theorem OrderInv.moveReadOps {us : List Nat} {r : LogicalResult} (hi : OrderInv f)
    (hT : T ∈ f.body) (hTk : T.kind = .ite) (hA : A ∈ T.operands)
    (hus : ∀ u ∈ us, ∀ o ∈ f.body, o.id = u → A ∈ o.operands)
    (h : moveReadOps T.id us f = some (r, g)) : OrderInv g := by
  induction us generalizing f with
  | nil => cases h; exact hi
  | cons u us ih =>
    have hus' := fun u hu => hus u (List.mem_cons_of_mem _ hu)
    simp only [moveReadOps] at h
    by_cases hut : u = T.id
    · rw [if_pos hut] at h
      exact ih hi hT hus' h
    rw [if_neg hut, isBefore] at h
    by_cases hany : f.body.any (·.id == u)
    swap
    · simp [hany] at h
    rw [if_pos hany] at h
    cases hbef : isBeforeInBlock f.body u T.id
    · by_cases hread : opsMatch f (.res u) .read
      swap
      · simp only [hbef, hread] at h
        cases h
        exact hi
      simp only [hbef, if_pos hread] at h
      obtain ⟨P, Q, hb⟩ := List.append_of_mem hT
      have hPt := (ids_ne_of_nodup (hb ▸ Func.nodup_body hi.nodup)).1
      obtain ⟨O, hO, hmove⟩ := moveBefore_of_not_isBeforeInBlock hPt rfl hut
        (hb ▸ by simpa using hany) (hb ▸ hbef)
      have hOQ := opById_mem hO
      have hOf : O ∈ f.body := by rw [hb]; simp [hOQ]
      have hOk : O.kind = .read := by
        have hOf' : opById f.ops u = some O :=
          opById_id hO ▸ opById_of_nodup hi.nodup (List.mem_append_right _ hOf)
        simpa [opsMatch_res hOf'] using hread
      have hbody : moveBefore f.body u T.id = P ++ O :: T :: Q.eraseP (·.id = u) := by
        rw [hb, hmove]
        simp
      have hperm := moveBefore_perm ⟨T, hT, rfl⟩ hut
      rw [hbody] at hperm h
      exact ih (hi.lift hb hTk hOQ hOk ⟨A, hA, hus u (List.mem_cons_self _ _) O hOf (opById_id hO)⟩
        (List.eraseP_sublist _) hperm) (by simp) (fun u hu o ho => hus' u hu o (hperm.subset ho)) h
    · simp only [hbef] at h
      exact ih hi hT hus' h

/-- The walk of `usedInITEPattern` is over the users of an operand of the select. -/
theorem usedInITEPattern_walk {s : BOp} {r : LogicalResult}
    (h : usedInITEPattern uo f s = some (r, g)) :
    ∃ A ∈ s.operands, moveReadOps s.id (uo.order f.ops A) f = some (r, g) := by
  simp only [usedInITEPattern, moveReadOpsBefore, bind, Option.bind_eq_some] at h
  obtain ⟨_, _, _, _, _, _, tv, htv, fv, hfv, h⟩ := h
  split at h <;> simp only [Option.bind_eq_some] at h
  · obtain ⟨-, -, -, -, h⟩ := h
    exact ⟨fv, List.getElem?_mem hfv, h⟩
  · obtain ⟨-, -, -, -, -, -, h⟩ := h
    exact ⟨tv, List.getElem?_mem htv, h⟩

/-- A write `resultIsLiveAfter` accepts has one use, by an operation of the
body that is no read; the body changes only when that operation is a select,
by the walk over the users of one of its operands. -/
theorem resultIsLiveAfter_success (hn : (f.ops.map (·.id)).Nodup)
    (h : resultIsLiveAfter uo f w = some (.success, g)) :
    ∃ u ∈ f.body, u.kind ≠ .read ∧ usesIn f.ops (.res w.id) = [u.id] ∧
      (g = f ∨ u.kind = .ite ∧ ∃ A ∈ u.operands,
        moveReadOps u.id (uo.order f.ops A) f = some (.success, g)) := by
  have he : usesIn f.entry (.res w.id) = [] := by
    simp only [resultIsLiveAfter, bind, Option.bind_eq_some, Option.guard_eq_some'] at h
    obtain ⟨_, he, _⟩ := h
    exact he
  by_cases hn1 : f.numUses (.res w.id) = 1
  swap
  · rw [resultIsLiveAfter_of_numUses he hn1] at h
    cases h
  obtain ⟨k, hk⟩ := List.length_eq_one.1 hn1
  obtain ⟨u, hu⟩ := exists_user hk
  have hb : usesIn f.body (.res w.id) = [k] := by simpa [Func.ops, he] using hk
  obtain ⟨o, ho, hid, -⟩ := (mem_usesIn _ _ _).1 (hb ▸ List.mem_singleton_self k)
  obtain rfl : o = u :=
    eq_of_id_eq hn (List.mem_append_right _ ho) (opById_mem hu) (hid.trans (opById_id hu).symm)
  rw [resultIsLiveAfter_of_use he hk hu] at h
  rw [← hid] at hk
  unfold switchOnUser at h
  split at h
  · cases h
    exact ⟨o, ho, by simp [‹o.kind = .branch›], hk, .inl rfl⟩
  · obtain ⟨A, hA, hm⟩ := usedInITEPattern_walk h
    exact ⟨o, ho, by simp [‹o.kind = .ite›], hk, .inr ⟨‹_›, A, hA, hm⟩⟩
  · cases h

/-- A substitution for a write that no read uses keeps `ReadsEarly`, when the
new operation is neither a select nor a read and its id is fresh. -/
theorem ReadsEarly.substitute (h : ReadsEarly blk) (hn : (blk.map (·.id)).Nodup) (hw : w ∈ blk)
    (hx : ∀ o ∈ blk, o.id ≠ x.id ∧ Val.res x.id ∉ o.operands) (hxt : x.kind ≠ .ite)
    (hxr : x.kind ≠ .read) (hr : ∀ r ∈ blk, r.kind = .read → Val.res w.id ∉ r.operands) :
    ReadsEarly (substitute blk w x) := by
  obtain ⟨P, Q, rfl⟩ := List.append_of_mem hw
  set g : BOp → BOp := fun o => o.replaceUses (.res w.id) (.res x.id)
  have hsub : substitute (P ++ w :: Q) w x = (P ++ w :: x :: Q).map g := by
    rw [Btor2Mlir.substitute, insertAfter_split (ids_ne_of_nodup hn).1 rfl, replaceAllUsesWith]
  -- a use the output lifts is one the input lifts
  have hback : ∀ t d r, r ∈ (P ++ w :: x :: Q).map g → LiftedUse (g t) r (g d) →
      ∃ r₀ ∈ P ++ w :: Q, LiftedUse t r₀ d := by
    rintro t d r hrm ⟨ht, hrk, ⟨y, hy, hyr⟩, hd⟩
    obtain ⟨r₀, hr₀, rfl⟩ := List.mem_map.1 hrm
    have hr₀k : r₀.kind = .read := hrk
    have hr₀' : r₀ ∈ P ++ w :: Q := (mem_of_mem_insert hr₀).resolve_left fun e => hxr (e ▸ hr₀k)
    have hgr : g r₀ = r₀ := Op.replaceUses_of_not_mem (hr r₀ hr₀' hr₀k)
    rw [hgr] at hyr hd
    refine ⟨r₀, hr₀', ht, hr₀k, ⟨y, ?_, hyr⟩, hd⟩
    rcases mem_replaceUses_operands.1 hy with ⟨hy, -⟩ | ⟨rfl, -⟩
    · exact hy
    · exact absurd hyr (hx r₀ hr₀').2
  rw [hsub]
  refine ⟨List.pairwise_map.2 (pairwise_insert (h.1.imp_of_mem fun _ _ htd r hr hl => ?_)
    (fun a _ r hr hl => ?_) (fun b _ r hr hl => ?_)), fun t ht r hr hl => ?_⟩
  · obtain ⟨r₀, hr₀, hl₀⟩ := hback _ _ r hr hl
    exact htd r₀ hr₀ hl₀
  · obtain ⟨r₀, hr₀, hl₀⟩ := hback _ _ r hr hl
    exact (hx r₀ hr₀).2 hl₀.2.2.2
  · obtain ⟨r₀, -, hl₀⟩ := hback _ _ r hr hl
    exact hxt hl₀.1
  · obtain ⟨t₀, ht₀, rfl⟩ := List.mem_map.1 ht
    obtain ⟨r₀, hr₀, hl₀⟩ := hback _ _ r hr hl
    rcases mem_of_mem_insert ht₀ with rfl | ht₀
    · exact hxt hl₀.1
    · exact h.2 t₀ ht₀ r₀ hr₀ hl₀

/-- **Converting a write keeps the invariant**, when no read uses it. -/
theorem OrderInv.convert (hi : OrderInv f) (hw : w ∈ f.body)
    (hr : ∀ r ∈ f.body, r.kind = .read → Val.res w.id ∉ r.operands) :
    OrderInv ⟨replaceAllUsesWith f.entry (.res w.id) (.res (fresh f.ops)),
      substitute f.body w ⟨fresh f.ops, .writeInPlace, w.operands⟩⟩ := by
  have hx : ∀ o ∈ f.body, o.id ≠ fresh f.ops ∧ Val.res (fresh f.ops) ∉ o.operands :=
    fun o ho => fresh_new (List.mem_append_right _ ho)
  refine ⟨?_, hi.ordered.substitute (Func.nodup_body hi.nodup) hw hx rfl,
    hi.early.substitute (Func.nodup_body hi.nodup) hw hx nofun nofun hr⟩
  show ((replaceAllUsesWith f.entry _ _ ++ substitute f.body w _).map (·.id)).Nodup
  rw [List.map_append, ids_replaceAllUsesWith,
    (((ids_substitute hw _).append_left _).nodup_iff), List.perm_middle.nodup_iff, List.nodup_cons,
    ← List.map_append]
  exact ⟨fun hm => by
    obtain ⟨o, ho, he⟩ := List.mem_map.1 hm
    exact (fresh_new ho).1 he, hi.nodup⟩

/-! ### The pass -/

/-- One turn of the loop keeps the invariant. -/
theorem OrderInv.visit {cur cur' : Func} {op : BOp} (hi : OrderInv cur)
    (hv : visitOp uo cur op = some cur') : OrderInv cur' := by
  rcases visitOp_cases hv with ⟨rfl, -⟩ | ⟨w, -, hw, hr⟩
  · exact hi
  obtain ⟨f', hl, rfl⟩ := replaceWithWriteInPlace_success hr
  obtain ⟨u, hu, huk, huses, hf'⟩ := resultIsLiveAfter_success hi.nodup hl
  obtain ⟨he, hb⟩ := resultIsLiveAfter_frame hl
  have hops : f'.ops.Perm cur.ops := by
    simpa only [Func.ops, he] using hb.append_left cur.entry
  have hi' : OrderInv f' := by
    rcases hf' with rfl | ⟨hite, A, hA, hm⟩
    · exact hi
    refine hi.moveReadOps hu hite hA (fun u' hu' o ho hid => ?_) hm
    obtain ⟨o', ho', hid', hA'⟩ := (mem_usesIn _ _ _).1 ((uo.perm _ _).mem_iff.1 hu')
    obtain rfl : o = o' :=
      eq_of_id_eq hi.nodup (List.mem_append_right _ ho) ho' (hid.trans hid'.symm)
    exact hA'
  refine hi'.convert (hb.symm.subset (opById_mem hw)) fun r hr hrk hru => huk ?_
  have hr' : r ∈ cur.ops := hops.subset (List.mem_append_right _ hr)
  have hid : r.id = u.id := List.mem_singleton.1 (huses ▸ (mem_usesIn _ _ _).2 ⟨r, hr', rfl, hru⟩)
  obtain rfl : r = u := eq_of_id_eq hi.nodup hr' (List.mem_append_right _ hu) hid
  exact hrk

/-- The whole loop keeps the invariant. -/
theorem OrderInv.btorLivenessPass {f' : Func} (hi : OrderInv f) (h : btorLivenessPass uo f = some f') :
    OrderInv f' :=
  foldlM_inv OrderInv (fun _ _ _ hi hv => hi.visit hv) hi h

/-- **The pass keeps SSA order.** On a body with distinct ids, SSA-ordered,
where no read that shares an operand with a select uses the select or a
later operation, a successful pass leaves the body SSA-ordered. -/
theorem btorLivenessPass_keeps_ssa {f' : Func} (hids : (f.ops.map (·.id)).Nodup)
    (hssa : SSAOrdered f.body) (hreads : ReadsEarly f.body) (h : btorLivenessPass uo f = some f') :
    SSAOrdered f'.body :=
  ssaOrdered_of_ordered (OrderInv.btorLivenessPass ⟨hids, hssa.ordered (Func.nodup_body hids), hreads⟩ h).ordered

/-- `w = write v, A[i]; s = ite c, w, A; r = read A[i]; br s, r`: the read
lifted above the select uses block arguments only, and the output is
SSA-ordered. -/
theorem btorLivenessPass_keeps_ssa_select :
    btorLivenessPass .textual ⟨[], [⟨0, .write, [.arg 1 0, .arg 1 1, .arg 1 2]⟩,
        ⟨1, .ite, [.arg 1 3, .res 0, .arg 1 1]⟩, ⟨2, .read, [.arg 1 1, .arg 1 2]⟩,
        ⟨3, .branch, [.res 1, .res 2]⟩]⟩ =
      some ⟨[], [⟨0, .write, [.arg 1 0, .arg 1 1, .arg 1 2]⟩,
        ⟨4, .writeInPlace, [.arg 1 0, .arg 1 1, .arg 1 2]⟩, ⟨2, .read, [.arg 1 1, .arg 1 2]⟩,
        ⟨1, .ite, [.arg 1 3, .res 4, .arg 1 1]⟩, ⟨3, .branch, [.res 1, .res 2]⟩]⟩ ∧
    SSAOrdered [⟨0, .write, [.arg 1 0, .arg 1 1, .arg 1 2]⟩,
        ⟨4, .writeInPlace, [.arg 1 0, .arg 1 1, .arg 1 2]⟩, ⟨2, .read, [.arg 1 1, .arg 1 2]⟩,
        ⟨1, .ite, [.arg 1 3, .res 4, .arg 1 1]⟩, ⟨3, .branch, [.res 1, .res 2]⟩] := by
  refine ⟨?h, btorLivenessPass_keeps_ssa (by decide) (by decide) (by decide) ?h⟩
  decide

/- A read of the select's operand whose index is computed after the select
breaks `ReadsEarly`. -/
example : ¬ ReadsEarly [⟨0, .write, [.arg 1 0, .arg 1 1, .arg 1 2]⟩,
    ⟨1, .ite, [.arg 1 3, .res 0, .arg 1 1]⟩, ⟨2, .other "btor.add", [.arg 1 4]⟩,
    ⟨3, .read, [.arg 1 1, .res 2]⟩, ⟨4, .branch, [.res 1, .res 3]⟩] := by
  decide

end Btor
end Btor2Mlir
