import Btor2Mlir.Btor.Outcome

/-!
# Reads moved before the select

In the idiom `s = ite c, write(v, A, i), A` (or its mirror), `usedInITEPattern`
walks the users of `A` with `moveReadOpsBefore`: a user after the select is
moved right before it if it is a read, and the walk fails on any other user.
When the walk succeeds, the body is `P ++ ms ++ s :: Q'`: the operations before
the select stay where they were, the moved operations `ms` are reads and come
right before the select, and the rest `Q'` keeps its order
(`usedInITEPattern_moves_reads`). Every user of `A` but the select then comes
before it, as `isBeforeInBlock` reads it.

An operation is its id, so the theorems take the ids of the function to be
distinct, as the operations of an MLIR function are.
-/

namespace Btor2Mlir
namespace Btor

variable {uo : UseOrder OpKind} {f g : Func} {s w T : BOp} {A : Val} {t : Nat}
  {r : LogicalResult}

theorem Func.nodup_body (hids : (f.ops.map (·.id)).Nodup) : (f.body.map (·.id)).Nodup :=
  hids.sublist ((List.sublist_append_right f.entry f.body).map _)

/-- A value that two operations use has more than one use. -/
theorem Func.numUses_ne_one {v : Val} {o x : BOp} (ho : o ∈ f.ops) (hx : x ∈ f.ops)
    (hne : o.id ≠ x.id) (hvo : v ∈ o.operands) (hvx : v ∈ x.operands) : f.numUses v ≠ 1 := by
  intro h
  obtain ⟨k, hk⟩ := List.length_eq_one.1 h
  have ho' := (mem_usesIn _ _ _).2 ⟨o, ho, rfl, hvo⟩
  have hx' := (mem_usesIn _ _ _).2 ⟨x, hx, rfl, hvx⟩
  rw [hk, List.mem_singleton] at ho' hx'
  exact hne (ho'.trans hx'.symm)

/-- The walk of `moveReadOpsBefore`, with the body split at the select:
operations before it stay, the walk appends the reads it moves to them and
takes them out of the rest, and every user it has walked, but the select, is
then before the select. -/
theorem moveReadOps_success {us : List Nat} {P Q : List BOp} (hb : f.body = P ++ T :: Q)
    (hT : T.id = t) (hids : (f.ops.map (·.id)).Nodup)
    (h : moveReadOps t us f = some (.success, g)) :
    g.entry = f.entry ∧ ∃ ms Q', g.body = P ++ ms ++ T :: Q' ∧ Q'.Sublist Q ∧
      (ms ++ Q').Perm Q ∧ (∀ o ∈ ms, o.kind = .read) ∧
      ∀ u ∈ us, u = t ∨ ∃ x ∈ P ++ ms, x.id = u := by
  induction us generalizing f P Q with
  | nil =>
    cases h
    exact ⟨rfl, [], Q, by simp [hb], .refl _, .refl _, by simp, by simp⟩
  | cons u us ih =>
    have hPt : ∀ x ∈ P, x.id ≠ t := hT ▸ (ids_ne_of_nodup (hb ▸ Func.nodup_body hids)).1
    simp only [moveReadOps] at h
    by_cases hut : u = t
    · rw [if_pos hut] at h
      obtain ⟨he, ms, Q', hg, hsub, hperm, hread, hwalk⟩ := ih hb hids h
      exact ⟨he, ms, Q', hg, hsub, hperm, hread, List.forall_mem_cons.2 ⟨.inl hut, hwalk⟩⟩
    rw [if_neg hut, isBefore] at h
    by_cases hany : f.body.any (·.id == u)
    swap
    · simp [hany] at h
    rw [if_pos hany] at h
    cases hbef : isBeforeInBlock f.body u t
    · -- `u` is after the select: it must be a read, and moves right before it
      by_cases hread : opsMatch f (.res u) .read
      swap
      · simp [hbef, hread] at h
      simp only [hbef, if_pos hread] at h
      obtain ⟨O', hO', hmove⟩ := moveBefore_of_not_isBeforeInBlock hPt hT hut
        (hb ▸ by simpa using hany) (hb ▸ hbef)
      rw [← hb] at hmove
      have hperm' := moveBefore_perm (show ∃ o ∈ f.body, o.id = t from ⟨T, by simp [hb], hT⟩) hut
      have hids' : (({ f with body := moveBefore f.body u t } : Func).ops.map (·.id)).Nodup :=
        ((hperm'.append_left f.entry).map _).nodup_iff.2 hids
      obtain ⟨he, ms, Q', hg, hsub, hperm, hreads, hwalk⟩ := ih hmove hids' h
      have hO'k : O'.kind = .read := by
        have hO'f : opById f.ops u = some O' :=
          opById_id hO' ▸ opById_of_nodup hids (by simp [Func.ops, hb, opById_mem hO'])
        simpa [opsMatch_res hO'f] using hread
      refine ⟨he, O' :: ms, Q', by simp [hg], hsub.trans (List.eraseP_sublist _),
        (hperm.cons O').trans (perm_cons_eraseP hO'), List.forall_mem_cons.2 ⟨hO'k, hreads⟩,
        List.forall_mem_cons.2 ⟨.inr ⟨O', by simp, opById_id hO'⟩, fun v hv => ?_⟩⟩
      simpa using hwalk v hv
    · -- `u` is before the select: it stays
      simp only [hbef] at h
      obtain ⟨he, ms, Q', hg, hsub, hperm, hread, hwalk⟩ := ih hb hids h
      obtain ⟨x, hx, hxu⟩ := (isBeforeInBlock_split hPt hT).1 (hb ▸ hbef)
      exact ⟨he, ms, Q', hg, hsub, hperm, hread,
        List.forall_mem_cons.2 ⟨.inr ⟨x, List.mem_append_left _ hx, hxu⟩, hwalk⟩⟩

/-- In the idiom, in either orientation, `usedInITEPattern` is the walk over
the users of the write's base. In the mirror `ite c, A, w`, `A` cannot itself
be taken for a write: the select and `w` both use it, so it has two uses. -/
theorem usedInITEPattern_idiom (hids : (f.ops.map (·.id)).Nodup) (hs : s ∈ f.ops)
    (hsk : s.kind = .ite) (hw : w ∈ f.ops) (hwk : w.kind = .write) (hA : w.operands[1]? = some A)
    (hidiom : (s.operands[1]? = some (.res w.id) ∧ s.operands[2]? = some A) ∨
      (s.operands[1]? = some A ∧ s.operands[2]? = some (.res w.id)))
    (h : usedInITEPattern uo f s = some (r, g)) :
    moveReadOps s.id (uo.order f.ops A) f = some (r, g) := by
  have hwd := opById_of_nodup hids hw
  simp only [usedInITEPattern, moveReadOpsBefore, bind, Option.bind_eq_some] at h
  obtain ⟨_, _, _, _, _, _, tv, htv, fv, hfv, h⟩ := h
  rcases hidiom with ⟨h1, h2⟩ | ⟨h1, h2⟩
  · obtain rfl : tv = .res w.id := Option.some.inj (htv.symm.trans h1)
    obtain rfl : fv = A := Option.some.inj (hfv.symm.trans h2)
    rw [if_pos (by simp [opsMatch_res hwd, hwk])] at h
    simp only [Option.bind_eq_some] at h
    obtain ⟨-, -, -, -, h⟩ := h
    exact h
  · obtain rfl : tv = A := Option.some.inj (htv.symm.trans h1)
    obtain rfl : fv = .res w.id := Option.some.inj (hfv.symm.trans h2)
    split at h <;> simp only [Option.bind_eq_some, Option.guard_eq_some'] at h
    · obtain ⟨-, hn, -⟩ := h
      have hsw : s.id ≠ w.id := fun he => by
        have : s = w := Option.some.inj ((opById_of_nodup hids hs).symm.trans (he ▸ hwd))
        simp [this, hwk] at hsk
      exact absurd hn (Func.numUses_ne_one hs hw hsw (List.getElem?_mem h1) (List.getElem?_mem hA))
    · obtain ⟨-, -, -, -, -, -, h⟩ := h
      exact h

/-- **Reordering in the select idiom.** Take a select `s` of the body and a
write `w` of its base `A`, in the idiom `ite c, w, A` or its mirror. If
`usedInITEPattern` succeeds, the entry block is unchanged and the body is
`P ++ ms ++ s :: Q'`: the operations before the select stay as they were, the
operations moved, `ms`, are reads, and the others after the select, `Q'`,
keep their order. Every user of `A` other than the select is then before it. -/
theorem usedInITEPattern_moves_reads {P Q : List BOp} (hids : (f.ops.map (·.id)).Nodup)
    (hb : f.body = P ++ s :: Q) (hsk : s.kind = .ite) (hw : w ∈ f.ops) (hwk : w.kind = .write)
    (hA : w.operands[1]? = some A)
    (hidiom : (s.operands[1]? = some (.res w.id) ∧ s.operands[2]? = some A) ∨
      (s.operands[1]? = some A ∧ s.operands[2]? = some (.res w.id)))
    (h : usedInITEPattern uo f s = some (.success, g)) :
    g.entry = f.entry ∧ ∃ ms Q', g.body = P ++ ms ++ s :: Q' ∧ Q'.Sublist Q ∧
      (ms ++ Q').Perm Q ∧ (∀ o ∈ ms, o.kind = .read) ∧
      ∀ o ∈ g.body, A ∈ o.operands → o.id ≠ s.id → isBeforeInBlock g.body o.id s.id := by
  have hs : s ∈ f.ops := by simp [Func.ops, hb]
  have hloop := usedInITEPattern_idiom hids hs hsk hw hwk hA hidiom h
  obtain ⟨he, ms, Q', hg, hsub, hperm, hread, hwalk⟩ := moveReadOps_success hb rfl hids hloop
  refine ⟨he, ms, Q', hg, hsub, hperm, hread, fun o ho hoA hne => ?_⟩
  have hbody := hb ▸ Func.nodup_body hids
  have hpre : ∀ x ∈ P ++ ms, x.id ≠ s.id := by
    intro x hx
    rcases List.mem_append.1 hx with hx | hx
    · exact (ids_ne_of_nodup hbody).1 x hx
    · exact (ids_ne_of_nodup hbody).2 x (hperm.subset (List.mem_append_left _ hx))
  have hof : o ∈ f.ops :=
    List.mem_append_right _ ((moveReadOps_frame ⟨s, by simp [hb], rfl⟩ hloop).2.subset ho)
  rcases hwalk o.id ((uo.perm _ _).mem_iff.2 ((mem_usesIn _ _ _).2 ⟨o, hof, rfl, hoA⟩)) with h | h
  · exact absurd h hne
  · rw [hg]
    exact (isBeforeInBlock_split hpre rfl).2 h

/-- `w = write v, A[i]; s = ite c, w, A; r = read A[j]; br s, r`: the read
after the select is moved before it. -/
theorem moves_reads_write_select_read :
    ([] : List BOp) = [] ∧ ∃ ms Q',
      ([⟨0, .write, [.arg 1 0, .arg 1 1, .arg 1 2]⟩, ⟨2, .read, [.arg 1 1, .arg 1 2]⟩,
        ⟨1, .ite, [.arg 1 3, .res 0, .arg 1 1]⟩, ⟨3, .branch, [.res 1, .res 2]⟩] : List BOp) =
        [⟨0, .write, [.arg 1 0, .arg 1 1, .arg 1 2]⟩] ++ ms ++ ⟨1, .ite, [.arg 1 3, .res 0, .arg 1 1]⟩ :: Q' ∧
      Q'.Sublist [⟨2, .read, [.arg 1 1, .arg 1 2]⟩, ⟨3, .branch, [.res 1, .res 2]⟩] ∧
      (ms ++ Q').Perm [⟨2, .read, [.arg 1 1, .arg 1 2]⟩, ⟨3, .branch, [.res 1, .res 2]⟩] ∧
      (∀ o ∈ ms, o.kind = .read) ∧
      ∀ o ∈ ([⟨0, .write, [.arg 1 0, .arg 1 1, .arg 1 2]⟩, ⟨2, .read, [.arg 1 1, .arg 1 2]⟩,
          ⟨1, .ite, [.arg 1 3, .res 0, .arg 1 1]⟩, ⟨3, .branch, [.res 1, .res 2]⟩] : List BOp), Val.arg 1 1 ∈ o.operands → o.id ≠ 1 →
        isBeforeInBlock ([⟨0, .write, [.arg 1 0, .arg 1 1, .arg 1 2]⟩, ⟨2, .read, [.arg 1 1, .arg 1 2]⟩,
          ⟨1, .ite, [.arg 1 3, .res 0, .arg 1 1]⟩, ⟨3, .branch, [.res 1, .res 2]⟩] : List BOp) o.id 1 :=
  @usedInITEPattern_moves_reads .textual
    ⟨[], [⟨0, .write, [.arg 1 0, .arg 1 1, .arg 1 2]⟩, ⟨1, .ite, [.arg 1 3, .res 0, .arg 1 1]⟩,
      ⟨2, .read, [.arg 1 1, .arg 1 2]⟩, ⟨3, .branch, [.res 1, .res 2]⟩]⟩
    ⟨[], [⟨0, .write, [.arg 1 0, .arg 1 1, .arg 1 2]⟩, ⟨2, .read, [.arg 1 1, .arg 1 2]⟩,
      ⟨1, .ite, [.arg 1 3, .res 0, .arg 1 1]⟩, ⟨3, .branch, [.res 1, .res 2]⟩]⟩
    ⟨1, .ite, [.arg 1 3, .res 0, .arg 1 1]⟩ ⟨0, .write, [.arg 1 0, .arg 1 1, .arg 1 2]⟩ (.arg 1 1)
    [⟨0, .write, [.arg 1 0, .arg 1 1, .arg 1 2]⟩] [⟨2, .read, [.arg 1 1, .arg 1 2]⟩, ⟨3, .branch, [.res 1, .res 2]⟩]
    (by decide) rfl rfl (by decide) rfl rfl (.inl ⟨rfl, rfl⟩) (by decide)

end Btor
end Btor2Mlir
