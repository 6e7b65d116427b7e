import Btor2Mlir.Btor.Refine
import Mathlib.Data.List.Nodup

namespace Btor2Mlir

/-- A block argument. -/
def Val.isArg : Val → Bool
  | .arg _ _ => true
  | .res _ => false

namespace Btor

/-! ### Arrays written once -/

/-- **Arrays written once.** No operation of the body is an in-place write,
and every write `w` has three operands and writes into a block argument `A`
that only `w`, a select of `w`'s result and reads use; a read comes before
`w` unless a select takes `w`'s result. -/
def ArraysLinear (blk : List BOp) : Prop :=
  ∀ w ∈ blk, w.kind ≠ .writeInPlace ∧ (w.kind = .write → w.operands.length = 3 ∧
    ∀ A ∈ w.operands[1]?, A.isArg ∧ ∀ o ∈ blk, A ∈ o.operands → o = w ∨
      (o.kind = .ite ∧ .res w.id ∈ o.operands) ∨
      (o.kind = .read ∧ ([o, w].Sublist blk ∨ ∃ s ∈ blk, s.kind = .ite ∧ .res w.id ∈ s.operands)))

instance (blk : List BOp) : Decidable (ArraysLinear blk) :=
  @List.decidableBAll _ _ (fun _ => @instDecidableAnd _ _ inferInstance
    (@instDecidableForall _ _ inferInstance (@instDecidableAnd _ _ inferInstance
      (@Option.decidableForallMem _ _ (fun _ => @instDecidableAnd _ _ inferInstance
        (@List.decidableBAll _ _
          (fun _ => @instDecidableForall _ _ inferInstance inferInstance) blk))
        _)))) blk

section Linear

variable {blk : List BOp} {c o : BOp} {A : Val} (h : ArraysLinear blk) (hc : c ∈ blk)
include h

theorem ArraysLinear.not_writeInPlace (ho : o ∈ blk) : o.kind ≠ .writeInPlace := (h o ho).1

variable (hck : c.kind = .write)
include hc hck

theorem ArraysLinear.operands_length : c.operands.length = 3 := ((h c hc).2 hck).1

theorem ArraysLinear.exists_base : ∃ A, c.operands[1]? = some A :=
  Option.isSome_iff_exists.1 (by simp [List.getElem?_eq_getElem, h.operands_length hc hck])

variable (hA : A ∈ c.operands[1]?)
include hA

theorem ArraysLinear.base_isArg : A.isArg := (((h c hc).2 hck).2 A hA).1

/-- The users of a write's base: the write, a select that takes the write, or
a read that comes before the write unless a select takes it. -/
theorem ArraysLinear.user (ho : o ∈ blk) (hAo : A ∈ o.operands) : o = c ∨
    (o.kind = .ite ∧ .res c.id ∈ o.operands) ∨
    (o.kind = .read ∧ ([o, c].Sublist blk ∨ ∃ s ∈ blk, s.kind = .ite ∧ .res c.id ∈ s.operands)) :=
  (((h c hc).2 hck).2 A hA).2 o ho hAo

/-- A write is the only write that uses its base. -/
theorem ArraysLinear.write_user (ho : o ∈ blk) (hok : o.kind = .write) (hAo : A ∈ o.operands) :
    o = c := by
  rcases h.user hc hck hA ho hAo with he | ⟨hk, -⟩ | ⟨hk, -⟩
  · exact he
  all_goals rw [hok] at hk; cases hk

/-- A select that uses a write's base also takes the write. -/
theorem ArraysLinear.ite_user (ho : o ∈ blk) (hok : o.kind = .ite) (hAo : A ∈ o.operands) :
    .res c.id ∈ o.operands := by
  rcases h.user hc hck hA ho hAo with rfl | ⟨-, hr⟩ | ⟨hk, -⟩
  · rw [hok] at hck; cases hck
  · exact hr
  · rw [hok] at hk; cases hk

end Linear

/-! ### Renaming converted writes -/

/-- A value with each converted write's result renamed to its in-place
write's: `W` sends the id of a converted write to its in-place write's. -/
def renameBy (W : Nat → Option Nat) : Val → Val
  | .res k => .res ((W k).getD k)
  | v => v

/-- An operation with its operands renamed. -/
def renamed (W : Nat → Option Nat) (o : BOp) : BOp :=
  { o with operands := o.operands.map (renameBy W) }

/-- The block arguments an operation uses. -/
def argOperands (o : BOp) : List Val := o.operands.filter Val.isArg

section Rename

variable {W : Nat → Option Nat} {v A : Val} {x k : Nat}

@[simp] theorem renamed_id (o : BOp) : (renamed W o).id = o.id := rfl

@[simp] theorem renamed_kind (o : BOp) : (renamed W o).kind = o.kind := rfl

@[simp] theorem renamed_operands (o : BOp) : (renamed W o).operands = o.operands.map (renameBy W) :=
  rfl

theorem renameBy_none : renameBy (fun _ => none) = id :=
  funext fun v => by cases v <;> rfl

theorem renameBy_of_isArg (h : A.isArg) : renameBy W A = A := by
  cases A <;> simp_all [renameBy, Val.isArg]

theorem eq_of_renameBy_eq_arg (h : A.isArg) (hv : renameBy W v = A) : v = A := by
  cases v <;> cases A <;> simp_all [renameBy, Val.isArg]

theorem mem_renamed_of_isArg (h : A.isArg) {o : BOp} :
    A ∈ (renamed W o).operands ↔ A ∈ o.operands := by
  simp only [renamed_operands, List.mem_map]
  exact ⟨fun ⟨v, hv, he⟩ => eq_of_renameBy_eq_arg h he ▸ hv, fun hA => ⟨A, hA, renameBy_of_isArg h⟩⟩

/-- A block argument among the operands keeps its place under renaming. -/
theorem getElem?_renamed_of_isArg {o : BOp} {i : Nat} (h : A.isArg) (hA : o.operands[i]? = some A) :
    (renamed W o).operands[i]? = some A := by
  rw [renamed_operands, List.getElem?_map, hA, Option.map_some', renameBy_of_isArg h]

theorem mem_argOperands {o : BOp} : A ∈ argOperands o ↔ A ∈ o.operands ∧ A.isArg := by
  simp [argOperands]

/-- A map that keeps which values are block arguments, and fixes those, keeps
the block arguments of a list. -/
theorem filter_isArg_map {g : Val → Val} (hg : ∀ v, (g v).isArg = v.isArg)
    (hA : ∀ v, v.isArg → g v = v) : ∀ l : List Val, (l.map g).filter Val.isArg = l.filter Val.isArg
  | [] => rfl
  | v :: l => by
    by_cases hv : v.isArg
    · simp [List.filter_cons, hg, hv, hA v hv, filter_isArg_map hg hA l]
    · simp [List.filter_cons, hg, hv, filter_isArg_map hg hA l]

@[simp] theorem argOperands_renamed (o : BOp) : argOperands (renamed W o) = argOperands o :=
  filter_isArg_map (fun v => by cases v <;> rfl) (fun _ h => renameBy_of_isArg h) _

@[simp] theorem argOperands_replaceUses (o : BOp) (i j : Nat) :
    argOperands (o.replaceUses (.res i) (.res j)) = argOperands o :=
  filter_isArg_map (fun v => by by_cases h : v = .res i <;> simp [h, Val.isArg])
    (fun v h => if_neg fun he => by rw [he] at h; cases h) _

theorem mem_renamed_res {o : BOp} {j : Nat} (hW : W j = none) (h : .res j ∈ o.operands) :
    .res j ∈ (renamed W o).operands := by
  simpa [renameBy, hW] using List.mem_map_of_mem (renameBy W) h

/-- The map with one more conversion, `x` to `k`. -/
theorem update_eq_some {j k' : Nat} :
    update W x (some k) j = some k' ↔ j = x ∧ k = k' ∨ j ≠ x ∧ W j = some k' := by
  unfold update
  split_ifs with h <;> simp [h]

/-- One more conversion: `x`'s result renamed to `k`'s. -/
theorem renameBy_update (v : Val) :
    renameBy (update W x (some k)) v = if v = .res x then .res k else renameBy W v := by
  cases v with
  | arg => simp [renameBy]
  | res j => by_cases hj : j = x <;> simp [renameBy, update, hj]

/-- One more conversion renames the uses of `x`'s result in every renamed
operation, when nothing else is renamed to it. -/
theorem renamed_update (hW : W x = none) (hx : ∀ v, renameBy W v = .res x → v = .res x)
    (o : BOp) : (renamed W o).replaceUses (.res x) (.res k) = renamed (update W x (some k)) o := by
  simp only [renamed, Op.replaceUses, List.map_map]
  congr 1
  refine List.map_congr_left fun v _ => ?_
  simp only [Function.comp_apply, renameBy_update]
  by_cases hv : v = .res x
  · subst hv
    simp [renameBy, hW]
  · rw [if_neg hv, if_neg fun h => hv (hx v h)]

/-- A result below `n`, which no conversion renames to, is renamed only from
itself, and is no converted write's. -/
theorem renameBy_eq_res {n j : Nat} (hW : ∀ k k', W k = some k' → n ≤ k') (hj : j < n)
    (h : renameBy W v = .res j) : v = .res j ∧ W j = none := by
  cases v with
  | arg => cases h
  | res i =>
    simp only [renameBy, Val.res.injEq] at h
    cases hi : W i with
    | none => rw [hi, Option.getD_none] at h; subst h; exact ⟨rfl, hi⟩
    | some k' => rw [hi, Option.getD_some] at h; have := hW _ _ hi; omega

/-- The in-place write's result is renamed only from its write's, among the
values below `n`. -/
theorem renameBy_eq_of_some {n k' : Nat}
    (hW : ∀ k k', W k = some k' → n ≤ k' ∧ ∀ k₂, W k₂ = some k' → k₂ = k) (hk : W x = some k')
    (hv : ∀ j, v = .res j → j < n) (h : renameBy W v = .res k') : v = .res x := by
  cases v with
  | arg => cases h
  | res i =>
    simp only [renameBy, Val.res.injEq] at h
    cases hi : W i with
    | none => rw [hi, Option.getD_none] at h; have := hv i rfl; have := (hW _ _ hk).1; omega
    | some k'' => rw [hi, Option.getD_some] at h; subst h; rw [(hW _ _ hk).2 i hi]

end Rename

/-! ### Fresh ids and use lists -/

/-- The fresh id is at most any bound on the ids and on the results the
operands name. -/
theorem fresh_le {ops : List BOp} {n : Nat}
    (h : ∀ o ∈ ops, o.id < n ∧ ∀ k, .res k ∈ o.operands → k < n) : fresh ops ≤ n := by
  induction ops with
  | nil => exact Nat.zero_le _
  | cons o ops ih =>
    obtain ⟨hid, hres⟩ := h o (List.mem_cons_self _ _)
    simp only [fresh]
    refine max_le (max_le hid ?_) (ih fun o' ho' => h o' (List.mem_cons_of_mem _ ho'))
    generalize o.operands = l at hres
    induction l with
    | nil => exact Nat.zero_le _
    | cons v l ihl =>
      rw [List.foldr_cons]
      cases v with
      | arg => exact ihl fun k hk => hres k (List.mem_cons_of_mem _ hk)
      | res k =>
        exact max_le (hres k (List.mem_cons_self _ _))
          (ihl fun k hk => hres k (List.mem_cons_of_mem _ hk))

/-- Renaming `v` to a value no operation holds gives it `v`'s use list. -/
theorem usesIn_replaceAllUsesWith_fresh {ops : List BOp} {v w : Val} (hvw : v ≠ w)
    (hw : ∀ o ∈ ops, w ∉ o.operands) : usesIn (replaceAllUsesWith ops v w) w = usesIn ops v := by
  induction ops with
  | nil => rfl
  | cons o ops ih =>
    simp only [replaceAllUsesWith, List.map_cons, usesIn_cons, Op.replaceUses_id] at ih ⊢
    rw [ih fun o' ho' => hw o' (List.mem_cons_of_mem _ ho')]
    have hwo := hw o (List.mem_cons_self _ _)
    simp only [Op.replaceUses]
    congr 2
    generalize o.operands = l at hwo
    induction l with
    | nil => rfl
    | cons z l ihl =>
      have hz : z ≠ w := fun h => hwo (h ▸ List.mem_cons_self _ _)
      have := ihl fun h => hwo (List.mem_cons_of_mem _ h)
      by_cases hzv : z = v
      · subst hzv; simp [List.count_cons, this, hvw]
      · simp [List.count_cons, this, hzv, hz]

/-! ### Lists kept in order -/

section Lists

variable {α : Type} {R : α → α → Prop}

/-- Moving elements `ms` from after `T` to right before it keeps a pairwise
relation that holds from every element of `ms` to anything. -/
theorem pairwise_moves {P Q Q' ms : List α} {T : α} (h : (P ++ T :: Q).Pairwise R)
    (hsub : Q'.Sublist Q) (hperm : (ms ++ Q').Perm Q) (hms : ∀ x ∈ ms, ∀ y, R x y) :
    (P ++ ms ++ T :: Q').Pairwise R := by
  have hQ : ∀ y ∈ ms, y ∈ Q := fun y hy => hperm.subset (List.mem_append_left _ hy)
  have hsub' := hsub.cons_cons T
  obtain ⟨hP, hTQ, hPTQ⟩ := List.pairwise_append.1 h
  refine List.pairwise_append.2 ⟨List.pairwise_append.2 ⟨hP, List.pairwise_of_forall_mem_list
    fun a ha b _ => hms a ha b, fun a ha b hb => hPTQ a ha b (List.mem_cons_of_mem _ (hQ b hb))⟩,
    hTQ.sublist hsub', fun a ha b hb => ?_⟩
  rcases List.mem_append.1 ha with ha | ha
  · exact hPTQ a ha b (hsub'.subset hb)
  · exact hms a ha b

end Lists

/-- With distinct ids, "nothing after `t` has `S`" in pairwise form. -/
theorem pairwise_not_after {S : BOp → Prop} {P Q : List BOp} {t : BOp}
    (hn : ((P ++ t :: Q).map (·.id)).Nodup) (hQ : ∀ b ∈ Q, ¬ S b) :
    (P ++ t :: Q).Pairwise fun a b => ¬ (a.id = t.id ∧ S b) := by
  obtain ⟨hP, hQ'⟩ := ids_ne_of_nodup hn
  exact List.pairwise_append.2 ⟨List.pairwise_of_forall_mem_list fun a ha _ _ h => hP a ha h.1,
    List.pairwise_cons.2 ⟨fun b hb h => hQ b hb h.2,
      List.pairwise_of_forall_mem_list fun a ha _ _ h => hQ' a ha h.1⟩,
    fun a ha _ _ h => hP a ha h.1⟩

/-- In a list with no repeated element, no pair is out of order. -/
theorem pairwise_not_sublist_swap {α : Type} : ∀ {l : List α}, l.Nodup →
    l.Pairwise fun a b => ¬ [b, a].Sublist l
  | [], _ => .nil
  | x :: l, hn => by
    obtain ⟨hx, hl⟩ := List.nodup_cons.1 hn
    refine List.pairwise_cons.2 ⟨fun b hb hs => ?_, (pairwise_not_sublist_swap hl).imp_of_mem
      fun {a b} _ hb' h hs => h ?_⟩
    · rcases List.sublist_cons_iff.1 hs with hs | ⟨r, hr, hs⟩
      · exact hx (hs.subset (by simp))
      · obtain ⟨rfl, rfl⟩ := List.cons.inj hr
        exact hx hb
    · rcases List.sublist_cons_iff.1 hs with hs | ⟨r, hr, -⟩
      · exact hs
      · obtain ⟨rfl, -⟩ := List.cons.inj hr
        exact absurd hb' hx

/-! ### Buffers a value may name -/

section Shares

variable {blk pre post : List BOp} {o : BOp}

theorem shares_arg {A : Val} (hA : A.isArg) : shares blk A = [A] :=
  sharesAfter_of_ne fun o _ h => by rw [h] at hA; cases hA

/-- What an operation's result may name is settled where it is defined. -/
theorem shares_res (hn : (blk.map (·.id)).Nodup) (hblk : blk = pre ++ o :: post) :
    shares blk (.res o.id) = sharesOf (sharesAfter pre fun v => [v]) o := by
  rw [shares, hblk, sharesAfter_append, sharesAfter, sharesAfter_of_ne, update, if_pos rfl]
  intro o' ho' he
  exact (ids_ne_of_nodup (hblk ▸ hn)).2 o' ho' (Val.res.inj he).symm

/-- Only values of a set `C` may name the buffer `A`, when `C` holds `A` and
the result of every select and in-place write over one of its values. -/
theorem mem_of_mem_shares {C : Val → Prop} {A : Val} (hA : C A)
    (hC : ∀ o ∈ blk, (o.kind = .ite ∨ o.kind = .writeInPlace) → (∃ x ∈ o.operands, C x) →
      C (.res o.id))
    {y : Val} (hy : A ∈ shares blk y) : C y := by
  suffices ∀ l S, (∀ o ∈ l, o ∈ blk) → (∀ v, A ∈ S v → C v) → ∀ v, A ∈ sharesAfter l S v → C v from
    this blk _ (fun _ h => h) (fun v hv => (List.mem_singleton.1 hv : A = v) ▸ hA) y hy
  intro l
  induction l with
  | nil => exact fun S _ hS => hS
  | cons o l ih =>
    intro S hl hS
    have ho := hl o (List.mem_cons_self _ _)
    refine ih _ (fun o' ho' => hl o' (List.mem_cons_of_mem _ ho')) fun v hv => ?_
    rw [update] at hv
    split_ifs at hv with hvo
    · subst hvo
      unfold sharesOf at hv
      split at hv
      · rename_i hk hops
        rcases List.mem_append.1 hv with h | h <;>
          exact hC o ho (.inl hk) ⟨_, by simp [hops], hS _ h⟩
      · rename_i hk hops
        exact hC o ho (.inr hk) ⟨_, by simp [hops], hS _ hv⟩
      · exact List.mem_singleton.1 hv ▸ hA
    · exact hS v hv

/-- `Unobserved`, from its statement by splitting the body. -/
theorem unobserved_of_apart
    (h : ∀ pre o post, blk = pre ++ o :: post → ∀ a ∈ overwrites blk o, ∀ o' ∈ post,
      ∀ y ∈ o'.operands, Ready blk pre y → ∀ b ∈ shares blk a, b ∉ shares blk y) :
    Unobserved blk := by
  intro p q hpq a ha y hy hr b hb
  have hsplit : blk = blk.take p ++ blk[p] :: blk.drop (p + 1) := by
    rw [Fin.getElem_fin, List.getElem_cons_drop, List.take_append_drop]
  refine h _ _ _ hsplit a ha blk[q] (List.mem_drop_iff_getElem.2 ⟨q - (p + 1), by omega, ?_⟩)
    y hy hr b hb
  simp only [Fin.getElem_fin]
  congr 1
  omega

end Shares

/-! ### What must stay in order -/

variable (f : Func)

/-- `o₁` must come before `o₂` in the body, once the writes `W` names are
converted: a converted write before its in-place write; an operation before a
later one of the input that is no read, or before that one's in-place write;
and, in the select idiom of a converted write, every other user of the
write's base before the select. -/
def Must (W : Nat → Option Nat) (o₁ o₂ : BOp) : Prop :=
  (∃ c ∈ f.body, o₁.id = c.id ∧ W c.id = some o₂.id) ∨
  (∃ r ∈ f.body, ∃ c ∈ f.body, [r, c].Sublist f.body ∧ c.kind ≠ .read ∧ o₁.id = r.id ∧
    (o₂.id = c.id ∨ W c.id = some o₂.id)) ∨
  (∃ c ∈ f.body, ∃ s ∈ f.body, W c.id ≠ none ∧ s.kind = .ite ∧
    (s.operands[1]? = some (.res c.id) ∨ s.operands[2]? = some (.res c.id)) ∧
    o₂.id = s.id ∧ o₁.id ≠ s.id ∧ ∃ A ∈ c.operands[1]?, A ∈ argOperands o₁)

/-- What the loop keeps of `f`, the writes `W` names converted and the
operations `rest` still to visit: the entry block and every operation of the
body renamed; every other operation of the body an in-place write over a
converted write's operands, renamed; each converted write's result had one
user, a branch or a select whose result only branches use, and its in-place
write has that user alone; and the body keeps the order `Must` asks. -/
structure SafeInv (rest : List BOp) (W : Nat → Option Nat) (cur : Func) : Prop where
  fixes : ∀ o ∈ rest, W o.id = none
  dom : ∀ k k', W k = some k' → (∃ c ∈ f.body, c.id = k ∧ c.kind = .write) ∧ fresh f.ops ≤ k' ∧
    (∃ o ∈ cur.body, o.id = k') ∧ ∀ k₂, W k₂ = some k' → k₂ = k
  entry : cur.entry = f.entry.map (renamed W)
  kept : ∀ o ∈ f.body, renamed W o ∈ cur.body
  new : ∀ o ∈ cur.body, (∃ c ∈ f.body, o = renamed W c) ∨
    ∃ c ∈ f.body, W c.id = some o.id ∧ o.kind = .writeInPlace ∧ o.operands = (renamed W c).operands
  user : ∀ c ∈ f.body, ∀ k, W c.id = some k → ∃ u ∈ f.body,
    (∀ o ∈ f.ops, .res c.id ∈ o.operands → o = u) ∧ usesIn cur.ops (.res k) = [u.id] ∧
    (u.kind = .branch ∨ u.kind = .ite ∧ ∀ o ∈ f.ops, .res u.id ∈ o.operands → o.kind = .branch)
  order : cur.body.Pairwise fun o₁ o₂ => ¬ Must f W o₂ o₁

variable {f}

theorem SafeInv.init (hids : (f.ops.map (·.id)).Nodup) : SafeInv f f.body (fun _ => none) f := by
  have hr : ∀ o : BOp, renamed (fun _ => none) o = o := fun o => by
    simp [renamed, renameBy_none]
  have hn := Func.nodup_body hids
  refine ⟨fun _ _ => rfl, fun _ _ h => (nomatch h), (List.map_id'' hr _).symm,
    fun o ho => (hr o).symm ▸ ho, fun o ho => .inl ⟨o, ho, (hr o).symm⟩,
    fun _ _ _ h => (nomatch h), ?_⟩
  refine (pairwise_not_sublist_swap (hn.of_map _)).imp_of_mem fun {a b} ha hb hs hm => hs ?_
  rcases hm with ⟨_, _, _, h⟩ | ⟨r, hr', c, hc, hrc, -, hbr, hac | hac⟩ | ⟨_, _, _, _, h, _⟩
  · cases h
  · rwa [eq_of_id_eq hn hb hr' hbr, eq_of_id_eq hn ha hc hac]
  · cases hac
  · exact absurd rfl h

section Must

variable {W : Nat → Option Nat} {a a' b b' : BOp}

/-- `Must` reads only ids and the block arguments the earlier operation uses. -/
theorem must_congr (ha : a'.id = a.id) (haa : argOperands a' = argOperands a) (hb : b'.id = b.id) :
    Must f W a' b' ↔ Must f W a b := by
  simp only [Must, ha, haa, hb]

/-- What converting one more write, with id `x`, to `k` adds to `Must`: the
write, and every operation before it in the input, before `k`; and, in the
write's select idiom, every user of its base before the select. -/
theorem must_update {x k : Nat} (h : Must f (update W x (some k)) a b) :
    Must f W a b ∨
      (b.id = k ∧ ∃ c ∈ f.body, c.id = x ∧
        (a.id = x ∨ ∃ r ∈ f.body, [r, c].Sublist f.body ∧ a.id = r.id)) ∨
      ∃ c ∈ f.body, c.id = x ∧ ∃ s ∈ f.body, s.kind = .ite ∧
        (s.operands[1]? = some (.res x) ∨ s.operands[2]? = some (.res x)) ∧ b.id = s.id ∧
        a.id ≠ s.id ∧ ∃ A ∈ c.operands[1]?, A ∈ argOperands a := by
  rcases h with ⟨c, hc, hac, hW⟩ | ⟨r, hr, c, hc, hrc, hck, har, hb⟩ |
    ⟨c, hc, s, hs, hW, hsk, hpos, hbs, has, hA⟩
  · rcases update_eq_some.1 hW with ⟨hcx, hk⟩ | ⟨-, hW⟩
    · exact .inr (.inl ⟨hk.symm, c, hc, hcx, .inl (hac.trans hcx)⟩)
    · exact .inl (.inl ⟨c, hc, hac, hW⟩)
  · rcases hb with hb | hb
    · exact .inl (.inr (.inl ⟨r, hr, c, hc, hrc, hck, har, .inl hb⟩))
    rcases update_eq_some.1 hb with ⟨hcx, hk⟩ | ⟨-, hb⟩
    · exact .inr (.inl ⟨hk.symm, c, hc, hcx, .inr ⟨r, hr, hrc, har⟩⟩)
    · exact .inl (.inr (.inl ⟨r, hr, c, hc, hrc, hck, har, .inr hb⟩))
  · by_cases hcx : c.id = x
    · subst hcx
      exact .inr (.inr ⟨c, hc, rfl, s, hs, hsk, hpos, hbs, has, hA⟩)
    · simp only [update, hcx, ↓reduceIte] at hW
      exact .inl (.inr (.inr ⟨c, hc, s, hs, hW, hsk, hpos, hbs, has, hA⟩))

end Must

namespace SafeInv

variable {rest : List BOp} {W : Nat → Option Nat} {cur : Func} (hi : SafeInv f rest W cur)
  (hids : (f.ops.map (·.id)).Nodup)
include hi

/-- Conversions go to ids above the input's, one each. -/
theorem target : ∀ k k', W k = some k' → fresh f.ops ≤ k' ∧ ∀ k₂, W k₂ = some k' → k₂ = k :=
  fun k k' h => ⟨(hi.dom k k' h).2.1, (hi.dom k k' h).2.2.2⟩

theorem target_lt {k k' : Nat} (h : W k = some k') : k' < fresh cur.ops := by
  obtain ⟨o, ho, rfl⟩ := (hi.dom k k' h).2.2.1
  exact id_lt_fresh (List.mem_append_right _ ho)

theorem converted {k k' : Nat} (h : W k = some k') : ∃ c ∈ f.body, c.id = k ∧ c.kind = .write :=
  (hi.dom k k' h).1

theorem renamed_mem_ops {o : BOp} (ho : o ∈ f.ops) : renamed W o ∈ cur.ops := by
  rcases List.mem_append.1 ho with ho | ho
  · exact List.mem_append_left _ (hi.entry ▸ List.mem_map_of_mem _ ho)
  · exact List.mem_append_right _ (hi.kept o ho)

/-- The loop's fresh ids are above the input's. -/
theorem fresh_le_ops : fresh f.ops ≤ fresh cur.ops := by
  refine fresh_le fun o ho => ⟨(id_lt_fresh (hi.renamed_mem_ops ho) :), fun j hj => ?_⟩
  cases hW : W j with
  | none =>
    refine res_lt_fresh (hi.renamed_mem_ops ho) ?_
    simpa [renameBy, hW] using List.mem_map_of_mem (renameBy W) hj
  | some j' =>
    obtain ⟨c, hc, rfl, -⟩ := hi.converted hW
    exact (id_lt_fresh (List.mem_append_right _ (hi.kept c hc)) :)

/-- A change of order that keeps the order `Must` asks. -/
theorem perm {g : Func} (he : g.entry = cur.entry) (hb : g.body.Perm cur.body)
    (hord : g.body.Pairwise fun o₁ o₂ => ¬ Must f W o₂ o₁) : SafeInv f rest W g := by
  have hops : g.ops.Perm cur.ops := by simpa only [Func.ops, he] using hb.append_left cur.entry
  refine ⟨hi.fixes, fun k k' h => ?_, he.trans hi.entry, fun o ho => hb.symm.subset (hi.kept o ho),
    fun o ho => hi.new o (hb.subset ho), fun c hc k hk => ?_, hord⟩
  · obtain ⟨h1, h2, ⟨o, ho, hid⟩, h4⟩ := hi.dom k k' h
    exact ⟨h1, h2, ⟨o, hb.symm.subset ho, hid⟩, h4⟩
  · obtain ⟨u, hu, husers, huses, hkind⟩ := hi.user c hc k hk
    exact ⟨u, hu, husers, by simpa [huses] using usesIn_perm hops (.res k), hkind⟩

/-- The operation a conversion goes to is an in-place write. -/
theorem kind_of_target {o : BOp} {k : Nat} (ho : o ∈ cur.body) (h : W k = some o.id) :
    o.kind = .writeInPlace := by
  rcases hi.new o ho with ⟨c, hc, rfl⟩ | ⟨c, -, -, hk, -⟩
  · have : c.id < fresh f.ops := id_lt_fresh (List.mem_append_right f.entry hc)
    have := (hi.target _ _ h).1
    simp only [renamed_id] at *
    omega
  · exact hk

include hids

/-- An operation of the body with the id of one of the input is that one, renamed. -/
theorem eq_renamed {o c : BOp} (ho : o ∈ cur.body) (hc : c ∈ f.body) (hid : o.id = c.id) :
    o = renamed W c := by
  rcases hi.new o ho with ⟨c', hc', rfl⟩ | ⟨c', -, hW, -, -⟩
  · rw [eq_of_id_eq hids (List.mem_append_right _ hc') (List.mem_append_right _ hc) hid]
  · have : c.id < fresh f.ops := id_lt_fresh (List.mem_append_right f.entry hc)
    have := (hi.target _ _ hW).1
    omega

/-- A converted operation is a write. -/
theorem write_of_converted {c : BOp} {k' : Nat} (hc : c ∈ f.body) (h : W c.id = some k') :
    c.kind = .write := by
  obtain ⟨c', hc', hid, hk⟩ := hi.converted h
  rwa [eq_of_id_eq hids (List.mem_append_right _ hc') (List.mem_append_right _ hc) hid] at hk

/-- Only writes are converted. -/
theorem not_converted {c : BOp} (hc : c ∈ f.body) (hk : c.kind ≠ .write) : W c.id = none :=
  Option.eq_none_iff_forall_not_mem.2 fun _ h => hk (hi.write_of_converted hids hc h)

/-- Nothing must come before a read: the walk may lift reads. -/
theorem not_must_read {r y : BOp} (hr : r ∈ cur.body) (hrk : r.kind = .read) : ¬ Must f W y r := by
  rintro (⟨c, -, -, hW⟩ | ⟨_, -, c, hc, -, hck, -, hc' | hW⟩ | ⟨_, -, s, hs, -, hsk, -, hrs, -⟩)
  · rw [hi.kind_of_target hr hW] at hrk; cases hrk
  · rw [hi.eq_renamed hids hr hc hc', renamed_kind] at hrk; exact hck hrk
  · rw [hi.kind_of_target hr hW] at hrk; cases hrk
  · rw [hi.eq_renamed hids hr hs hrs, renamed_kind, hsk] at hrk; cases hrk

omit hids in
/-- A renamed operation names a result of the input only where the input did. -/
theorem mem_res_of_renamed {c : BOp} {j : Nat} (hj : j < fresh f.ops)
    (h : .res j ∈ (renamed W c).operands) : .res j ∈ c.operands := by
  obtain ⟨v, hv, he⟩ := List.mem_map.1 h
  rwa [(renameBy_eq_res (fun k k' h => (hi.target k k' h).1) hj he).1] at hv

omit hids in
/-- A renamed operation names an in-place write's result where the input
named its write's. -/
theorem mem_target_of_renamed {c c₁ : BOp} {k' : Nat} (hW : W c₁.id = some k') (hc : c ∈ f.ops)
    (h : .res k' ∈ (renamed W c).operands) : .res c₁.id ∈ c.operands := by
  obtain ⟨v, hv, he⟩ := List.mem_map.1 h
  rwa [renameBy_eq_of_some hi.target hW (fun j hj => res_lt_fresh hc (hj ▸ hv)) he] at hv

end SafeInv

/-- A turn that changes nothing. -/
theorem SafeInv.tail {op : BOp} {rest : List BOp} {W : Nat → Option Nat} {cur : Func}
    (hi : SafeInv f (op :: rest) W cur) : SafeInv f rest W cur :=
  { hi with fixes := fun o ho => hi.fixes o (List.mem_cons_of_mem _ ho) }

/-! ### What the pass sees of a write -/

section Outcome

variable {uo : UseOrder OpKind} {g : Func} {w s : BOp} {r : LogicalResult}

/-- A write `resultIsLiveAfter` accepts has one use, in the body: by a branch,
and the function is unchanged, or by a select that `usedInITEPattern` accepts. -/
theorem resultIsLiveAfter_user (hn : (f.ops.map (·.id)).Nodup)
    (h : resultIsLiveAfter uo f w = some (.success, g)) :
    ∃ u ∈ f.body, usesIn f.ops (.res w.id) = [u.id] ∧
      (u.kind = .branch ∧ g = f ∨
        u.kind = .ite ∧ usedInITEPattern uo f u = some (.success, g)) := by
  have he : usesIn f.entry (.res w.id) = [] := by
    simp only [resultIsLiveAfter, bind, Option.bind_eq_some, Option.guard_eq_some'] at h
    obtain ⟨_, he, _⟩ := h
    exact he
  by_cases hn1 : f.numUses (.res w.id) = 1
  swap
  · rw [resultIsLiveAfter_of_numUses he hn1] at h
    cases h
  obtain ⟨k, hk⟩ := List.length_eq_one.1 hn1
  obtain ⟨u, hu⟩ := exists_user hk
  have hb : usesIn f.body (.res w.id) = [k] := by simpa [Func.ops, he] using hk
  obtain ⟨o, ho, hid, -⟩ := (mem_usesIn _ _ _).1 (hb ▸ List.mem_singleton_self k)
  obtain rfl : o = u :=
    eq_of_id_eq hn (List.mem_append_right _ ho) (opById_mem hu) (hid.trans (opById_id hu).symm)
  rw [resultIsLiveAfter_of_use he hk hu] at h
  rw [← hid] at hk
  refine ⟨o, ho, hk, ?_⟩
  unfold switchOnUser at h
  split at h
  · cases h
    exact .inl ⟨‹_›, rfl⟩
  · exact .inr ⟨‹_›, h⟩
  · cases h

/-- A select `usedInITEPattern` accepts has one use, by a branch. -/
theorem usedInITEPattern_user (h : usedInITEPattern uo f s = some (r, g)) :
    ∃ b ∈ f.ops, usesIn f.ops (.res s.id) = [b.id] ∧ b.kind = .branch := by
  by_contra hc
  rw [usedInITEPattern_of_not_branch fun ⟨k, u, hk, hu, hb⟩ =>
    hc ⟨u, opById_mem hu, by rw [opById_id hu]; exact hk, hb⟩] at h
  cases h

/-- In a select `usedInITEPattern` accepts that takes a write with one use,
the other operand is the write's base. -/
theorem usedInITEPattern_idiom_of_pos (hn : (f.ops.map (·.id)).Nodup) (hw : w ∈ f.ops)
    (hwk : w.kind = .write) (hs : s ∈ f.ops) (hsk : s.kind = .ite)
    (hu : usesIn f.ops (.res w.id) = [s.id])
    (hpos : s.operands[1]? = some (.res w.id) ∨ s.operands[2]? = some (.res w.id))
    (h : usedInITEPattern uo f s = some (r, g)) {A : Val} (hA : w.operands[1]? = some A) :
    (s.operands[1]? = some (.res w.id) ∧ s.operands[2]? = some A) ∨
      (s.operands[1]? = some A ∧ s.operands[2]? = some (.res w.id)) := by
  rcases hpos with h1 | h2
  · refine .inl ⟨h1, by_contra fun hne => ?_⟩
    rw [usedInITEPattern_of_true_ne_base (opById_of_nodup hn hw) hwk h1 (hA ▸ hne)] at h
    cases h
  · refine .inr ⟨by_contra fun hne => ?_, h2⟩
    rw [usedInITEPattern_of_false_ne_base (opById_of_nodup hn hw) hu (opById_of_nodup hn hs) hsk h2
      (hA ▸ hne)] at h
    cases h

end Outcome

/-! ### One conversion -/

theorem lt_fresh_of_body {o : BOp} (ho : o ∈ f.body) : o.id < fresh f.ops :=
  id_lt_fresh (List.mem_append_right _ ho)

section Convert

variable {rest : List BOp} {W : Nat → Option Nat} {g : Func} {op u : BOp}
  (hids : (f.ops.map (·.id)).Nodup) (hlin : ArraysLinear f.body)
  (hi : SafeInv f (op :: rest) W g) (hnd : (g.ops.map (·.id)).Nodup) (hop : op ∈ f.body)
  (hk : op.kind = .write) (hxx : .res op.id ∉ (renamed W op).operands) (hu : u ∈ g.body)
  (huses : usesIn g.ops (.res op.id) = [u.id])

include hi hop in
/-- Nothing else is renamed to the write's result. -/
theorem SafeInv.rename_op : ∀ v, renameBy W v = .res op.id → v = .res op.id := fun _ h =>
  (renameBy_eq_res (fun k k' h => (hi.target k k' h).1) (lt_fresh_of_body hop) h).1

include hi huses in
/-- Every user of the write is its one user. -/
theorem SafeInv.user_eq {o : BOp} (ho : o ∈ f.ops) (hv : .res op.id ∈ o.operands) : o.id = u.id :=
  List.mem_singleton.1 (huses ▸ (mem_usesIn _ _ _).2 ⟨renamed W o, hi.renamed_mem_ops ho, rfl,
    mem_renamed_res (hi.fixes op (List.mem_cons_self _ _)) hv⟩)

include hids hlin hi hnd hop hk hxx hu huses in
/-- **Converting keeps the order `Must` asks.** The body after the in-place
write is created, before `replaceAllUsesWith`, keeps the order that the
conversion asks. -/
theorem SafeInv.convert_order
    (hN3 : (∃ s ∈ f.body, s.kind = .ite ∧
        (s.operands[1]? = some (.res op.id) ∨ s.operands[2]? = some (.res op.id))) →
      ∃ P Q, g.body = P ++ u :: Q ∧ ∀ o ∈ Q, ∀ A ∈ op.operands[1]?, A ∉ o.operands) :
    (insertAfter op.id ⟨fresh g.ops, .writeInPlace, (renamed W op).operands⟩ g.body).Pairwise
      fun o₁ o₂ => ¬ Must f (update W op.id (some (fresh g.ops))) o₂ o₁ := by
  have hWop : W op.id = none := hi.fixes op (List.mem_cons_self _ _)
  have hx : renamed W op ∈ g.body := hi.kept op hop
  have hbody : (g.body.map (·.id)).Nodup := Func.nodup_body hnd
  have hfk : fresh f.ops ≤ fresh g.ops := hi.fresh_le_ops
  have hbk : ∀ c ∈ f.body, fresh g.ops ≠ c.id := fun c hc => by
    have := lt_fresh_of_body hc; omega
  have huu : .res op.id ∈ u.operands := by
    obtain ⟨o, ho, hid, hv⟩ := (mem_usesIn _ _ _).1 (huses ▸ List.mem_singleton_self u.id)
    rwa [← eq_of_id_eq hnd ho (List.mem_append_right _ hu) hid]
  set wip : BOp := ⟨fresh g.ops, .writeInPlace, (renamed W op).operands⟩ with hwip
  -- the in-place write is in no pair the earlier conversions ask for
  have hfrom : ∀ a, ¬ Must f W wip a := by
    rintro a (⟨c, hc, he, -⟩ | ⟨r, hr, -, -, -, -, he, -⟩ |
      ⟨c, hc, s, -, hW, -, -, -, -, A, hA, hAw⟩)
    · exact hbk c hc he
    · exact hbk r hr he
    · obtain ⟨k', hk'⟩ := Option.ne_none_iff_exists'.1 hW
      obtain ⟨hAw, harg⟩ := mem_argOperands.1 hAw
      obtain rfl := hlin.write_user hc (hi.write_of_converted hids hc hk') hA hop hk
        ((mem_renamed_of_isArg harg).1 hAw)
      exact hW hWop
  have hto : ∀ b, ¬ Must f W b wip := by
    rintro b (⟨c, -, -, hW⟩ | ⟨-, -, c, hc, -, -, -, he | hW⟩ | ⟨-, -, s, hs, -, -, -, he, -⟩)
    · exact lt_irrefl _ (hi.target_lt hW)
    · exact hbk c hc he
    · exact lt_irrefl _ (hi.target_lt hW)
    · exact hbk s hs he
  -- the body after the creation, split at the write
  have hins : ∀ P Q, g.body = P ++ renamed W op :: Q →
      insertAfter op.id wip g.body = P ++ renamed W op :: wip :: Q ∧
        ((P ++ renamed W op :: wip :: Q).map (·.id)).Nodup := by
    intro P Q hPQ
    have hP : ∀ y ∈ P, y.id ≠ op.id := (ids_ne_of_nodup (T := renamed W op) (hPQ ▸ hbody)).1
    have hL : insertAfter op.id wip g.body = P ++ renamed W op :: wip :: Q := by
      rw [hPQ, insertAfter_split (T := renamed W op) hP rfl]
    refine ⟨hL, hL ▸ ((insertAfter_perm ⟨_, hx, rfl⟩).map _).nodup_iff.2
      (List.nodup_cons.2 ⟨fun hm => ?_, hbody⟩)⟩
    obtain ⟨o, ho, he⟩ := List.mem_map.1 hm
    exact (id_lt_fresh (List.mem_append_right _ ho)).ne he
  obtain ⟨P₀, Q₀, hg⟩ := List.append_of_mem hx
  obtain ⟨hL, hnL⟩ := hins P₀ Q₀ hg
  have hord := hg ▸ hi.order
  have hQ₀ : ∀ b ∈ Q₀, b.id ≠ op.id := (ids_ne_of_nodup (T := renamed W op) (hg ▸ hbody)).2
  -- the pairs the earlier conversions ask for
  have h1 : (insertAfter op.id wip g.body).Pairwise fun a b => ¬ Must f W b a := by
    rw [hL]
    exact pairwise_insert hord (fun a _ => hfrom a) (fun b _ => hto b)
  -- the write, and the operations before it in the input, before its in-place write
  have h2 : (insertAfter op.id wip g.body).Pairwise fun a b => ¬ (a.id = wip.id ∧
      ∃ c ∈ f.body, c.id = op.id ∧
        (b.id = op.id ∨ ∃ r ∈ f.body, [r, c].Sublist f.body ∧ b.id = r.id)) := by
    rw [hL, show P₀ ++ renamed W op :: wip :: Q₀ = (P₀ ++ [renamed W op]) ++ wip :: Q₀ by simp]
    refine pairwise_not_after (by simpa using hnL) fun b hb ⟨c, hc, hcid, hb'⟩ => ?_
    have hco := eq_of_id_eq hids (List.mem_append_right _ hc) (List.mem_append_right _ hop) hcid
    rcases hb' with hb' | ⟨r, hr, hrc, hbr⟩
    · exact hQ₀ b hb hb'
    · exact (List.pairwise_cons.1 (List.pairwise_append.1 hord).2.1).1 b hb
        (.inr (.inl ⟨r, hr, c, hc, hrc, by rw [hco, hk]; decide, hbr, .inl hcid.symm⟩))
  -- in the select idiom, every user of the base before the select
  have h3 : (insertAfter op.id wip g.body).Pairwise fun a b => ¬ ∃ c ∈ f.body, c.id = op.id ∧
      ∃ s ∈ f.body, s.kind = .ite ∧
        (s.operands[1]? = some (.res op.id) ∨ s.operands[2]? = some (.res op.id)) ∧
        a.id = s.id ∧ b.id ≠ s.id ∧ ∃ A ∈ c.operands[1]?, A ∈ argOperands b := by
    by_cases hs : ∃ s ∈ f.body, s.kind = .ite ∧
        (s.operands[1]? = some (.res op.id) ∨ s.operands[2]? = some (.res op.id))
    swap
    · exact List.pairwise_of_forall fun _ _ ⟨_, _, _, s, hs', hsk, hpos, _⟩ =>
        hs ⟨s, hs', hsk, hpos⟩
    obtain ⟨P, Q, hPQ, hQ⟩ := hN3 hs
    obtain ⟨A, hA⟩ := hlin.exists_base hop hk
    have hAx : A ∈ (renamed W op).operands :=
      (mem_renamed_of_isArg (hlin.base_isArg hop hk hA)).2 (List.getElem?_mem hA)
    have hxP : renamed W op ∈ P := by
      rcases List.mem_append.1 (hPQ ▸ hx) with h | h
      · exact h
      rcases List.mem_cons.1 h with h | h
      · exact absurd (h ▸ huu) hxx
      · exact absurd hAx (hQ _ h A hA)
    obtain ⟨P₁, P₂, rfl⟩ := List.append_of_mem hxP
    obtain ⟨hL', hnL'⟩ := hins P₁ (P₂ ++ u :: Q) (by simp [hPQ])
    rw [hL', show P₁ ++ renamed W op :: wip :: (P₂ ++ u :: Q) =
      (P₁ ++ renamed W op :: wip :: P₂) ++ u :: Q by simp]
    refine (pairwise_not_after (S := fun b => b.id ≠ u.id ∧ A ∈ argOperands b) (by simpa using hnL')
      fun b hb ⟨_, hAb⟩ => hQ b hb A hA (mem_argOperands.1 hAb).1).imp
      fun {a b} hn ⟨c, hc, hcid, s, hs, _, hpos, has, hbs, A', hA', hA'b⟩ => hn ?_
    have hco := eq_of_id_eq hids (List.mem_append_right _ hc) (List.mem_append_right _ hop) hcid
    have hsu : s.id = u.id := hi.user_eq huses (List.mem_append_right _ hs)
      (by rcases hpos with h | h <;> exact List.getElem?_mem h)
    rw [hco, hA, Option.mem_some_iff] at hA'
    exact ⟨has.trans hsu, hsu ▸ hbs, hA' ▸ hA'b⟩
  refine (h1.and (h2.and h3)).imp fun {a b} ⟨n1, n2, n3⟩ hm => ?_
  rcases must_update hm with hm | hm | hm
  · exact n1 hm
  · exact n2 hm
  · exact n3 hm

include hids hlin hi hnd hop hk hxx hu huses in
/-- **One conversion keeps the invariant.** Converting the write `op`, whose
one user `u` is a branch or a select whose result only a branch uses, after
the walk has put every other user of its base before the select in the idiom. -/
theorem SafeInv.convert (hrest : ∀ o ∈ rest, o.id ≠ op.id)
    (hkind : u.kind = .branch ∨
      u.kind = .ite ∧ ∃ b ∈ g.ops, usesIn g.ops (.res u.id) = [b.id] ∧ b.kind = .branch)
    (hN3 : (∃ s ∈ f.body, s.kind = .ite ∧
        (s.operands[1]? = some (.res op.id) ∨ s.operands[2]? = some (.res op.id))) →
      ∃ P Q, g.body = P ++ u :: Q ∧ ∀ o ∈ Q, ∀ A ∈ op.operands[1]?, A ∉ o.operands) :
    SafeInv f rest (update W op.id (some (fresh g.ops)))
      ⟨replaceAllUsesWith g.entry (.res op.id) (.res (fresh g.ops)),
        replaceAllUsesWith (insertAfter op.id ⟨fresh g.ops, .writeInPlace, (renamed W op).operands⟩
          g.body) (.res op.id) (.res (fresh g.ops))⟩ := by
  have hWop : W op.id = none := hi.fixes op (List.mem_cons_self _ _)
  have hx : renamed W op ∈ g.body := hi.kept op hop
  have hfk : fresh f.ops ≤ fresh g.ops := hi.fresh_le_ops
  have hopk : op.id < fresh g.ops := Nat.lt_of_lt_of_le (lt_fresh_of_body hop) hfk
  have hren := renamed_update (k := fresh g.ops) hWop (hi.rename_op hop)
  set wip : BOp := ⟨fresh g.ops, .writeInPlace, (renamed W op).operands⟩ with hwip
  set L := insertAfter op.id wip g.body with hL
  have hwL : wip ∈ L := (insertAfter_perm ⟨_, hx, rfl⟩).symm.subset (List.mem_cons_self _ _)
  have hops : (replaceAllUsesWith g.entry (.res op.id) (.res (fresh g.ops)) ++
      replaceAllUsesWith L (.res op.id) (.res (fresh g.ops))) =
      replaceAllUsesWith (g.entry ++ L) (.res op.id) (.res (fresh g.ops)) :=
    (List.map_append _ _ _).symm
  -- the use lists of values `wip` does not hold are `g`'s
  have huses_of : ∀ v, v ∉ (renamed W op).operands → usesIn (g.entry ++ L) v = usesIn g.ops v :=
    fun v hv => by
      rw [usesIn_append, hL, usesIn_insertAfter_of_not_mem (x := wip) hv, ← usesIn_append]; rfl
  obtain ⟨u₀, hu₀, rfl⟩ : ∃ u₀ ∈ f.body, u = renamed W u₀ := by
    rcases hi.new u hu with h | ⟨c, -, -, hw, -⟩
    · exact h
    · rcases hkind with h | ⟨h, -⟩ <;> rw [hw] at h <;> cases h
  refine ⟨fun o ho => ?_, fun k₁ k₂ h => ?_, ?_, fun o ho => ?_, fun o ho => ?_,
    fun c hc k₁ hk₁ => ?_, ?_⟩
  · -- fixes
    simp only [update, hrest o ho, ↓reduceIte]
    exact hi.fixes o (List.mem_cons_of_mem _ ho)
  · -- dom
    rcases update_eq_some.1 h with ⟨rfl, rfl⟩ | ⟨-, h⟩
    · refine ⟨⟨op, hop, rfl, hk⟩, hfk, ⟨_, mem_replaceAllUsesWith.2 ⟨wip, hwL, rfl⟩, rfl⟩,
        fun k₃ h₃ => ?_⟩
      rcases update_eq_some.1 h₃ with ⟨h₃, -⟩ | ⟨-, h₃⟩
      · exact h₃
      · exact absurd (hi.target_lt h₃) (lt_irrefl _)
    · obtain ⟨hc, hle, ⟨o, ho, hoid⟩, hinj⟩ := hi.dom k₁ k₂ h
      refine ⟨hc, hle, ⟨_, mem_replaceAllUsesWith.2 ⟨o, mem_insertAfter_of_mem ho, rfl⟩, hoid⟩,
        fun k₃ h₃ => ?_⟩
      rcases update_eq_some.1 h₃ with ⟨-, rfl⟩ | ⟨-, h₃⟩
      · exact absurd (hi.target_lt h) (lt_irrefl _)
      · exact hinj k₃ h₃
  · -- entry
    show replaceAllUsesWith g.entry _ _ = _
    rw [replaceAllUsesWith, hi.entry, List.map_map]
    exact List.map_congr_left fun o _ => hren o
  · -- kept
    exact mem_replaceAllUsesWith.2 ⟨_, mem_insertAfter_of_mem (hi.kept o ho), hren o⟩
  · -- new
    obtain ⟨o₀, ho₀, rfl⟩ := mem_replaceAllUsesWith.1 ho
    rcases eq_or_mem_of_mem_insertAfter ho₀ with rfl | ho₀
    · refine .inr ⟨op, hop, by simp [update], rfl, ?_⟩
      rw [← hren op]
      rfl
    rcases hi.new o₀ ho₀ with ⟨c, hc, rfl⟩ | ⟨c, hc, hW, hkd, hopd⟩
    · exact .inl ⟨c, hc, hren c⟩
    · have hc' : c.id ≠ op.id := fun h => by rw [h, hWop] at hW; cases hW
      refine .inr ⟨c, hc, by simp [update, hc', hW], hkd, ?_⟩
      rw [← hren c]
      show o₀.operands.map _ = (renamed W c).operands.map _
      rw [hopd]
  · -- user
    rcases update_eq_some.1 hk₁ with ⟨hco, rfl⟩ | ⟨-, hk₁⟩
    · obtain rfl : c = op :=
        eq_of_id_eq hids (List.mem_append_right _ hc) (List.mem_append_right _ hop) hco
      refine ⟨u₀, hu₀, fun o ho hv =>
        eq_of_id_eq hids ho (List.mem_append_right _ hu₀) (hi.user_eq huses ho hv), ?_, ?_⟩
      · show usesIn (_ ++ _) _ = _
        rw [hops, usesIn_replaceAllUsesWith_fresh (by simpa using hopk.ne) fun o ho hm => ?_,
          huses_of _ hxx, huses]
        · rfl
        rcases List.mem_append.1 ho with ho | ho
        · exact lt_irrefl _ (res_lt_fresh (List.mem_append_left _ ho) hm)
        rcases eq_or_mem_of_mem_insertAfter ho with rfl | ho
        · exact lt_irrefl _ (res_lt_fresh (List.mem_append_right _ hx) hm)
        · exact lt_irrefl _ (res_lt_fresh (List.mem_append_right _ ho) hm)
      · rcases hkind with h | ⟨h, b, hb, hbu, hbk⟩
        · exact .inl h
        refine .inr ⟨h, fun o ho hv => ?_⟩
        have hWu : W u₀.id = none :=
          hi.not_converted hids hu₀ fun hk => by rw [renamed_kind, hk] at h; cases h
        have hm := (mem_usesIn _ _ _).2 ⟨_, hi.renamed_mem_ops ho, rfl, mem_renamed_res hWu hv⟩
        rw [renamed_id] at hbu
        rw [hbu, List.mem_singleton] at hm
        rw [← renamed_kind (W := W), eq_of_id_eq hnd (hi.renamed_mem_ops ho) hb hm, hbk]
    · obtain ⟨u₁, hu₁, husers, huses₁, hkind₁⟩ := hi.user c hc k₁ hk₁
      refine ⟨u₁, hu₁, husers, ?_, hkind₁⟩
      have hk₁f := hi.target _ _ hk₁
      have hne₁ : Val.res k₁ ≠ .res op.id := by
        have := lt_fresh_of_body hop; simp only [ne_eq, Val.res.injEq]; omega
      have hne₂ : Val.res k₁ ≠ .res (fresh g.ops) := by
        have := hi.target_lt hk₁; simp only [ne_eq, Val.res.injEq]; omega
      have hnx : Val.res k₁ ∉ (renamed W op).operands := fun hm => by
        obtain ⟨v, hv, he⟩ := List.mem_map.1 hm
        have hvc := renameBy_eq_of_some hi.target hk₁
          (fun j hj => res_lt_fresh (List.mem_append_right _ hop) (hj ▸ hv)) he
        have hou := husers op (List.mem_append_right _ hop) (hvc ▸ hv)
        rcases hkind₁ with h | ⟨h, -⟩ <;> rw [← hou, hk] at h <;> cases h
      show usesIn (_ ++ _) _ = _
      rw [hops, usesIn_replaceAllUsesWith_of_ne hne₁ hne₂, huses_of _ hnx, huses₁]
  · -- order
    refine List.pairwise_map.2 ((hi.convert_order hids hlin hnd hop hk hxx hu huses hN3).imp
      fun h hm => h ((must_congr (Op.replaceUses_id _ _ _) (argOperands_replaceUses _ _ _)
        (Op.replaceUses_id _ _ _)).1 hm))

end Convert

/-! ### The loop -/

section Loop

variable {uo : UseOrder OpKind} {rest : List BOp} {W : Nat → Option Nat} {cur cur' : Func}
  {op : BOp} (hids : (f.ops.map (·.id)).Nodup) (hlin : ArraysLinear f.body)
include hids hlin

/-- **One turn of the loop keeps the invariant.** -/
theorem SafeInv.visit (hi : SafeInv f (op :: rest) W cur) (hoi : OrderInv cur) (hop : op ∈ f.body)
    (hrest : ∀ o ∈ rest, o.id ≠ op.id) (hv : visitOp uo cur op = some cur') :
    ∃ W', SafeInv f rest W' cur' := by
  rcases visitOp_cases hv with ⟨rfl, -⟩ | ⟨x, hk, hx, hr⟩
  · exact ⟨W, hi.tail⟩
  have hnd := hoi.nodup
  obtain rfl : x = renamed W op :=
    eq_of_id_eq (Func.nodup_body hnd) (opById_mem hx) (hi.kept op hop) (opById_id hx)
  obtain ⟨g, hl, rfl⟩ := replaceWithWriteInPlace_success hr
  obtain ⟨u, hu, huses, hcase⟩ := resultIsLiveAfter_user hnd hl
  replace huses : usesIn cur.ops (.res op.id) = [u.id] := huses
  have hxx : .res op.id ∉ (renamed W op).operands := hoi.ordered.2 _ (hi.kept op hop)
  obtain ⟨he, hb⟩ := resultIsLiveAfter_frame hl
  have hops : g.ops.Perm cur.ops := by simpa only [Func.ops, he] using hb.append_left cur.entry
  have hnd' : (g.ops.map (·.id)).Nodup := (hops.map _).nodup_iff.2 hnd
  have huses' : usesIn g.ops (.res op.id) = [u.id] := by
    simpa [huses] using usesIn_perm hops (.res op.id)
  have hWop : W op.id = none := hi.fixes op (List.mem_cons_self _ _)
  -- a select that takes the write as a chosen value is its one user
  have hsel : ∀ s ∈ f.body, s.kind = .ite →
      (s.operands[1]? = some (.res op.id) ∨ s.operands[2]? = some (.res op.id)) →
      u = renamed W s ∧
        (u.operands[1]? = some (.res op.id) ∨ u.operands[2]? = some (.res op.id)) := by
    intro s hs _ hpos
    have hsu := hi.user_eq huses (List.mem_append_right _ hs)
      (by rcases hpos with h | h <;> exact List.getElem?_mem h)
    have hus := hi.eq_renamed hids hu hs hsu.symm
    refine ⟨hus, ?_⟩
    rw [hus, renamed_operands, List.getElem?_map, List.getElem?_map]
    rcases hpos with h | h <;> simp [h, renameBy, hWop]
  rcases hcase with ⟨hub, rfl⟩ | ⟨hui, hite⟩
  · refine ⟨_, hi.convert hids hlin hnd hop hk hxx hu huses hrest (.inl hub)
      fun ⟨s, hs, hsk, hpos⟩ => ?_⟩
    rw [(hsel s hs hsk hpos).1, renamed_kind, hsk] at hub
    cases hub
  -- a select: the walk lifts reads above it first
  obtain ⟨A, -, hm⟩ := usedInITEPattern_walk hite
  obtain ⟨P, Q, hPQ⟩ := List.append_of_mem hu
  obtain ⟨-, ms, Q', hg, hsub, hperm, hreads, -⟩ := moveReadOps_success hPQ rfl hnd hm
  have hord : g.body.Pairwise fun o₁ o₂ => ¬ Must f W o₂ o₁ := by
    rw [hg]
    refine pairwise_moves (hPQ ▸ hi.order) hsub hperm fun y hy z =>
      hi.not_must_read hids ?_ (hreads y hy)
    rw [hPQ]
    simp [hperm.subset (List.mem_append_left _ hy)]
  obtain ⟨b, hbm, hbu, hbk⟩ := usedInITEPattern_user hite
  refine ⟨_, (hi.perm he hb hord).convert hids hlin hnd' hop hk hxx (hb.symm.subset hu) huses' hrest
    (.inr ⟨hui, b, hops.symm.subset hbm, by simpa [hbu] using usesIn_perm hops (.res u.id), hbk⟩)
    fun ⟨s, hs, hsk, hpos⟩ => ?_⟩
  -- in the idiom, the walk was over the write's base
  obtain ⟨-, hpos'⟩ := hsel s hs hsk hpos
  obtain ⟨A, hA⟩ := hlin.exists_base hop hk
  have hxA : (renamed W op).operands[1]? = some A :=
    getElem?_renamed_of_isArg (hlin.base_isArg hop hk hA) hA
  have hxo : renamed W op ∈ cur.ops := List.mem_append_right _ (hi.kept op hop)
  have hwalk := usedInITEPattern_idiom hnd (List.mem_append_right _ hu) hui hxo hk hxA
    (usedInITEPattern_idiom_of_pos hnd hxo hk (List.mem_append_right _ hu) hui huses hpos' hite hxA)
    hite
  obtain ⟨-, ms', Q'', hg', -, -, -, hw⟩ := moveReadOps_success hPQ rfl hnd hwalk
  refine ⟨P ++ ms', Q'', by rw [hg', List.append_assoc], fun o ho A' hA' hAo => ?_⟩
  rw [hA, Option.mem_some_iff] at hA'
  subst hA'
  have hng := hg' ▸ Func.nodup_body hnd'
  have hoc : o ∈ cur.ops := List.mem_append_right _ (hb.subset (by rw [hg']; simp [ho]))
  rcases hw o.id ((uo.perm _ _).mem_iff.2 ((mem_usesIn _ _ _).2 ⟨o, hoc, rfl, hAo⟩)) with
    h | ⟨y, hy, hyo⟩
  · exact (ids_ne_of_nodup hng).2 o ho h
  rw [List.map_append, List.nodup_append] at hng
  exact hng.2.2 (List.mem_map_of_mem _ hy)
    (by rw [hyo]; exact List.mem_map_of_mem _ (List.mem_cons_of_mem _ ho))

/-- The loop keeps the invariant over the writes it has still to visit. -/
theorem SafeInv.foldlM : ∀ {l : List BOp} {W : Nat → Option Nat} {cur cur' : Func},
    SafeInv f l W cur → OrderInv cur → (∀ o ∈ l, o ∈ f.body) → (l.map (·.id)).Nodup →
    l.foldlM (visitOp uo) cur = some cur' → ∃ W', SafeInv f [] W' cur'
  | [], W, _, _, hi, _, _, _, h => by cases h; exact ⟨W, hi⟩
  | op :: l, _, _, _, hi, hoi, hl, hnd, h => by
    simp only [List.foldlM_cons, bind, Option.bind_eq_some] at h
    obtain ⟨c, hc, h⟩ := h
    obtain ⟨W', hi'⟩ := hi.visit hids hlin hoi (hl op (List.mem_cons_self _ _))
      (fun o ho he => (List.nodup_cons.1 hnd).1 (List.mem_map.2 ⟨o, ho, he⟩)) hc
    exact SafeInv.foldlM hi' (hoi.visit hc) (fun o ho => hl o (List.mem_cons_of_mem _ ho))
      hnd.of_cons h

end Loop

/-! ### No array is observed after it is overwritten -/

section Unobserved

/-- What an operation overwrites: an in-place write that does not wait, its
base; a select, a waiting in-place write it chooses. -/
theorem mem_overwrites {blk : List BOp} {o : BOp} {a : Val} (h : a ∈ overwrites blk o) :
    (o.kind = .writeInPlace ∧ o.operands[1]? = some a ∧ deferred blk o.id = false) ∨
      (o.kind = .ite ∧ (o.operands[1]? = some a ∨ o.operands[2]? = some a) ∧
        pendingIn blk a = true) := by
  unfold overwrites at h
  split at h
  · rename_i hk hops
    split_ifs at h with hd
    · cases h
    · exact .inl ⟨hk, by simp [hops, List.mem_singleton.1 h], by simpa using hd⟩
  · rename_i hk hops
    simp only [List.mem_filter, List.mem_cons, List.mem_singleton, List.not_mem_nil, or_false] at h
    obtain ⟨h | h, hp⟩ := h <;> subst h
    · exact .inr ⟨hk, .inl (by simp [hops]), hp⟩
    · exact .inr ⟨hk, .inr (by simp [hops]), hp⟩
  · cases h

theorem of_pendingIn {blk : List BOp} {a : Val} (h : pendingIn blk a = true) :
    ∃ o, a = .res o.id ∧ o ∈ blk ∧ o.kind = .writeInPlace := by
  cases a with
  | arg => cases h
  | res k =>
    simp only [pendingIn, Bool.and_eq_true] at h
    cases ho : opById blk k with
    | none => simp [ho] at h
    | some o =>
      simp only [ho, Option.any_some, beq_iff_eq] at h
      exact ⟨o, by rw [opById_id ho], opById_mem ho, h.1⟩

/-- A value whose one use is a select of the body waits for it. -/
theorem deferred_of_user {blk : List BOp} {k : Nat} {u : BOp} (hn : (blk.map (·.id)).Nodup)
    (hu : usesIn blk (.res k) = [u.id]) (hum : u ∈ blk) (huk : u.kind = .ite) :
    deferred blk k = true := by
  simp [deferred, hu, opById_of_nodup hn hum, huk]

/-- A value with one use in the function, by an operation of the body, has
that use in the body. -/
theorem usesIn_body {g : Func} {v : Val} {u : BOp} (hn : (g.ops.map (·.id)).Nodup)
    (h : usesIn g.ops v = [u.id]) (hu : u ∈ g.body) : usesIn g.body v = [u.id] := by
  obtain ⟨o, ho, hid, hv⟩ := (mem_usesIn _ _ _).1 (h ▸ List.mem_singleton_self u.id)
  obtain rfl := eq_of_id_eq hn ho (List.mem_append_right _ hu) hid
  rw [Func.ops, usesIn_append, List.append_eq_cons_iff] at h
  rcases h with ⟨-, h⟩ | ⟨_, -, h⟩
  · exact h
  · have hm := (mem_usesIn _ _ _).2 ⟨o, hu, rfl, hv⟩
    rw [(List.append_eq_nil.1 h.symm).2] at hm
    cases hm

/-- An in-place write over a block argument names that argument's buffer. -/
theorem shares_writeInPlace {blk : List BOp} {o : BOp} {A : Val} (hn : (blk.map (·.id)).Nodup)
    (ho : o ∈ blk) (hk : o.kind = .writeInPlace) (hlen : o.operands.length = 3)
    (hA : o.operands[1]? = some A) (harg : A.isArg) : shares blk (.res o.id) = [A] := by
  obtain ⟨P, Q, hPQ⟩ := List.append_of_mem ho
  obtain ⟨v, A', i, hops⟩ := List.length_eq_three.1 hlen
  rw [hops] at hA
  cases hA
  rw [shares_res hn hPQ]
  simp only [sharesOf, hk, hops]
  exact sharesAfter_of_ne fun o _ h => by rw [h] at harg; cases harg

variable {rest : List BOp} {W : Nat → Option Nat} {cur : Func} {pre post : List BOp} {o o' : BOp}
  {y : Val} (hids : (f.ops.map (·.id)).Nodup) (hlin : ArraysLinear f.body)
  (hi : SafeInv f rest W cur) (hnd : (cur.ops.map (·.id)).Nodup)
  (hblk : cur.body = pre ++ o :: post) (hafter : ¬ Must f W o' o) (hoo' : o'.id ≠ o.id)
  (ho' : o' ∈ cur.body) (hy : y ∈ o'.operands) (hr : Ready cur.body pre y)
include hids hlin hi hnd hblk hafter hoo' ho' hy hr

/-- **An in-place write that does not wait is unobserved.** Its one user is a
branch, so no select takes its base, and the other users of its base come
before it. -/
theorem SafeInv.unobserved_writeInPlace {c : BOp} (hc : c ∈ f.body) (hW : W c.id = some o.id)
    (hops : o.operands = (renamed W c).operands) (hd : deferred cur.body o.id = false) {a : Val}
    (ha : o.operands[1]? = some a) : ∀ b ∈ shares cur.body a, b ∉ shares cur.body y := by
  have hbody := Func.nodup_body hnd
  have hck := hi.write_of_converted hids hc hW
  obtain ⟨A, hA⟩ := hlin.exists_base hc hck
  have harg := hlin.base_isArg hc hck hA
  rw [hops, getElem?_renamed_of_isArg harg hA, Option.some.injEq] at ha
  subst ha
  rw [shares_arg harg]
  intro b hb hby
  rw [List.mem_singleton.1 hb] at hby
  obtain ⟨u₀, hu₀, husers, huses, hkind⟩ := hi.user c hc o.id hW
  -- the one user is a branch: a select would make the write wait
  have hub : u₀.kind = .branch := by
    rcases hkind with h | ⟨h, -⟩
    · exact h
    · rw [deferred_of_user (u := renamed W u₀) hbody (usesIn_body (u := renamed W u₀) hnd huses
        (hi.kept u₀ hu₀)) (hi.kept u₀ hu₀) h] at hd
      cases hd
  -- only the base and the in-place write's result may name the base
  have hC := mem_of_mem_shares (C := fun v => v = A ∨ v = .res o.id) (.inl rfl)
    (fun o₂ ho₂ hk₂ ⟨x, hx, hxC⟩ => ?_) hby
  · rcases hC with rfl | rfl
    · rcases hi.new o' ho' with ⟨c₃, hc₃, rfl⟩ | ⟨c₃, hc₃, hW₃, -, hops₃⟩
      · rcases hlin.user hc hck hA hc₃ ((mem_renamed_of_isArg harg).1 hy) with
          rfl | ⟨hk₃, hr₃⟩ | ⟨-, hsub | ⟨s, hs, hsk, hrs⟩⟩
        · exact hafter (.inl ⟨c₃, hc₃, rfl, hW⟩)
        · rw [husers c₃ (List.mem_append_right _ hc₃) hr₃, hub] at hk₃
          cases hk₃
        · exact hafter (.inr (.inl ⟨c₃, hc₃, c, hc, hsub, by rw [hck]; decide, rfl, .inr hW⟩))
        · rw [husers s (List.mem_append_right _ hs) hrs, hub] at hsk
          cases hsk
      · rw [hops₃] at hy
        obtain rfl := hlin.write_user hc hck hA hc₃ (hi.write_of_converted hids hc₃ hW₃)
          ((mem_renamed_of_isArg harg).1 hy)
        rw [hW, Option.some.injEq] at hW₃
        exact hoo' hW₃.symm
    · exact Ready.ne_of_mem hbody hblk hr (List.mem_cons_self _ _) rfl
  rcases hi.new o₂ ho₂ with ⟨c₂, hc₂, rfl⟩ | ⟨c₂, hc₂, hW₂, -, hops₂⟩
  · -- an operation of the input: a select, which would take the write
    have hk₂s : c₂.kind = .ite := hk₂.resolve_right (hlin.not_writeInPlace hc₂ :)
    have hcu : .res c.id ∈ c₂.operands := by
      rcases hxC with rfl | rfl
      · exact hlin.ite_user hc hck hA hc₂ hk₂s ((mem_renamed_of_isArg harg).1 hx)
      · exact hi.mem_target_of_renamed hW (List.mem_append_right _ hc₂) hx
    rw [husers c₂ (List.mem_append_right _ hc₂) hcu, hub] at hk₂s
    cases hk₂s
  · -- an in-place write: the same one
    rw [hops₂] at hx
    have hc₂k := hi.write_of_converted hids hc₂ hW₂
    rcases hxC with rfl | rfl
    · obtain rfl := hlin.write_user hc hck hA hc₂ hc₂k ((mem_renamed_of_isArg harg).1 hx)
      rw [hW, Option.some.injEq] at hW₂
      exact .inr (by rw [hW₂])
    · rw [husers c₂ (List.mem_append_right _ hc₂)
        (hi.mem_target_of_renamed hW (List.mem_append_right _ hc₂) hx), hub] at hc₂k
      cases hc₂k

/-- **A select that takes a waiting in-place write is unobserved.** The
select is the write's one user, its other chosen value is the write's base,
and the walk put every other user of the base before it. -/
theorem SafeInv.unobserved_ite {c : BOp} (hc : c ∈ f.body) (ho : o = renamed W c)
    (hck : c.kind = .ite) {a : Val} (ha : o.operands[1]? = some a ∨ o.operands[2]? = some a)
    (hp : pendingIn cur.body a = true) : ∀ b ∈ shares cur.body a, b ∉ shares cur.body y := by
  have hbody := Func.nodup_body hnd
  obtain ⟨o₁, rfl, ho₁, hk₁⟩ := of_pendingIn hp
  obtain ⟨c₁, hc₁, hW₁, -, hops₁⟩ : ∃ c₁ ∈ f.body, W c₁.id = some o₁.id ∧
      o₁.kind = .writeInPlace ∧ o₁.operands = (renamed W c₁).operands := by
    rcases hi.new o₁ ho₁ with ⟨c₁, hc₁, rfl⟩ | h
    · exact absurd hk₁ (hlin.not_writeInPlace hc₁ :)
    · exact h
  have hc₁k := hi.write_of_converted hids hc₁ hW₁
  -- the select takes the write
  have hpos : c.operands[1]? = some (.res c₁.id) ∨ c.operands[2]? = some (.res c₁.id) := by
    rw [ho, renamed_operands, List.getElem?_map, List.getElem?_map] at ha
    have key : ∀ i : Nat, Option.map (renameBy W) c.operands[i]? = some (Val.res o₁.id) →
        c.operands[i]? = some (Val.res c₁.id) := fun i h => by
      obtain ⟨v, hv, he⟩ := Option.map_eq_some'.1 h
      rw [hv, renameBy_eq_of_some hi.target hW₁
        (fun j hj => res_lt_fresh (List.mem_append_right _ hc) (hj ▸ List.getElem?_mem hv)) he]
    exact ha.imp (key 1) (key 2)
  obtain ⟨u₁, -, husers, huses, hkind⟩ := hi.user c₁ hc₁ o₁.id hW₁
  obtain rfl : c = u₁ := husers c (List.mem_append_right _ hc)
    (by rcases hpos with h | h <;> exact List.getElem?_mem h)
  have hbr : ∀ o ∈ f.ops, .res c.id ∈ o.operands → o.kind = .branch := by
    rcases hkind with h | ⟨-, h⟩
    · rw [hck] at h; cases h
    · exact h
  obtain ⟨A, hA⟩ := hlin.exists_base hc₁ hc₁k
  have harg := hlin.base_isArg hc₁ hc₁k hA
  rw [shares_writeInPlace hbody ho₁ hk₁
    (by rw [hops₁, renamed_operands, List.length_map, hlin.operands_length hc₁ hc₁k])
    (by rw [hops₁, getElem?_renamed_of_isArg harg hA])
    harg]
  intro b hb hby
  rw [List.mem_singleton.1 hb] at hby
  -- only the base, the in-place write's result and the select's may name the base
  have hC := mem_of_mem_shares (C := fun v => v = A ∨ v = .res o₁.id ∨ v = .res c.id) (.inl rfl)
    (fun o₂ ho₂ hk₂ ⟨x, hx, hxC⟩ => ?_) hby
  · subst ho
    rcases hC with h | h | h <;> rw [h] at hy hr
    · -- the base: every other user comes before the select
      exact hafter (.inr (.inr ⟨c₁, hc₁, c, hc, by simp [hW₁], hck, hpos, rfl, hoo', A, hA,
        mem_argOperands.2 ⟨hy, harg⟩⟩))
    · -- the in-place write: its one user is the select
      have hm := (mem_usesIn cur.ops _ _).2 ⟨o', List.mem_append_right _ ho', rfl, hy⟩
      rw [huses, List.mem_singleton] at hm
      exact hoo' hm
    · exact Ready.ne_of_mem hbody hblk hr (List.mem_cons_self _ _) rfl
  rcases hi.new o₂ ho₂ with ⟨c₂, hc₂, rfl⟩ | ⟨c₂, hc₂, hW₂, -, hops₂⟩
  · -- an operation of the input: a select that takes the write, or the write's user
    have hk₂s : c₂.kind = .ite := hk₂.resolve_right (hlin.not_writeInPlace hc₂ :)
    have hc₂f : c₂ ∈ f.ops := List.mem_append_right _ hc₂
    rcases hxC with rfl | rfl | rfl
    · obtain rfl := husers c₂ hc₂f
        (hlin.ite_user hc₁ hc₁k hA hc₂ hk₂s ((mem_renamed_of_isArg harg).1 hx))
      exact .inr (.inr rfl)
    · obtain rfl := husers c₂ hc₂f (hi.mem_target_of_renamed hW₁ hc₂f hx)
      exact .inr (.inr rfl)
    · rw [hbr c₂ hc₂f (hi.mem_res_of_renamed (lt_fresh_of_body hc) hx)] at hk₂s
      cases hk₂s
  · -- an in-place write: the same one
    rw [hops₂] at hx
    have hc₂k := hi.write_of_converted hids hc₂ hW₂
    have hc₂f : c₂ ∈ f.ops := List.mem_append_right _ hc₂
    rcases hxC with rfl | rfl | rfl
    · obtain rfl := hlin.write_user hc₁ hc₁k hA hc₂ hc₂k ((mem_renamed_of_isArg harg).1 hx)
      rw [hW₁, Option.some.injEq] at hW₂
      exact .inr (.inl (by rw [hW₂]))
    · rw [husers c₂ hc₂f (hi.mem_target_of_renamed hW₁ hc₂f hx), hck] at hc₂k
      cases hc₂k
    · rw [hbr c₂ hc₂f (hi.mem_res_of_renamed (lt_fresh_of_body hc) hx)] at hc₂k
      cases hc₂k

end Unobserved

/-- **Every state of the loop is unobserved.** On an input whose arrays are
written once, no operation of the body after one that overwrites a buffer
uses a value ready before it that may name that buffer. -/
theorem SafeInv.unobserved {rest : List BOp} {W : Nat → Option Nat} {cur : Func}
    (hids : (f.ops.map (·.id)).Nodup) (hlin : ArraysLinear f.body) (hi : SafeInv f rest W cur)
    (hnd : (cur.ops.map (·.id)).Nodup) : Unobserved cur.body := by
  refine unobserved_of_apart fun pre o post hblk a ha o' ho' y hy hr => ?_
  have hbody := Func.nodup_body hnd
  have ho : o ∈ cur.body := by rw [hblk]; simp
  have ho'm : o' ∈ cur.body := by rw [hblk]; simp [ho']
  have hafter : ¬ Must f W o' o :=
    (List.pairwise_cons.1 (List.pairwise_append.1 (hblk ▸ hi.order)).2.1).1 o' ho'
  have hoo' : o'.id ≠ o.id := (ids_ne_of_nodup (hblk ▸ hbody)).2 o' ho'
  rcases mem_overwrites ha with ⟨hk, ha, hd⟩ | ⟨hk, ha, hp⟩
  · rcases hi.new o ho with ⟨c, hc, rfl⟩ | ⟨c, hc, hW, -, hops⟩
    · exact absurd hk (hlin.not_writeInPlace hc :)
    · exact hi.unobserved_writeInPlace hids hlin hnd hblk hafter hoo' ho'm hy hr hc hW hops hd ha
  · rcases hi.new o ho with ⟨c, hc, rfl⟩ | ⟨c, -, -, hk', -⟩
    · exact hi.unobserved_ite hids hlin hnd hblk hafter hoo' ho'm hy hr hc rfl hk ha hp
    · rw [hk'] at hk
      cases hk

/-- **The pass's output is unobserved.** On an input with distinct ids,
SSA-ordered, whose reads `ReadsEarly` lets the walk lift, and whose arrays
are written once, a successful pass leaves no array observed after it is
overwritten. -/
theorem btorLivenessPass_unobserved {uo : UseOrder OpKind} {f' : Func}
    (hids : (f.ops.map (·.id)).Nodup) (hssa : SSAOrdered f.body) (hreads : ReadsEarly f.body)
    (hlin : ArraysLinear f.body) (h : btorLivenessPass uo f = some f') : Unobserved f'.body := by
  have hoi : OrderInv f := ⟨hids, hssa.ordered (Func.nodup_body hids), hreads⟩
  obtain ⟨W, hi⟩ := SafeInv.foldlM hids hlin (SafeInv.init hids) hoi (fun _ h => h)
    (Func.nodup_body hids) h
  exact hi.unobserved hids hlin (OrderInv.btorLivenessPass hoi h).nodup

/- `w = write v, A[i]; r = read A[i]; br w, r`, where the pass's output reads
the new element, writes `A` after a read it does not precede. -/
example : ¬ ArraysLinear [⟨0, .write, [.arg 1 0, .arg 1 1, .arg 1 2]⟩,
    ⟨1, .read, [.arg 1 1, .arg 1 2]⟩, ⟨2, .branch, [.res 0, .res 1]⟩] := by
  decide

/-! ### The pass against the in-place run -/

section InPlace

variable {I : Interp} {uo : UseOrder OpKind} {f' : Func} {pre : List BOp} {br : BOp}
  {input : Val → Option BVal}

/-- **The output run in place keeps the value run.** For a body with
distinct ids, SSA-ordered, ending in its only branch, whose reads the walk
may lift (`ReadsEarly`) and whose arrays are written once (`ArraysLinear`):
when the pass succeeds and the value run of the body reaches the branch with
operand values `args`, the output run with arrays in place reaches its
branch with the same values. -/
theorem btorLivenessPass_inPlace (hids : (f.ops.map (·.id)).Nodup)
    (h : btorLivenessPass uo f = some f') (hssa : SSAOrdered f.body) (hreads : ReadsEarly f.body)
    (hlin : ArraysLinear f.body) (hbody : f.body = pre ++ [br]) (hbr : br.kind = .branch)
    (hpre : ∀ o ∈ pre, o.kind ≠ .branch) {args : List BVal}
    (hrun : (runValue I f.body input).map Prod.snd = some args) :
    (runInPlace I f'.body f'.body (IVal.ofInput input) (heapOfInput input)).map (·.2.2) =
      some args := by
  have hssa' := ssaOrdered_of_ordered
    (OrderInv.btorLivenessPass ⟨hids, hssa.ordered (Func.nodup_body hids), hreads⟩ h).ordered
  rw [runValue_eq hssa (Func.nodup_body hids) hbr hbody hpre] at hrun
  split_ifs at hrun with hall
  obtain ⟨hn', s, br', t, hst, hbr', hs, hall', hops⟩ :=
    btorLivenessPass_branch hids h hssa hssa' hbody hbr hpre hall
  exact runInPlace_of_denote hssa' hn' (btorLivenessPass_unobserved hids hssa hreads hlin h) hbr'
    hst hs hall' (hops.trans hrun)

/-- `w = write v, A[i]; s = ite c, w, A; r = read A[i]; br s, r`: `A` is
written once, and read before the select once the pass has lifted the read;
the output run in place gives the branch the new array and the old element. -/
theorem btorLivenessPass_inPlace_select :
    btorLivenessPass .textual ⟨[], [⟨0, .write, [.arg 1 0, .arg 1 1, .arg 1 2]⟩,
        ⟨1, .ite, [.arg 1 3, .res 0, .arg 1 1]⟩, ⟨2, .read, [.arg 1 1, .arg 1 2]⟩,
        ⟨3, .branch, [.res 1, .res 2]⟩]⟩ =
      some ⟨[], [⟨0, .write, [.arg 1 0, .arg 1 1, .arg 1 2]⟩,
        ⟨4, .writeInPlace, [.arg 1 0, .arg 1 1, .arg 1 2]⟩, ⟨2, .read, [.arg 1 1, .arg 1 2]⟩,
        ⟨1, .ite, [.arg 1 3, .res 4, .arg 1 1]⟩, ⟨3, .branch, [.res 1, .res 2]⟩]⟩ ∧
    (runInPlace (fun _ _ => none) [⟨0, .write, [.arg 1 0, .arg 1 1, .arg 1 2]⟩,
        ⟨4, .writeInPlace, [.arg 1 0, .arg 1 1, .arg 1 2]⟩, ⟨2, .read, [.arg 1 1, .arg 1 2]⟩,
        ⟨1, .ite, [.arg 1 3, .res 4, .arg 1 1]⟩, ⟨3, .branch, [.res 1, .res 2]⟩]
        [⟨0, .write, [.arg 1 0, .arg 1 1, .arg 1 2]⟩,
        ⟨4, .writeInPlace, [.arg 1 0, .arg 1 1, .arg 1 2]⟩, ⟨2, .read, [.arg 1 1, .arg 1 2]⟩,
        ⟨1, .ite, [.arg 1 3, .res 4, .arg 1 1]⟩, ⟨3, .branch, [.res 1, .res 2]⟩]
        (IVal.ofInput selectInput) (heapOfInput selectInput)).map (·.2.2) =
      some [.arr (store (fun _ => 0) 0 1), .int 0] := by
  refine ⟨?h, btorLivenessPass_inPlace (by decide) ?h (by decide) (by decide) (by decide)
    (show [_, _, _, _] = [_, _, _] ++ [_] from rfl) rfl (by decide) rfl⟩
  decide

end InPlace

end Btor
end Btor2Mlir
