import Mathlib.Data.List.Basic
import Mathlib.Data.List.Perm.Basic

/-!
# Values, operations and use lists

The part of MLIR's IR that the rewrite passes read and change: SSA values,
operations with an identity, a kind and an ordered operand list, the use list
of a value, and the mutations the passes make (create an operation after or
before another, move one, replace all uses of a value). A block is the list of
its operations in order; a value's use list has one entry per operand slot
that holds it, naming the owner.

MLIR walks a use list in an order the passes do not control. `UseOrder` is
any such order: a theorem about a pass holds for every `UseOrder`, and a
counterexample names the one it uses.
-/

namespace Btor2Mlir

/-- An SSA value: argument `i` of block `b`, or the result of the operation
with id `k`. -/
inductive Val where
  | arg (b i : Nat)
  | res (k : Nat)
  deriving DecidableEq, Repr

/-- MLIR's `LogicalResult`. -/
inductive LogicalResult where
  | success
  | failure
  deriving DecidableEq, Repr

/-- An operation with one result, `.res id`: its kind (the op class) and its
operands in order. -/
structure Op (κ : Type) where
  id : Nat
  kind : κ
  operands : List Val
  deriving DecidableEq, Repr

variable {κ : Type}

namespace Op

/-- The operation with every operand `v` replaced by `w`. -/
def replaceUses (o : Op κ) (v w : Val) : Op κ :=
  { o with operands := o.operands.map fun x => if x = v then w else x }

@[simp] theorem replaceUses_id (o : Op κ) (v w : Val) : (o.replaceUses v w).id = o.id := rfl

@[simp] theorem replaceUses_kind (o : Op κ) (v w : Val) : (o.replaceUses v w).kind = o.kind :=
  rfl

end Op

/-! ### Use lists -/

/-- The use list of `v` in `ops`: the owner's id once for each operand slot
that holds `v`, in textual order. -/
def usesIn : List (Op κ) → Val → List Nat
  | [], _ => []
  | o :: ops, v => List.replicate (o.operands.count v) o.id ++ usesIn ops v

@[simp] theorem usesIn_nil (v : Val) : usesIn ([] : List (Op κ)) v = [] := rfl

@[simp] theorem usesIn_cons (o : Op κ) (ops : List (Op κ)) (v : Val) :
    usesIn (o :: ops) v = List.replicate (o.operands.count v) o.id ++ usesIn ops v := rfl

@[simp] theorem usesIn_append (ops ops' : List (Op κ)) (v : Val) :
    usesIn (ops ++ ops') v = usesIn ops v ++ usesIn ops' v := by
  induction ops with
  | nil => rfl
  | cons o ops ih => simp [ih]

/-- A value has no use iff no operation holds it. -/
theorem usesIn_eq_nil (ops : List (Op κ)) (v : Val) :
    usesIn ops v = [] ↔ ∀ o ∈ ops, v ∉ o.operands := by
  induction ops with
  | nil => simp
  | cons o ops ih => simp [ih, List.count_eq_zero]

/-- Every owner in a use list holds the value. -/
theorem mem_usesIn (ops : List (Op κ)) (v : Val) (k : Nat) :
    k ∈ usesIn ops v ↔ ∃ o ∈ ops, o.id = k ∧ v ∈ o.operands := by
  induction ops with
  | nil => simp
  | cons o ops ih =>
    simp only [usesIn_cons, List.mem_append, List.mem_replicate, ne_eq, List.count_eq_zero,
      not_not, ih, List.mem_cons, exists_eq_or_imp]
    rw [and_comm, eq_comm]

/-- Use lists depend on the operations as a multiset. -/
theorem usesIn_perm {ops ops' : List (Op κ)} (h : ops.Perm ops') (v : Val) :
    (usesIn ops v).Perm (usesIn ops' v) := by
  induction h with
  | nil => rfl
  | cons o _ ih => simpa using ih.append_left _
  | swap o o' ops => simpa using List.perm_append_comm_assoc _ _ _
  | trans _ _ ih ih' => exact ih.trans ih'

/-- The order in which MLIR walks use lists: for each list of operations and
each value, some order of the value's uses. -/
structure UseOrder (κ : Type) where
  order : List (Op κ) → Val → List Nat
  perm : ∀ ops v, (order ops v).Perm (usesIn ops v)

/-- Use lists walked in textual order. -/
def UseOrder.textual : UseOrder κ := ⟨usesIn, fun _ _ => List.Perm.refl _⟩

/-- A value with one use: every order walks it. -/
theorem UseOrder.order_eq_singleton (uo : UseOrder κ) {ops : List (Op κ)} {v : Val} {k : Nat}
    (h : usesIn ops v = [k]) : uo.order ops v = [k] :=
  List.perm_singleton.1 (h ▸ uo.perm ops v)

/-! ### Finding and changing operations -/

/-- The operation with id `k`. -/
def opById (ops : List (Op κ)) (k : Nat) : Option (Op κ) := ops.find? (·.id = k)

/-- `replaceAllUsesWith`: every operand slot holding `v` now holds `w`. -/
def replaceAllUsesWith (ops : List (Op κ)) (v w : Val) : List (Op κ) :=
  ops.map (·.replaceUses v w)

/-- Create `x` right after the operation with id `t` (the builder's
`setInsertionPointAfterValue`, then `create`). -/
def insertAfter (t : Nat) (x : Op κ) : List (Op κ) → List (Op κ)
  | [] => []
  | o :: ops => if o.id = t then o :: x :: ops else o :: insertAfter t x ops

/-- Put `x` right before the operation with id `t`. -/
def insertBefore (t : Nat) (x : Op κ) : List (Op κ) → List (Op κ)
  | [] => []
  | o :: ops => if o.id = t then x :: o :: ops else o :: insertBefore t x ops

/-- `Operation::moveBefore`: the operation with id `u` taken out and put
right before the one with id `t`. -/
def moveBefore (ops : List (Op κ)) (u t : Nat) : List (Op κ) :=
  match opById ops u with
  | some o => insertBefore t o (ops.eraseP (·.id = u))
  | none => ops

/-- `Operation::isBeforeInBlock`: the operation with id `a` comes before the
one with id `b`. -/
def isBeforeInBlock (ops : List (Op κ)) (a b : Nat) : Bool :=
  ops.findIdx (·.id = a) < ops.findIdx (·.id = b)

/-- The largest number that an id or a result operand of `ops` names, plus
one: the id of an operation the builder creates. -/
def fresh : List (Op κ) → Nat
  | [] => 0
  | o :: ops =>
    max (max (o.id + 1) (o.operands.foldr (fun v m => match v with
      | .res k => max (k + 1) m
      | .arg _ _ => m) 0)) (fresh ops)


/-! ### What the mutations keep -/

section
variable {ops : List (Op κ)} {o x : Op κ} {v w y : Val} {t u : Nat}

theorem mem_replaceUses_operands :
    y ∈ (o.replaceUses v w).operands ↔ (y ∈ o.operands ∧ y ≠ v) ∨ (y = w ∧ v ∈ o.operands) := by
  simp only [Op.replaceUses, List.mem_map]
  constructor
  · rintro ⟨z, hz, rfl⟩
    by_cases h : z = v <;> simp_all
  · rintro (⟨hy, hne⟩ | ⟨rfl, hv⟩)
    · exact ⟨y, hy, by simp [hne]⟩
    · exact ⟨v, hv, by simp⟩

/-- Renaming `v` to `w` leaves the other values' slots. -/
theorem count_replaceUses_of_ne (hv : y ≠ v) (hw : y ≠ w) :
    (o.replaceUses v w).operands.count y = o.operands.count y := by
  simp only [Op.replaceUses]
  induction o.operands with
  | nil => rfl
  | cons z zs ih =>
    by_cases hz : z = v
    · simp [hz, List.count_cons, ih, Ne.symm hv, Ne.symm hw]
    · simp [hz, List.count_cons, ih]

/-- Renaming `v` to `w` keeps `v`'s slots, now holding `w`. -/
theorem count_le_count_replaceUses (h : v ≠ w) :
    o.operands.count v ≤ (o.replaceUses v w).operands.count w := by
  simp only [Op.replaceUses]
  induction o.operands with
  | nil => simp
  | cons z zs ih =>
    by_cases hz : z = v
    · subst hz; simp [List.count_cons, ih]
    · have : (z == v) = false := by simpa using hz
      simp only [List.map_cons, hz, if_false, List.count_cons, this, Bool.false_eq_true,
        ↓reduceIte, Nat.add_zero]
      split <;> omega

theorem usesIn_replaceAllUsesWith_of_ne (hv : y ≠ v) (hw : y ≠ w) :
    usesIn (replaceAllUsesWith ops v w) y = usesIn ops y := by
  induction ops with
  | nil => rfl
  | cons o ops ih =>
    simp only [replaceAllUsesWith, List.map_cons, usesIn_cons, Op.replaceUses_id] at ih ⊢
    rw [count_replaceUses_of_ne hv hw, ih]

/-- After `replaceAllUsesWith` the old value has no use. -/
theorem usesIn_replaceAllUsesWith_self (h : v ≠ w) :
    usesIn (replaceAllUsesWith ops v w) v = [] := by
  rw [usesIn_eq_nil]
  simp only [replaceAllUsesWith, List.mem_map]
  rintro _ ⟨o, -, rfl⟩ hv
  rcases mem_replaceUses_operands.1 hv with ⟨-, hne⟩ | ⟨rfl, -⟩
  exacts [hne rfl, h rfl]

/-- Every use of the old value is now a use of the new one, in order. -/
theorem usesIn_sublist_replaceAllUsesWith (h : v ≠ w) :
    (usesIn ops v).Sublist (usesIn (replaceAllUsesWith ops v w) w) := by
  induction ops with
  | nil => exact List.Sublist.slnil
  | cons o ops ih =>
    simp only [replaceAllUsesWith, List.map_cons, usesIn_cons, Op.replaceUses_id] at ih ⊢
    exact (List.replicate_sublist_replicate _ |>.2 (count_le_count_replaceUses h)).append ih

theorem mem_replaceAllUsesWith : x ∈ replaceAllUsesWith ops v w ↔ ∃ o ∈ ops, o.replaceUses v w = x :=
  List.mem_map

theorem insertAfter_perm (ht : ∃ o ∈ ops, o.id = t) : (insertAfter t x ops).Perm (x :: ops) := by
  induction ops with
  | nil => simp at ht
  | cons o ops ih =>
    simp only [insertAfter]
    split_ifs with h
    · exact List.Perm.swap _ _ _
    · have ht' : ∃ o ∈ ops, o.id = t := by simpa [h] using ht
      exact ((ih ht').cons o).trans (List.Perm.swap _ _ _)

theorem mem_insertAfter_of_mem (h : o ∈ ops) : o ∈ insertAfter t x ops := by
  induction ops with
  | nil => cases h
  | cons z zs ih =>
    simp only [insertAfter]
    rcases List.mem_cons.1 h with rfl | h
    · split_ifs <;> exact List.mem_cons_self _ _
    · split_ifs
      · exact List.mem_cons_of_mem _ (List.mem_cons_of_mem _ h)
      · exact List.mem_cons_of_mem _ (ih h)

theorem eq_or_mem_of_mem_insertAfter (h : o ∈ insertAfter t x ops) : o = x ∨ o ∈ ops := by
  induction ops with
  | nil => cases h
  | cons z zs ih =>
    simp only [insertAfter] at h
    split_ifs at h <;> simp only [List.mem_cons] at h ⊢
    · rcases h with h | h | h <;> simp [h]
    · rcases h with h | h
      · exact .inr (.inl h)
      · rcases ih h with h | h <;> simp [h]

theorem opById_insertAfter (h : x.id ≠ u) : opById (insertAfter t x ops) u = opById ops u := by
  induction ops with
  | nil => rfl
  | cons o ops ih =>
    simp only [insertAfter]
    split_ifs <;> by_cases ho : o.id = u <;> simp_all [opById, List.find?_cons]

theorem opById_replaceAllUsesWith :
    opById (replaceAllUsesWith ops v w) u = (opById ops u).map (·.replaceUses v w) := by
  simp [opById, replaceAllUsesWith, List.find?_map, Function.comp_def]

/-- Creating an operation that does not hold `v` leaves `v`'s use list. -/
theorem usesIn_insertAfter_of_not_mem (h : v ∉ x.operands) :
    usesIn (insertAfter t x ops) v = usesIn ops v := by
  induction ops with
  | nil => rfl
  | cons o ops ih =>
    simp only [insertAfter]
    split_ifs <;> simp [ih, List.count_eq_zero_of_not_mem h]

/-- Creating an operation keeps every use. -/
theorem usesIn_sublist_insertAfter : (usesIn ops v).Sublist (usesIn (insertAfter t x ops) v) := by
  induction ops with
  | nil => exact List.Sublist.slnil
  | cons o ops ih =>
    simp only [insertAfter]
    split_ifs
    · simp
    · simpa using ih

theorem insertBefore_perm (ht : ∃ o ∈ ops, o.id = t) : (insertBefore t x ops).Perm (x :: ops) := by
  induction ops with
  | nil => simp at ht
  | cons o ops ih =>
    simp only [insertBefore]
    split_ifs with h
    · exact List.Perm.refl _
    · have ht' : ∃ o ∈ ops, o.id = t := by simpa [h] using ht
      exact ((ih ht').cons o).trans (List.Perm.swap _ _ _)

theorem opById_mem (h : opById ops u = some o) : o ∈ ops := List.mem_of_find?_eq_some h

theorem opById_id (h : opById ops u = some o) : o.id = u := by
  simpa using List.find?_some h

/-- With distinct ids, an operation is found by its id. -/
theorem opById_of_nodup (hids : (ops.map (·.id)).Nodup) (ho : o ∈ ops) : opById ops o.id = some o := by
  induction ops with
  | nil => cases ho
  | cons z zs ih =>
    simp only [List.map_cons, List.nodup_cons, List.mem_map] at hids
    rcases List.mem_cons.1 ho with rfl | ho
    · simp [opById]
    · have hz : z.id ≠ o.id := fun he => hids.1 ⟨o, ho, he.symm⟩
      simpa [opById, hz] using ih hids.2 ho

/-- Among operations with distinct ids, an id names one operation. -/
theorem eq_of_id_eq (hids : (ops.map (·.id)).Nodup) (ho : o ∈ ops) (hx : x ∈ ops)
    (h : o.id = x.id) : o = x :=
  Option.some.inj (by rw [← opById_of_nodup hids ho, ← opById_of_nodup hids hx, h])

/-- An id that some operation has finds one. -/
theorem opById_isSome (h : ∃ o ∈ ops, o.id = u) : ∃ o, opById ops u = some o :=
  Option.isSome_iff_exists.1 (List.find?_isSome.2 (by simpa using h))

theorem perm_cons_eraseP (h : opById ops u = some o) :
    (o :: ops.eraseP (·.id = u)).Perm ops := by
  induction ops with
  | nil => cases h
  | cons z zs ih =>
    simp only [opById, List.find?_cons] at h
    by_cases hz : z.id = u
    · simp only [hz, decide_True] at h
      cases h
      simp [hz]
    · simp only [hz, decide_False] at h
      simp only [List.eraseP_cons, hz, decide_False, cond_false]
      exact (List.Perm.swap _ _ _).trans ((ih h).cons z)

/-- Moving an operation before another of the list, itself not moved, permutes the list. -/
theorem moveBefore_perm (ht : ∃ o ∈ ops, o.id = t) (hne : u ≠ t) :
    (moveBefore ops u t).Perm ops := by
  unfold moveBefore
  split
  · rename_i o hu
    refine (insertBefore_perm ?_).trans (perm_cons_eraseP hu)
    obtain ⟨o', ho', rfl⟩ := ht
    exact ⟨o', (List.mem_eraseP_of_neg (by simpa using Ne.symm hne)).2 ho', rfl⟩
  · exact List.Perm.refl _

/-! A block split at an operation `T` with id `t`, `P ++ T :: Q`, where `P`
has no operation with id `t`. -/

section Split
variable {P Q : List (Op κ)} {T : Op κ}

/-- With distinct ids, no other operation has `T`'s id. -/
theorem ids_ne_of_nodup (hids : ((P ++ T :: Q).map (·.id)).Nodup) :
    (∀ x ∈ P, x.id ≠ T.id) ∧ ∀ x ∈ Q, x.id ≠ T.id := by
  rw [List.map_append, List.map_cons, List.Nodup, List.pairwise_append, List.pairwise_cons] at hids
  exact ⟨fun x hx => hids.2.2 _ (List.mem_map_of_mem _ hx) _ (List.mem_cons_self _ _),
    fun x hx => Ne.symm (hids.2.1.1 _ (List.mem_map_of_mem _ hx))⟩

/-- In `P ++ T :: Q`, where `T` is the first operation with id `t`, an
operation comes before `T` exactly when it is in `P`. -/
theorem isBeforeInBlock_split (hP : ∀ x ∈ P, x.id ≠ t) (hT : T.id = t) :
    isBeforeInBlock (P ++ T :: Q) u t = true ↔ ∃ x ∈ P, x.id = u := by
  have ht : (P ++ T :: Q).findIdx (·.id = t) = P.length := by
    rw [List.findIdx_append, if_neg (by simpa using hP), List.findIdx_cons]
    simp [hT]
  rw [isBeforeInBlock, ht, List.findIdx_append, decide_eq_true_iff]
  by_cases h : ∃ x ∈ P, x.id = u
  · have h' : P.findIdx (·.id = u) < P.length := by simpa using h
    rw [if_pos h']
    simp only [h', h]
  · have h' : ¬ P.findIdx (·.id = u) < P.length := by simpa using h
    simp only [if_neg h', h, iff_false]
    omega

theorem insertBefore_split (hP : ∀ x ∈ P, x.id ≠ t) (hT : T.id = t) :
    insertBefore t x (P ++ T :: Q) = P ++ x :: T :: Q := by
  induction P with
  | nil => simp [insertBefore, hT]
  | cons z zs ih =>
    simp only [List.forall_mem_cons] at hP
    simp [insertBefore, hP.1, ih hP.2]

theorem insertAfter_split (hP : ∀ x ∈ P, x.id ≠ t) (hT : T.id = t) :
    insertAfter t x (P ++ T :: Q) = P ++ T :: x :: Q := by
  induction P with
  | nil => simp [insertAfter, hT]
  | cons z zs ih =>
    simp only [List.forall_mem_cons] at hP
    simp [insertAfter, hP.1, ih hP.2]

/-- Moving the operation with id `u`, found in `Q`, before `T`. -/
theorem moveBefore_split (hPu : ∀ x ∈ P, x.id ≠ u) (hPt : ∀ x ∈ P, x.id ≠ t) (hT : T.id = t)
    (hne : u ≠ t) (hO : opById Q u = some o) :
    moveBefore (P ++ T :: Q) u t = P ++ o :: T :: Q.eraseP (·.id = u) := by
  have hfind : opById (P ++ T :: Q) u = some o := by
    simp only [opById] at hO ⊢
    rw [List.find?_append, List.find?_eq_none.2 (by simpa using hPu), List.find?_cons_of_neg _
      (by simpa [hT] using Ne.symm hne)]
    simpa using hO
  rw [moveBefore, hfind, List.eraseP_append_right _ (by simpa using hPu),
    List.eraseP_cons_of_neg (by simpa [hT] using Ne.symm hne)]
  exact insertBefore_split hPt hT
/-- An operation of the block that is not before `T` is in `Q`, and moving it
before `T` puts it at the end of `P`. -/
theorem moveBefore_of_not_isBeforeInBlock (hP : ∀ x ∈ P, x.id ≠ t) (hT : T.id = t) (hne : u ≠ t)
    (hu : ∃ x ∈ P ++ T :: Q, x.id = u) (hbef : isBeforeInBlock (P ++ T :: Q) u t = false) :
    ∃ o, opById Q u = some o ∧ moveBefore (P ++ T :: Q) u t = P ++ [o] ++ T :: Q.eraseP (·.id = u) := by
  have hPu : ∀ x ∈ P, x.id ≠ u := fun x hx hxu => by
    simpa [hbef] using (isBeforeInBlock_split (Q := Q) hP hT).2 ⟨x, hx, hxu⟩
  obtain ⟨x, hx, hxu⟩ := hu
  have hxQ : x ∈ Q := by
    rcases List.mem_append.1 hx with hx | hx
    · exact absurd hxu (hPu x hx)
    rcases List.mem_cons.1 hx with rfl | hx
    · exact absurd (hxu.symm.trans hT) hne
    exact hx
  obtain ⟨o, ho⟩ := opById_isSome ⟨x, hxQ, hxu⟩
  exact ⟨o, ho, by rw [moveBefore_split hPu hP hT hne ho, List.append_assoc, List.singleton_append]⟩

end Split

/-- The fresh id is above every id of the list. -/
theorem id_lt_fresh (h : o ∈ ops) : o.id < fresh ops := by
  induction ops with
  | nil => cases h
  | cons z zs ih =>
    simp only [fresh]
    rcases List.mem_cons.1 h with rfl | h
    · omega
    · have := ih h; omega

/-- The fresh id is above every result an operand of the list names. -/
theorem res_lt_fresh {k : Nat} (h : o ∈ ops) (hk : .res k ∈ o.operands) : k < fresh ops := by
  induction ops with
  | nil => cases h
  | cons z zs ih =>
    simp only [fresh]
    rcases List.mem_cons.1 h with rfl | h
    · refine Nat.lt_of_lt_of_le ?_ (Nat.le_trans (Nat.le_max_right _ _) (Nat.le_max_left _ _))
      generalize o.operands = l at hk
      induction l with
      | nil => cases hk
      | cons v l ihl =>
        rw [List.foldr_cons]
        rcases List.mem_cons.1 hk with rfl | hk
        · simp only; omega
        · have := ihl hk
          cases v <;> simp only <;> omega
    · have := ih h; omega

theorem fresh_perm {ops' : List (Op κ)} (h : ops.Perm ops') : fresh ops = fresh ops' := by
  induction h with
  | nil => rfl
  | cons o _ ih => simp only [fresh, ih]
  | swap o o' ops => simp only [fresh]; omega
  | trans _ _ ih ih' => exact ih.trans ih'

/-- Among operations with distinct ids, finding one by id does not depend on
their order. -/
theorem opById_perm {ops' : List (Op κ)} (h : ops.Perm ops') (hn : (ops.map (·.id)).Nodup)
    (u : Nat) : opById ops u = opById ops' u := by
  have hn' : (ops'.map (·.id)).Nodup := (h.map _).nodup_iff.1 hn
  cases hu : opById ops u with
  | some o => rw [← opById_id hu, opById_of_nodup hn' (h.subset (opById_mem hu))]
  | none =>
    refine (Option.eq_none_iff_forall_not_mem.2 fun o ho => ?_).symm
    have ho' : o ∈ ops := h.symm.subset (opById_mem ho)
    rw [← opById_id ho, opById_of_nodup hn ho'] at hu
    cases hu

theorem opById_insertAfter_self (ht : ∃ o ∈ ops, o.id = t) (hx : ∀ o ∈ ops, o.id ≠ x.id) :
    opById (insertAfter t x ops) x.id = some x := by
  induction ops with
  | nil => obtain ⟨_, h, -⟩ := ht; cases h
  | cons o ops ih =>
    have hox := hx o (List.mem_cons_self _ _)
    simp only [insertAfter]
    split_ifs with hot
    · simp [opById, List.find?_cons, hox]
    · have ht' : ∃ o' ∈ ops, o'.id = t := by
        obtain ⟨o', ho', rfl⟩ := ht
        rcases List.mem_cons.1 ho' with rfl | ho'
        · exact absurd rfl hot
        · exact ⟨o', ho', rfl⟩
      simpa [opById, List.find?_cons, hox] using ih ht' fun o' ho' => hx o' (List.mem_cons_of_mem _ ho')

end

end Btor2Mlir
