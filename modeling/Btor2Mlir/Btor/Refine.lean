import Btor2Mlir.Btor.Dataflow

/-!
# When the in-place run computes what the value run does

An in-place write destroys the array it writes into, so it is sound only when
nothing afterwards reads that array's old value. In the in-place run a select
passes on the buffer of the operand it takes and an in-place write the buffer
of its base, so values share buffers; `shares` follows which buffers each value
may name. `Unobserved` says that no operation after one that overwrites a
buffer uses a value defined before it that may name that buffer.

On an SSA-ordered body with that property the in-place run reaches the branch
with the values the denotation gives its operands (`runInPlace_of_denote`).
A read of the base after a write converted on a direct branch is what
`Unobserved` rules out; which inputs the pass leaves unobserved is the matter
of `Btor.Safe`.
-/

namespace Btor2Mlir
namespace Btor

/-! ### The buffers a value may name -/

/-- The buffers `o`'s result may name, given those of its operands: a
select's either operand's, an in-place write's base's, any other operation's
its own. -/
def sharesOf (S : Val → List Val) (o : BOp) : List Val :=
  match o.kind, o.operands with
  | .ite, [_, x, y] => S x ++ S y
  | .writeInPlace, [_, a, _] => S a
  | _, _ => [.res o.id]

/-- The buffers each value may name once the operations `ops` have run. -/
def sharesAfter : List BOp → (Val → List Val) → Val → List Val
  | [], S => S
  | o :: ops, S => sharesAfter ops (update S (.res o.id) (sharesOf S o))

/-- The buffers each value of `blk` may name; a value no operation defines
names its own. -/
def shares (blk : List BOp) : Val → List Val := sharesAfter blk fun v => [v]

/-- `x` is the result of an in-place write of `blk` that waits for its select. -/
def pendingIn (blk : List BOp) : Val → Bool
  | .res k => (opById blk k).any (·.kind == .writeInPlace) && deferred blk k
  | .arg _ _ => false

/-- The values whose buffer `o` overwrites: an in-place write that does not
wait, its base; a select, each waiting in-place write it takes. -/
def overwrites (blk : List BOp) (o : BOp) : List Val :=
  match o.kind, o.operands with
  | .writeInPlace, [_, a, _] => if deferred blk o.id then [] else [a]
  | .ite, [_, x, y] => [x, y].filter (pendingIn blk)
  | _, _ => []

/-- **No array is observed after it is overwritten.** No operation after one
that overwrites a buffer uses a value defined before it that may name the
same buffer. -/
def Unobserved (blk : List BOp) : Prop :=
  ∀ p q : Fin blk.length, p < q → ∀ a ∈ overwrites blk blk[p], ∀ y ∈ blk[q].operands,
    Ready blk (blk.take p) y → ∀ b ∈ shares blk a, b ∉ shares blk y

instance (blk : List BOp) : Decidable (Unobserved blk) :=
  @Nat.decidableForallFin _ _ fun _ => @Nat.decidableForallFin _ _ fun _ =>
    @instDecidableForall _ _ _ <| @List.decidableBAll _ _ (fun _ =>
      @List.decidableBAll _ _ (fun _ => @instDecidableForall _ _ _ inferInstance) _) _

section Shares

variable {blk pre post : List BOp} {o : BOp}

theorem sharesAfter_append (l₁ l₂ : List BOp) (S : Val → List Val) :
    sharesAfter (l₁ ++ l₂) S = sharesAfter l₂ (sharesAfter l₁ S) := by
  induction l₁ generalizing S with
  | nil => rfl
  | cons o l₁ ih => exact ih _

theorem sharesAfter_of_ne {l : List BOp} {S : Val → List Val} {x : Val}
    (h : ∀ o ∈ l, x ≠ .res o.id) : sharesAfter l S x = S x := by
  induction l generalizing S with
  | nil => rfl
  | cons o l ih =>
    rw [sharesAfter, ih fun o' ho' => h o' (List.mem_cons_of_mem _ ho'), update,
      if_neg (h o (List.mem_cons_self _ _))]

/-- A value is ready only after the operation that defines it. -/
theorem Ready.ne_of_mem (hn : (blk.map (·.id)).Nodup) (hblk : blk = pre ++ post) {x : Val}
    (hx : Ready blk pre x) (ho : o ∈ post) : x ≠ .res o.id := fun he => by
  obtain ⟨s, t, rfl⟩ := List.append_of_mem ho
  have ho' := hx o (by simp [hblk]) he
  rw [hblk, ← List.append_assoc] at hn
  exact (ids_ne_of_nodup hn).1 o (List.mem_append_left _ ho') rfl

/-- What a ready value may name is settled once it is defined. -/
theorem shares_of_ready (hn : (blk.map (·.id)).Nodup) (hblk : blk = pre ++ post) {x : Val}
    (hx : Ready blk pre x) : shares blk x = sharesAfter pre (fun v => [v]) x := by
  rw [shares, hblk, sharesAfter_append, sharesAfter_of_ne fun o ho => hx.ne_of_mem hn hblk ho]

theorem ready_of_ne {x : Val} (hx : Ready blk (pre ++ [o]) x) (hne : x ≠ .res o.id) :
    Ready blk pre x := fun o' ho' he => by
  rcases List.mem_append.1 (hx o' ho' he) with h | h
  · exact h
  · exact absurd (List.mem_singleton.1 h ▸ he) hne

theorem ready_append {x : Val} (hx : Ready blk pre x) (l : List BOp) : Ready blk (pre ++ l) x :=
  fun o' ho' he => List.mem_append_left _ (hx o' ho' he)

theorem ready_res (hn : (blk.map (·.id)).Nodup) (ho : o ∈ blk) :
    Ready blk (pre ++ [o]) (.res o.id) := fun o' ho' he => by
  have h1 := opById_of_nodup hn ho'
  rw [← Val.res.inj he, opById_of_nodup hn ho, Option.some.injEq] at h1
  simp [h1]

/-- Along an SSA-ordered body, a ready value may name only ready values. -/
theorem sharesAfter_ready (hssa : SSAOrdered blk) (hn : (blk.map (·.id)).Nodup) :
    ∀ (A l rest : List BOp) (S : Val → List Val), blk = A ++ l ++ rest →
      (∀ x, Ready blk A x → ∀ b ∈ S x, Ready blk A b) →
      ∀ x, Ready blk (A ++ l) x → ∀ b ∈ sharesAfter l S x, Ready blk (A ++ l) b
  | A, [], _, S, _, hS => by simpa using hS
  | A, o :: l, rest, S, hblk, hS => by
    have hblk' : blk = A ++ o :: (l ++ rest) := by simp [hblk]
    rw [List.append_cons]
    refine sharesAfter_ready hssa hn (A ++ [o]) l rest _ (by simp [hblk]) fun x hx b hb => ?_
    by_cases hxo : x = .res o.id
    · subst hxo
      have hop : ∀ y ∈ o.operands, ∀ b ∈ S y, Ready blk (A ++ [o]) b :=
        fun y hy b hb => ready_append (hS y (hssa.ready hblk' hy) b hb) _
      rw [update, if_pos rfl, sharesOf] at hb
      split at hb
      · rename_i hops
        rcases List.mem_append.1 hb with hb | hb
        · exact hop _ (by simp [hops]) b hb
        · exact hop _ (by simp [hops]) b hb
      · rename_i hops
        exact hop _ (by simp [hops]) b hb
      · rw [List.mem_singleton.1 hb]
        exact ready_res hn (by simp [hblk'])
    · rw [update, if_neg hxo] at hb
      exact ready_append (hS x (ready_of_ne hx hxo) b hb) _

/-- A waiting in-place write has one use, a select. -/
theorem kind_of_pendingIn (hn : (blk.map (·.id)).Nodup) {x : Val} (hp : pendingIn blk x = true)
    (ho : o ∈ blk) (hx : x ∈ o.operands) : o.kind = .ite := by
  cases x with
  | arg => cases hp
  | res k =>
    have hu : o.id ∈ usesIn blk (.res k) := (mem_usesIn _ _ _).2 ⟨o, ho, rfl, hx⟩
    simp only [pendingIn, deferred, Bool.and_eq_true] at hp
    rcases hus : usesIn blk (.res k) with _ | ⟨u, _ | ⟨_, _⟩⟩ <;> rw [hus] at hu hp
    · cases hu
    · obtain rfl := List.mem_singleton.1 hu
      simpa [opById_of_nodup hn ho] using hp.2
    · cases hp.2

/-- **`Unobserved`, by position.** No operation after `o` uses a value ready
before `o` that may name a buffer `o` overwrites. -/
theorem Unobserved.apart (hsafe : Unobserved blk) (hblk : blk = pre ++ o :: post) {a : Val}
    (ha : a ∈ overwrites blk o) {o' : BOp} (ho' : o' ∈ post) {y : Val} (hy : y ∈ o'.operands)
    (hr : Ready blk pre y) {b : Val} (hb : b ∈ shares blk a) : b ∉ shares blk y := by
  obtain ⟨j, hj, rfl⟩ := List.mem_iff_getElem.1 ho'
  subst hblk
  exact hsafe ⟨pre.length, by simp⟩ ⟨pre.length + (j + 1), by simp; omega⟩
    (by simp [Fin.lt_def]) a (by simpa [List.getElem_append_right] using ha) y
    (by simpa [List.getElem_append_right] using hy) (by simpa [List.take_left] using hr) b hb

end Shares

/-! ### The in-place run against the denotation -/

theorem forall₂_of_mapM {α β : Type} {f : α → Option β} :
    ∀ {l : List α} {l' : List β}, l.mapM f = some l' → List.Forall₂ (fun x y => f x = some y) l l'
  | [], l', h => by cases h; exact .nil
  | x :: l, l', h => by
    simp only [List.mapM_cons, bind, pure, Option.bind_eq_some, Option.some.injEq] at h
    obtain ⟨y, hy, ys, hys, rfl⟩ := h
    exact .cons hy (forall₂_of_mapM hys)

theorem mapM_of_forall₂ {α β γ : Type} {f : α → Option β} {g : α → Option γ} {R : γ → β → Prop} :
    ∀ {l : List α} {l' : List β}, List.Forall₂ (fun x y => f x = some y) l l' →
      (∀ x ∈ l, ∀ y, f x = some y → ∃ z, g x = some z ∧ R z y) →
      ∃ zs, l.mapM g = some zs ∧ List.Forall₂ R zs l'
  | [], [], .nil, _ => ⟨[], rfl, .nil⟩
  | x :: _, y :: _, .cons h hl, hg => by
    obtain ⟨z, hz, hR⟩ := hg x (List.mem_cons_self _ _) y h
    obtain ⟨zs, hzs, hR'⟩ := mapM_of_forall₂ hl fun x hx => hg x (List.mem_cons_of_mem _ hx)
    exact ⟨z :: zs, by rw [List.mapM_cons, hz, hzs]; rfl, .cons hR hR'⟩

section Eval

variable {I : Interp} {bvs : List BVal} {val : BVal}

theorem evalValue_write {k : OpKind} (hk : k = .write ∨ k = .writeInPlace)
    (h : evalValue I k bvs = some val) :
    ∃ v a i, bvs = [.int v, .arr a, .int i] ∧ val = .arr (store a i v) := by
  rcases hk with rfl | rfl <;>
  rcases bvs with _ | ⟨_ | v, _ | ⟨_ | a, _ | ⟨_ | i, _ | _⟩⟩⟩ <;>
    first | exact ⟨_, _, _, rfl, (Option.some.inj h).symm⟩ | simp [evalValue] at h

theorem evalValue_read (h : evalValue I .read bvs = some val) :
    ∃ a i, bvs = [.arr a, .int i] ∧ val = .int (a i) := by
  rcases bvs with _ | ⟨_ | a, _ | ⟨_ | i, _ | _⟩⟩ <;>
    first | exact ⟨_, _, rfl, (Option.some.inj h).symm⟩ | simp [evalValue] at h

theorem evalValue_ite (h : evalValue I .ite bvs = some val) :
    ∃ c x y, bvs = [.int c, x, y] ∧ val = if c ≠ 0 then x else y := by
  rcases bvs with _ | ⟨_ | c, _ | ⟨x, _ | ⟨y, _ | _⟩⟩⟩ <;>
    first | exact ⟨_, _, _, rfl, (Option.some.inj h).symm⟩ | simp [evalValue] at h

end Eval

/-- `iv`, in the buffers `H`, holds the value `bv`: a waiting write holds its
base's buffer with the write applied. -/
def IVal.Holds (H : Heap) : IVal → BVal → Prop
  | .int n, .int m => n = m
  | .ref b, .arr a => H b = some a
  | .pend b i v, .arr a => ∃ c, H b = some c ∧ a = store c i v
  | _, _ => False

section Holds

variable {H : Heap} {iv : IVal} {bv : BVal}

theorem IVal.Holds.update (h : iv.Holds H bv) {b : Val} (hb : iv.buf ≠ some b)
    (c : Option (Int → Int)) : iv.Holds (update H b c) bv := by
  cases iv <;> cases bv <;> simp_all [IVal.Holds, IVal.buf, update]

theorem IVal.Holds.read (h : iv.Holds H bv) (hp : ∀ b i v, iv ≠ .pend b i v) :
    iv.read H = some bv := by
  cases iv <;> cases bv <;> simp_all [IVal.Holds, IVal.read]

theorem IVal.holds_int {n : Int} : iv.Holds H (.int n) ↔ iv = .int n := by
  cases iv <;> simp [IVal.Holds, eq_comm]

theorem IVal.Holds.pend {b : Val} {i v : Int} (h : (IVal.pend b i v).Holds H bv) :
    ∃ c, H b = some c ∧ bv = .arr (store c i v) := by
  cases bv with
  | int => cases h
  | arr a => obtain ⟨c, hc, rfl⟩ := h; exact ⟨c, hc, rfl⟩

theorem IVal.Holds.arr {a : Int → Int} (h : iv.Holds H (.arr a)) (hp : ∀ b i v, iv ≠ .pend b i v) :
    ∃ b, iv = .ref b ∧ H b = some a := by
  cases iv with
  | int => cases h
  | ref b => exact ⟨b, rfl, h⟩
  | pend b i v => exact absurd rfl (hp b i v)

end Holds

/-- What the in-place run, with values `P` and buffers `H` once `done` has
run, keeps of the denotation `D`: every value ready then that an operation of
`todo` uses holds its denotation; every value's buffer is one it may name;
and only a waiting in-place write waits. -/
structure Sim (blk : List BOp) (D : Val → Option BVal) (done todo : List BOp)
    (P : Val → Option IVal) (H : Heap) : Prop where
  holds : ∀ x, Ready blk done x → (∃ o ∈ todo, x ∈ o.operands) → ∀ bv, D x = some bv →
    ∃ iv, P x = some iv ∧ iv.Holds H bv
  buf : ∀ x iv b, P x = some iv → iv.buf = some b → b ∈ sharesAfter done (fun v => [v]) x
  pend : ∀ x b i v, P x = some (.pend b i v) → pendingIn blk x = true

section Sim

variable {blk done todo : List BOp} {D : Val → Option BVal} {P : Val → Option IVal} {H : Heap}
  {o : BOp}

theorem Sim.init {input : Val → Option BVal} (hD : ∀ x, Ready blk [] x → D x = input x) :
    Sim blk D [] todo (IVal.ofInput input) (heapOfInput input) := by
  refine ⟨fun x hx _ bv hbv => ?_, fun x iv b hP hb => ?_, fun x b i v hP => ?_⟩
  · rw [hD x hx] at hbv
    cases bv <;> simp [hbv, IVal.ofInput, IVal.Holds, heapOfInput]
  · simp only [IVal.ofInput, Option.map_eq_some'] at hP
    obtain ⟨bv, -, rfl⟩ := hP
    cases bv <;> simp_all [IVal.buf, sharesAfter]
  · simp only [IVal.ofInput, Option.map_eq_some'] at hP
    obtain ⟨bv, -, hbv⟩ := hP
    cases bv <;> cases hbv

/-- The run extended by `o`, whose result `x` holds its denotation in the new
buffers `H'`, which every value ready before and used later still holds. -/
theorem Sim.extend (h : Sim blk D done (o :: todo) P H) {x : IVal} {H' : Heap} {val : BVal}
    (hv : D (.res o.id) = some val) (hx : x.Holds H' val)
    (hbuf : ∀ b, x.buf = some b → b ∈ sharesOf (sharesAfter done fun v => [v]) o)
    (hpend : ∀ b i v, x = .pend b i v → pendingIn blk (.res o.id) = true)
    (hframe : ∀ y iv bv, Ready blk done y → (∃ o' ∈ todo, y ∈ o'.operands) → P y = some iv →
      iv.Holds H bv → iv.Holds H' bv) :
    Sim blk D (done ++ [o]) todo (update P (.res o.id) (some x)) H' := by
  refine ⟨fun y hy hobs bv hbv => ?_, fun y iv b hP hb => ?_, fun y b i v hP => ?_⟩ <;>
    by_cases hyo : y = .res o.id
  · subst hyo
    rw [hv, Option.some.injEq] at hbv
    exact ⟨x, by simp [update], hbv ▸ hx⟩
  · obtain ⟨o', ho', hy'⟩ := hobs
    obtain ⟨iv, hP, hiv⟩ :=
      h.holds y (ready_of_ne hy hyo) ⟨o', List.mem_cons_of_mem _ ho', hy'⟩ bv hbv
    exact ⟨iv, by simp [update, hyo, hP], hframe y iv bv (ready_of_ne hy hyo) ⟨o', ho', hy'⟩ hP hiv⟩
  · subst hyo
    simp only [update, if_true, Option.some.injEq] at hP
    subst hP
    simpa [sharesAfter_append, sharesAfter, update] using hbuf b hb
  · rw [update, if_neg hyo] at hP
    simpa [sharesAfter_append, sharesAfter, update, hyo] using h.buf y iv b hP hb
  · subst hyo
    simp only [update, if_true, Option.some.injEq] at hP
    exact hpend b i v hP
  · rw [update, if_neg hyo] at hP
    exact h.pend y b i v hP

theorem mapM_read {H : Heap} :
    ∀ {ivs : List IVal} {bvs : List BVal},
      List.Forall₂ (fun iv bv => iv.Holds H bv ∧ ∀ b i v, iv ≠ .pend b i v) ivs bvs →
      ivs.mapM (·.read H) = some bvs
  | [], [], .nil => rfl
  | _ :: _, _ :: _, .cons h hl => by rw [List.mapM_cons, h.1.read h.2, mapM_read hl]; rfl

end Sim

theorem runInPlace_cons_branch {I : Interp} {blk rest : List BOp} {env : Val → Option IVal}
    {heap : Heap} {o : BOp} (h : o.kind = .branch) :
    runInPlace I blk (o :: rest) env heap = (o.operands.mapM env).bind fun args =>
      (args.mapM fun x => IVal.read heap x).bind fun vs => some (env, heap, vs) := by
  obtain ⟨_, kind, _⟩ := o
  subst h
  rfl

theorem runInPlace_cons_of_ne {I : Interp} {blk rest : List BOp} {env : Val → Option IVal}
    {heap : Heap} {o : BOp} (h : o.kind ≠ .branch) :
    runInPlace I blk (o :: rest) env heap = (o.operands.mapM env).bind fun args =>
      (stepInPlace I blk o heap args).bind fun r =>
        runInPlace I blk rest (update env (.res o.id) (some r.1)) r.2 := by
  obtain ⟨_, kind, _⟩ := o
  cases kind <;> first | exact absurd rfl h | rfl

theorem forall₂_pair {α β : Type} {R : α → β → Prop} {l : List α} {a b : β}
    (h : List.Forall₂ R l [a, b]) : ∃ x y, l = [x, y] ∧ R x a ∧ R y b := by
  rcases h with _ | ⟨h₁, _ | ⟨h₂, _ | _⟩⟩
  exact ⟨_, _, rfl, h₁, h₂⟩

theorem forall₂_triple {α β : Type} {R : α → β → Prop} {l : List α} {a b c : β}
    (h : List.Forall₂ R l [a, b, c]) : ∃ x y z, l = [x, y, z] ∧ R x a ∧ R y b ∧ R z c := by
  rcases h with _ | ⟨h₁, _ | ⟨h₂, _ | ⟨h₃, _ | _⟩⟩⟩
  exact ⟨_, _, _, rfl, h₁, h₂, h₃⟩

theorem mapM_triple {α β : Type} {f : α → Option β} {x y z : α} {a b c : β} (ha : f x = some a)
    (hb : f y = some b) (hc : f z = some c) : [x, y, z].mapM f = some [a, b, c] := by
  rw [List.mapM_cons, List.mapM_cons, List.mapM_cons, ha, hb, hc]
  rfl

section Step

variable {I : Interp} {blk done todo pre post : List BOp} {input : Val → Option BVal}
  {P : Val → Option IVal} {H : Heap} {o br : BOp}
  (hssa : SSAOrdered blk) (hn : (blk.map (·.id)).Nodup) (hsafe : Unobserved blk)
include hssa hn hsafe

/-- **One operation of the in-place run keeps the simulation.** Its operands
hold their denotations, so it computes its own; a buffer it creates is one no
earlier value names, and a buffer it overwrites one no value used later
names. -/
theorem Sim.step (hblk : blk = done ++ o :: post) (htodo : ∀ o' ∈ todo, o' ∈ post)
    (hk : o.kind ≠ .branch)
    (h : Sim blk (denote (evalValue I) blk input blk.length) done (o :: todo) P H)
    {val : BVal} (hv : denote (evalValue I) blk input blk.length (.res o.id) = some val) :
    ∃ ivs x H', o.operands.mapM P = some ivs ∧ stepInPlace I blk o H ivs = some (x, H') ∧
      Sim blk (denote (evalValue I) blk input blk.length) (done ++ [o]) todo
        (update P (.res o.id) (some x)) H' := by
  have ho : o ∈ blk := by simp [hblk]
  have hready : ∀ x ∈ o.operands, Ready blk done x := fun x hx => hssa.ready hblk hx
  have hop : ∀ x ∈ o.operands, ∀ bv, denote (evalValue I) blk input blk.length x = some bv →
      ∃ iv, P x = some iv ∧ iv.Holds H bv :=
    fun x hx bv hbv => h.holds x (hready x hx) ⟨o, List.mem_cons_self _ _, hx⟩ bv hbv
  have hnp : o.kind ≠ .ite → ∀ x ∈ o.operands, ∀ iv, P x = some iv → ∀ b i v, iv ≠ .pend b i v :=
    fun hki x hx iv hP b i v he => hki (kind_of_pendingIn hn (h.pend x b i v (he ▸ hP)) ho hx)
  have hfresh (c : Option (Int → Int)) : ∀ y iv bv, Ready blk done y →
      (∃ o' ∈ todo, y ∈ o'.operands) → P y = some iv → iv.Holds H bv →
      iv.Holds (update H (.res o.id) c) bv := fun y iv bv hy _ hP hiv =>
    hiv.update (fun hb => Ready.ne_of_mem hn hblk (by
      simpa using sharesAfter_ready hssa hn [] done (o :: post) _ (by simpa using hblk)
        (fun x hx b hb => List.mem_singleton.1 hb ▸ hx) y (by simpa using hy) _
        (h.buf y iv _ hP hb)) (List.mem_cons_self _ _) rfl) c
  have hover (a : Val) (ha : a ∈ overwrites blk o) (hao : a ∈ o.operands) (b : Val)
      (hb : b ∈ sharesAfter done (fun v => [v]) a) (c : Option (Int → Int)) :
      ∀ y iv bv, Ready blk done y → (∃ o' ∈ todo, y ∈ o'.operands) → P y = some iv →
        iv.Holds H bv → iv.Holds (update H b c) bv := fun y iv bv hy ⟨o', ho', hy'⟩ hP hiv =>
    hiv.update (fun hb' => hsafe.apart hblk ha (htodo o' ho') hy' hy
      ((shares_of_ready hn hblk (hready a hao)).symm ▸ hb)
      ((shares_of_ready hn hblk hy).symm ▸ h.buf y iv _ hP hb')) c
  have hv₀ := hv
  rw [denote_op hssa hn hblk] at hv
  obtain ⟨bvs, hbvs, hev⟩ := Option.bind_eq_some.1 hv
  have hfa := forall₂_of_mapM hbvs
  obtain ⟨id, kind, ops⟩ := o
  cases kind with
  | branch => exact absurd rfl hk
  | write =>
    obtain ⟨v, a, i, rfl, rfl⟩ := evalValue_write (.inl rfl) hev
    obtain ⟨x₁, x₂, x₃, rfl, h₁, h₂, h₃⟩ := forall₂_triple hfa
    obtain ⟨iv₁, hP₁, hi₁⟩ := hop _ (by simp) _ h₁
    obtain ⟨iv₂, hP₂, hi₂⟩ := hop _ (by simp) _ h₂
    obtain ⟨iv₃, hP₃, hi₃⟩ := hop _ (by simp) _ h₃
    rw [IVal.holds_int] at hi₁ hi₃
    subst hi₁ hi₃
    obtain ⟨b, rfl, hb⟩ := hi₂.arr (hnp nofun _ (by simp) _ hP₂)
    exact ⟨[.int v, .ref b, .int i], .ref (.res id), update H (.res id) (some (store a i v)),
      mapM_triple hP₁ hP₂ hP₃, by simp [stepInPlace, IVal.buf, hb],
      h.extend hv₀ (by simp [IVal.Holds, update]) (by simp [IVal.buf, sharesOf])
        (fun _ _ _ => nofun) (hfresh _)⟩
  | writeInPlace =>
    obtain ⟨v, a, i, rfl, rfl⟩ := evalValue_write (.inr rfl) hev
    obtain ⟨x₁, x₂, x₃, rfl, h₁, h₂, h₃⟩ := forall₂_triple hfa
    obtain ⟨iv₁, hP₁, hi₁⟩ := hop _ (by simp) _ h₁
    obtain ⟨iv₂, hP₂, hi₂⟩ := hop _ (by simp) _ h₂
    obtain ⟨iv₃, hP₃, hi₃⟩ := hop _ (by simp) _ h₃
    rw [IVal.holds_int] at hi₁ hi₃
    subst hi₁ hi₃
    obtain ⟨b, rfl, hb⟩ := hi₂.arr (hnp nofun _ (by simp) _ hP₂)
    have hb₂ : b ∈ sharesOf (sharesAfter done fun v => [v]) ⟨id, .writeInPlace, [x₁, x₂, x₃]⟩ := by
      simpa [sharesOf] using h.buf _ _ b hP₂ rfl
    by_cases hd : deferred blk id
    · exact ⟨_, .pend b i v, H, mapM_triple hP₁ hP₂ hP₃, by simp [stepInPlace, IVal.buf, hd],
        h.extend hv₀ (show IVal.Holds H (.pend b i v) (.arr (store a i v)) from ⟨a, hb, rfl⟩)
          (fun _ hb' => by cases hb'; exact hb₂)
          (fun _ _ _ _ => by simp [pendingIn, opById_of_nodup hn ho, hd])
          fun _ _ _ _ _ _ hiv => hiv⟩
    · exact ⟨_, .ref b, update H b (some (store a i v)), mapM_triple hP₁ hP₂ hP₃,
        by simp [stepInPlace, IVal.buf, hd, hb],
        h.extend hv₀ (by simp [IVal.Holds, update]) (fun _ hb' => by cases hb'; exact hb₂)
          (fun _ _ _ => nofun)
          (hover x₂ (by simp [overwrites, hd]) (by simp) b (by simpa [sharesOf] using hb₂) _)⟩
  | read =>
    obtain ⟨a, i, rfl, rfl⟩ := evalValue_read hev
    obtain ⟨x₁, x₂, rfl, h₁, h₂⟩ := forall₂_pair hfa
    obtain ⟨iv₁, hP₁, hi₁⟩ := hop _ (by simp) _ h₁
    obtain ⟨iv₂, hP₂, hi₂⟩ := hop _ (by simp) _ h₂
    rw [IVal.holds_int] at hi₂
    subst hi₂
    obtain ⟨b, rfl, hb⟩ := hi₁.arr (hnp nofun _ (by simp) _ hP₁)
    exact ⟨[.ref b, .int i], .int (a i), H, by rw [List.mapM_cons, List.mapM_cons, hP₁, hP₂]; rfl,
      by simp [stepInPlace, IVal.buf, hb],
      h.extend hv₀ rfl (by simp [IVal.buf]) (fun _ _ _ => nofun) fun _ _ _ _ _ _ hiv => hiv⟩
  | ite =>
    obtain ⟨c, bx, bz, rfl, rfl⟩ := evalValue_ite hev
    obtain ⟨x₁, x₂, x₃, rfl, h₁, h₂, h₃⟩ := forall₂_triple hfa
    obtain ⟨iv₁, hP₁, hi₁⟩ := hop _ (by simp) _ h₁
    obtain ⟨iv₂, hP₂, hi₂⟩ := hop _ (by simp) _ h₂
    obtain ⟨iv₃, hP₃, hi₃⟩ := hop _ (by simp) _ h₃
    rw [IVal.holds_int] at hi₁
    subst hi₁
    obtain ⟨xz, hxz, hPz, hiz⟩ : ∃ xz ∈ [x₂, x₃], P xz = some (if c ≠ 0 then iv₂ else iv₃) ∧
        (if c ≠ 0 then iv₂ else iv₃).Holds H (if c ≠ 0 then bx else bz) := by
      split_ifs
      · exact ⟨x₂, by simp, hP₂, hi₂⟩
      · exact ⟨x₃, by simp, hP₃, hi₃⟩
    have hstep : stepInPlace I blk ⟨id, .ite, [x₁, x₂, x₃]⟩ H [.int c, iv₂, iv₃] =
        match if c ≠ 0 then iv₂ else iv₃ with
        | .pend b i v => (H b).bind fun a => some (.ref b, update H b (some (store a i v)))
        | z => some (z, H) := rfl
    refine ⟨[.int c, iv₂, iv₃], ?_⟩
    rw [hstep]
    have hmap := mapM_triple hP₁ hP₂ hP₃
    have hsh : ∀ b, (if c ≠ 0 then iv₂ else iv₃).buf = some b →
        b ∈ sharesOf (sharesAfter done fun v => [v]) ⟨id, .ite, [x₁, x₂, x₃]⟩ := fun b hb => by
      have := h.buf xz _ b hPz hb
      simp only [List.mem_cons, List.mem_singleton, List.not_mem_nil, or_false] at hxz
      rcases hxz with rfl | rfl <;> simp [sharesOf, this]
    generalize (if c ≠ 0 then iv₂ else iv₃) = iz at hPz hiz hsh ⊢
    generalize (if c ≠ 0 then bx else bz) = bw at hiz hv₀
    cases iz with
    | int n => exact ⟨_, _, hmap, rfl,
        h.extend hv₀ hiz hsh (fun _ _ _ => nofun) fun _ _ _ _ _ _ hiv => hiv⟩
    | ref b => exact ⟨_, _, hmap, rfl,
        h.extend hv₀ hiz hsh (fun _ _ _ => nofun) fun _ _ _ _ _ _ hiv => hiv⟩
    | pend b i v =>
      obtain ⟨c', hc', rfl⟩ := hiz.pend
      refine ⟨.ref b, update H b (some (store c' i v)), hmap, by simp [hc'],
        h.extend hv₀ (by simp [IVal.Holds, update]) hsh (fun _ _ _ => nofun)
          (hover xz ?_ (by simp_all) b (h.buf xz _ b hPz rfl) _)⟩
      simp only [overwrites, List.mem_filter]
      exact ⟨hxz, h.pend xz b i v hPz⟩
  | other name =>
    obtain ⟨ivs, hivs, hR⟩ := mapM_of_forall₂ (g := P)
        (R := fun iv bv => iv.Holds H bv ∧ ∀ b i v, iv ≠ .pend b i v) hfa fun x hx bv hbv => by
      obtain ⟨iv, hP, hiv⟩ := hop x hx bv hbv
      exact ⟨iv, hP, hiv, hnp nofun x hx iv hP⟩
    have hread := mapM_read hR
    change I name bvs = some val at hev
    cases val with
    | int n => exact ⟨ivs, .int n, H, hivs, by simp only [stepInPlace, hread]; simp [hev],
        h.extend hv₀ rfl (by simp [IVal.buf]) (fun _ _ _ => nofun) fun _ _ _ _ _ _ hiv => hiv⟩
    | arr a => exact ⟨ivs, .ref (.res id), update H (.res id) (some a), hivs,
        by simp only [stepInPlace, hread]; simp [hev],
        h.extend hv₀ (by simp [IVal.Holds, update]) (by simp [IVal.buf, sharesOf])
          (fun _ _ _ => nofun) (hfresh _)⟩

end Step

section RunInPlace

variable {I : Interp} {blk post : List BOp} {br : BOp} {input : Val → Option BVal}
  (hssa : SSAOrdered blk) (hn : (blk.map (·.id)).Nodup) (hsafe : Unobserved blk)
  (hbr : br.kind = .branch)
include hssa hn hsafe hbr

/-- From a state that simulates the denotation, the in-place run of the
operations up to the first branch gives the branch its operands'
denotations, when every operation before it has one. -/
theorem runInPlace_from : ∀ (done pre₂ : List BOp) (P : Val → Option IVal) (H : Heap),
    blk = done ++ pre₂ ++ br :: post → (∀ o ∈ pre₂, o.kind ≠ .branch) →
    (∀ o ∈ pre₂, (denote (evalValue I) blk input blk.length (.res o.id)).isSome) →
    Sim blk (denote (evalValue I) blk input blk.length) done (pre₂ ++ [br]) P H →
    ∀ {args : List BVal}, br.operands.mapM (denote (evalValue I) blk input blk.length) = some args →
    (runInPlace I blk (pre₂ ++ br :: post) P H).map (·.2.2) = some args
  | done, [], P, H, hblk, _, _, h, args, hargs => by
    have hbrm : br ∈ blk := by simp [hblk]
    obtain ⟨ivs, hivs, hR⟩ := mapM_of_forall₂ (g := P)
        (R := fun iv bv => iv.Holds H bv ∧ ∀ b i v, iv ≠ .pend b i v) (forall₂_of_mapM hargs)
        fun x hx bv hbv => by
      obtain ⟨iv, hP, hiv⟩ :=
        h.holds x (hssa.ready (by simpa using hblk) hx) ⟨br, List.mem_singleton_self _, hx⟩ bv hbv
      refine ⟨iv, hP, hiv, fun b i v he => ?_⟩
      have := kind_of_pendingIn hn (h.pend x b i v (he ▸ hP)) hbrm hx
      rw [hbr] at this
      cases this
    rw [List.nil_append, runInPlace_cons_branch hbr, hivs, Option.some_bind, mapM_read hR]
    rfl
  | done, o :: pre₂, P, H, hblk, hpre, hall, h, args, hargs => by
    have hblk' : blk = done ++ o :: (pre₂ ++ br :: post) := by simp [hblk]
    have hk := hpre o (List.mem_cons_self _ _)
    obtain ⟨val, hv⟩ := Option.isSome_iff_exists.1 (hall o (List.mem_cons_self _ _))
    obtain ⟨ivs, x, H', hivs, hstep, h'⟩ := h.step hssa hn hsafe hblk'
      ((List.singleton_sublist.2 (List.mem_cons_self br post)).append_left pre₂).subset hk hv
    rw [List.cons_append, runInPlace_cons_of_ne hk, hivs, Option.some_bind, hstep, Option.some_bind]
    exact runInPlace_from (done ++ [o]) pre₂ _ _ (by simp [hblk])
      (fun o' ho' => hpre o' (List.mem_cons_of_mem _ ho'))
      (fun o' ho' => hall o' (List.mem_cons_of_mem _ ho')) h' hargs

/-- **On an unobserved body the in-place run is the denotation.** An
SSA-ordered body with distinct ids and the `Unobserved` property, run in
place from its input, reaches its first branch `br` with the values the
denotation gives its operands, when every operation before `br` has one. -/
theorem runInPlace_of_denote {pre : List BOp} (hblk : blk = pre ++ br :: post)
    (hpre : ∀ o ∈ pre, o.kind ≠ .branch)
    (hall : ∀ o ∈ pre, (denote (evalValue I) blk input blk.length (.res o.id)).isSome)
    {args : List BVal}
    (hargs : br.operands.mapM (denote (evalValue I) blk input blk.length) = some args) :
    (runInPlace I blk blk (IVal.ofInput input) (heapOfInput input)).map (·.2.2) = some args := by
  have := runInPlace_from hssa hn hsafe hbr [] pre _ _ (by simpa using hblk) hpre hall
    (Sim.init fun _ hx => denote_of_ready_nil hx _) hargs
  rwa [← hblk] at this

end RunInPlace

end Btor
end Btor2Mlir
