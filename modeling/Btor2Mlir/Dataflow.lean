import Btor2Mlir.IR

/-!
# What a list of operations computes, and rewrites that keep it

`denote` reads a list of operations as a dataflow graph: the value of a
result is its operation's kind applied to the values of its operands, the
operation found by its id, so the value does not depend on where the
operations stand; a block argument, or a result no operation of the list
defines, takes its value from the input. Fuel bounds the depth.

Both rewrite passes make the same change, `substitute`: they create an
operation over the operands of another right after it and move every use of
the other's result to it (`setInsertionPointAfterValue`, `create`,
`replaceAllUsesWith`). When the new kind computes what the old one did, the
change keeps the value of every value, up to renaming the old result to the
new one (`denote_convert`). `Renaming` is what a pass's loop keeps of its
input: every operation is there with its operands renamed, every other one
is a conversion, and every value means, renamed, what it did. The change also
keeps every use after its definition (`Ordered.substitute`).
-/

namespace Btor2Mlir

variable {κ V : Type} (eval : κ → List V → Option V)

/-- The value of `v` in the list `blk`, computed through the operations of
`blk` that define it, at most `fuel` deep; a value no operation of `blk`
defines comes from `input`. -/
def denote (blk : List (Op κ)) (input : Val → Option V) : Nat → Val → Option V
  | _, .arg b i => input (.arg b i)
  | 0, .res k => if (opById blk k).isSome then none else input (.res k)
  | fuel + 1, .res k =>
    match opById blk k with
    | some o => (o.operands.mapM (denote blk input fuel)).bind (eval o.kind)
    | none => input (.res k)

/-- `x` created right after `w`, taking over every use of `w`'s result. -/
def substitute (ops : List (Op κ)) (w x : Op κ) : List (Op κ) :=
  replaceAllUsesWith (insertAfter w.id x ops) (.res w.id) (.res x.id)

/-- `x` is a block argument or names a result below the fresh id of `ops`. -/
def Within (ops : List (Op κ)) (x : Val) : Prop := ∀ k, x = .res k → k < fresh ops

variable {eval} {blk blk' : List (Op κ)} {input : Val → Option V}

@[simp] theorem denote_arg (fuel b i : Nat) :
    denote eval blk input fuel (.arg b i) = input (.arg b i) := by
  cases fuel <;> rfl

theorem denote_res_zero (k : Nat) :
    denote eval blk input 0 (.res k) = if (opById blk k).isSome then none else input (.res k) := rfl

theorem denote_res_succ (fuel k : Nat) : denote eval blk input (fuel + 1) (.res k) =
    match opById blk k with
    | some o => (o.operands.mapM (denote eval blk input fuel)).bind (eval o.kind)
    | none => input (.res k) := rfl

/-- The denotation sees the list only through `opById`. -/
theorem denote_congr (h : ∀ k, opById blk k = opById blk' k) (fuel : Nat) :
    denote eval blk input fuel = denote eval blk' input fuel := by
  induction fuel with
  | zero => funext v; cases v <;> simp [denote_res_zero, h]
  | succ fuel ih => funext v; cases v <;> simp [denote_res_succ, h, ih]

theorem mapM_congr {α γ : Type} {l : List α} {g h : α → Option γ} (hl : ∀ x ∈ l, g x = h x) :
    l.mapM g = l.mapM h := by
  induction l with
  | nil => rfl
  | cons x l ih =>
    simp only [List.mapM_cons, hl x (List.mem_cons_self _ _),
      ih fun y hy => hl y (List.mem_cons_of_mem _ hy)]

theorem mapM_map_congr {α β γ : Type} {l : List α} {τ : α → β} {g : β → Option γ}
    {h : α → Option γ} (hl : ∀ x ∈ l, g (τ x) = h x) : (l.map τ).mapM g = l.mapM h := by
  induction l with
  | nil => rfl
  | cons x l ih =>
    simp only [List.map_cons, List.mapM_cons, hl x (List.mem_cons_self _ _),
      ih fun y hy => hl y (List.mem_cons_of_mem _ hy)]

theorem ids_replaceAllUsesWith (ops : List (Op κ)) (v w : Val) :
    (replaceAllUsesWith ops v w).map (·.id) = ops.map (·.id) := by
  simp [replaceAllUsesWith, Function.comp_def]

theorem ids_substitute {ops : List (Op κ)} {w : Op κ} (hw : w ∈ ops) (x : Op κ) :
    ((substitute ops w x).map (·.id)).Perm (x.id :: ops.map (·.id)) := by
  rw [substitute, ids_replaceAllUsesWith]
  exact (insertAfter_perm ⟨w, hw, rfl⟩).map _

theorem within_id {ops : List (Op κ)} {o : Op κ} (ho : o ∈ ops) : Within ops (.res o.id) :=
  fun _ hk => Val.res.inj hk ▸ id_lt_fresh ho

theorem within_operand {ops : List (Op κ)} {o : Op κ} {x : Val} (ho : o ∈ ops)
    (hx : x ∈ o.operands) : Within ops x :=
  fun _ hk => res_lt_fresh ho (hk ▸ hx)

/-! ### One substitution -/

section Convert

variable {w : Op κ} {n : Nat} {k : κ}

/-- A substitution keeps the value of every value but the new one, with `w`'s
result renamed to it: the new operation `n`, a `k` over `w`'s operands, denotes
what `w` did when `k` computes what `w`'s kind does. -/
theorem denote_convert (hn : (blk.map (·.id)).Nodup) (hw : w ∈ blk)
    (hk : ∀ args, eval k args = eval w.kind args)
    (hfresh : ∀ o ∈ blk, o.id ≠ n ∧ .res n ∉ o.operands) (fuel : Nat) :
    ∀ y, y ≠ .res n →
      denote eval (substitute blk w ⟨n, k, w.operands⟩) input fuel
        (if y = .res w.id then .res n else y) = denote eval blk input fuel y := by
  have hop (k' : Nat) (hk' : k' ≠ n) : opById (substitute blk w ⟨n, k, w.operands⟩) k' =
      (opById blk k').map (·.replaceUses (.res w.id) (.res n)) := by
    rw [substitute, opById_replaceAllUsesWith, opById_insertAfter (Ne.symm hk')]
  have hnew : opById (substitute blk w ⟨n, k, w.operands⟩) n =
      some ((⟨n, k, w.operands⟩ : Op κ).replaceUses (.res w.id) (.res n)) := by
    rw [substitute, opById_replaceAllUsesWith,
      opById_insertAfter_self ⟨w, hw, rfl⟩ fun o ho => (hfresh o ho).1]
    rfl
  have hwb : opById blk w.id = some w := opById_of_nodup hn hw
  induction fuel with
  | zero =>
    intro y hy
    cases y with
    | arg b i => simp
    | res k' =>
      by_cases hk' : k' = w.id
      · subst hk'
        simp [denote_res_zero, hnew, hwb]
      · simp [denote_res_zero, hk', hop k' fun h => hy (h ▸ rfl)]
  | succ fuel ih =>
    intro y hy
    have hops (o : Op κ) (ho : o ∈ blk) :
        (o.operands.map fun x => if x = .res w.id then .res n else x).mapM
          (denote eval (substitute blk w ⟨n, k, w.operands⟩) input fuel) =
          o.operands.mapM (denote eval blk input fuel) :=
      mapM_map_congr fun x hx => ih x fun h => (hfresh o ho).2 (h ▸ hx)
    cases y with
    | arg b i => simp
    | res k' =>
      by_cases hk' : k' = w.id
      · subst hk'
        simp only [if_true, denote_res_succ, hnew, hwb, Op.replaceUses, hops w hw, hk]
      · simp only [show (Val.res k' = .res w.id) = False by simpa using hk', if_false,
          denote_res_succ, hop k' fun h => hy (h ▸ rfl)]
        cases hb : opById blk k' with
        | none => rfl
        | some o =>
          simp only [Option.map_some', Op.replaceUses, Op.replaceUses_kind]
          rw [hops o (opById_mem hb)]

end Convert

/-! ### The invariant of a rewriting loop -/

/-- What a loop of substitutions keeps of the operations `ops` (within
`scope`, which fixes the fresh ids) in the current operations `cur` (within
`scope'`), with `σ` renaming each converted result to its substitute's and
fixing the results of the operations `rest` still to visit: every operation
of `ops` is in `cur` with its operands renamed; every other one is a
conversion, of kind `conv`, that an operation's result was renamed to; and
every value means, renamed, what it did. -/
structure Renaming (eval : κ → List V → Option V) (conv : κ → κ → Prop)
    (scope ops rest scope' cur : List (Op κ)) (σ : Val → Val) : Prop where
  nodup : (scope'.map (·.id)).Nodup
  sub : cur.Sublist scope'
  within : ∀ x, Within scope x → Within scope' (σ x)
  fixes : ∀ o ∈ rest, σ (.res o.id) = .res o.id
  kept : ∀ o ∈ ops, ∃ o' ∈ cur, o'.id = o.id ∧ o'.kind = o.kind ∧
    o'.operands = o.operands.map σ
  new : ∀ o' ∈ cur, (∃ o ∈ ops, o'.id = o.id ∧ o'.kind = o.kind) ∨
    ∃ w ∈ ops, conv w.kind o'.kind ∧ σ (.res w.id) = .res o'.id
  means : ∀ input fuel x, Within scope x →
    denote eval cur input fuel (σ x) = denote eval ops input fuel x

section Renaming

variable {conv : κ → κ → Prop} {scope ops rest scope' cur : List (Op κ)} {σ : Val → Val}
  {op w : Op κ}

theorem Renaming.init (hn : (scope.map (·.id)).Nodup) (hs : ops.Sublist scope) :
    Renaming eval conv scope ops ops scope ops id :=
  ⟨hn, hs, fun _ h => h, fun _ _ => rfl, fun o ho => ⟨o, ho, rfl, rfl, by simp⟩,
    fun o ho => .inl ⟨o, ho, rfl, rfl⟩, fun _ _ _ _ => rfl⟩

theorem Renaming.nodup_cur (h : Renaming eval conv scope ops rest scope' cur σ) :
    (cur.map (·.id)).Nodup :=
  h.nodup.sublist (h.sub.map _)

/-- A turn that changes nothing. -/
theorem Renaming.tail (h : Renaming eval conv scope ops (op :: rest) scope' cur σ) :
    Renaming eval conv scope ops rest scope' cur σ :=
  ⟨h.nodup, h.sub, h.within, fun o ho => h.fixes o (List.mem_cons_of_mem _ ho), h.kept, h.new,
    h.means⟩

/-- A change of order only. -/
theorem Renaming.perm (h : Renaming eval conv scope ops rest scope' cur σ)
    {scope'' cur' : List (Op κ)} (hs : scope''.Perm scope') (hc : cur'.Perm cur)
    (hsub : cur'.Sublist scope'') : Renaming eval conv scope ops rest scope'' cur' σ := by
  have hn : (scope''.map (·.id)).Nodup := (hs.map _).nodup_iff.2 h.nodup
  refine ⟨hn, hsub, fun x hx k hk => by rw [fresh_perm hs]; exact h.within x hx k hk, h.fixes,
    fun o ho => ?_, fun o' ho' => h.new o' (hc.subset ho'), fun input fuel x hx => ?_⟩
  · obtain ⟨o', ho', hrest⟩ := h.kept o ho
    exact ⟨o', hc.symm.subset ho', hrest⟩
  · rw [denote_congr (opById_perm hc (hn.sublist (hsub.map _)))]
    exact h.means input fuel x hx

/-- The operation of `cur` found by an id of `ops` has its kind. -/
theorem Renaming.kind_eq (h : Renaming eval conv scope ops rest scope' cur σ) (hop : op ∈ ops)
    (hw : opById cur op.id = some w) : w.kind = op.kind := by
  obtain ⟨o', ho', hid, hkd, -⟩ := h.kept op hop
  rw [← hid, opById_of_nodup h.nodup_cur ho', Option.some.injEq] at hw
  rw [← hw, hkd]

/-- A substitution of the operation of `cur` with the id of `op`, the next to
visit, by a conversion that computes what it did, with `scope₂` the new
scope. -/
theorem Renaming.convert (h : Renaming eval conv scope ops (op :: rest) scope' cur σ)
    (hop : op ∈ ops) (hrest : ∀ o ∈ rest, o.id ≠ op.id) (hw : opById cur op.id = some w) {k : κ}
    (hconv : conv w.kind k) (htarget : ∀ a, ¬ conv a w.kind)
    (heval : ∀ args, eval k args = eval w.kind args) {scope₂ : List (Op κ)}
    (hscope : (scope₂.map (·.id)).Perm (fresh scope' :: scope'.map (·.id)))
    (hsub : (substitute cur w ⟨fresh scope', k, w.operands⟩).Sublist scope₂) :
    Renaming eval conv scope ops rest scope₂ (substitute cur w ⟨fresh scope', k, w.operands⟩)
      fun x => if σ x = .res w.id then .res (fresh scope') else σ x := by
  have hnd := h.nodup_cur
  have hw₁ : w ∈ cur := opById_mem hw
  have hwid : w.id = op.id := opById_id hw
  have hfresh : ∀ o ∈ cur, o.id ≠ fresh scope' ∧ .res (fresh scope') ∉ o.operands :=
    fun o ho => ⟨(id_lt_fresh (h.sub.subset ho)).ne,
      fun hm => lt_irrefl _ (res_lt_fresh (h.sub.subset ho) hm)⟩
  have hnew : (⟨fresh scope', k, w.operands⟩ : Op κ).replaceUses (.res w.id) (.res (fresh scope')) ∈
      substitute cur w ⟨fresh scope', k, w.operands⟩ :=
    List.mem_map_of_mem _ ((insertAfter_perm ⟨w, hw₁, rfl⟩).symm.subset (List.mem_cons_self _ _))
  refine ⟨hscope.nodup_iff.2 (List.nodup_cons.2 ⟨fun hm => ?_, h.nodup⟩), hsub, ?_, ?_, ?_, ?_, ?_⟩
  · obtain ⟨o, ho, hid⟩ := List.mem_map.1 hm
    exact absurd hid (id_lt_fresh ho).ne
  · intro x hx k' hk'
    refine Nat.lt_of_le_of_lt ?_ (id_lt_fresh (hsub.subset hnew))
    split_ifs at hk'
    · cases hk'
      exact le_rfl
    · exact (h.within x hx k' hk').le
  · intro o ho
    simp only [h.fixes o (List.mem_cons_of_mem _ ho), Val.res.injEq, hwid, hrest o ho, if_false]
  · intro o ho
    obtain ⟨o', ho', hid, hkd, hopd⟩ := h.kept o ho
    exact ⟨o'.replaceUses (.res w.id) (.res (fresh scope')),
      List.mem_map_of_mem _ (mem_insertAfter_of_mem ho'), hid, hkd,
      by simp [Op.replaceUses, hopd, Function.comp_def]⟩
  · intro o'' ho''
    obtain ⟨o', ho', rfl⟩ := mem_replaceAllUsesWith.1 ho''
    rcases eq_or_mem_of_mem_insertAfter ho' with rfl | ho'
    · exact .inr ⟨op, hop, h.kind_eq hop hw ▸ hconv, by simp [h.fixes op (List.mem_cons_self _ _), hwid]⟩
    rcases h.new o' ho' with ⟨o, ho, hid, hkd⟩ | ⟨w', hw', hkd, hσ⟩
    · exact .inl ⟨o, ho, hid, hkd⟩
    have hne : o'.id ≠ w.id := fun he => by
      have ho := opById_of_nodup hnd ho'
      rw [he, opById_of_nodup hnd hw₁, Option.some.injEq] at ho
      exact htarget _ (ho ▸ hkd)
    exact .inr ⟨w', hw', hkd, by simp [hσ, hne]⟩
  · intro input fuel x hx
    have hy : σ x ≠ .res (fresh scope') := fun he => absurd (h.within x hx _ he) (lt_irrefl _)
    rw [denote_convert hnd hw₁ heval hfresh fuel (σ x) hy]
    exact h.means input fuel x hx

/-- A loop whose every turn keeps the invariant keeps it over the operations
`l` still to visit, those of `ops`, with distinct ids. -/
theorem Renaming.foldlM {S : Type} (scopeOf curOf : S → List (Op κ)) {visit : S → Op κ → Option S}
    (hstep : ∀ {s s' : S} {op : Op κ} {rest : List (Op κ)} {σ : Val → Val},
      Renaming eval conv scope ops (op :: rest) (scopeOf s) (curOf s) σ → op ∈ ops →
      (∀ o ∈ rest, o.id ≠ op.id) → visit s op = some s' →
      ∃ σ', Renaming eval conv scope ops rest (scopeOf s') (curOf s') σ') :
    ∀ {l : List (Op κ)} {s s' : S} {σ : Val → Val},
      Renaming eval conv scope ops l (scopeOf s) (curOf s) σ → (∀ o ∈ l, o ∈ ops) →
      (l.map (·.id)).Nodup → l.foldlM visit s = some s' →
      ∃ σ', Renaming eval conv scope ops [] (scopeOf s') (curOf s') σ'
  | [], _, _, σ, h, _, _, hf => by cases hf; exact ⟨σ, h⟩
  | op :: l, s, s', σ, h, hl, hnd, hf => by
    simp only [List.foldlM_cons, bind, Option.bind_eq_some] at hf
    obtain ⟨c, hc, hf⟩ := hf
    obtain ⟨σ', h'⟩ := hstep h (hl op (List.mem_cons_self _ _))
      (fun o ho he => (List.nodup_cons.1 hnd).1 (List.mem_map.2 ⟨o, ho, he⟩)) hc
    exact Renaming.foldlM scopeOf curOf hstep h' (fun o ho => hl o (List.mem_cons_of_mem _ ho))
      hnd.of_cons hf

variable (hn : (scope.map (·.id)).Nodup) (hs : ops.Sublist scope)
include hn hs

/-- An operation of `ops` has in `cur`, at every depth, the value it had. -/
theorem Renaming.denote_kept (h : Renaming eval conv scope ops rest scope' cur σ) {o : Op κ}
    (ho : o ∈ ops) (fuel : Nat) :
    denote eval cur input fuel (.res o.id) = denote eval ops input fuel (.res o.id) := by
  have hnops : (ops.map (·.id)).Nodup := hn.sublist (hs.map _)
  obtain ⟨o', ho', hid, hkd, hopd⟩ := h.kept o ho
  have h' : opById cur o.id = some o' := hid ▸ opById_of_nodup h.nodup_cur ho'
  cases fuel with
  | zero => simp [denote_res_zero, h', opById_of_nodup hnops ho]
  | succ fuel =>
    rw [denote_res_succ, denote_res_succ, h', opById_of_nodup hnops ho]
    simp only [hkd, hopd]
    rw [mapM_map_congr fun x hx => h.means input fuel x (within_operand (hs.subset ho) hx)]

/-- Every operation of `cur` has, at every depth, the value an operation of
`ops` of its kind, or converted to its kind, had. -/
theorem Renaming.denote_new (h : Renaming eval conv scope ops rest scope' cur σ) {o' : Op κ}
    (ho' : o' ∈ cur) : ∃ o ∈ ops, (o.kind = o'.kind ∨ conv o.kind o'.kind) ∧
      ∀ input fuel, denote eval cur input fuel (.res o'.id) = denote eval ops input fuel (.res o.id) := by
  rcases h.new o' ho' with ⟨o, ho, hid, hkd⟩ | ⟨w, hw, hc, hσ⟩
  · exact ⟨o, ho, .inl hkd.symm, fun input fuel => by rw [hid]; exact h.denote_kept hn hs ho fuel⟩
  · refine ⟨w, hw, .inr hc, fun input fuel => ?_⟩
    rw [← hσ]
    exact h.means input fuel _ (within_id (hs.subset hw))

end Renaming

/-- A property each step over an element of the list keeps holds after the
fold. -/
theorem foldlM_inv_mem {S α : Type} (p : S → Prop) {step : S → α → Option S} :
    ∀ {l : List α} {s s' : S}, (∀ s a s', a ∈ l → p s → step s a = some s' → p s') → p s →
      l.foldlM step s = some s' → p s'
  | [], _, _, _, hs, h => by cases h; exact hs
  | a :: _, s, _, hstep, hs, h => by
    simp only [List.foldlM_cons, bind, Option.bind_eq_some] at h
    obtain ⟨c, hc, h⟩ := h
    exact foldlM_inv_mem p (fun s b s' hb => hstep s b s' (.tail _ hb))
      (hstep s a c (.head _) hs hc) h

/-- A property each step keeps holds after the fold. -/
theorem foldlM_inv {S α : Type} (p : S → Prop) {step : S → α → Option S}
    (hstep : ∀ s a s', p s → step s a = some s' → p s') {l : List α} {s s' : S} (hs : p s)
    (h : l.foldlM step s = some s') : p s' :=
  foldlM_inv_mem p (fun s a s' _ => hstep s a s') hs h

/-! ### Def-before-use order

`substitute` puts the new operation right after the old one, over the old
one's operands, and renames only uses of the old one: every use stays after
its definition. -/

/-- `a` does not use the result of `b`. -/
def Op.NoUse (a b : Op κ) : Prop := Val.res b.id ∉ a.operands

instance (a b : Op κ) : Decidable (a.NoUse b) :=
  inferInstanceAs (Decidable (Val.res b.id ∉ a.operands))

/-- No operation uses its own result or that of a later one. -/
def Ordered (ops : List (Op κ)) : Prop := ops.Pairwise Op.NoUse ∧ ∀ o ∈ ops, o.NoUse o

instance (ops : List (Op κ)) : Decidable (Ordered ops) :=
  inferInstanceAs (Decidable (ops.Pairwise Op.NoUse ∧ ∀ o ∈ ops, o.NoUse o))

section Order

variable {α : Type} {R : α → α → Prop} {P Q Q' : List α} {T o : α}

/-- `o`, taken from after `T`, put right before it. -/
theorem pairwise_lift (h : (P ++ T :: Q).Pairwise R) (ho : o ∈ Q) (hsub : Q'.Sublist Q)
    (hR : ∀ d ∈ T :: Q', R o d) : (P ++ o :: T :: Q').Pairwise R := by
  rw [List.pairwise_append] at h ⊢
  obtain ⟨hP, hTQ, hPTQ⟩ := h
  refine ⟨hP, List.pairwise_cons.2 ⟨hR, hTQ.sublist (hsub.cons_cons T)⟩, fun a ha b hb => ?_⟩
  rcases List.mem_cons.1 hb with rfl | hb
  · exact hPTQ a ha _ (List.mem_cons_of_mem _ ho)
  · exact hPTQ a ha b ((hsub.cons_cons T).subset hb)

/-- `o` put right after `T`. -/
theorem pairwise_insert (h : (P ++ T :: Q).Pairwise R) (hl : ∀ a ∈ P ++ [T], R a o)
    (hr : ∀ b ∈ Q, R o b) : (P ++ T :: o :: Q).Pairwise R := by
  rw [show P ++ T :: Q = (P ++ [T]) ++ Q by simp, List.pairwise_append] at h
  rw [show P ++ T :: o :: Q = (P ++ [T]) ++ o :: Q by simp, List.pairwise_append,
    List.pairwise_cons]
  exact ⟨h.1, ⟨hr, h.2.1⟩, fun a ha b hb =>
    (List.mem_cons.1 hb).elim (fun e => e ▸ hl a ha) (h.2.2 a ha b)⟩

theorem mem_of_mem_insert {w x y : α} (h : y ∈ P ++ w :: x :: Q) : y = x ∨ y ∈ P ++ w :: Q := by
  simp only [List.mem_append, List.mem_cons] at h ⊢
  tauto

end Order

section Substitute

variable {ops : List (Op κ)} {a b w x : Op κ}

theorem noUse_replaceUses (h : a.NoUse b) (hb : b.id ≠ x.id) :
    (a.replaceUses (.res w.id) (.res x.id)).NoUse (b.replaceUses (.res w.id) (.res x.id)) := by
  simp only [Op.NoUse, Op.replaceUses_id, mem_replaceUses_operands, Val.res.injEq, not_or, not_and]
  exact ⟨fun h' => absurd h' h, fun h' => absurd h' hb⟩

/-- What used `w` now uses `x`, which comes right after `w`. -/
theorem noUse_replaceUses_new (h : a.NoUse w) (hx : Val.res x.id ∉ a.operands) :
    (a.replaceUses (.res w.id) (.res x.id)).NoUse (x.replaceUses (.res w.id) (.res x.id)) := by
  simp only [Op.NoUse, Op.replaceUses_id, mem_replaceUses_operands, not_or, not_and]
  exact ⟨fun h' => absurd h' hx, fun _ => h⟩

/-- The fresh id of a list is no id of it and no operand of it names it. -/
theorem fresh_new {scope : List (Op κ)} (ho : a ∈ scope) :
    a.id ≠ fresh scope ∧ Val.res (fresh scope) ∉ a.operands :=
  ⟨(id_lt_fresh ho).ne, fun hu => lt_irrefl _ (res_lt_fresh ho hu)⟩

theorem Op.replaceUses_of_not_mem {v v' : Val} (h : v ∉ a.operands) : a.replaceUses v v' = a := by
  obtain ⟨id, kind, operands⟩ := a
  simp only [Op.replaceUses, Op.mk.injEq, true_and]
  exact (List.map_congr_left fun y hy => if_neg fun (e : y = v) => h (e ▸ hy)).trans (List.map_id _)

/-- **`substitute` keeps the order.** With distinct ids, and the new operation
over the old one's operands, with an id no operation has or uses. -/
theorem Ordered.substitute (h : Ordered ops) (hn : (ops.map (·.id)).Nodup) (hw : w ∈ ops)
    (hx : ∀ o ∈ ops, o.id ≠ x.id ∧ Val.res x.id ∉ o.operands) (hxo : x.operands = w.operands) :
    Ordered (substitute ops w x) := by
  obtain ⟨P, Q, rfl⟩ := List.append_of_mem hw
  have hfresh : ∀ o ∈ P ++ w :: Q, o.id ≠ x.id := fun o ho => (hx o ho).1
  have hunused : ∀ o ∈ P ++ w :: Q, Val.res x.id ∉ o.operands := fun o ho => (hx o ho).2
  obtain ⟨hpw, hself⟩ := h
  have hPQ := List.pairwise_append.1 hpw
  have hwQ := List.pairwise_cons.1 hPQ.2.1
  have hl : ∀ a ∈ P ++ [w], a ∈ P ++ w :: Q ∧ a.NoUse w := fun a ha => by
    rcases List.mem_append.1 ha with ha | ha
    · exact ⟨List.mem_append_left _ ha, hPQ.2.2 a ha w (List.mem_cons_self _ _)⟩
    · obtain rfl := List.mem_singleton.1 ha
      exact ⟨hw, hself a hw⟩
  rw [Btor2Mlir.substitute, insertAfter_split (ids_ne_of_nodup hn).1 rfl, replaceAllUsesWith]
  refine ⟨List.pairwise_map.2 (pairwise_insert (hpw.imp_of_mem fun ha hb hab =>
    noUse_replaceUses hab (hfresh _ hb)) (fun a ha => ?_) (fun b hb => ?_)), ?_⟩
  · exact noUse_replaceUses_new (hl a ha).2 (hunused a (hl a ha).1)
  · exact noUse_replaceUses (by rw [Op.NoUse, hxo]; exact hwQ.1 b hb) (hfresh b (by simp [hb]))
  · simp only [List.mem_map, forall_exists_index, and_imp, forall_apply_eq_imp_iff₂]
    intro o ho
    rcases mem_of_mem_insert ho with rfl | ho
    · exact noUse_replaceUses_new (by rw [Op.NoUse, hxo]; exact hself w hw)
        (by rw [hxo]; exact hunused w hw)
    · exact noUse_replaceUses (hself o ho) (hfresh o ho)

end Substitute

end Btor2Mlir
