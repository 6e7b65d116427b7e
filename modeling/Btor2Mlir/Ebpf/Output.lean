import Btor2Mlir.Ebpf.Dataflow

/-!
# What `ResolveMemoryPass` leaves, and a second run

The loop over `main` only inserts and renames: a replacement puts a
`LoadAddrOp` with a new id right after its load, over the same operands, and
moves the load's uses to it. So the rewritten `main` holds the operations of
`main` in their order, each added operation sits right after the load it was
made for, and an operand changed only from a replaced load's result to that
of the `LoadAddrOp` next to it. No order of the input is assumed: `main` is
in region order, where a block may come before the block that dominates it,
and the pass keeps each use where it was, next to its new definition.

The replaced load stays, with no use. The pass erases `xdp_entry`, so it
rejects its own output; and the loop over `main`, run again on what it
returned, reaches a replaced load with an empty use list and fails the
assertion of line 28, unless it stopped before.

Key definitions: `Moved`, `Shape`.
Key theorems: `Shape.fold`, `resolveMemoryPass_keeps_order`,
`resolveMain_twice`, `resolveMemoryPass_rejects_output`.
-/

namespace Btor2Mlir
namespace Ebpf

variable {uo : UseOrder OpKind} {main vis cur cur' : List EOp} {X C L : EOp}

/-- Inserting after an operation other than `a` keeps `a` next to `b`. -/
theorem infix_insertAfter {t : Nat} {x a b : EOp} {ops : List EOp} (h : [a, b] <:+: ops)
    (ha : a.id ≠ t) : [a, b] <:+: insertAfter t x ops := by
  induction ops with
  | nil => simp at h
  | cons o ops ih =>
    rcases List.infix_cons_iff.1 h with ⟨rest, hr⟩ | hi
    · simp only [List.cons_append, List.nil_append, List.cons.injEq] at hr
      obtain ⟨rfl, rfl⟩ := hr
      simp only [insertAfter, if_neg ha]
      split_ifs
      exacts [⟨[], _, rfl⟩, ⟨[], _, rfl⟩]
    · simp only [insertAfter]
      split_ifs
      exacts [List.infix_cons (List.infix_cons hi), List.infix_cons (ih hi)]

/-! ### The shape of the rewritten `main` -/

/-- `v'` is `v`, or `v` is the result of a load of `vis` and `v'` that of the
`LoadAddrOp` right after it. -/
def Moved (main vis cur : List EOp) (v v' : Val) : Prop :=
  v' = v ∨ ∃ L la, [L, la] <:+: cur ∧ L.id ∈ vis.map (·.id) ∧ la.id ∉ main.map (·.id) ∧
    v = .res L.id ∧ v' = .res la.id

/-- What the loop keeps of `main` once it visited `vis`: distinct ids; the
operations of `main`, in their order; every other operation a `LoadAddrOp`
right after a visited `LoadOp`, over its operands; and the operations of
`main` with their operands under one renaming that only moves a visited
load's result to that of the `LoadAddrOp` after it. -/
structure Shape (main vis cur : List EOp) : Prop where
  nodup : (cur.map (·.id)).Nodup
  order : (cur.map (·.id)).filter (· ∈ main.map (·.id)) = main.map (·.id)
  added : ∀ la ∈ cur, la.id ∉ main.map (·.id) → la.kind = .loadAddr ∧
    ∃ L, [L, la] <:+: cur ∧ L.id ∈ vis.map (·.id) ∧ L.kind = .load .w8 ∧ la.operands = L.operands
  kept : ∃ σ : Val → Val, (∀ v, Moved main vis cur v (σ v)) ∧
    ∀ o' ∈ cur, o'.id ∈ main.map (·.id) →
      ∃ o ∈ main, o.id = o'.id ∧ o.kind = o'.kind ∧ o'.operands = o.operands.map σ

theorem Shape.init (hids : (main.map (·.id)).Nodup) : Shape main [] main where
  nodup := hids
  order := List.filter_eq_self.2 fun _ h => decide_eq_true h
  added := fun _ hla hn => absurd (List.mem_map_of_mem _ hla) hn
  kept := ⟨id, fun _ => .inl rfl, fun o' ho' _ => ⟨o', ho', rfl, rfl, (List.map_id _).symm⟩⟩

section Mono

variable {vis' : List EOp} (hv : ∀ k ∈ vis.map (·.id), k ∈ vis'.map (·.id))
include hv

theorem Moved.mono {v v' : Val} (h : Moved main vis cur v v') : Moved main vis' cur v v' :=
  h.imp_right fun ⟨L, la, hi, hL, h⟩ => ⟨L, la, hi, hv _ hL, h⟩

theorem Shape.mono (hs : Shape main vis cur) : Shape main vis' cur where
  nodup := hs.nodup
  order := hs.order
  added := fun la hla hn => (hs.added la hla hn).imp_right fun ⟨L, hi, hL, h⟩ => ⟨L, hi, hv _ hL, h⟩
  kept := let ⟨σ, hσ, h⟩ := hs.kept; ⟨σ, fun v => (hσ v).mono hv, h⟩

end Mono

/-- **A replacement keeps the shape.** `C`, found first under the id of `X`,
an operation of `main` not visited yet, is a `LoadOp`; its `LoadAddrOp` goes
right after it and takes its uses. -/
theorem Shape.of_withLoadAddr (hs : Shape main vis cur) (hC : opById cur X.id = some C)
    (hX : X ∈ main) (hXv : X.id ∉ vis.map (·.id)) (hk : C.kind = .load .w8) :
    Shape main (vis ++ [X]) (withLoadAddr cur C) := by
  obtain ⟨-, P, Q, hcur, hP⟩ := List.find?_eq_some.1 hC
  have hCid : C.id = X.id := opById_id hC
  have hCm : C ∈ cur := opById_mem hC
  have hmain : ∀ k ∈ main.map (·.id), k ∈ cur.map (·.id) := fun k hk =>
    List.mem_of_mem_filter (hs.order ▸ hk)
  have hfm : fresh cur ∉ main.map (·.id) := fun hf => by
    obtain ⟨o, ho, he⟩ := List.mem_map.1 (hmain _ hf)
    exact (id_lt_fresh ho).ne he
  have hCmain : C.id ∈ main.map (·.id) := hCid ▸ List.mem_map_of_mem _ hX
  have hvis : ∀ k ∈ vis.map (·.id), k ∈ (vis ++ [X]).map (·.id) := fun k hk => by
    rw [List.map_append]; exact List.mem_append_left _ hk
  -- the list before the renaming: `P ++ C :: LA :: Q`
  let LA : EOp := ⟨fresh cur, .loadAddr, C.operands⟩
  let ρ := fun o : EOp => o.replaceUses (.res C.id) (.res (fresh cur))
  have hins : insertAfter C.id LA cur = P ++ C :: LA :: Q := by
    rw [hcur]; exact insertAfter_split (fun x hx => by simpa [hCid] using hP x hx) rfl
  have hpair : ∀ {a b : EOp}, [a, b] <:+: cur → a.id ≠ C.id → [ρ a, ρ b] <:+: withLoadAddr cur C :=
    fun h hne => (infix_insertAfter h hne).map ρ
  have hCLA : [ρ C, ρ LA] <:+: withLoadAddr cur C := by
    show [C, LA].map ρ <:+: (insertAfter C.id LA cur).map ρ
    rw [hins]
    exact (List.infix_append' P [C, LA] Q).map ρ
  have hmem : ∀ y ∈ withLoadAddr cur C, ∃ z, (z = LA ∨ z ∈ cur) ∧ y = ρ z := fun y hy => by
    obtain ⟨z, hz, rfl⟩ := List.mem_map.1 hy
    exact ⟨z, eq_or_mem_of_mem_insertAfter hz, rfl⟩
  have hne : ∀ k ∈ vis.map (·.id), k ≠ C.id := fun k hk he => hXv (hCid ▸ he ▸ hk)
  have hCX : (ρ C).id ∈ (vis ++ [X]).map (·.id) := by simp [ρ, hCid]
  refine ⟨((ids_substitute hCm LA).nodup_iff).2
      (List.nodup_cons.2 ⟨fun hf => ?_, hs.nodup⟩), ?_, ?_, ?_⟩
  · obtain ⟨o, ho, he⟩ := List.mem_map.1 hf
    exact (id_lt_fresh ho).ne he
  · -- the new id is not one of `main`'s
    have hids : (withLoadAddr cur C).map (·.id) = P.map (·.id) ++ C.id :: fresh cur :: Q.map (·.id) := by
      rw [withLoadAddr, ids_replaceAllUsesWith, hins]; simp [LA]
    conv_rhs => rw [← hs.order, hcur]
    rw [hids]
    simp only [List.map_append, List.map_cons, List.filter_append, List.filter_cons, hfm,
      decide_False, Bool.false_eq_true, ↓reduceIte]
  · intro la' hla' hn
    obtain ⟨y, rfl | hy, rfl⟩ := hmem la' hla'
    · exact ⟨rfl, ρ C, hCLA, hCX, hk, rfl⟩
    · obtain ⟨hyk, L, hLy, hLv, hLk, hops⟩ := hs.added y hy hn
      exact ⟨hyk, ρ L, hpair hLy (hne _ hLv), hvis _ hLv, hLk,
        show y.operands.map _ = L.operands.map _ by rw [hops]⟩
  · -- the renaming, followed by the move of `C`'s result
    obtain ⟨σ, hσ, hkept⟩ := hs.kept
    let g := fun v : Val => if v = .res C.id then Val.res (fresh cur) else v
    refine ⟨g ∘ σ, fun v => ?_, fun o'' ho'' hn => ?_⟩
    · rcases hσ v with he | ⟨L, la, hi, hL, hla, rfl, he⟩
      · by_cases hv : v = .res C.id
        · exact .inr ⟨ρ C, ρ LA, hCLA, hCX, hfm, hv,
            show g (σ v) = _ by rw [he, hv]; exact if_pos rfl⟩
        · exact .inl (show g (σ v) = v by rw [he]; exact if_neg hv)
      · have hlaC : Val.res la.id ≠ .res C.id := fun h => hla (Val.res.inj h ▸ hCmain)
        exact .inr ⟨ρ L, ρ la, hpair hi (hne _ hL), hvis _ hL, hla, rfl,
          show g (σ _) = _ by rw [he]; exact if_neg hlaC⟩
    · obtain ⟨y, rfl | hy, rfl⟩ := hmem o'' ho''
      · exact absurd hn hfm
      · obtain ⟨o, ho, hid, hok, hops⟩ := hkept y hy hn
        exact ⟨o, ho, hid, hok, show y.operands.map g = _ by rw [hops, List.map_map]⟩

theorem Shape.visit (hs : Shape main vis cur) (hX : X ∈ main) (hXv : X.id ∉ vis.map (·.id))
    (h : visitOp uo cur X = some cur') : Shape main (vis ++ [X]) cur' := by
  rcases visitOp_shape h with rfl | ⟨C, hC, hk, rfl⟩
  · exact hs.mono fun k hk => by rw [List.map_append]; exact List.mem_append_left _ hk
  · exact hs.of_withLoadAddr hC hX hXv hk

/-- The loop over operations of `main`, each visited once. -/
theorem Shape.fold : ∀ {l vis cur cur' : List EOp}, Shape main vis cur → (∀ X ∈ l, X ∈ main) →
    ((vis ++ l).map (·.id)).Nodup → l.foldlM (visitOp uo) cur = some cur' →
    Shape main (vis ++ l) cur'
  | [], _, _, _, hs, _, _, h => by cases h; simpa using hs
  | X :: l, vis, cur, _, hs, hl, hn, h => by
    simp only [List.foldlM_cons, bind, Option.bind_eq_some] at h
    obtain ⟨c, hc, h⟩ := h
    rw [List.map_append, List.map_cons] at hn
    have hXv : X.id ∉ vis.map (·.id) := fun hm => (List.nodup_append.1 hn).2.2 hm (List.mem_cons_self _ _)
    have := Shape.fold (hs.visit (hl X (.head _)) hXv hc) (fun Y hY => hl Y (.tail _ hY))
      (by simpa using hn) h
    simpa using this

/-- **`ResolveMemoryPass` keeps the order of `main`.** When the pass succeeds
on a module whose `main` has distinct ids, the rewritten `main` has distinct
ids; it holds the operations of `main` in their order; every operation it
adds is a `LoadAddrOp` right after a `LoadOp` of `main`, over that load's
operands; the operations of `main` keep their kinds, and their operands
under one renaming that only moves a load's result to that of the
`LoadAddrOp` right after it. So, in whatever block order, every use stays
where it was, next to its definition's place; and an input in which no
operation uses its own or a later result gives an output without one. -/
theorem resolveMemoryPass_keeps_order {entry : List EOp} {m' : Module}
    (hids : (main.map (·.id)).Nodup) (h : resolveMemoryPass uo ⟨[entry, main]⟩ = some m') :
    ∃ main', m'.funcs = [main'] ∧ (main'.map (·.id)).Nodup ∧
      (main'.map (·.id)).filter (· ∈ main.map (·.id)) = main.map (·.id) ∧
      (∀ la ∈ main', la.id ∉ main.map (·.id) → la.kind = .loadAddr ∧
        ∃ L, [L, la] <:+: main' ∧ L.id ∈ main.map (·.id) ∧ L.kind = .load .w8 ∧
          la.operands = L.operands) ∧
      (∃ σ : Val → Val, (∀ v, σ v = v ∨ ∃ L la, [L, la] <:+: main' ∧ L.id ∈ main.map (·.id) ∧
          la.id ∉ main.map (·.id) ∧ v = .res L.id ∧ σ v = .res la.id) ∧
        ∀ o' ∈ main', o'.id ∈ main.map (·.id) →
          ∃ o ∈ main, o.id = o'.id ∧ o.kind = o'.kind ∧ o'.operands = o.operands.map σ) ∧
      (Ordered main → Ordered main') := by
  simp only [resolveMemoryPass, bind, pure, Option.bind_eq_some, Option.some.injEq] at h
  obtain ⟨main', hm, rfl⟩ := h
  have hs : Shape main main main' := Shape.fold (Shape.init hids) (fun _ h => h) hids hm
  exact ⟨main', rfl, hs.nodup, hs.order, hs.added, hs.kept,
    fun hord => (foldlM_inv _ (fun _ _ _ hs hv => visitOp_ordered hs hv) ⟨hids, hord⟩ hm).2⟩

/-- The pass on `regionOrderMain`, whose first load reads a later one. -/
theorem resolveMemoryPass_keeps_order_region_order :
    ∃ m', resolveMemoryPass .textual ⟨[[], regionOrderMain]⟩ = some m' ∧
    ∃ main', m'.funcs = [main'] ∧ (main'.map (·.id)).Nodup ∧
      (main'.map (·.id)).filter (· ∈ regionOrderMain.map (·.id)) = regionOrderMain.map (·.id) ∧
      (∀ la ∈ main', la.id ∉ regionOrderMain.map (·.id) → la.kind = .loadAddr ∧
        ∃ L, [L, la] <:+: main' ∧ L.id ∈ regionOrderMain.map (·.id) ∧ L.kind = .load .w8 ∧
          la.operands = L.operands) ∧
      (∃ σ : Val → Val, (∀ v, σ v = v ∨ ∃ L la, [L, la] <:+: main' ∧
          L.id ∈ regionOrderMain.map (·.id) ∧ la.id ∉ regionOrderMain.map (·.id) ∧
          v = .res L.id ∧ σ v = .res la.id) ∧
        ∀ o' ∈ main', o'.id ∈ regionOrderMain.map (·.id) →
          ∃ o ∈ regionOrderMain, o.id = o'.id ∧ o.kind = o'.kind ∧ o'.operands = o.operands.map σ) ∧
      (Ordered regionOrderMain → Ordered main') := by
  refine ⟨⟨[[⟨0, .load .w8, [.res 1, .arg 0 1]⟩, ⟨4, .loadAddr, [.res 1, .arg 0 1]⟩,
    ⟨1, .load .w8, [.arg 0 0, .arg 0 1]⟩, ⟨2, .store .w8, [.res 4, .arg 0 1, .arg 0 2]⟩,
    ⟨3, .ret, [.arg 0 0]⟩]]⟩, ?h, resolveMemoryPass_keeps_order (by decide) ?h⟩
  decide

/-! ### A second run -/

/-- The loop leaves the function as it was, or it replaced a `LoadOp` of
`main`, which stays, a `LoadOp` with no use. -/
theorem foldlM_eq_or_replaced {l : List EOp} (ht : Tracks main cur) (hl : ∀ X ∈ l, X ∈ main)
    (hn : (l.map (·.id)).Nodup) (h : l.foldlM (visitOp uo) cur = some cur') :
    cur' = cur ∨ ∃ L ∈ main, L.kind = .load .w8 ∧ usesIn cur' (.res L.id) = [] ∧
      ∃ L' ∈ cur', L'.id = L.id ∧ L'.kind = .load .w8 := by
  induction l generalizing cur with
  | nil => cases h; exact .inl rfl
  | cons X l ih =>
    simp only [List.foldlM_cons, bind, Option.bind_eq_some] at h
    obtain ⟨c, hc, h⟩ := h
    rw [List.map_cons, List.nodup_cons] at hn
    rcases visitOp_shape hc with rfl | ⟨C, hC, hk, rfl⟩
    · exact ih ht (fun Y hY => hl Y (.tail _ hY)) hn.2 h
    · -- `X` is replaced: no later visit has its id or the new one
      have hX := hl X (.head _)
      obtain ⟨C₀, hC₀, hk₀, -⟩ := ht X hX
      obtain rfl : C₀ = C := Option.some.inj (hC₀.symm.trans hC)
      have hCid := opById_id hC
      obtain ⟨hnil, -, -, -, -, ⟨L', hL', hid, hk', -⟩, -⟩ := foldlM_withLoadAddr (opById_mem hC)
        (fun Y hY => ⟨fun he => hn.1 (List.mem_map.2 ⟨Y, hY, he.trans hCid⟩),
          (ht.lt_fresh (List.mem_map_of_mem _ (hl Y (.tail _ hY)))).ne⟩) h
      exact .inr ⟨X, hX, hk₀.symm.trans hk, hCid ▸ hnil, L', hL', hid.trans hCid, hk'.trans hk⟩

/-- The loop reaches `L`, a load with no use, and fails the assertion of
line 28 there, unless it stopped before. -/
theorem foldlM_aborts_of_unused {pre post : List EOp} {w : Width} (hpre : ∀ X ∈ pre, X.id ≠ L.id)
    (hk : L.kind = .load w) (hL : ∃ o ∈ cur, o.id = L.id) (hu : usesIn cur (.res L.id) = []) :
    (pre ++ L :: post).foldlM (visitOp uo) cur = none := by
  rw [List.foldlM_append]
  cases hp : pre.foldlM (visitOp uo) cur with
  | none => rfl
  | some c =>
    obtain ⟨-, hnil, ρ, hρ⟩ := foldlM_visitOp_uses hpre hL hp
    obtain ⟨o, ho, hoid⟩ := hL
    have hv : visitOp uo c L = none := by
      cases hv : visitOp uo c L with
      | none => rfl
      | some c' =>
        rcases visitOp_cases hv with ⟨-, hno⟩ | ⟨_, o', _, -, ho', hr⟩
        · obtain ⟨o', ho'⟩ := opById_isSome ⟨_, hρ o ho, hoid⟩
          exact (hno w o' hk ho').elim
        · exact absurd (by rw [opById_id ho']; exact hnil hu) (replaceLoadWithLoadAddress_cases hr).1
    simp [hv]

/-- **The loop over `main`, run again on what it returned, aborts whenever
it replaced a load.** The replaced load is still there, with no use. -/
theorem resolveMain_twice (hids : (main.map (·.id)).Nodup) (h : resolveMain uo main = some cur')
    (uo' : UseOrder OpKind) : cur' = main ∨
      (∃ L ∈ main, L.kind = .load .w8 ∧ usesIn cur' (.res L.id) = []) ∧ resolveMain uo' cur' = none := by
  rcases foldlM_eq_or_replaced (Tracks.init hids) (fun _ h => h) hids h with
    rfl | ⟨L, hL, hk, hu, L', hL', hid, hk'⟩
  · exact .inl rfl
  refine .inr ⟨⟨L, hL, hk, hu⟩, ?_⟩
  obtain ⟨pre, post, hm⟩ := List.append_of_mem hL'
  have hs : Shape main main cur' := Shape.fold (Shape.init hids) (fun _ h => h) hids h
  have : (pre ++ L' :: post).foldlM (visitOp uo') cur' = none :=
    foldlM_aborts_of_unused (ids_ne_of_nodup (hm ▸ hs.nodup)).1 hk' ⟨L', hL', rfl⟩ (hid ▸ hu)
  rwa [← hm] at this

/-- **The pass does not accept its own output, and its loop over `main`
aborts on its own output whenever it replaced a load.** The pass erases the
module's first function on every run, so its output holds `main` alone and
fails the two-function assertion. The loop over `main` leaves `main` as it
was, or a replaced load in place with no use, at which a second loop fails
the assertion of line 28. -/
theorem resolveMemoryPass_rejects_output {xdp : List EOp} {m' : Module}
    (hids : (main.map (·.id)).Nodup) (h : resolveMemoryPass uo ⟨[xdp, main]⟩ = some m')
    (uo' : UseOrder OpKind) :
    resolveMemoryPass uo' m' = none ∧ ∃ main', m'.funcs = [main'] ∧ (main' = main ∨
      (∃ L ∈ main, L.kind = .load .w8 ∧ usesIn main' (.res L.id) = []) ∧
        resolveMain uo' main' = none) := by
  simp only [resolveMemoryPass, bind, pure, Option.bind_eq_some, Option.some.injEq] at h
  obtain ⟨main', hm, rfl⟩ := h
  exact ⟨rfl, main', rfl, resolveMain_twice hids hm uo'⟩

/-- The pass on `loadStoreMain`, whose load it replaces, then on its output. -/
theorem resolveMemoryPass_rejects_output_load_store :
    ∃ m', resolveMemoryPass .textual ⟨[[], loadStoreMain]⟩ = some m' ∧
      resolveMemoryPass .textual m' = none ∧ ∃ main', m'.funcs = [main'] ∧ (main' = loadStoreMain ∨
        (∃ L ∈ loadStoreMain, L.kind = .load .w8 ∧ usesIn main' (.res L.id) = []) ∧
          resolveMain .textual main' = none) := by
  refine ⟨⟨[[⟨0, .load .w8, [.arg 0 0, .arg 0 1]⟩, ⟨3, .loadAddr, [.arg 0 0, .arg 0 1]⟩,
    ⟨1, .store .w8, [.res 3, .arg 0 1, .arg 0 2]⟩, ⟨2, .ret, [.arg 0 0]⟩]]⟩, ?h,
    resolveMemoryPass_rejects_output (by decide) ?h .textual⟩
  decide

/-- A load used only as a store's base is replaced; the pass then rejects its
output, and the loop over `main` alone aborts on the replaced load, left in
place with no use. -/
theorem resolveMemoryPass_twice_load_store :
    resolveMemoryPass .textual ⟨[[], [⟨0, .load .w8, [.arg 0 0, .arg 0 1]⟩,
        ⟨1, .store .w8, [.res 0, .arg 0 1, .arg 0 2]⟩, ⟨2, .ret, [.arg 0 0]⟩]]⟩ =
      some ⟨[[⟨0, .load .w8, [.arg 0 0, .arg 0 1]⟩, ⟨3, .loadAddr, [.arg 0 0, .arg 0 1]⟩,
        ⟨1, .store .w8, [.res 3, .arg 0 1, .arg 0 2]⟩, ⟨2, .ret, [.arg 0 0]⟩]]⟩ ∧
    resolveMemoryPass .textual ⟨[[⟨0, .load .w8, [.arg 0 0, .arg 0 1]⟩,
        ⟨3, .loadAddr, [.arg 0 0, .arg 0 1]⟩, ⟨1, .store .w8, [.res 3, .arg 0 1, .arg 0 2]⟩,
        ⟨2, .ret, [.arg 0 0]⟩]]⟩ = none ∧
    resolveMain .textual [⟨0, .load .w8, [.arg 0 0, .arg 0 1]⟩,
        ⟨3, .loadAddr, [.arg 0 0, .arg 0 1]⟩, ⟨1, .store .w8, [.res 3, .arg 0 1, .arg 0 2]⟩,
        ⟨2, .ret, [.arg 0 0]⟩] = none := by
  decide

end Ebpf
end Btor2Mlir
