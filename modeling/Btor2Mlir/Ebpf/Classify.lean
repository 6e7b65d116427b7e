import Btor2Mlir.Dataflow
import Btor2Mlir.Ebpf.ResolveMemory

/-!
# Which loads `ResolveMemoryPass` replaces

A use of a load's result expects an address when its owner is a load or store
whose first operand (`lhs`) is that result. The test reads the owner's `lhs`,
not the slot of the use, so a store of `L` to the address `L` has two address
uses. `replaceLoadWithLoadAddress` replaces a load by a `LoadAddrOp` over its
operands exactly when every use expects an address, and only a `LoadOp`: a
narrower load with only address uses fails the `isa<LoadOp>` assertion.

The pass decides each load on the function as the loop leaves it, after the
loads before it were replaced. That function gives the load every use it had
in the input, classified as in the input, and one more kind of use: the
`LoadAddrOp` made for an earlier load that read it, a use that expects an
integer. `main` is in region order, and a block may come before a block that
dominates it, so an earlier load can read a later one: the later load is then
kept although its input uses all expect an address. Later visits only add
uses: a `LoadAddrOp` copies its load's operands.
-/

namespace Btor2Mlir
namespace Ebpf

variable {uo : UseOrder OpKind} {main cur cur' : List EOp} {o X L : EOp} {k u : Nat} {y : Val}

/-! ### The scan over the uses -/

/-- After the scan, `keepAsIs` says that some use expects an integer. -/
theorem foldlM_scanUse_snd {g : Nat → Bool} {us : List Nat} {acc acc' : Bool × Bool}
    (h : us.foldlM (fun acc u => scanUse acc (g u)) acc = some acc') :
    acc'.2 = (acc.2 || us.any fun u => !g u) := by
  induction us generalizing acc with
  | nil => cases h; simp
  | cons u us ih =>
    simp only [List.foldlM_cons, bind, Option.bind_eq_some] at h
    obtain ⟨a, ha, h⟩ := h
    have ha2 : a.2 = (!g u || acc.2) := by
      simp only [scanUse] at ha
      split_ifs at ha
      cases ha; rfl
    rw [ih h, ha2, List.any_cons]
    cases g u <;> simp

/-- What `replaceLoadWithLoadAddress` can do, the load having a use: decline
a load with a use that expects an integer, leaving the function, or replace a
`LoadOp` whose uses all expect an address. -/
theorem replaceLoadWithLoadAddress_cases {r : LogicalResult}
    (h : replaceLoadWithLoadAddress uo cur o = some (r, cur')) :
    usesIn cur (.res o.id) ≠ [] ∧
      (((∃ u ∈ usesIn cur (.res o.id), expectAddr cur (.res o.id) u = false) ∧ cur' = cur) ∨
        ((∀ u ∈ usesIn cur (.res o.id), expectAddr cur (.res o.id) u = true) ∧
          o.kind = .load .w8 ∧ cur' = replaceAllUsesWith
            (insertAfter o.id ⟨fresh cur, .loadAddr, o.operands⟩ cur) (.res o.id) (.res (fresh cur)))) := by
  have hperm := uo.perm cur (.res o.id)
  simp only [replaceLoadWithLoadAddress, bind, Option.bind_eq_some, Option.guard_eq_some'] at h
  obtain ⟨-, hne, ⟨a, keep⟩, hf, h⟩ := h
  have hk := foldlM_scanUse_snd hf
  simp only [Bool.false_or] at hk
  refine ⟨fun h0 => hne (List.Perm.eq_nil (h0 ▸ hperm)), ?_⟩
  split at h
  · rename_i hkeep
    obtain ⟨u, hu, hu'⟩ := List.any_eq_true.1 (hk ▸ hkeep)
    cases h
    exact .inl ⟨⟨u, hperm.mem_iff.1 hu, by simpa using hu'⟩, rfl⟩
  · rename_i hkeep
    simp only [Option.bind_eq_some, Option.guard_eq_some', pure, Option.some.injEq,
      Prod.mk.injEq] at h
    obtain ⟨-, hw8, -, rfl⟩ := h
    have hall : ∀ u ∈ uo.order cur (.res o.id), expectAddr cur (.res o.id) u = true := by
      simpa [hk] using hkeep
    exact .inr ⟨fun u hu => hall u (hperm.mem_iff.2 hu), hw8, rfl⟩

/-- What one turn of the loop can do: nothing, for an operation that is not a
load (or is gone), or `replaceLoadWithLoadAddress` on the load as it is. -/
theorem visitOp_cases (h : visitOp uo cur X = some cur') :
    (cur' = cur ∧ ∀ w o, X.kind = .load w → opById cur X.id = some o → False) ∨
      ∃ w o r, X.kind = .load w ∧ opById cur X.id = some o ∧
        replaceLoadWithLoadAddress uo cur o = some (r, cur') := by
  unfold visitOp at h
  split at h
  · rename_i w o hk ho
    simp only [bind, pure, Option.bind_eq_some, Option.some.injEq] at h
    obtain ⟨⟨r, c⟩, hr, rfl⟩ := h
    exact .inr ⟨w, o, r, hk, ho, hr⟩
  · rename_i hno
    cases h
    exact .inl ⟨rfl, fun w o hk ho => hno w o hk ho⟩

/-! ### A replacement -/

/-- The function once `replaceLoadWithLoadAddress` has replaced `o`. -/
def withLoadAddr (cur : List EOp) (o : EOp) : List EOp :=
  replaceAllUsesWith (insertAfter o.id ⟨fresh cur, .loadAddr, o.operands⟩ cur)
    (.res o.id) (.res (fresh cur))

/-- A turn of the loop leaves the function, or replaces the load with the id
it visits. -/
theorem visitOp_shape (h : visitOp uo cur X = some cur') :
    cur' = cur ∨ ∃ o, opById cur X.id = some o ∧ o.kind = .load .w8 ∧ cur' = withLoadAddr cur o := by
  rcases visitOp_cases h with ⟨rfl, -⟩ | ⟨_, o, _, _, ho, hr⟩
  · exact .inl rfl
  · rcases (replaceLoadWithLoadAddress_cases hr).2 with ⟨-, rfl⟩ | ⟨-, hw, rfl⟩
    · exact .inl rfl
    · exact .inr ⟨o, ho, hw, rfl⟩

section WithLoadAddr

theorem opById_withLoadAddr (hk : k ≠ fresh cur) :
    opById (withLoadAddr cur o) k = (opById cur k).map (·.replaceUses (.res o.id) (.res (fresh cur))) := by
  rw [withLoadAddr, opById_replaceAllUsesWith, opById_insertAfter (Ne.symm hk)]

theorem usesIn_withLoadAddr_of_ne (h1 : k ≠ o.id) (h2 : k ≠ fresh cur) (h3 : .res k ∉ o.operands) :
    usesIn (withLoadAddr cur o) (.res k) = usesIn cur (.res k) := by
  rw [withLoadAddr, usesIn_replaceAllUsesWith_of_ne (by simpa using h1) (by simpa using h2),
    usesIn_insertAfter_of_not_mem (x := (⟨fresh cur, .loadAddr, o.operands⟩ : EOp)) h3]

theorem usesIn_sublist_withLoadAddr (h1 : k ≠ o.id) (h2 : k ≠ fresh cur) :
    (usesIn cur (.res k)).Sublist (usesIn (withLoadAddr cur o) (.res k)) := by
  rw [withLoadAddr, usesIn_replaceAllUsesWith_of_ne (by simpa using h1) (by simpa using h2)]
  exact usesIn_sublist_insertAfter

/-- The replaced load has no use left. -/
theorem usesIn_withLoadAddr_self (ho : o ∈ cur) : usesIn (withLoadAddr cur o) (.res o.id) = [] :=
  usesIn_replaceAllUsesWith_self (by simpa using (id_lt_fresh ho).ne)

/-- Every use of the replaced load is a use of the `LoadAddrOp`. -/
theorem usesIn_sublist_withLoadAddr_new (ho : o ∈ cur) :
    (usesIn cur (.res o.id)).Sublist (usesIn (withLoadAddr cur o) (.res (fresh cur))) :=
  usesIn_sublist_insertAfter.trans
    (usesIn_sublist_replaceAllUsesWith (by simpa using (id_lt_fresh ho).ne))

theorem expectAddr_withLoadAddr (hy1 : y ≠ .res o.id) (hy2 : y ≠ .res (fresh cur))
    (hu : u ≠ fresh cur) : expectAddr (withLoadAddr cur o) y u = expectAddr cur y u := by
  unfold expectAddr
  rw [opById_withLoadAddr hu]
  cases opById cur u with
  | none => rfl
  | some z =>
    simp only [Option.map_some', Op.replaceUses_kind]
    congr 1
    cases hz : z.operands with
    | nil => simp [Op.replaceUses, hz]
    | cons x xs => by_cases hx : x = .res o.id <;> simp [Op.replaceUses, hz, hx, Ne.symm hy1, Ne.symm hy2]

end WithLoadAddr

/-! ### Renaming -/

/-- `cur'` holds every operation of `cur`, under one renaming of operands. -/
def Renames (cur cur' : List EOp) : Prop :=
  ∃ ρ : Val → Val, ∀ o ∈ cur, { o with operands := o.operands.map ρ } ∈ cur'

theorem Renames.refl : Renames cur cur := ⟨id, fun o ho => by simpa using ho⟩

theorem Renames.trans {cur'' : List EOp} (h : Renames cur cur') (h' : Renames cur' cur'') :
    Renames cur cur'' := by
  obtain ⟨ρ, hρ⟩ := h
  obtain ⟨ρ', hρ'⟩ := h'
  exact ⟨ρ' ∘ ρ, fun o ho => by simpa using hρ' _ (hρ o ho)⟩

theorem Renames.visit (h : visitOp uo cur X = some cur') : Renames cur cur' := by
  rcases visitOp_shape h with rfl | ⟨o, -, -, rfl⟩
  · exact .refl
  · exact ⟨_, fun z hz => List.mem_map_of_mem _ (mem_insertAfter_of_mem hz)⟩

/-- After a visit, a result that is not the visited load's keeps its uses,
and one with no use still has none. -/
theorem visitOp_uses (h : visitOp uo cur X = some cur') (hX : X.id ≠ k) (hk : ∃ o ∈ cur, o.id = k) :
    (usesIn cur (.res k)).Sublist (usesIn cur' (.res k)) ∧
      (usesIn cur (.res k) = [] → usesIn cur' (.res k) = []) := by
  rcases visitOp_shape h with rfl | ⟨o, ho, -, rfl⟩
  · exact ⟨.refl _, id⟩
  · obtain ⟨z, hz, rfl⟩ := hk
    have h1 : z.id ≠ o.id := by rw [opById_id ho]; exact Ne.symm hX
    have h2 := (id_lt_fresh hz).ne
    refine ⟨usesIn_sublist_withLoadAddr h1 h2, fun h0 => ?_⟩
    rw [usesIn_withLoadAddr_of_ne h1 h2 ((usesIn_eq_nil _ _).1 h0 o (opById_mem ho)), h0]

/-- The loop over operations other than `k`'s: `k`'s uses only grow, none
stays none, and every operation is kept under a renaming. -/
theorem foldlM_visitOp_uses {l : List EOp} (hl : ∀ X ∈ l, X.id ≠ k) (hk : ∃ o ∈ cur, o.id = k)
    (h : l.foldlM (visitOp uo) cur = some cur') :
    (usesIn cur (.res k)).Sublist (usesIn cur' (.res k)) ∧
      (usesIn cur (.res k) = [] → usesIn cur' (.res k) = []) ∧ Renames cur cur' := by
  induction l generalizing cur with
  | nil => cases h; exact ⟨.refl _, id, .refl⟩
  | cons X l ih =>
    simp only [List.foldlM_cons, bind, Option.bind_eq_some] at h
    obtain ⟨c, hc, h⟩ := h
    obtain ⟨hs, hn⟩ := visitOp_uses hc (hl X (List.mem_cons_self _ _)) hk
    have hr := Renames.visit hc
    obtain ⟨o, ho, rfl⟩ := hk
    obtain ⟨ρ, hρ⟩ := hr
    obtain ⟨hs', hn', hr'⟩ := ih (fun X hX => hl X (List.mem_cons_of_mem _ hX)) ⟨_, hρ o ho, rfl⟩ h
    exact ⟨hs.trans hs', hn' ∘ hn, Renames.trans ⟨ρ, hρ⟩ hr'⟩

/-! ### Before the loop reaches a load -/

/-- Every operation of the input is found by its id, with its kind, and its
operands are the input's or results named by no operation of the input. -/
def Tracks (main cur : List EOp) : Prop :=
  ∀ O ∈ main, ∃ C, opById cur O.id = some C ∧ C.kind = O.kind ∧
    ∀ v ∈ C.operands, v ∈ O.operands ∨ ∃ n, v = .res n ∧ n ∉ main.map (·.id)

theorem Tracks.init (hids : (main.map (·.id)).Nodup) : Tracks main main :=
  fun O hO => ⟨O, opById_of_nodup hids hO, rfl, fun _ => .inl⟩

/-- The ids of the input stay below the next fresh id. -/
theorem Tracks.lt_fresh (ht : Tracks main cur) (hk : k ∈ main.map (·.id)) : k < fresh cur := by
  obtain ⟨O, hO, rfl⟩ := List.mem_map.1 hk
  obtain ⟨C, hC, -⟩ := ht O hO
  exact opById_id hC ▸ id_lt_fresh (opById_mem hC)

/-- A renamed operand is an operand of the input's or a new result. -/
theorem renamed_operand {C O : EOp} (ht : Tracks main cur)
    (hops : ∀ v ∈ C.operands, v ∈ O.operands ∨ ∃ n, v = .res n ∧ n ∉ main.map (·.id)) :
    ∀ v ∈ (C.replaceUses (.res o.id) (.res (fresh cur))).operands,
      v ∈ O.operands ∨ ∃ n, v = .res n ∧ n ∉ main.map (·.id) := fun v hv => by
  rcases mem_replaceUses_operands.1 hv with ⟨hv, -⟩ | ⟨rfl, -⟩
  · exact hops v hv
  · exact .inr ⟨_, rfl, fun hf => (ht.lt_fresh hf).false⟩

theorem Tracks.visit (ht : Tracks main cur) (h : visitOp uo cur X = some cur') : Tracks main cur' := by
  rcases visitOp_shape h with rfl | ⟨o, -, -, rfl⟩
  · exact ht
  · intro O hO
    obtain ⟨C, hC, hk, hops⟩ := ht O hO
    exact ⟨C.replaceUses (.res o.id) (.res (fresh cur)),
      by rw [opById_withLoadAddr (ht.lt_fresh (List.mem_map_of_mem _ hO)).ne, hC]; rfl,
      hk, renamed_operand ht hops⟩

/-- Every operation of `cur` is one of the input's, with its id and kind, or a
`LoadAddrOp` with a new id made for a `LoadOp` of `vis`; its operands are
those of that operation or results the input does not name. -/
def Origin (main vis cur : List EOp) : Prop :=
  ∀ C ∈ cur, ∃ O, (O ∈ main ∧ C.id = O.id ∧ C.kind = O.kind ∨
      O ∈ vis ∧ C.id ∉ main.map (·.id) ∧ C.kind = .loadAddr ∧ O.kind = .load .w8) ∧
    ∀ v ∈ C.operands, v ∈ O.operands ∨ ∃ n, v = .res n ∧ n ∉ main.map (·.id)

theorem Origin.init {vis : List EOp} : Origin main vis main :=
  fun C hC => ⟨C, .inl ⟨hC, rfl, rfl⟩, fun _ => .inl⟩

theorem Origin.mono {vis vis' : List EOp} (ho : Origin main vis cur) (hv : vis ⊆ vis') :
    Origin main vis' cur := fun C hC => by
  obtain ⟨O, hO, hops⟩ := ho C hC
  exact ⟨O, hO.imp_right fun ⟨hO, h⟩ => ⟨hv hO, h⟩, hops⟩

/-- A visit of a load of `vis` adds at most a `LoadAddrOp` made for it. -/
theorem Origin.visit {vis : List EOp} (ho : Origin main vis cur) (ht : Tracks main cur)
    (hids : (main.map (·.id)).Nodup) (hX : X ∈ main) (hXv : X ∈ vis)
    (h : visitOp uo cur X = some cur') : Origin main vis cur' := by
  rcases visitOp_shape h with rfl | ⟨o, hoX, hw, rfl⟩
  · exact ho
  intro C' hC'
  obtain ⟨C, hC, rfl⟩ := mem_replaceAllUsesWith.1 hC'
  rcases eq_or_mem_of_mem_insertAfter hC with rfl | hC
  · -- the new `LoadAddrOp`, over the operands of `X` as the loop left them
    obtain ⟨O, hO, hops⟩ := ho o (opById_mem hoX)
    have hXid := List.mem_map_of_mem (·.id) hX
    rw [opById_id hoX] at hO
    obtain ⟨hO, hid, hk⟩ := hO.resolve_right fun h => h.2.1 hXid
    obtain rfl := eq_of_id_eq hids hX hO hid
    exact ⟨X, .inr ⟨hXv, fun hf => (ht.lt_fresh hf).false, rfl, hk ▸ hw⟩, renamed_operand ht hops⟩
  · obtain ⟨O, hO, hops⟩ := ho C hC
    exact ⟨O, hO, renamed_operand ht hops⟩

/-- A use of an input result in `cur` is an input use, or belongs to a
`LoadAddrOp` made for a load of `vis` that reads the result. -/
theorem usesIn_origin {vis : List EOp} (ho : Origin main vis cur) (hL : L ∈ main)
    (hu : u ∈ usesIn cur (.res L.id)) : u ∈ usesIn main (.res L.id) ∨
      ∃ la ∈ cur, la.id = u ∧ la.kind = .loadAddr ∧ la.id ∉ main.map (·.id) ∧
        .res L.id ∈ la.operands ∧ ∃ X ∈ vis, X.kind = .load .w8 ∧ .res L.id ∈ X.operands := by
  obtain ⟨C, hC, rfl, hLC⟩ := (mem_usesIn _ _ _).1 hu
  obtain ⟨O, hO, hops⟩ := ho C hC
  have hLO : .res L.id ∈ O.operands := (hops _ hLC).resolve_right fun ⟨_, hn, hn'⟩ => by
    cases hn; exact hn' (List.mem_map_of_mem _ hL)
  rcases hO with ⟨hO, hid, -⟩ | ⟨hO, hnew, hla, hOk⟩
  · exact .inl ((mem_usesIn _ _ _).2 ⟨O, hO, hid.symm, hLO⟩)
  · exact .inr ⟨C, hC, rfl, hla, hnew, hLC, O, hO, hOk, hLO⟩

/-- Until the loop reaches `L`: `L` keeps every use it had, and each of them
sees `L` in its owner's `lhs` exactly when it did. -/
structure SeesInput (main : List EOp) (L : EOp) (cur : List EOp) : Prop where
  uses : (usesIn main (.res L.id)).Sublist (usesIn cur (.res L.id))
  addr : ∀ u ∈ usesIn main (.res L.id), expectAddr cur (.res L.id) u = expectAddr main (.res L.id) u

/-- A visit of an operation that is not `L`. -/
theorem SeesInput.visit (hs : SeesInput main L cur) (ht : Tracks main cur) (hL : L ∈ main)
    (hne : X.id ≠ L.id) (h : visitOp uo cur X = some cur') : SeesInput main L cur' := by
  rcases visitOp_shape h with rfl | ⟨o, ho, -, rfl⟩
  · exact hs
  · have h1 : L.id ≠ o.id := by rw [opById_id ho]; exact Ne.symm hne
    have h2 := (ht.lt_fresh (List.mem_map_of_mem _ hL)).ne
    refine ⟨hs.uses.trans (usesIn_sublist_withLoadAddr h1 h2), fun u hu => ?_⟩
    obtain ⟨O, hO, rfl, -⟩ := (mem_usesIn _ _ _).1 hu
    rw [expectAddr_withLoadAddr (by simpa using h1) (by simpa using h2)
      (ht.lt_fresh (List.mem_map_of_mem _ hO)).ne, hs.addr _ hu]

/-- The loop up to `L`: the input is tracked, the operations added are
`LoadAddrOp`s made for loads before `L`, and `L` keeps its input uses. -/
theorem reach_of_fold {pre post : List EOp} (hids : (main.map (·.id)).Nodup)
    (hm : main = pre ++ L :: post) (h : pre.foldlM (visitOp uo) main = some cur) :
    Tracks main cur ∧ Origin main pre cur ∧ SeesInput main L cur := by
  have hL : L ∈ main := hm ▸ List.mem_append_right _ (List.mem_cons_self _ _)
  have hpre := (ids_ne_of_nodup (hm ▸ hids)).1
  refine foldlM_inv_mem (fun c => Tracks main c ∧ Origin main pre c ∧ SeesInput main L c)
    (fun c X c' hX ⟨ht, ho, hs⟩ hv => ⟨ht.visit hv,
      ho.visit ht hids (hm ▸ List.mem_append_left _ hX) hX hv, hs.visit ht hL (hpre X hX) hv⟩)
    ⟨Tracks.init hids, .init, .refl _, fun _ _ => rfl⟩ h

/-! ### The decision -/

/-- **The visit of `L`.** `L` has a use in the input. The visit declines it,
when an input use expects an integer or a `LoadAddrOp` made for an earlier
load reads it, or replaces it, a `LoadOp` whose input uses all expect an
address. -/
theorem visitOp_decides {pre : List EOp} {wd : Width} (ht : Tracks main cur)
    (ho : Origin main pre cur) (hs : SeesInput main L cur) (hpre : pre ⊆ main) (hL : L ∈ main)
    (hk : L.kind = .load wd) (h : visitOp uo cur L = some cur') :
    usesIn main (.res L.id) ≠ [] ∧ ∃ C ∈ cur, C.id = L.id ∧
      ((cur' = cur ∧ ((∃ u ∈ usesIn main (.res L.id), expectAddr main (.res L.id) u = false) ∨
          ∃ la ∈ cur, la.kind = .loadAddr ∧ la.id ∉ main.map (·.id) ∧ .res L.id ∈ la.operands ∧
            ∃ X ∈ pre, X.kind = .load .w8 ∧ .res L.id ∈ X.operands)) ∨
        ((∀ u ∈ usesIn main (.res L.id), expectAddr main (.res L.id) u = true) ∧ wd = .w8 ∧
          cur' = withLoadAddr cur C)) := by
  obtain ⟨C, hC, hCk, -⟩ := ht L hL
  rcases visitOp_cases h with ⟨-, hno⟩ | ⟨_, o, r, -, ho', hr⟩
  · exact (hno wd C hk hC).elim
  obtain rfl : C = o := Option.some.inj (hC.symm.trans ho')
  have hCid : C.id = L.id := opById_id hC
  obtain ⟨hne, hcase⟩ := replaceLoadWithLoadAddress_cases hr
  refine ⟨fun h0 => hne ?_, C, opById_mem hC, hCid, ?_⟩
  · -- every use in `cur` comes from an input use
    rw [hCid, usesIn_eq_nil]
    intro D hD hLD
    rcases usesIn_origin ho hL ((mem_usesIn _ _ _).2 ⟨D, hD, rfl, hLD⟩) with hu | ⟨-, -, -, -, -, -, X, hX, -, hLX⟩
    · rw [h0] at hu; cases hu
    · have hu := (mem_usesIn _ _ _).2 ⟨X, hpre hX, rfl, hLX⟩
      rw [h0] at hu; cases hu
  rcases hcase with ⟨⟨u, hu, hint⟩, rfl⟩ | ⟨hall, hw8, rfl⟩
  · rw [hCid] at hu hint
    refine .inl ⟨rfl, ?_⟩
    rcases usesIn_origin ho hL hu with hu' | ⟨la, hla, rfl, hk', hnew, hLla, hX⟩
    · exact .inl ⟨u, hu', (hs.addr u hu').symm.trans hint⟩
    · exact .inr ⟨la, hla, hk', hnew, hLla, hX⟩
  · rw [hCid] at hall
    rw [hCk, hk] at hw8
    cases hw8
    exact .inr ⟨fun u hu => (hs.addr u hu).symm.trans (hall u (hs.uses.subset hu)), rfl, rfl⟩

/-- The loop after a replacement keeps the `LoadAddrOp`, next to the load
with the same operands, with every use the load had; the load has none. -/
theorem foldlM_withLoadAddr {l : List EOp} {C : EOp} (hC : C ∈ cur)
    (hl : ∀ X ∈ l, X.id ≠ C.id ∧ X.id ≠ fresh cur)
    (h : l.foldlM (visitOp uo) (withLoadAddr cur C) = some cur') :
    usesIn cur' (.res C.id) = [] ∧ ∃ la ∈ cur', la.kind = .loadAddr ∧ la.id = fresh cur ∧
      (∃ C' ∈ cur', C'.id = C.id ∧ C'.kind = C.kind ∧ la.operands = C'.operands) ∧
      (usesIn cur (.res C.id)).Sublist (usesIn cur' (.res la.id)) := by
  have hla : (⟨fresh cur, .loadAddr, C.operands⟩ : EOp).replaceUses (.res C.id) (.res (fresh cur)) ∈
      withLoadAddr cur C :=
    List.mem_map_of_mem _ ((insertAfter_perm ⟨C, hC, rfl⟩).mem_iff.2 (List.mem_cons_self _ _))
  have hC' : C.replaceUses (.res C.id) (.res (fresh cur)) ∈ withLoadAddr cur C :=
    List.mem_map_of_mem _ (mem_insertAfter_of_mem hC)
  obtain ⟨-, hnil, -⟩ := foldlM_visitOp_uses (fun X hX => (hl X hX).1) ⟨_, hC', rfl⟩ h
  obtain ⟨hsub, -, ρ, hρ⟩ := foldlM_visitOp_uses (fun X hX => (hl X hX).2) ⟨_, hla, rfl⟩ h
  exact ⟨hnil (usesIn_withLoadAddr_self hC), _, hρ _ hla, rfl, rfl, ⟨_, hρ _ hC', rfl, rfl, rfl⟩,
    (usesIn_sublist_withLoadAddr_new hC).trans hsub⟩

/-- **Which loads the pass replaces.** Take a module `[xdp_entry, main]` on
which the pass completes, where `main`'s ids are distinct, and a load `L` of
`main`. `L` has a use. Either `L` is a `LoadOp` whose uses all expect an
address, it has no use left, and a `LoadAddrOp` with a new id and `L`'s
operands holds every use `L` had; or `L` keeps every use it had, because one
of them expects an integer or because a `LoadAddrOp` made for a load listed
before `L` (a region order in which `L`'s block comes later) reads `L`. -/
theorem resolveMemoryPass_replaces_address_loads {xdp : List EOp} {m' : Module}
    (hids : (main.map (·.id)).Nodup) (h : resolveMemoryPass uo ⟨[xdp, main]⟩ = some m')
    (hL : L ∈ main) {wd : Width} (hk : L.kind = .load wd) :
    ∃ main', m'.funcs = [main'] ∧ usesIn main (.res L.id) ≠ [] ∧
      ((wd = .w8 ∧ (∀ u ∈ usesIn main (.res L.id), expectAddr main (.res L.id) u = true) ∧
          usesIn main' (.res L.id) = [] ∧
          ∃ la ∈ main', la.kind = .loadAddr ∧ la.id ∉ main.map (·.id) ∧
            (∃ L' ∈ main', L'.id = L.id ∧ la.operands = L'.operands) ∧
            (usesIn main (.res L.id)).Sublist (usesIn main' (.res la.id))) ∨
        ((usesIn main (.res L.id)).Sublist (usesIn main' (.res L.id)) ∧
          ((∃ u ∈ usesIn main (.res L.id), expectAddr main (.res L.id) u = false) ∨
            ∃ X, [X, L].Sublist main ∧ X.kind = .load .w8 ∧ .res L.id ∈ X.operands ∧
              ∃ la ∈ main', la.kind = .loadAddr ∧ la.id ∉ main.map (·.id) ∧
                .res L.id ∈ la.operands))) := by
  simp only [resolveMemoryPass, bind, pure, Option.bind_eq_some, Option.some.injEq] at h
  obtain ⟨main', hmain, rfl⟩ := h
  -- the loop before `L`, the visit of `L`, the loop after it
  obtain ⟨pre, post, hm⟩ := List.append_of_mem hL
  have hfold : (pre ++ L :: post).foldlM (visitOp uo) main = some main' := by
    rw [← hm]; exact hmain
  simp only [List.foldlM_append, List.foldlM_cons, bind, Option.bind_eq_some] at hfold
  obtain ⟨cur, hpre, cur₂, hvisit, hpost⟩ := hfold
  obtain ⟨ht, ho, hs⟩ := reach_of_fold hids hm hpre
  have hsub : pre ⊆ main := hm ▸ List.subset_append_left _ _
  obtain ⟨hne, C, hC, hCid, hcase⟩ := visitOp_decides ht ho hs hsub hL hk hvisit
  have hpost' := (ids_ne_of_nodup (hm ▸ hids)).2
  refine ⟨main', rfl, hne, ?_⟩
  rcases hcase with ⟨rfl, hwhy⟩ | ⟨hall, rfl, rfl⟩
  · -- declined: `L`'s uses only grow
    have hkeep := (foldlM_visitOp_uses hpost' ⟨C, hC, hCid⟩ hpost).1
    refine .inr ⟨hs.uses.trans hkeep, hwhy.imp_right ?_⟩
    rintro ⟨la, hla, -, hnew, hLla, X, hX, hXk, hLX⟩
    -- the `LoadAddrOp` is still there, and still reads `L`
    obtain ⟨la', hla', hid, hLla'⟩ := (mem_usesIn _ _ _).1
      (hkeep.subset ((mem_usesIn _ _ _).2 ⟨la, hla, rfl, hLla⟩))
    have hpost'' : ∀ X ∈ post, X ∈ main := fun X hX =>
      hm ▸ List.mem_append_right _ (List.mem_cons_of_mem _ hX)
    have ho' := (foldlM_inv_mem (fun c => Tracks main c ∧ Origin main main c)
      (fun c X c' hX ⟨ht, ho⟩ hv => ⟨ht.visit hv, ho.visit ht hids (hpost'' X hX) (hpost'' X hX) hv⟩)
      ⟨ht, ho.mono hsub⟩ hpost).2
    obtain ⟨O, hO, -⟩ := ho' la' hla'
    have hnew' : la'.id ∉ main.map (·.id) := hid ▸ hnew
    obtain ⟨-, -, hk', -⟩ := hO.resolve_left fun ⟨hO, hid', _⟩ =>
      hnew' (hid' ▸ List.mem_map_of_mem _ hO)
    exact ⟨X, hm ▸ (List.singleton_sublist.2 hX).append (List.singleton_sublist.2
      (List.mem_cons_self _ _)), hXk, hLX, la', hla', hk', hnew', hLla'⟩
  · -- replaced: the `LoadAddrOp` holds every use
    have hfresh : ∀ X ∈ post, X.id ≠ fresh cur := fun X hX => (ht.lt_fresh
      (List.mem_map_of_mem _ (hm ▸ List.mem_append_right _ (List.mem_cons_of_mem _ hX)))).ne
    obtain ⟨hnil, la, hla, hk', hid, ⟨L', hL', hL'id, -, hops⟩, hsub'⟩ :=
      foldlM_withLoadAddr hC (fun X hX => ⟨hCid ▸ hpost' X hX, hfresh X hX⟩) hpost
    rw [hCid] at hnil hL'id hsub'
    exact .inl ⟨rfl, hall, hnil, la, hla, hk', hid ▸ fun hf => (ht.lt_fresh hf).false,
      ⟨L', hL', hL'id, hops⟩, hs.uses.trans hsub'⟩

/-- `%0 = load %1[%c]; %1 = load %a[%c]; store %0[%c], %v; return`, the
blocks in region order with the block of `%1` after that of `%0`: `%1` is
used only as the base of `%0`, which is replaced first, and its
`LoadAddrOp` reads `%1`. -/
def regionOrderMain : List EOp :=
  [⟨0, .load .w8, [.res 1, .arg 0 1]⟩, ⟨1, .load .w8, [.arg 0 0, .arg 0 1]⟩,
    ⟨2, .store .w8, [.res 0, .arg 0 1, .arg 0 2]⟩, ⟨3, .ret, [.arg 0 0]⟩]

/-- The pass on `regionOrderMain`, at its later load. -/
theorem replaces_address_loads_region_order :
    ∃ main' : List EOp, [[⟨0, .load .w8, [.res 1, .arg 0 1]⟩, ⟨4, .loadAddr, [.res 1, .arg 0 1]⟩,
        ⟨1, .load .w8, [.arg 0 0, .arg 0 1]⟩, ⟨2, .store .w8, [.res 4, .arg 0 1, .arg 0 2]⟩,
        ⟨3, .ret, [.arg 0 0]⟩]] = [main'] ∧ usesIn regionOrderMain (.res 1) ≠ [] ∧
      ((Width.w8 = .w8 ∧ (∀ u ∈ usesIn regionOrderMain (.res 1),
            expectAddr regionOrderMain (.res 1) u = true) ∧
          usesIn main' (.res 1) = [] ∧
          ∃ la ∈ main', la.kind = .loadAddr ∧ la.id ∉ regionOrderMain.map (·.id) ∧
            (∃ L' ∈ main', L'.id = 1 ∧ la.operands = L'.operands) ∧
            (usesIn regionOrderMain (.res 1)).Sublist (usesIn main' (.res la.id))) ∨
        ((usesIn regionOrderMain (.res 1)).Sublist (usesIn main' (.res 1)) ∧
          ((∃ u ∈ usesIn regionOrderMain (.res 1), expectAddr regionOrderMain (.res 1) u = false) ∨
            ∃ X, [X, ⟨1, .load .w8, [.arg 0 0, .arg 0 1]⟩].Sublist regionOrderMain ∧
              X.kind = .load .w8 ∧ .res 1 ∈ X.operands ∧
              ∃ la ∈ main', la.kind = .loadAddr ∧ la.id ∉ regionOrderMain.map (·.id) ∧
                .res 1 ∈ la.operands))) :=
  @resolveMemoryPass_replaces_address_loads .textual regionOrderMain
    ⟨1, .load .w8, [.arg 0 0, .arg 0 1]⟩ []
    ⟨[[⟨0, .load .w8, [.res 1, .arg 0 1]⟩, ⟨4, .loadAddr, [.res 1, .arg 0 1]⟩,
      ⟨1, .load .w8, [.arg 0 0, .arg 0 1]⟩, ⟨2, .store .w8, [.res 4, .arg 0 1, .arg 0 2]⟩,
      ⟨3, .ret, [.arg 0 0]⟩]]⟩
    (by decide) (by decide) (by simp [regionOrderMain]) .w8 rfl

/-- A `Load32Op` used only as a store's base aborts the pass; a load stored
to its own address is replaced, both of its uses rewired; and on
`regionOrderMain` the load `%1`, used only as a base, is kept, now read by
the `LoadAddrOp` that replaced `%0`. -/
theorem resolveMemoryPass_narrow_self_store_region_order :
    resolveMemoryPass .textual ⟨[[], [⟨0, .load .w4, [.arg 0 0, .arg 0 1]⟩,
        ⟨1, .store .w8, [.res 0, .arg 0 1, .arg 0 2]⟩, ⟨2, .ret, [.arg 0 0]⟩]]⟩ = none ∧
    resolveMemoryPass .textual ⟨[[], [⟨0, .load .w8, [.arg 0 0, .arg 0 1]⟩,
        ⟨1, .store .w8, [.res 0, .arg 0 1, .res 0]⟩, ⟨2, .ret, [.arg 0 0]⟩]]⟩ =
      some ⟨[[⟨0, .load .w8, [.arg 0 0, .arg 0 1]⟩, ⟨3, .loadAddr, [.arg 0 0, .arg 0 1]⟩,
        ⟨1, .store .w8, [.res 3, .arg 0 1, .res 3]⟩, ⟨2, .ret, [.arg 0 0]⟩]]⟩ ∧
    usesIn regionOrderMain (.res 1) = [0] ∧
    resolveMemoryPass .textual ⟨[[], regionOrderMain]⟩ =
      some ⟨[[⟨0, .load .w8, [.res 1, .arg 0 1]⟩, ⟨4, .loadAddr, [.res 1, .arg 0 1]⟩,
        ⟨1, .load .w8, [.arg 0 0, .arg 0 1]⟩, ⟨2, .store .w8, [.res 4, .arg 0 1, .arg 0 2]⟩,
        ⟨3, .ret, [.arg 0 0]⟩]]⟩ := by
  decide

end Ebpf
end Btor2Mlir
