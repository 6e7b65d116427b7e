import Btor2Mlir.Dataflow
import Btor2Mlir.Ebpf.Classify
import Btor2Mlir.Ebpf.Semantics

/-!
# `ResolveMemoryPass` keeps what `main` computes

A replacement is a `substitute`: the `LoadAddrOp`, created right after the
load over the load's operands and with the load's type, takes over every use
of it. `LoadAddrOp` is the same load with its result marked as an address, so
under an interpretation in which it computes what the 8-byte load does, each
turn of the loop keeps the `Renaming` invariant, and the pass keeps the value
of every operation of `main`: the loads it replaces stay in place, and their
users now read a value equal to theirs.
-/

namespace Btor2Mlir
namespace Ebpf

variable {V : Type} (I : Interp V)

/-- The interpretation of an operation: every operation has a value. -/
def Interp.eval (k : OpKind) (vs : List V) : Option V := some (I.op k vs)

/-- The conversion the pass makes: a `LoadOp` into a `LoadAddrOp`. -/
def Converts (a b : OpKind) : Prop := a = .load .w8 ∧ b = .loadAddr

variable {I} {uo : UseOrder OpKind} {main cur cur' : List EOp} {σ : Val → Val} {rest : List EOp}
  {op : EOp}

/-- One turn of the loop keeps the invariant, by a substitution or by nothing. -/
theorem visitOp_renaming (hI : ∀ vs, I.op .loadAddr vs = I.op (.load .w8) vs)
    (h : Renaming I.eval Converts main main (op :: rest) cur cur σ) (hop : op ∈ main)
    (hrest : ∀ o ∈ rest, o.id ≠ op.id) (hv : visitOp uo cur op = some cur') :
    ∃ σ', Renaming I.eval Converts main main rest cur' cur' σ' := by
  rcases visitOp_cases hv with ⟨rfl, -⟩ | ⟨_, w, _, -, hw, hr⟩
  · exact ⟨σ, h.tail⟩
  rcases (replaceLoadWithLoadAddress_cases hr).2 with ⟨-, rfl⟩ | ⟨-, hwk, rfl⟩
  · exact ⟨σ, h.tail⟩
  exact ⟨_, h.convert hop hrest hw ⟨hwk, rfl⟩ (fun _ ha => by cases hwk ▸ ha.2)
    (fun args => by rw [hwk]; exact congrArg some (hI args)) (ids_substitute (opById_mem hw) _)
    (List.Sublist.refl _)⟩

/-- **`ResolveMemoryPass` keeps every value of `main`.** Under every
interpretation in which a `LoadAddrOp` computes what the 8-byte load does,
when the pass succeeds on a module whose `main` has distinct ids: every
operation of `main` has in the output, from every input and at every depth,
the value it had, and every operation of the output has the value of an
operation of `main` of its kind or, for a `LoadAddrOp`, of a load. -/
theorem resolveMemoryPass_keeps_values (hI : ∀ vs, I.op .loadAddr vs = I.op (.load .w8) vs)
    {entry : List EOp} {m' : Module} (hids : (main.map (·.id)).Nodup)
    (h : resolveMemoryPass uo ⟨[entry, main]⟩ = some m') :
    ∃ main', m'.funcs = [main'] ∧
      (∀ o ∈ main, ∀ input fuel,
        denote I.eval main' input fuel (.res o.id) = denote I.eval main input fuel (.res o.id)) ∧
      ∀ o' ∈ main', ∃ o ∈ main, (o.kind = o'.kind ∨ o.kind = .load .w8 ∧ o'.kind = .loadAddr) ∧
        ∀ input fuel,
          denote I.eval main' input fuel (.res o'.id) = denote I.eval main input fuel (.res o.id) := by
  simp only [resolveMemoryPass, bind, pure, Option.bind_eq_some, Option.some.injEq] at h
  obtain ⟨main', hm, rfl⟩ := h
  obtain ⟨σ, hR⟩ := Renaming.foldlM (fun l => l) (fun l => l) (visitOp_renaming hI)
    (Renaming.init hids (List.Sublist.refl main)) (fun _ h => h) hids hm
  exact ⟨main', rfl, fun o ho input fuel => hR.denote_kept hids (.refl _) ho fuel,
    fun o' ho' => hR.denote_new hids (.refl _) ho'⟩

/-- One turn of the loop keeps distinct ids and the order. -/
theorem visitOp_ordered (h : (cur.map (·.id)).Nodup ∧ Ordered cur)
    (hv : visitOp uo cur op = some cur') : (cur'.map (·.id)).Nodup ∧ Ordered cur' := by
  rcases visitOp_cases hv with ⟨rfl, -⟩ | ⟨_, w, _, -, hw, hr⟩
  · exact h
  rcases (replaceLoadWithLoadAddress_cases hr).2 with ⟨-, rfl⟩ | ⟨-, -, rfl⟩
  · exact h
  have hwm := opById_mem hw
  refine ⟨((ids_substitute hwm _).nodup_iff).2 (List.nodup_cons.2 ⟨fun hm => ?_, h.1⟩),
    h.2.substitute h.1 hwm (fun o ho => fresh_new ho) rfl⟩
  obtain ⟨o, ho, he⟩ := List.mem_map.1 hm
  exact (fresh_new ho).1 he

/-- `%0 = load %a[%c]; store %0[%c], %v; return`. -/
def loadStoreMain : List EOp :=
  [⟨0, .load .w8, [.arg 0 0, .arg 0 1]⟩, ⟨1, .store .w8, [.res 0, .arg 0 1, .arg 0 2]⟩,
    ⟨2, .ret, [.arg 0 0]⟩]

/-- Every operation computes its operand count: a load and its `LoadAddrOp`
agree. -/
def countOperands : Interp Nat := ⟨fun _ vs => vs.length, fun _ _ _ => true⟩

/-- The load of `loadStoreMain` is used only as the store's base: the pass
replaces it, and keeps every value. -/
theorem resolveMemoryPass_keeps_values_load_store :
    ∃ m', resolveMemoryPass .textual ⟨[[], loadStoreMain]⟩ = some m' ∧ ∃ main', m'.funcs = [main'] ∧
      (∀ o ∈ loadStoreMain, ∀ input fuel, denote countOperands.eval main' input fuel (.res o.id) =
        denote countOperands.eval loadStoreMain input fuel (.res o.id)) ∧
      ∀ o' ∈ main', ∃ o ∈ loadStoreMain,
        (o.kind = o'.kind ∨ o.kind = .load .w8 ∧ o'.kind = .loadAddr) ∧ ∀ input fuel,
          denote countOperands.eval main' input fuel (.res o'.id) =
            denote countOperands.eval loadStoreMain input fuel (.res o.id) := by
  refine ⟨⟨[[⟨0, .load .w8, [.arg 0 0, .arg 0 1]⟩, ⟨3, .loadAddr, [.arg 0 0, .arg 0 1]⟩,
    ⟨1, .store .w8, [.res 3, .arg 0 1, .arg 0 2]⟩, ⟨2, .ret, [.arg 0 0]⟩]]⟩, ?h,
    resolveMemoryPass_keeps_values (fun _ => rfl) (by decide) ?h⟩
  decide

end Ebpf
end Btor2Mlir
