/-
# Event handlers that write, send and assert

A handler turns the memory of a process into a new memory and a list of
effects (writes to stable storage, messages), in the order it performs them;
a failed assertion ends it, and the process, after the effects performed so
far. `Out` is the result of a handler, `Out.andThen` runs one piece of a
handler after another.

The effects are performed one at a time by some `perform : σ → ε → σ` on the
whole system; `Chain perform F s es` says that each of them meets its
condition `F` in the state it is performed in.

Key definitions: `Out`, `Out.andThen`, `Out.check`, `Chain`.
Key theorems: `Chain.inv`, `Chain.of_prefix` (a crash may cut a handler short).
-/
import Mathlib.Data.List.Basic

namespace Ceph

open List

/-- What a handler leaves: the memory, the effects performed, and whether the
process is still running (`ok = false`: an assertion failed). -/
structure Out (σ ε : Type) where
  st : σ
  effs : List ε
  ok : Bool

namespace Out

variable {σ ε : Type}

/-- Nothing happens. -/
def ret (s : σ) : Out σ ε := ⟨s, [], true⟩

/-- The memory becomes `s`, and the effects `es` are performed. -/
def emit (s : σ) (es : List ε) : Out σ ε := ⟨s, es, true⟩

/-- `assert(b)`. -/
def check (s : σ) (b : Bool) : Out σ ε := ⟨s, [], b⟩

/-- `f` runs after `o`, unless `o` failed an assertion. -/
def andThen (o : Out σ ε) (f : σ → Out σ ε) : Out σ ε :=
  if o.ok then ⟨(f o.st).st, o.effs ++ (f o.st).effs, (f o.st).ok⟩ else o

@[simp] theorem emit_st (s : σ) (es : List ε) : (emit s es).st = s := rfl
@[simp] theorem emit_effs (s : σ) (es : List ε) : (emit s es).effs = es := rfl
@[simp] theorem emit_ok (s : σ) (es : List ε) : (emit s es).ok = true := rfl
@[simp] theorem check_st (s : σ) (b : Bool) : (check s b : Out σ ε).st = s := rfl
@[simp] theorem check_effs (s : σ) (b : Bool) : (check s b : Out σ ε).effs = [] := rfl

@[simp] theorem ret_andThen (s : σ) (f : σ → Out σ ε) : (ret s).andThen f = f s := by
  simp [andThen, ret]

@[simp] theorem emit_andThen (s : σ) (es : List ε) (f : σ → Out σ ε) :
    (emit s es).andThen f = ⟨(f s).st, es ++ (f s).effs, (f s).ok⟩ := by
  simp [andThen, emit]

@[simp] theorem check_andThen (s : σ) (b : Bool) (f : σ → Out σ ε) :
    (check s b).andThen f = if b then f s else check s false := by
  cases b <;> simp [andThen, check]

end Out

/-! ### Performing effects one at a time -/

section chain

variable {σ ε : Type} {perform : σ → ε → σ} {F : σ → ε → Prop}

/-- Each effect meets its condition where it is performed. -/
def Chain (perform : σ → ε → σ) (F : σ → ε → Prop) : σ → List ε → Prop
  | _, [] => True
  | s, e :: es => F s e ∧ Chain perform F (perform s e) es

theorem chain_append : ∀ (es es' : List ε) (s : σ), Chain perform F s (es ++ es') ↔
    Chain perform F s es ∧ Chain perform F (es.foldl perform s) es'
  | [], es', s => by simp [Chain]
  | e :: es, es', s => by
    simp only [cons_append, Chain, foldl_cons, chain_append es es', and_assoc]

theorem Chain.of_prefix {s : σ} {es es' : List ε} (h : Chain perform F s es') (hp : es <+: es') :
    Chain perform F s es := by
  obtain ⟨t, rfl⟩ := hp
  exact ((chain_append es t s).mp h).1

/-- **The invariant rule.** What each effect keeps, under its condition, all of
them keep. -/
theorem Chain.inv {P : σ → Prop} (hp : ∀ s e, P s → F s e → P (perform s e)) :
    ∀ {es : List ε} {s : σ}, Chain perform F s es → P s → P (es.foldl perform s) := by
  intro es
  induction es with
  | nil => exact fun _ h0 => h0
  | cons e es ih => exact fun h h0 => ih h.2 (hp _ e h0 h.1)

/-- Effects that each meet their condition at the start, and do not disturb the
conditions of the ones that follow. -/
theorem chain_of_forall {es : List ε} : ∀ {s : σ}, (∀ e ∈ es, F s e) →
    es.Pairwise (fun e e' => ∀ s, F s e' → F (perform s e) e') → Chain perform F s es := by
  induction es with
  | nil => exact fun _ _ => trivial
  | cons e es ih =>
    intro s h hpair
    obtain ⟨he, hes⟩ := pairwise_cons.mp hpair
    refine ⟨h e mem_cons_self, ih (fun e' he' => ?_) hes⟩
    exact he e' he' s (h e' (mem_cons_of_mem e he'))

end chain

end Ceph
