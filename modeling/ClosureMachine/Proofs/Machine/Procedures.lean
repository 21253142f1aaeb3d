import ClosureMachine.Primitive

/-!
What the arithmetic procedures do, whatever they are given: they answer with a number or a truth
value, or they report that an argument is no number or that a result does not fit
(`Arithmetic.tame_procedures`). Of their arguments they see the numbers and nothing else
(`Arithmetic.procedures_congr`).
-/

namespace ClosureMachine

/-- What the arithmetic procedures may report. -/
def MachineError.IsArithmetic : MachineError → Prop
  | primitiveFailed .. | overflow _ => True
  | _ => False

/-- A number or a truth value. -/
def Value.IsScalar : Value → Prop
  | int _ | bool _ => True
  | _ => False

namespace Arithmetic

/-- Succeeds with a result of which `P` holds, or fails as arithmetic may fail. -/
def Tame {α : Type} (P : α → Prop) : Except MachineError α → Prop
  | .ok a => P a
  | .error e => e.IsArithmetic

theorem Tame.bind {α β : Type} {P : α → Prop} {Q : β → Prop} {x : Except MachineError α}
    {f : α → Except MachineError β} (hx : Tame P x) (hf : ∀ a, Tame Q (f a)) :
    Tame Q (x >>= f) := by
  cases x with
  | error e => exact hx
  | ok a => exact hf a

theorem tame_checked (op : CheckedOp) (n : Int) : Tame (fun _ => True) (checked op n) := by
  unfold checked
  split
  · trivial
  · trivial

theorem tame_foldlM {α β : Type} {f : β → α → Except MachineError β}
    (hf : ∀ b a, Tame (fun _ => True) (f b a)) (b : β) (xs : List α) :
    Tame (fun _ => True) (xs.foldlM f b) := by
  induction xs generalizing b with
  | nil => trivial
  | cons x xs ih =>
    rw [List.foldlM_cons]
    exact (hf b x).bind ih

theorem tame_integers (name : String) (args : List Value) :
    Tame (fun _ => True) (integers name args) := by
  induction args with
  | nil => trivial
  | cons v args ih =>
    rw [integers, List.mapM_cons]
    refine Tame.bind (P := fun _ => True) ?_ fun n => ih.bind fun ns => trivial
    split
    · trivial
    · trivial

theorem tame_difference (ns : List Int64) : Tame (fun _ => True) (difference ns) := by
  unfold difference
  split
  · trivial
  · exact tame_checked _ _
  · exact tame_foldlM (fun _ _ => tame_checked _ _) _ _

/-- The procedures of a session answer with scalars. -/
theorem tame_procedures (p : String × Arity × HostProcedure) (hp : p ∈ procedures)
    (args : List Value) : Tame Value.IsScalar (p.2.2 args) := by
  simp only [procedures, List.mem_cons, List.not_mem_nil, or_false] at hp
  rcases hp with rfl | rfl | rfl | rfl
  · exact (tame_integers _ args).bind fun ns =>
      (tame_foldlM (fun _ _ => tame_checked _ _) 0 ns).bind fun n => trivial
  · exact (tame_integers _ args).bind fun ns => (tame_difference ns).bind fun n => trivial
  · exact (tame_integers _ args).bind fun ns => trivial
  · exact (tame_integers _ args).bind fun ns => trivial

theorem integers_congr (name : String) {args args' : List Value}
    (h : args.map Value.asInt? = args'.map Value.asInt?) :
    integers name args = integers name args' := by
  induction args generalizing args' with
  | nil =>
    cases args' with
    | nil => rfl
    | cons v' args' => simp at h
  | cons v args ih =>
    cases args' with
    | nil => simp at h
    | cons v' args' =>
      rw [List.map_cons, List.map_cons, List.cons.injEq] at h
      have htail := ih h.2
      simp only [integers] at htail
      simp only [integers, List.mapM_cons, h.1, htail]

/-- A procedure answers the same when it sees the same numbers. -/
theorem procedures_congr (p : String × Arity × HostProcedure) (hp : p ∈ procedures)
    {args args' : List Value} (h : args.map Value.asInt? = args'.map Value.asInt?) :
    p.2.2 args = p.2.2 args' := by
  simp only [procedures, List.mem_cons, List.not_mem_nil, or_false] at hp
  rcases hp with rfl | rfl | rfl | rfl
  · simp only [add, integers_congr "+" h]
  · simp only [subtract, integers_congr "-" h]
  · simp only [equal, integers_congr "=" h]
  · simp only [less, integers_congr "<" h]

/-- Changing arguments in a way that leaves numbers what they are changes no answer. -/
theorem procedures_map (p : String × Arity × HostProcedure) (hp : p ∈ procedures)
    {f : Value → Value} (hf : ∀ v, (f v).asInt? = v.asInt?) (args : List Value) :
    p.2.2 (args.map f) = p.2.2 args := by
  refine procedures_congr p hp ?_
  rw [List.map_map]
  exact List.map_congr_left fun v _ => hf v

end Arithmetic

end ClosureMachine
