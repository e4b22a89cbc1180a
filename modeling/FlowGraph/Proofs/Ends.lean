/-!
# Values and errors

`Ends P Q x` says that a computation ends in a value with `P` or reports an
error with `Q`. It is proved along the computation: what comes before a bind
hands its value on, and a fold keeps what each of its steps keeps.
-/

namespace FlowGraph

variable {ε α β : Type} {P : α → Prop} {P' : β → Prop} {Q Q' : ε → Prop} {x : Except ε α}

/-- The computation ends in a value with `P` or in an error with `Q`. -/
def Ends (P : α → Prop) (Q : ε → Prop) : Except ε α → Prop
  | .ok a => P a
  | .error e => Q e

namespace Ends

theorem of_ok {a : α} (h : Ends P Q x) (hx : x = .ok a) : P a := by
  subst hx
  exact h

theorem of_error {e : ε} (h : Ends P Q x) (hx : x = .error e) : Q e := by
  subst hx
  exact h

theorem imp {R : α → Prop} (h : Ends P Q x) (hP : ∀ a, P a → R a) (hQ : ∀ e, Q e → Q' e) :
    Ends R Q' x := by
  cases x with
  | ok a => exact hP a h
  | error e => exact hQ e h

theorem bind {f : α → Except ε β} (h : Ends P Q x) (hf : ∀ a, P a → Ends P' Q (f a)) :
    Ends P' Q (x >>= f) := by
  cases x with
  | ok a => exact hf a h
  | error e => exact h

theorem map {f : α → β} (h : Ends P Q x) (hf : ∀ a, P a → P' (f a)) : Ends P' Q (x.map f) := by
  cases x with
  | ok a => exact hf a h
  | error e => exact h

theorem foldlM {f : β → α → Except ε β} {l : List α}
    (step : ∀ b, ∀ a ∈ l, P' b → Ends P' Q (f b a)) : ∀ b, P' b → Ends P' Q (l.foldlM f b) := by
  induction l with
  | nil => exact fun b hb => hb
  | cons a l ih =>
    intro b hb
    rw [List.foldlM_cons]
    apply bind (step b a List.mem_cons_self hb)
    exact ih fun b' a' ha => step b' a' (List.mem_cons_of_mem _ ha)

end Ends

end FlowGraph
