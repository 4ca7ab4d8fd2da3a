/-
**Computations on a state that may fail.**

Changes of an account and computations on the store are steps on a state.  A step gives a result or
an error, and either way leaves a state behind, which is where the next step starts or where the
whole computation stops.

Main results:

* `StakeLedger.Stateful.bind_of_ok`, `StakeLedger.Stateful.bind_of_error` — what a step that went
  well and a step that failed mean for the steps after it.
-/
set_option autoImplicit false

namespace StakeLedger.Stateful

variable {σ ε α β : Type} {state after : σ} {error : ε}

/-- What follows a step that went well starts where the step ended. -/
theorem bind_of_ok {x : ExceptT ε (StateM σ) α} {a : α} (h : x state = (.ok a, after))
    (f : α → ExceptT ε (StateM σ) β) : (x >>= f) state = f a after := by
  show StateT.bind x (ExceptT.bindCont f) state = _
  simp only [StateT.bind, h]
  rfl

/-- Nothing follows a step that failed. -/
theorem bind_of_error {x : ExceptT ε (StateM σ) α} (h : x state = (.error error, after))
    (f : α → ExceptT ε (StateM σ) β) : (x >>= f) state = (.error error, after) := by
  show StateT.bind x (ExceptT.bindCont f) state = _
  simp only [StateT.bind, h]
  rfl

end StakeLedger.Stateful
