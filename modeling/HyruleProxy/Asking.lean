import Mathlib.Tactic

namespace HyruleProxy
set_option autoImplicit true

/-- A computation that may put questions to an oracle before it is done. -/
inductive Asking (Q A α : Type) where
  | done (a : α)
  | ask (q : Q) (k : A → Asking Q A α)

namespace Asking

variable (answer : Q → A)

def run : Asking Q A α → α
  | done a => a
  | ask q k => run (k (answer q))

/-- The questions of a run, in their order. -/
def asked : Asking Q A α → List Q
  | done _ => []
  | ask q k => q :: asked (k (answer q))

@[simp] theorem run_done (a : α) : (done a : Asking Q A α).run answer = a := rfl

@[simp] theorem run_ask (q : Q) (k : A → Asking Q A α) :
    (ask q k).run answer = (k (answer q)).run answer := rfl

end Asking

end HyruleProxy
