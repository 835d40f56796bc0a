import BeeRpc.Effect.Outcome
import Mathlib.Order.Defs.Unbundled

namespace Effect

variable {ε σ α β : Type}

-- Whichever way the computation ends, the state that it leaves is related to the one
-- that it has started from.
def Stays (r : σ → σ → Prop) (m : EStateM ε σ α) : Prop :=
  ∀ s, Ends m s (fun _ s' => r s s') fun _ s' => r s s'

theorem Stays.modifyGet {r : σ → σ → Prop} {f : σ → α × σ} (h : ∀ s, r s (f s).2) :
    Stays r (modifyGet f : EStateM ε σ α) := fun s => h s

variable {r : σ → σ → Prop} [IsPreorder σ r]

theorem Stays.pure (a : α) : Stays r (Pure.pure a : EStateM ε σ α) := fun s => refl_of r s

theorem Stays.throw (e : ε) : Stays r (throw e : EStateM ε σ α) := fun s => refl_of r s

theorem Stays.get : Stays r (get : EStateM ε σ σ) := fun s => refl_of r s

theorem Stays.bind {m : EStateM ε σ α} {f : α → EStateM ε σ β} (hm : Stays r m)
    (hf : ∀ a, Stays r (f a)) : Stays r (m >>= f) := by
  intro s
  refine Ends.bind (hm s) fun a s' h => ?_
  exact (hf a s').mono (fun _ _ h' => trans_of r h h') fun _ _ h' => trans_of r h h'

theorem Stays.tryCatch {m : EStateM ε σ α} {handler : ε → EStateM ε σ α} (hm : Stays r m)
    (hh : ∀ e, Stays r (handler e)) : Stays r (tryCatch m handler) := by
  intro s
  refine ends_tryCatch.mpr ((hm s).mono (fun _ _ h => h) fun e s' h => ?_)
  exact (hh e s').mono (fun _ _ h' => trans_of r h h') fun _ _ h' => trans_of r h h'

end Effect
