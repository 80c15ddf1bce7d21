import HaloOS.Lib.Exec
import Mathlib.Order.Defs.Unbundled

/-! What a computation may change. A frame is a preorder on states; a computation that keeps
within it wherever it is run does so in any sequence with others of the kind. -/

namespace HaloOS.Lib

variable {ε σ τ α β : Type} {R : σ → σ → Prop} {R' : τ → τ → Prop}

/-- Wherever the computation is run and returns, the change is one that `R` allows. -/
def Frames (R : σ → σ → Prop) (m : Exec ε σ α) : Prop := ∀ s, Sat m s anyStop fun _ t => R s t

namespace Frames

theorem ok {m : Exec ε σ α} {s t : σ} {a : α} (frame : Frames R m) (returned : m s = .ok (a, t)) :
    R s t := (frame s).ok returned

theorem ofOk {m : Exec ε σ α} (spec : ∀ s a t, m s = .ok (a, t) → R s t) : Frames R m :=
  fun s => Sat.ofOk (spec s)

theorem bind [IsTrans σ R] {m : Exec ε σ α} {f : α → Exec ε σ β} (first : Frames R m)
    (next : ∀ a, Frames R (f a)) : Frames R (m >>= f) :=
  fun s => Sat.bind (first s) fun a t one => (next a t).mono fun _ _ two => Trans.trans one two

theorem pure [Std.Refl R] (a : α) : Frames R (pure a : Exec ε σ α) := fun s => Sat.pure (refl s)

theorem throw (e : ε) : Frames R (throw e : Exec ε σ α) := fun _ => trivial

theorem gets [Std.Refl R] (f : σ → α) : Frames R (gets f : Exec ε σ α) := fun s => Sat.gets (refl s)

theorem update {f : σ → σ} (change : ∀ s, R s (f s)) : Frames R (update f : Exec ε σ Unit) :=
  fun s => Sat.update (change s)

theorem stopIf [Std.Refl R] {c : Prop} [Decidable c] (e : ε) :
    Frames R (stopIf c e : Exec ε σ Unit) :=
  fun s => Sat.stopIf (fun _ => trivial) fun _ => refl s

theorem onlyIf [Std.Refl R] {c : Prop} [Decidable c] {m : Exec ε σ Unit} (run : Frames R m) :
    Frames R (onlyIf c m) :=
  fun s => Sat.onlyIf (fun _ => run s) fun _ => refl s

theorem ite {c : Prop} [Decidable c] {m n : Exec ε σ α} (yes : Frames R m) (no : Frames R n) :
    Frames R (if c then m else n) :=
  fun s => Sat.ite (fun _ => yes s) fun _ => no s

theorem mono {Q : σ → σ → Prop} {m : Exec ε σ α} (frame : Frames R m)
    (weaker : ∀ s t, R s t → Q s t) : Frames Q m :=
  fun s => (frame s).mono fun _ t => weaker s t

/-- A computation on a component of the state. -/
theorem zoom {view : σ → τ} {put : τ → σ → σ} {m : Exec ε τ α} (frame : Frames R' m)
    (lift : ∀ s t, R' (view s) t → R s (put t s)) : Frames R (zoom view put m) :=
  fun s => Sat.zoom ((frame (view s)).mono fun _ t => lift s t)

end Frames

end HaloOS.Lib
