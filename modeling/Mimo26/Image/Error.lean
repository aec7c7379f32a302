import Mathlib.Data.Nat.Notation

/-!
# Failures of the image decoders

A decoder fails with a message (`ImageError` of `lib.rs`). `panic` is an index or a slice out of
range or an overflow, and `fuel` a loop that does not end; that neither is met is a theorem about a
decoder.
-/

namespace Mimo26

namespace Image

structure ImageError where
  message : String
  deriving DecidableEq, Repr

inductive Stop where
  | error (e : ImageError)
  | panic
  | fuel
  deriving DecidableEq, Repr

/-- A failure with a message. -/
def Stop.IsError : Stop → Prop
  | .error _ => True
  | _ => False

/-- `bail!` -/
def bail {σ α : Type} (message : String) : EStateM Stop σ α := throw (.error ⟨message⟩)

/-- `xs[i]` -/
def index {σ α : Type} (xs : List α) (i : ℕ) : EStateM Stop σ α :=
  match xs[i]? with
  | some x => pure x
  | none => throw .panic

theorem run_bind {ε σ α β : Type} {m : EStateM ε σ α} {f : α → EStateM ε σ β} {a : α} {s s' : σ}
    (h : m s = .ok a s') : (m >>= f) s = f a s' := by
  show EStateM.bind m f s = _
  rw [EStateM.bind, h]

theorem run_get {ε σ : Type} (s : σ) : (get : EStateM ε σ σ) s = .ok s s := rfl

theorem run_set {ε σ : Type} (s s' : σ) : (set s' : EStateM ε σ PUnit) s = .ok ⟨⟩ s' := rfl

/-- The value of a step that has no state. -/
def lift {σ α : Type} : Except Stop α → EStateM Stop σ α
  | .ok a => pure a
  | .error e => throw e

end Image

end Mimo26
