import Mathlib.Algebra.Ring.Nat
import Mathlib.Data.Nat.Notation

/-!
# The accounting of the KV pool

`kv_pool.rs`: a pool of bytes measured at boot, from which a request takes its prompt's rows, one
sliding-window ring and an output quantum at admission. Bytes are `u64`s; sums and products wrap.
-/

namespace Mimo26

namespace Coordinator

namespace A4

def gaKvBytesPerToken : ℕ := 9 * 4 * (192 + 128)

def swaRingBytesPerSeq : ℕ := 39 * 8 * (192 + 128) * 128

/-- Output quantum reserved at admission. -/
def defaultAdmitReserve : ℕ := 8192

/-- A sum or product as a `u64`. -/
def wrap (n : ℕ) : ℕ := n % 2 ^ 64

/-- One ring, prompt rows and the output quantum, before wrapping. -/
def reservationBytes (promptTokens maxTokens admitReserve : ℕ) : ℕ :=
  swaRingBytesPerSeq + promptTokens * gaKvBytesPerToken +
    min maxTokens admitReserve * gaKvBytesPerToken

def requestReservation (promptTokens maxTokens admitReserve : ℕ) : ℕ :=
  wrap (reservationBytes promptTokens maxTokens admitReserve)

structure KvPool where
  total : ℕ
  used : ℕ := 0
  deriving DecidableEq, Repr

namespace KvPool

/-- The pool with the reservation taken; none is a rejection. -/
def admission (p : KvPool) (promptTokens maxTokens admitReserve : ℕ) : Option (ℕ × KvPool) :=
  let reservation := requestReservation promptTokens maxTokens admitReserve
  if p.total < wrap (p.used + reservation) then none
  else some (reservation, { p with used := wrap (p.used + reservation) })

/-- The pool with the bytes reserved, if they fit. -/
def reserveBytes (p : KvPool) (bytes : ℕ) : Option KvPool :=
  if p.total < wrap (p.used + bytes) then none
  else some { p with used := wrap (p.used + bytes) }

def release (p : KvPool) (reservation : ℕ) : KvPool := { p with used := p.used - reservation }

@[simp] theorem release_total (p : KvPool) (n : ℕ) : (p.release n).total = p.total := rfl

/-- An admission that does not overflow. -/
theorem admission_eq_some {p p' : KvPool} {promptTokens maxTokens admitReserve reservation : ℕ}
    (h : p.admission promptTokens maxTokens admitReserve = some (reservation, p'))
    (hfits : p.used + reservationBytes promptTokens maxTokens admitReserve < 2 ^ 64) :
    p'.total = p.total ∧ p'.used = p.used + reservation ∧ p'.used ≤ p.total := by
  have hres : requestReservation promptTokens maxTokens admitReserve =
      reservationBytes promptTokens maxTokens admitReserve :=
    Nat.mod_eq_of_lt (by omega)
  rw [admission, hres] at h
  split at h
  · exact absurd h (by simp)
  · next hle =>
    obtain ⟨rfl, rfl⟩ := Prod.mk.inj (Option.some.inj h)
    rw [wrap, Nat.mod_eq_of_lt hfits, Nat.not_lt] at hle
    rw [wrap, Nat.mod_eq_of_lt hfits]
    exact ⟨rfl, rfl, hle⟩

theorem reserveBytes_eq_some {p p' : KvPool} {bytes : ℕ} (h : p.reserveBytes bytes = some p')
    (hfits : p.used + bytes < 2 ^ 64) :
    p'.total = p.total ∧ p'.used = p.used + bytes ∧ p'.used ≤ p.total := by
  rw [reserveBytes] at h
  split at h
  · exact absurd h (by simp)
  · next hle =>
    obtain rfl := Option.some.inj h
    rw [wrap, Nat.mod_eq_of_lt hfits, Nat.not_lt] at hle
    rw [wrap, Nat.mod_eq_of_lt hfits]
    exact ⟨rfl, rfl, hle⟩

end KvPool

end A4

end Coordinator

end Mimo26
