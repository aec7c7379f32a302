import Mimo26.Coordinator.WireClient

/-!
# Rules for the wire client

The `Triple` rules for the client's ways of reaching a component: a loop over the connections, a
step of one connection, a step of its RDMA side.

## Main results

* `forConns_triple`, `forConns_map`, `onConn_triple`, `onRdma_triple` — loops and components
-/

namespace Mimo26

namespace Coordinator

open Wire Fallible

variable {τ α : Type} {F : Prop}

theorem onConn_triple {m : Conn α} {C D : SparkConn → Prop} {B : α → SparkConn → Prop}
    {I : τ → Prop} (hm : Triple C m B D) :
    Triple (fun x => C x.1 ∧ I x.2) (onConn m : EStateM ClientError (SparkConn × τ) α)
      (fun a x => B a x.1 ∧ I x.2) (fun x => D x.1) := by
  rintro ⟨conn, t⟩ ⟨hconn, ht⟩
  have hpost := hm conn hconn
  rw [onConn]
  cases hres : m conn with
  | ok a conn' =>
    rw [hres] at hpost
    exact ⟨hpost, ht⟩
  | error e conn' =>
    rw [hres] at hpost
    exact hpost

/-- A wire call leaves the state alone. -/
theorem wireCall_triple {σ : Type} {r : Except WireError α} {P E : σ → Prop}
    (hfail : ∀ e, r = .error e → ∀ s, P s → E s) :
    Triple P (wireCall r) (fun a s => r = .ok a ∧ P s) E := by
  cases r with
  | ok a => exact .pure fun s hs => ⟨rfl, hs⟩
  | error e => exact .throw (hfail e rfl)

/-- A connection with an RDMA side that satisfies `Q`. -/
def RdmaSide (Q : RdmaConn → Prop) (conn : SparkConn) : Prop := ∃ rc, conn.rdma = some rc ∧ Q rc

theorem RdmaSide.imp {Q Q' : RdmaConn → Prop} {conn : SparkConn} (h : RdmaSide Q conn)
    (hQ : ∀ rc, Q rc → Q' rc) : RdmaSide Q' conn := by
  obtain ⟨rc, hrc, hq⟩ := h
  exact ⟨rc, hrc, hQ rc hq⟩

theorem onRdma_triple {m : EStateM ClientError RdmaConn α} {Q E : RdmaConn → Prop}
    {R : α → RdmaConn → Prop} (hm : Triple Q m R fun rc => F ∧ E rc) :
    Triple (RdmaSide Q) (onRdma m) (fun a => RdmaSide (R a)) (fun conn => F ∧ RdmaSide E conn) := by
  rintro conn ⟨rc, hrdma, hq⟩
  have hpost := hm rc hq
  rw [onRdma, hrdma]
  dsimp only
  cases hres : m rc with
  | ok a rc' =>
    rw [hres] at hpost
    exact ⟨rc', rfl, hpost⟩
  | error e rc' =>
    rw [hres] at hpost
    exact ⟨hpost.1, rc', rfl, hpost.2⟩

/-- What a step does to the RDMA side of a given connection; the rest of it is left alone. -/
theorem onRdma_row {m : EStateM ClientError RdmaConn α} {Q : RdmaConn → α → RdmaConn → Prop}
    (hm : ∀ rc, Triple (fun s => s = rc) m (Q rc) fun _ => True) (conn : SparkConn) :
    Triple (fun s => s = conn) (onRdma m)
      (fun a s => ∃ rc rc', Q rc a rc' ∧ conn.rdma = some rc ∧ s = { conn with rdma := some rc' })
      (fun s => s.rank = conn.rank) := by
  rintro s rfl
  rw [onRdma]
  cases hrdma : s.rdma with
  | none => rfl
  | some rc =>
    have hpost := hm rc rc rfl
    dsimp only
    cases hres : m rc with
    | ok a rc' =>
      rw [hres] at hpost
      exact ⟨rc, rc', hpost, rfl, rfl⟩
    | error e rc' => rfl

/-- A loop over the connections, with a condition `K` on the rest of the client. -/
theorem forConns_triple {b : ℕ → EStateM ClientError (SparkConn × τ) Unit}
    {C B D : SparkConn → Prop} {I : τ → Prop} {K : WireClient → Prop} {t : τ}
    (hbody : ∀ r, Triple (fun x => C x.1 ∧ I x.2) (b r) (fun _ x => B x.1 ∧ I x.2)
      (fun x => F ∧ D x.1))
    (hC : F → ∀ conn, C conn → D conn) (hB : F → ∀ conn, B conn → D conn)
    (hK : ∀ c conns, K c → K { c with conns := conns }) (ht : I t) :
    Triple (fun c => K c ∧ ∀ conn ∈ c.conns, C conn) (forConns b t)
      (fun t' c => (K c ∧ ∀ conn ∈ c.conns, B conn) ∧ I t')
      (fun c => F ∧ K c ∧ ∀ conn ∈ c.conns, D conn) := by
  rintro c ⟨hc, hconns⟩
  have hloop := each_triple hbody hC hB (i := 0) hconns ht
  rw [forConns]
  cases hres : each b 0 c.conns t with
  | ok u x =>
    rw [hres] at hloop
    exact ⟨⟨hK c x.1 hc, hloop.1⟩, hloop.2⟩
  | error e x =>
    rw [hres] at hloop
    exact ⟨hloop.1, hK c x.1 hc, hloop.2⟩

/-- A loop over the connections, position by position; the rest of the client is left alone. -/
theorem forConns_rows {b : ℕ → EStateM ClientError (SparkConn × τ) Unit}
    {R S : ℕ → SparkConn → SparkConn → Prop}
    (hbody : ∀ j conn t, Outcome (fun _ x => R j conn x.1) (fun x => S j conn x.1) (b j (conn, t)))
    (hRS : ∀ j conn conn', R j conn conn' → S j conn conn') (hS : ∀ j conn, S j conn conn)
    (c : WireClient) (t : τ) :
    Triple (fun s => s = c) (forConns b t)
      (fun _ s => s = { c with conns := s.conns } ∧ Rows R 0 c.conns s.conns)
      (fun s => Rows S 0 c.conns s.conns) := by
  rintro s rfl
  have hloop := each_rows hbody hRS hS 0 s.conns t
  rw [forConns]
  cases hres : each b 0 s.conns t with
  | ok u x =>
    rw [hres] at hloop
    exact ⟨rfl, hloop⟩
  | error e x =>
    rw [hres] at hloop
    exact hloop

/-- A step of one connection, as a step of a loop that threads a local. -/
theorem onConn_row {m : Conn α} {R : α → SparkConn → Prop} {S : SparkConn → Prop} {conn : SparkConn}
    (hm : Triple (fun s => s = conn) m R S) (t : τ) :
    Outcome (fun a x => R a x.1) (fun x => S x.1)
      ((onConn m : EStateM ClientError (SparkConn × τ) α) (conn, t)) := by
  have hpost := hm conn rfl
  rw [onConn]
  cases hres : m conn with
  | ok a conn' =>
    rw [hres] at hpost
    exact hpost
  | error e conn' =>
    rw [hres] at hpost
    exact hpost

end Coordinator

end Mimo26
