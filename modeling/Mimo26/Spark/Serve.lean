import Mimo26.Spark.B1Inputs
import Mimo26.Spark.BootGate
import Mimo26.Spark.RoutePlan
import Mimo26.Spark.Transport

/-!
# The serve loop of a Spark

One pass of the daemon's loop over a TCP connection (`main.rs`, `serve.rs`, `wire.rs`): take a
frame, check its sequence, load the layer, run the experts, answer. A request that cannot be served
is answered with an error return, and the connection is left.

The value of a hidden code, and the experts with their route reduction, are arguments. Timings, the
frame dump and the log are left out.

## Main definitions

* `Machine`, `serveReturn` — what a rank serves with, and one request served
* `Daemon`, `Daemon.pass` — a connection of the daemon, and one pass of its loop
* `Machine.reply` — what a rank has to say to a request

## Main results

* `reply_eq_ok`, `reply_encodable` — a reply is what the experts compute, and can be sent
* `answer_reply`, `answer_refused` — what goes out for a request
* `pass_request`, `pass_skipped` — a pass over a request, in turn and out of turn
-/

namespace Mimo26

namespace Spark

open Wire Result Repack

variable {F : Type}

/-! ### One request -/

/-- What a rank serves with. -/
structure Machine (F : Type) where
  resident : Resident
  /-- The value of a hidden code under its scale byte. -/
  cell : UInt8 → UInt8 → F
  /-- The experts of a layer's image over the hidden rows, reduced to BF16 rows. -/
  ffn : List UInt8 → List F → RoutePlan → Except String (List UInt16)

/-- One hidden row. -/
def decodeHidden (cell : UInt8 → UInt8 → F) (payload scales : List UInt8) :
    Except ServeError (List F) := do
  let n := payload.length
  demand (n = hiddenDim) (.shape s!"hidden: payload has {n} bytes, expected {hiddenDim}")
  let m := scales.length
  demand (m = scaleLen) (.shape s!"hidden: scales has {m} bytes, expected {scaleLen}")
  return (List.range scaleLen).flatMap fun b =>
    (List.range 32).map fun k => cell (payload.getD (b * 32 + k) 0) (scales.getD b 0)

/-- What a return says of its request. -/
def returnMeta (request : RequestFrame) : ReturnFrame where
  requestId := request.requestId
  placementVersion := request.placementVersion
  layerId := request.layerId
  executorId := request.executorId
  tokenPosition := request.tokenPosition
  status := .ok
  flags := flagReturnRequired
  routeCount := 8
  seq := 0
  rows := []

/-- The return of BF16 rows, taken as they are. -/
def rankBf16ToReturnFrame (bf16 : List UInt16) (request : RequestFrame) (tokens : ℕ) :
    Except WireError ReturnFrame := do
  demand (tokens * hiddenDim ≤ usizeMax) (.dimMismatch "bf16" 0 usizeMax)
  let want := tokens * hiddenDim
  demand (bf16.length = want) (.dimMismatch "bf16" want bf16.length)
  return { returnMeta request with
    rows := (List.range tokens).map fun t => ⟨(bf16.drop (t * hiddenDim)).take hiddenDim⟩ }

/-- Serve one request from the image of its layer. -/
def serveReturn (m : Machine F) (grouped : List UInt8) (request : RequestFrame) :
    Except ServeError ReturnFrame := do
  let tokens := request.rows.length
  let n := request.hiddenRows.length
  demand (n = tokens) (.shape s!"serve: {n} hidden rows for {tokens} rows")
  let hidden ← request.hiddenRows.mapM fun h => decodeHidden m.cell h.payload h.scales
  let rp ← (fromRoutes request.routes tokens).mapError .shape
  let bf16 ← (m.ffn grouped hidden.flatten rp).mapError .shape
  liftWire (rankBf16ToReturnFrame bf16 request tokens)

/-- An error return: one zero row per token. -/
def errorReturn (request : RequestFrame) : ReturnFrame :=
  { returnMeta request with
    status := .error
    flags := 0
    rows := List.replicate request.rows.length ⟨List.replicate hiddenDim 0⟩ }

/-! ### The loop -/

/-- A connection of the daemon, and the images it has loaded. -/
structure Daemon where
  transport : TcpTransport
  rx : StreamReceiver
  tx : StreamSender
  deviceCache : ℕ → Option (List UInt8)

/-- How a pass of the loop ends. -/
inductive Pass where
  | continued
  /-- The connection is left. -/
  | left
  | panicked
  deriving DecidableEq, Repr

namespace Daemon

/-- A connection just accepted. -/
def accepted (stream : Source UInt8) (deviceCache : ℕ → Option (List UInt8)) : Daemon where
  transport := ⟨stream, false⟩
  rx := .new .none
  tx := .new .none
  deviceCache := deviceCache

/-- The image of a layer, loaded at the first touch. -/
def image (m : Machine F) (d : Daemon) (layer : ℕ) : Daemon × Except RepackError (List UInt8) :=
  match d.deviceCache layer with
  | some img => (d, .ok img)
  | none =>
    match m.resident.groupedImage layer expertsPerLayer with
    | .error e => (d, .error e)
    | .ok img => ({ d with deviceCache := Function.update d.deviceCache layer (some img) }, .ok img)

/-- Send a frame; `send` says after how many bytes that fails, if it does. -/
def send (stamped : List UInt8) : Option ℕ → List UInt8 × Pass
  | none => (stamped, .continued)
  | some k => (stamped.take k, .left)

/-- Answer a request; gives the bytes that went out. -/
def answer (m : Machine F) (nocrc : Bool) (sending : Option ℕ) (d : Daemon) (req : RequestFrame) :
    Daemon × List UInt8 × Pass :=
  let layer := req.layerId.toNat
  if layer = 0 ∨ moeLayers < layer then (d, [], .left)
  else
    match d.image m layer with
    | (d, .error _) => (d, [], .left)
    | (d, .ok grouped) =>
      match serveReturn m grouped req with
      | .error _ =>
        -- fail the request, never the rank
        match d.tx.encodeReturn nocrc (errorReturn req) with
        | (tx, .error _) => ({ d with tx := tx }, [], .left)
        | (tx, .ok stamped) => ({ d with tx := tx }, (send stamped sending).1, .left)
      | .ok ret =>
        match d.tx.encodeReturn nocrc ret with
        | (tx, .error _) => ({ d with tx := tx }, [], .left)
        | (tx, .ok stamped) =>
          if stamped.length ≠ headerLen + ret.rows.length * returnRowBytesCanonical then
            ({ d with tx := tx }, [], .panicked)
          else ({ d with tx := tx }, send stamped sending)

/-- One pass of the loop. -/
def pass (m : Machine F) (nocrc : Bool) (sending : Option ℕ) (d : Daemon) :
    Daemon × List UInt8 × Pass :=
  let r := d.transport.recv
  let d := { d with transport := r.transport }
  match r.received with
  | .panicked => (d, [], .panicked)
  | .returned none => (d, [], .left)
  | .returned (some bytes) =>
    match d.rx.accept nocrc bytes with
    | (rx, .error _) => ({ d with rx := rx }, [], .left)
    | (rx, .ok (.return _)) => ({ d with rx := rx }, [], .left)
    | (rx, .ok (.request req)) => answer m nocrc sending { d with rx := rx } req

end Daemon

/-! ### What a rank has to say -/

/-- The reply of a rank to a request: the layer's experts over its hidden rows. -/
def Machine.reply (m : Machine F) (req : RequestFrame) : Except ServeError ReturnFrame := do
  let layer := req.layerId.toNat
  demand (layer ≠ 0 ∧ layer ≤ moeLayers)
    (.shape s!"request layer {layer} out of MoE range 1..={moeLayers}")
  let grouped ← (m.resident.groupedImage layer expertsPerLayer).mapError fun _ =>
    .shape s!"grouped_image L{layer} failed"
  serveReturn m grouped req

/-- The experts of the rank compute these codes for a batch of a layer. -/
structure Machine.Computes (m : Machine F) (layerId : UInt32) (hiddenRows : List HiddenRow)
    (routes : List RouteEntry) (tokens : ℕ) (codes : List UInt16) : Prop where
  layer : layerId.toNat ≠ 0 ∧ layerId.toNat ≤ moeLayers
  hiddenRows_len : hiddenRows.length = tokens
  codes_len : codes.length = tokens * hiddenDim
  codes_eq : ∃ grouped hidden rp,
    m.resident.groupedImage layerId.toNat expertsPerLayer = .ok grouped ∧
    (hiddenRows.mapM fun h => decodeHidden m.cell h.payload h.scales) = .ok hidden ∧
    fromRoutes routes tokens = .ok rp ∧ m.ffn grouped hidden.flatten rp = .ok codes

/-- The rows of a return. -/
def rowsOfCodes (codes : List UInt16) (tokens : ℕ) : List ReturnRow :=
  (List.range tokens).map fun t => ⟨(codes.drop (t * hiddenDim)).take hiddenDim⟩

section Reply

variable {m : Machine F} {req : RequestFrame} {ret : ReturnFrame}

theorem mapError_eq_ok {α ε δ : Type} {x : Except ε α} {f : ε → δ} {a : α} :
    x.mapError f = .ok a ↔ x = .ok a := by
  cases x <;> simp [Except.mapError]

theorem decodeHidden_eq_ok {cell : UInt8 → UInt8 → F} {payload scales : List UInt8} {row : List F} :
    decodeHidden cell payload scales = .ok row ↔ payload.length = hiddenDim ∧
      scales.length = scaleLen ∧ row = (List.range scaleLen).flatMap fun b =>
        (List.range 32).map fun k => cell (payload.getD (b * 32 + k) 0) (scales.getD b 0) := by
  rw [decodeHidden]
  constructor
  · intro h
    obtain ⟨_, hpayload, h⟩ := bind_eq_ok.mp h
    obtain ⟨_, hscales, h⟩ := bind_eq_ok.mp h
    exact ⟨demand_eq_ok.mp hpayload, demand_eq_ok.mp hscales, (Except.ok.inj h).symm⟩
  · rintro ⟨hpayload, hscales, rfl⟩
    exact bind_eq_ok.mpr ⟨(), demand_eq_ok.mpr hpayload,
      bind_eq_ok.mpr ⟨(), demand_eq_ok.mpr hscales, rfl⟩⟩

theorem length_decodeHidden {cell : UInt8 → UInt8 → F} {payload scales : List UInt8} {row : List F}
    (h : decodeHidden cell payload scales = .ok row) : row.length = hiddenDim := by
  obtain ⟨-, -, rfl⟩ := decodeHidden_eq_ok.mp h
  rw [Grid.length_flatMap_range fun b _ => by rw [List.length_map, List.length_range], scaleLen]
  rfl

theorem rankBf16ToReturnFrame_eq_ok {bf16 : List UInt16} {tokens : ℕ} :
    rankBf16ToReturnFrame bf16 req tokens = .ok ret ↔ tokens * hiddenDim ≤ usizeMax ∧
      bf16.length = tokens * hiddenDim ∧
      ret = { returnMeta req with rows := rowsOfCodes bf16 tokens } := by
  rw [rankBf16ToReturnFrame]
  constructor
  · intro h
    obtain ⟨_, hfits, h⟩ := bind_eq_ok.mp h
    obtain ⟨_, hlen, h⟩ := bind_eq_ok.mp h
    exact ⟨demand_eq_ok.mp hfits, demand_eq_ok.mp hlen, (Except.ok.inj h).symm⟩
  · rintro ⟨hfits, hlen, rfl⟩
    exact bind_eq_ok.mpr ⟨(), demand_eq_ok.mpr hfits,
      bind_eq_ok.mpr ⟨(), demand_eq_ok.mpr hlen, rfl⟩⟩

/-- **A reply is what the experts compute**, one row for each token of the request. -/
theorem reply_eq_ok (hreq : req.rows.length < 2 ^ 32) : m.reply req = .ok ret ↔
    ∃ codes, m.Computes req.layerId req.hiddenRows req.routes req.rows.length codes ∧
      ret = { returnMeta req with rows := rowsOfCodes codes req.rows.length } := by
  constructor
  · intro h
    obtain ⟨_, hlayer, h⟩ := bind_eq_ok.mp h
    obtain ⟨grouped, hgrouped, h⟩ := bind_eq_ok.mp h
    obtain ⟨_, hrows, h⟩ := bind_eq_ok.mp h
    obtain ⟨hidden, hhidden, h⟩ := bind_eq_ok.mp h
    obtain ⟨rp, hrp, h⟩ := bind_eq_ok.mp h
    obtain ⟨codes, hcodes, h⟩ := bind_eq_ok.mp h
    obtain ⟨-, hlen, hret⟩ := rankBf16ToReturnFrame_eq_ok.mp (mapError_eq_ok.mp h)
    exact ⟨codes, ⟨demand_eq_ok.mp hlayer, demand_eq_ok.mp hrows, hlen, grouped, hidden, rp,
      mapError_eq_ok.mp hgrouped, hhidden, mapError_eq_ok.mp hrp, mapError_eq_ok.mp hcodes⟩, hret⟩
  · rintro ⟨codes, ⟨hlayer, hrows, hlen, grouped, hidden, rp, hgrouped, hhidden, hrp, hcodes⟩, hret⟩
    have hfits : req.rows.length * hiddenDim ≤ usizeMax := by
      rw [hiddenDim, usizeMax]
      omega
    exact bind_eq_ok.mpr ⟨(), demand_eq_ok.mpr hlayer, bind_eq_ok.mpr ⟨grouped,
      mapError_eq_ok.mpr hgrouped, bind_eq_ok.mpr ⟨(), demand_eq_ok.mpr hrows,
      bind_eq_ok.mpr ⟨hidden, hhidden, bind_eq_ok.mpr ⟨rp, mapError_eq_ok.mpr hrp,
      bind_eq_ok.mpr ⟨codes, mapError_eq_ok.mpr hcodes, mapError_eq_ok.mpr
        (rankBf16ToReturnFrame_eq_ok.mpr ⟨hfits, hlen, hret⟩)⟩⟩⟩⟩⟩⟩

theorem length_rowsOfCodes (codes : List UInt16) (tokens : ℕ) :
    (rowsOfCodes codes tokens).length = tokens := by
  rw [rowsOfCodes, List.length_map, List.length_range]

theorem length_codes_rowsOfCodes {codes : List UInt16} {tokens : ℕ}
    (hlen : codes.length = tokens * hiddenDim) :
    ∀ row ∈ rowsOfCodes codes tokens, row.codes.length = hiddenDim := by
  intro row hrow
  obtain ⟨t, ht, rfl⟩ := List.mem_map.mp hrow
  have hle : (t + 1) * hiddenDim ≤ tokens * hiddenDim :=
    Nat.mul_le_mul_right _ (List.mem_range.mp ht)
  rw [List.length_take, List.length_drop, hlen]
  rw [Nat.succ_mul] at hle
  omega

/-- **A reply can be sent.** -/
theorem reply_encodable (hreq : req.Encodable) (h : m.reply req = .ok ret) : ret.Encodable := by
  obtain ⟨codes, hcodes, rfl⟩ := (reply_eq_ok hreq.rows_lt).mp h
  have hcount : (8 : ℕ) ≠ 0 ∧ (8 : ℕ) < 2 ^ 32 := by decide
  refine ⟨fun hnil => hreq.rows_ne ?_, hcount.1, length_codes_rowsOfCodes hcodes.codes_len, ?_,
    hcount.2⟩
  · rw [← List.length_eq_zero_iff, ← length_rowsOfCodes codes req.rows.length]
    exact List.length_eq_zero_iff.mpr hnil
  · show (rowsOfCodes codes req.rows.length).length < 2 ^ 32
    rw [length_rowsOfCodes]
    exact hreq.rows_lt

end Reply

/-! ### A pass over a request -/

/-- A frame that the whole stream is, is received, unless a read fails. -/
theorem TcpTransport.recv_cases {t : TcpTransport} {naive : WireNaive} {bytes : List UInt8}
    (hrest : t.stream.rest = bytes) (hb : Produced naive bytes) :
    (t.recv.received = .returned (some bytes) ∧ t.recv.transport.stream.rest = []) ∨
      ¬ t.stream.Calm ∧ t.recv.received = .returned none := by
  by_cases hcalm : t.stream.Calm
  · obtain ⟨hrecv, hdone, -⟩ := recv_frame hcalm hb (hrest.trans (List.append_nil bytes).symm)
    exact .inl ⟨hrecv, hdone⟩
  have hlen := hb.headerLen_le
  have hheader := Source.fill_spec headerLen [] t.stream
  rw [recv, readFrame]
  generalize t.stream.fill headerLen [] = r at hheader ⊢
  obtain ⟨result, s'⟩ := r
  cases result with
  | error e => exact .inr ⟨hcalm, rfl⟩
  | ok header =>
    obtain ⟨_, rfl, hlength, hsplit, -⟩ := hheader
    have htake : header = bytes.take headerLen := by
      rw [← hrest, hsplit]
      exact (List.take_left' hlength).symm
    have hdeclared : declaredLen header = bytes.length := by
      rw [htake, declaredLen_take hlen, hb.declaredLen_eq]
    have hbody := Source.fill_spec (bytes.length - headerLen) [] s'
    simp only
    rw [hdeclared, if_neg hlen.not_gt, if_neg hb.1.not_gt]
    generalize s'.fill (bytes.length - headerLen) [] = r' at hbody ⊢
    obtain ⟨result', s''⟩ := r'
    cases result' with
    | error e => exact .inr ⟨hcalm, rfl⟩
    | ok body =>
      obtain ⟨_, rfl, hlength', hsplit', -⟩ := hbody
      have hwhole : bytes = (header ++ body) ++ s''.rest := by
        rw [← hrest, hsplit, hsplit', List.append_assoc]
      have hnil : s''.rest = [] := by
        have hcount := congrArg List.length hwhole
        rw [List.length_append, List.length_append, hlength, hlength'] at hcount
        refine List.length_eq_zero_iff.mp ?_
        rw [List.length_nil] at hcount
        omega
      rw [hnil, List.append_nil] at hwhole
      refine .inl ⟨?_, hnil⟩
      simp only
      rw [← hwhole]

namespace Daemon

variable {m : Machine F} {d : Daemon} {nocrc : Bool} {sending : Option ℕ} {req : RequestFrame}

/-- The images loaded are those of the resident slices. -/
def Cached (m : Machine F) (d : Daemon) : Prop :=
  ∀ layer img, d.deviceCache layer = some img →
    m.resident.groupedImage layer expertsPerLayer = .ok img

theorem Cached.image (h : d.Cached m) (layer : ℕ) :
    ∃ cache, d.image m layer = ({ d with deviceCache := cache },
      m.resident.groupedImage layer expertsPerLayer) ∧
      Cached m { d with deviceCache := cache } := by
  rw [Daemon.image]
  cases hcache : d.deviceCache layer with
  | some img => exact ⟨d.deviceCache, by rw [h layer img hcache], h⟩
  | none =>
    cases himg : m.resident.groupedImage layer expertsPerLayer with
    | error e => exact ⟨d.deviceCache, rfl, h⟩
    | ok img =>
      refine ⟨Function.update d.deviceCache layer (some img), rfl, fun l i hi => ?_⟩
      by_cases hl : l = layer
      · subst hl
        have hsame : Function.update d.deviceCache l (some img) l = some i := hi
        rw [Function.update_self] at hsame
        rw [himg, Option.some.inj hsame]
      · have hother : Function.update d.deviceCache layer (some img) l = some i := hi
        rw [Function.update_of_ne hl] at hother
        exact h l i hother

/-- The daemon answers with its machine's reply. -/
theorem answer_reply (hd : d.Cached m) (htx : d.tx.naive = .none) (hreq : req.Encodable)
    {ret : ReturnFrame} (hret : m.reply req = .ok ret) :
    ∃ stamped cache, encodeReturnSeq ret d.tx.nextSeq .none nocrc = .ok stamped ∧
      d.answer m nocrc sending req =
        ({ d with tx := ⟨.none, d.tx.nextSeq + 1⟩, deviceCache := cache },
        send stamped sending) ∧
      Cached m { d with tx := ⟨.none, d.tx.nextSeq + 1⟩, deviceCache := cache } := by
  have hencodable := reply_encodable hreq hret
  obtain ⟨_, hlayer, hserve⟩ := bind_eq_ok.mp hret
  obtain ⟨grouped, hgrouped, hserve⟩ := bind_eq_ok.mp hserve
  obtain ⟨cache, himage, hcached⟩ := hd.image req.layerId.toNat
  have hin : ¬ (req.layerId.toNat = 0 ∨ moeLayers < req.layerId.toNat) := by
    rintro (hzero | hpast)
    · exact (demand_eq_ok.mp hlayer).1 hzero
    · exact hpast.not_ge (demand_eq_ok.mp hlayer).2
  have henc := (@encodeReturnSeq_eq_ok nocrc ret d.tx.nextSeq _).mpr ⟨hencodable, rfl⟩
  refine ⟨_, cache, henc, ?_, hcached⟩
  have hlen : (sealFrame (writeHeader (returnHeader ret d.tx.nextSeq) .none ++ returnBody ret) .none
      nocrc).length = headerLen + ret.rows.length * returnRowBytesCanonical := by
    rw [length_sealFrame, List.length_append, length_writeHeader, hencodable.length_body]
  rw [answer, himage, mapError_eq_ok.mp hgrouped]
  simp only [if_neg hin, hserve, StreamSender.encodeReturn, htx, henc, hlen, ne_eq, not_true,
    if_false]

/-- A request without a reply is answered with an error return at most, and the connection is
left. -/
theorem answer_refused (hd : d.Cached m) (htx : d.tx.naive = .none) {e : ServeError}
    (hret : m.reply req = .error e) :
    ∃ d' out, d.answer m nocrc sending req = (d', out, .left) ∧
      (out = [] ∨ ∃ stamped, encodeReturnSeq (errorReturn req) d.tx.nextSeq .none nocrc =
        .ok stamped ∧
        out = (send stamped sending).1) := by
  obtain ⟨cache, himage, hcached⟩ := hd.image req.layerId.toNat
  rw [answer]
  by_cases hlayer : req.layerId.toNat = 0 ∨ moeLayers < req.layerId.toNat
  · rw [if_pos hlayer]
    exact ⟨d, [], rfl, .inl rfl⟩
  rw [if_neg hlayer, himage]
  cases hload : m.resident.groupedImage req.layerId.toNat expertsPerLayer with
  | error e => exact ⟨_, [], rfl, .inl rfl⟩
  | ok grouped =>
    have hserve : serveReturn m grouped req = .error e := by
      rw [Machine.reply, hload] at hret
      have hdemand : req.layerId.toNat ≠ 0 ∧ req.layerId.toNat ≤ moeLayers := by
        rw [not_or] at hlayer
        exact ⟨hlayer.1, Nat.not_lt.mp hlayer.2⟩
      simp only [demand_eq_ok.mpr hdemand, ok_bind] at hret
      exact hret
    simp only [hserve, StreamSender.encodeReturn, htx]
    cases henc : encodeReturnSeq (errorReturn req) d.tx.nextSeq .none nocrc with
    | error e => exact ⟨_, [], rfl, .inl rfl⟩
    | ok stamped => exact ⟨_, _, rfl, .inr ⟨stamped, rfl, rfl⟩⟩

variable {bytes : List UInt8} {seq : UInt64}

theorem produced_request (henc : encodeRequestSeq req seq .none nocrc = .ok bytes) :
    Produced .none bytes := by
  obtain ⟨n, hn, hle⟩ := framed_of_encodeRequestSeq henc
  refine ⟨?_, seq, nocrc, .inl ⟨req, henc⟩⟩
  rw [hn.length, isizeMax, headerLen]
  omega

theorem produced_return {ret : ReturnFrame} (henc : encodeReturnSeq ret seq .none nocrc =
    .ok bytes) :
    Produced .none bytes := by
  have hframed := (framed_of_encodeReturnSeq henc).2
  have hrows := (encodeReturnSeq_eq_ok.mp henc).1.rows_lt
  refine ⟨?_, seq, nocrc, .inr ⟨ret, henc⟩⟩
  rw [hframed.length, returnRowBytes_none, isizeMax, headerLen,
    show returnRowBytesCanonical = 8192 from rfl]
  omega

/-- A request in turn is answered, unless a read fails. -/
theorem pass_request (hrest : d.transport.stream.rest = bytes) (hrx : d.rx = ⟨.none, seq⟩)
    (henc : encodeRequestSeq req seq .none nocrc = .ok bytes) :
    (∃ transport, transport.stream.rest = [] ∧ d.pass m nocrc sending =
      answer m nocrc sending { d with transport := transport, rx := ⟨.none, seq + 1⟩ }
        { req with seq := seq }) ∨
    ¬ d.transport.stream.Calm ∧ ∃ d', d.pass m nocrc sending = (d', [], .left) := by
  have haccept : d.rx.accept nocrc bytes =
      (⟨.none, seq + 1⟩, .ok (.request { req with seq := seq })) := by
    rw [hrx, StreamReceiver.accept, decodeFrame_encodeRequestSeq henc]
    simp [StreamReceiver.acceptSeq, Frame.seq]
  rw [pass]
  rcases TcpTransport.recv_cases hrest (produced_request henc) with ⟨hrecv, hdone⟩ | ⟨hcalm, hrecv⟩
  · refine .inl ⟨d.transport.recv.transport, hdone, ?_⟩
    simp only [hrecv, haccept]
  · refine .inr ⟨hcalm, ?_⟩
    simp only [hrecv]
    exact ⟨_, rfl⟩

/-- A request out of turn is not answered. -/
theorem pass_skipped (hrest : d.transport.stream.rest = bytes) {expected : UInt64}
    (hrx : d.rx = ⟨.none, expected⟩) (hne : seq ≠ expected)
    (henc : encodeRequestSeq req seq .none nocrc = .ok bytes) :
    ∃ d', d.pass m nocrc sending = (d', [], .left) := by
  obtain ⟨rx, e, haccept⟩ : ∃ rx e, d.rx.accept nocrc bytes = (rx, .error e) := by
    rw [hrx, StreamReceiver.accept, decodeFrame_encodeRequestSeq henc]
    simp only [StreamReceiver.acceptSeq, Frame.seq]
    by_cases hlt : seq < expected
    · exact ⟨_, .duplicate seq expected, by simp [hne, hlt]; rfl⟩
    · exact ⟨_, .outOfOrder expected seq, by simp [hne, hlt]; rfl⟩
  rw [pass]
  rcases TcpTransport.recv_cases hrest (produced_request henc) with ⟨hrecv, -⟩ | ⟨-, hrecv⟩
  · simp only [hrecv, haccept]
    exact ⟨_, rfl⟩
  · simp only [hrecv]
    exact ⟨_, rfl⟩

end Daemon

end Spark

end Mimo26
