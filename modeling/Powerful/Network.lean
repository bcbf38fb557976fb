import Mathlib
import Powerful.Workers

/-! # Processes that call each other

A network is a family of processes.  A protocol says how a request gets from one of them to
another one: `send` is everything up to the arrival of the instruction, which can fail at the
sender or be refused by the receiver, and `reply` is the receiver's answer as the sender reads
it.

`invoker` is the remote call: it sends, lets the receiver execute the instruction, and takes
the answer.  The receiver calls out in its turn; the first argument bounds how deep such calls
are followed, and a call below it is recorded as `cut`. -/

namespace Powerful

variable {ρ : Type}

/-- What becomes of a request. -/
inductive Sending where
  | failed (e : Exc)
  | refused (response : PowerfulResponse)
  | arrived (d : Delivery)

structure Protocol (ρ : Type) where
  send : Instruction → View → ρ → Sending × ρ
  reply : Delivery → Except Exc Json → St ρ → Except Exc PowerfulResponse

structure Process (ρ : Type) where
  host : Host ρ
  protocols : String → Option (Protocol ρ)
  assign : ℕ → ThreadId := id
  schedule : List ThreadId := []

/-- The service of a process, with a way to carry out its protocols. -/
def Process.service (p : Process ρ) (invoker : Protocol ρ → RemoteInvoker ρ) : Service ρ where
  host := p.host
  invokers := fun name => (p.protocols name).map invoker
  assign := p.assign
  schedule := p.schedule

abbrev Network (ρ : Type) := ℕ → Process ρ

/-- The state in which the receiver begins. -/
def Delivery.begin (d : Delivery) (w : World ρ) : St ρ where
  nodes := d.instruction.nodes
  ctx := { RenderingContext.new d.thread with
    requestHeaders := some d.requestHeaders, path := d.path, params := d.params, method := d.method }
  world := w
  request := d.instruction

namespace Network
variable (net : Network ρ)

/-- The remote call by a protocol. -/
def invoker : ℕ → Protocol ρ → RemoteInvoker ρ
  | 0, _ => fun _ _ w => (.error .outOfFuel, w.put .cut)
  | n + 1, protocol => fun sent v w =>
      match protocol.send sent v w.rand with
      | (.failed e, r) => (.error e, { w with rand := r })
      | (.refused response, r) => (.ok response, World.put { w with rand := r } (.answer response))
      | (.arrived d, r) =>
          let (out, s) := ((net d.process).service (invoker n)).execute d.instruction d.thread
            (d.begin (World.put { w with rand := r } (.delivery d)))
          match protocol.reply d out s with
          | .error e => (.error e, s.world)
          | .ok response => (.ok response, s.world.put (.answer response))

/-- A process of the network, with calls followed to depth `n`. -/
def service (n p : ℕ) : Service ρ := (net p).service (net.invoker n)

/-- The protocols of the network deliver a trace of the length that was sent, to be executed as
often. -/
def Delivers : Prop :=
  ∀ p name protocol, (net p).protocols name = some protocol →
    ∀ sent v r d r', protocol.send sent v r = (.arrived d, r') →
      d.instruction.nodes.length = sent.nodes.length ∧ d.instruction.times = sent.times

end Network

end Powerful
