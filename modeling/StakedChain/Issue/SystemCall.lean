import StakedChain.Metrics
import StakedChain.Block.Assembly
import StakedChain.Issue.Seal
import StakedChain.Staking.Config

namespace StakedChain.Issue

open Abi Block Staking State

structure SystemCall where
  target : Address
  method : Method
  args : List Value
  event : Event

structure Site (σ : Type) where
  state : σ
  assembly : Assembly
  received : List Transaction
  metrics : IssueMetrics

namespace SystemCall

def body (call : SystemCall) (cfg : Config) (nonce : Word64) (data : Bytes) : Body where
  nonce := nonce
  gasPrice := 0
  gas := cfg.gasLimit
  target := call.target
  value := 0
  data := data

def confirm (call : SystemCall) (sender : Address) (before after : Word64) (outcome : Outcome) :
    Except ExecutionError Unit :=
  if Word.add? before 1 ≠ some after then .error (.nonceNotAdvanced sender before after)
  else if outcome.gasUsed = 0 then .error .noGasUsed
  else
    match outcome.logs with
    | [log] =>
      if log.address = call.target ∧ log.topics.head? = some call.event.topic then .ok ()
      else .error (.missingEvent call.event.name)
    | logs => .error (.logCount logs.length)

def record (call : SystemCall) (gasUsed : Word64) (metrics : IssueMetrics) : IssueMetrics :=
  ⟨metrics.transactions.increment call.method.name, metrics.gas + gasUsed⟩

variable {σ : Type}

def run (m : Machine σ) (cfg : Config) (role : Role) (header : Header) (history : History)
    (call : SystemCall) (site : Site σ) : Except (Stop Failure) Unit × Site σ :=
  let sender := header.coinbase
  match call.method.encodeCall call.args with
  | .error e => (.error (.failed (.encoding e)), site)
  | .ok data =>
    let (before, state) := m.nonce sender site.state
    let (sealed, received) :=
      role.seal call.method.name cfg.chainId sender (call.body cfg before data) site.received
    let site := { site with state, received }
    match sealed with
    | .error e => (.error (e.map .execution), site)
    | .ok tx =>
      let (result, state) := m.execute tx sender header history site.state
      let site := { site with state }
      match result with
      | .error e => (.error (e.map .execution), site)
      | .ok outcome =>
        let (after, state) := m.nonce sender site.state
        let site := { site with state }
        match call.confirm sender before after outcome with
        | .error e => (.error (.failed (.execution e)), site)
        | .ok () =>
          match site.assembly.push? tx outcome header with
          | none => (.error (.failed (.execution .gasOverflow)), site)
          | some assembly =>
            (.ok (), { site with assembly, metrics := call.record outcome.gasUsed site.metrics })

def runAll (m : Machine σ) (cfg : Config) (role : Role) (header : Header) (history : History) :
    List SystemCall → Site σ → Except (Stop Failure) Unit × Site σ
  | [], site => (.ok (), site)
  | call :: rest, site =>
    match run m cfg role header history call site with
    | (.ok (), site) => runAll m cfg role header history rest site
    | (.error e, site) => (.error e, site)

end SystemCall

end StakedChain.Issue
