import StakedChain.Proofs.Abi.RoundTrip
import StakedChain.Proofs.Block.Bloom
import StakedChain.Proofs.Issue.Recording

namespace StakedChain

namespace State.Machine

variable {σ : Type}

def ReadsPurely (m : Machine σ) : Prop :=
  ∀ account s, (m.nonce account s).2 = s

def nonceOf (m : Machine σ) (account : Address) (s : σ) : Nat :=
  (m.nonce account s).1.toNat

theorem ReadsPurely.eq_of_nonce {m : Machine σ} (reads : m.ReadsPurely) {account : Address}
    {s read : σ} {count : Word64} (h : m.nonce account s = (count, read)) :
    m.nonceOf account s = count.toNat ∧ s = read := by
  have hread := reads account s
  rw [h] at hread
  exact ⟨by rw [nonceOf, h], hread.symm⟩

end State.Machine

def Block.Assembly.Pairs (assembly : Assembly) (tx : Transaction) (receipt : Receipt) : Prop :=
  assembly.transactions[receipt.transactionIndex]? = some tx ∧
    assembly.receipts[receipt.transactionIndex]? = some receipt

namespace Issue

open Abi Block Staking State

section

variable {σ : Type} {m : Machine σ} {cfg : Config} {role : Role} {header : Header}
  {history : History}

-- A producer signs the body itself; a validator sees that the digest is the right one.
def Role.Binds (chainId : Word64) (found expected : Body) : Role → Prop
  | .producer _ => True
  | .validator => ¬Body.Collide chainId found expected

theorem Role.body_of_seal {name : String} {chainId : Word64} {sender : Address} {body : Body}
    {tx : Transaction} {received rest : List Transaction}
    (short : body.data.length < Bytes.bufferLimit)
    (sealed : role.seal name chainId sender body received = (.ok tx, rest))
    (binds : role.Binds chainId tx.body body) : tx.body = body := by
  cases role with
  | producer signer =>
    obtain ⟨-, -, sig, -, attached⟩ := seal_producer_eq_ok_iff.mp sealed
    exact (Body.attach_eq_ok_iff.mp attached).2.1
  | validator =>
    obtain ⟨-, hhash, -⟩ := seal_validator_eq_ok_iff.mp sealed
    exact Body.eq_of_signingHash short binds hhash

namespace SystemCall

variable {call : SystemCall} {site next : Site σ} {tx : Transaction}

theorem confirm_eq_ok_iff {sender : Address} {before after : Word64} {outcome : Outcome} :
    call.confirm sender before after outcome = .ok () ↔
      after.toNat = before.toNat + 1 ∧ outcome.gasUsed ≠ 0 ∧
        ∃ log, outcome.logs = [log] ∧ log.address = call.target ∧
          log.topics.head? = some call.event.topic := by
  have hadd : Word.add? before 1 = some after ↔ after.toNat = before.toNat + 1 :=
    Word.add?_eq_some_iff
  rw [confirm, ← hadd]
  by_cases advanced : Word.add? before 1 = some after
  · by_cases hgas : outcome.gasUsed = 0
    · simp only [advanced, hgas, ne_eq, not_true, if_false, if_true, reduceCtorEq, false_and,
        and_false]
    · simp only [advanced, hgas, ne_eq, not_true, not_false_iff, if_false, true_and]
      rcases outcome.logs with _ | ⟨log, _ | ⟨other, logs⟩⟩ <;> simp
  · simp only [advanced, ne_eq, not_false_iff, if_true, reduceCtorEq, false_and]

structure Asks (cfg : Config) (call : SystemCall) (nonce : Nat) (body : Body) : Prop where
  nonce : body.nonce.toNat = nonce
  gasPrice : body.gasPrice = 0
  gas : body.gas = cfg.gasLimit
  target : body.target = call.target
  value : body.value = 0
  input : call.method.encodeCall call.args = .ok body.data
  arguments : call.method.decodeInput body.data = .ok call.args

structure Enacted (m : Machine σ) (cfg : Config) (role : Role) (header : Header)
    (history : History) (call : SystemCall) (nonce : Nat) (site : Site σ) (tx : Transaction)
    (receipt : Receipt) (next : Site σ) : Prop where
  counted : m.nonceOf header.coinbase site.state = nonce
  body : ∃ body, call.Asks cfg nonce body ∧
    (role.Binds cfg.chainId tx.body body → tx.body = body)
  executed : ∃ outcome,
    m.execute tx header.coinbase header history site.state = (.ok outcome, next.state) ∧
      receipt.Tells ⟨tx, outcome, header⟩ site.assembly.transactions.length
        (site.assembly.gasUsed.toNat + outcome.gasUsed.toNat)
  gasUsed : 0 < receipt.gasUsed.toNat
  event : ∃ log, receipt.logs = [log] ∧ log.address = call.target ∧
    log.topics.head? = some call.event.topic
  bloom : receipt.bloom ≠ 0
  recounted : m.nonceOf header.coinbase next.state = nonce + 1
  assembly : next.assembly = ⟨site.assembly.transactions ++ [tx],
    site.assembly.receipts ++ [receipt], receipt.cumulativeGas⟩
  received : next.received = role.left site.received
  tallied : ∀ label, next.metrics.transactions.count label =
    site.metrics.transactions.count label + if label = call.method.name then 1 else 0
  spent : next.metrics.gas = site.metrics.gas + receipt.gasUsed

theorem asks_of_mem_calls {ops : List Operation} (mem : call ∈ ops.flatMap (Operation.calls cfg))
    {data : Bytes} (encoded : call.method.encodeCall call.args = .ok data)
    (short : data.length < Bytes.bufferLimit) (before : Word64) :
    call.Asks cfg before.toNat (call.body cfg before data) := by
  have solid : Ty.allHollow call.method.inputs = false := by
    rcases Operation.eq_of_mem_calls mem with rfl | rfl | ⟨validator, blocks, rfl⟩ <;> rfl
  constructor
  case input => exact encoded
  case arguments => exact Method.decodeInput_of_encodeCall encoded short solid
  all_goals rfl

theorem Committed.enacted {ops : List Operation} (reads : m.ReadsPurely)
    (mem : call ∈ ops.flatMap (Operation.calls cfg))
    (h : Committed m cfg role header history call site tx next) : ∃ receipt,
      call.Enacted m cfg role header history (m.nonceOf header.coinbase site.state) site tx receipt
        next := by
  have left := h.received
  obtain ⟨data, encoded, short⟩ := Operation.encoded_of_mem_calls mem
  obtain ⟨encoded', counted, sealed, executed, recounted, confirmed, pushed⟩ := h
  obtain rfl := Except.ok.inj (encoded.symm.trans encoded')
  obtain ⟨hbefore, rfl⟩ := reads.eq_of_nonce counted
  obtain ⟨hafter, rfl⟩ := reads.eq_of_nonce recounted
  obtain ⟨hnext, hgas, log, hlogs, hlog⟩ := confirm_eq_ok_iff.mp confirmed
  obtain ⟨cumulative, hcumulative, rfl⟩ := Assembly.push?_eq_some_iff.mp pushed
  rename_i outcome
  refine ⟨site.assembly.receipt tx outcome header cumulative, ?_⟩
  constructor
  case body =>
    rw [hbefore]
    exact ⟨_, asks_of_mem_calls mem encoded short _, role.body_of_seal short sealed⟩
  case executed => exact ⟨outcome, executed, site.assembly.receipt_tells ⟨tx, _, _⟩ hcumulative⟩
  case gasUsed => exact Nat.pos_of_ne_zero fun h => hgas (BitVec.eq_of_toNat_eq h)
  case event => exact ⟨log, hlogs, hlog⟩
  case bloom => exact Bloom.ofLogs_ne_zero (hlogs ▸ List.cons_ne_nil _ _)
  case recounted => rw [hafter, hbefore, hnext]
  case received => exact left
  case tallied => exact fun label => Counters.count_increment call.method.name label _
  all_goals rfl

theorem Enacted.asks_of_producer {signer : Signer} {nonce : Nat} {receipt : Receipt}
    (h : call.Enacted m cfg (.producer signer) header history nonce site tx receipt next) :
    call.Asks cfg nonce tx.body := by
  obtain ⟨body, asks, same⟩ := h.body
  rwa [same trivial]

inductive EnactedAll (m : Machine σ) (cfg : Config) (role : Role) (header : Header)
    (history : History) :
    List SystemCall → Nat → Site σ → List Transaction → List Receipt → Site σ → Prop where
  | nil {nonce : Nat} {site : Site σ} :
      m.nonceOf header.coinbase site.state = nonce →
        EnactedAll m cfg role header history [] nonce site [] [] site
  | cons {call : SystemCall} {calls : List SystemCall} {nonce : Nat} {site mid site' : Site σ}
      {tx : Transaction} {txs : List Transaction} {receipt : Receipt} {receipts : List Receipt} :
      call.Enacted m cfg role header history nonce site tx receipt mid →
        EnactedAll m cfg role header history calls (nonce + 1) mid txs receipts site' →
          EnactedAll m cfg role header history (call :: calls) nonce site (tx :: txs)
            (receipt :: receipts) site'

theorem CommittedAll.enacted {ops : List Operation} {calls : List SystemCall} {site site' : Site σ}
    {txs : List Transaction} (reads : m.ReadsPurely)
    (mem : ∀ call ∈ calls, call ∈ ops.flatMap (Operation.calls cfg))
    (h : CommittedAll m cfg role header history calls site txs site') : ∃ receipts,
      EnactedAll m cfg role header history calls (m.nonceOf header.coinbase site.state) site txs
        receipts site' := by
  induction h with
  | nil => exact ⟨[], .nil rfl⟩
  | cons hcall _ ih =>
    obtain ⟨hmem, hmems⟩ := List.forall_mem_cons.mp mem
    obtain ⟨receipt, first⟩ := hcall.enacted reads hmem
    obtain ⟨receipts, rest⟩ := ih hmems
    rw [first.recounted] at rest
    exact ⟨receipt :: receipts, .cons first rest⟩

namespace EnactedAll

variable {calls : List SystemCall} {nonce : Nat} {site site' : Site σ} {txs : List Transaction}
  {receipts : List Receipt}

theorem appended (h : EnactedAll m cfg role header history calls nonce site txs receipts site') :
    site'.assembly.transactions = site.assembly.transactions ++ txs ∧
      site'.assembly.receipts = site.assembly.receipts ++ receipts := by
  induction h with
  | nil _ => simp
  | cons first _ ih =>
    simp only [ih, first.assembly, List.append_assoc, List.singleton_append, and_self]

theorem recounted (h : EnactedAll m cfg role header history calls nonce site txs receipts site') :
    m.nonceOf header.coinbase site'.state = nonce + calls.length := by
  induction h with
  | nil counted => exact counted
  | cons _ _ ih => rw [ih, List.length_cons, Nat.add_right_comm, Nat.add_assoc]

theorem indexed (paired : site.assembly.transactions.length = site.assembly.receipts.length)
    (h : EnactedAll m cfg role header history calls nonce site txs receipts site') :
    ∀ (i : Nat) (tx : Transaction) (receipt : Receipt), txs[i]? = some tx →
      receipts[i]? = some receipt → site'.assembly.Pairs tx receipt := by
  intro i
  induction h generalizing i with
  | nil _ => exact fun _ _ htx => absurd htx (by simp)
  | @cons call calls nonce site mid site' tx txs receipt receipts first rest ih =>
    cases i with
    | zero =>
      intro tx' receipt' htx hreceipt
      obtain rfl := Option.some.inj htx
      obtain rfl := Option.some.inj hreceipt
      obtain ⟨outcome, -, tells⟩ := first.executed
      obtain ⟨htxs, hreceipts⟩ := rest.appended
      simp only [first.assembly] at htxs hreceipts
      constructor
      · simp [htxs, tells.transactionIndex]
      · simp [hreceipts, tells.transactionIndex, paired]
    | succ i =>
      have hmid : mid.assembly.transactions.length = mid.assembly.receipts.length := by
        simp [first.assembly, paired]
      exact ih hmid i

end EnactedAll

end SystemCall

namespace Operation

theorem missed_eq_countP (validator : Address) (schedule : List (Word64 × Address)) :
    missed validator schedule = schedule.countP fun turn => turn.2 = validator :=
  List.countP_eq_length_filter.symm

theorem run_enacts (reads : m.ReadsPurely) {op : Operation} {site site' : Site σ}
    (ran : op.run m cfg role header history site = (.ok (), site')) : ∃ txs receipts,
      SystemCall.EnactedAll m cfg role header history (op.calls cfg)
        (m.nonceOf header.coinbase site.state) site txs receipts site' := by
  obtain ⟨txs, committed⟩ := SystemCall.runAll_eq_ok_iff.mp ran
  have mem : ∀ call ∈ op.calls cfg, call ∈ [op].flatMap (calls cfg) := by
    intro call h
    rwa [List.flatMap_singleton]
  exact ⟨txs, committed.enacted reads mem⟩

theorem run_has_prescribed_effect (reads : m.ReadsPurely) (site : Site σ)
    (paired : site.assembly.transactions.length = site.assembly.receipts.length) :
    (∀ site', bootstrap.run m cfg role header history site = (.ok (), site') →
      ∃ first second firstReceipt secondReceipt mid,
        SystemCall.Enacted m cfg role header history
          ⟨cfg.environment, Contracts.environmentSetup, [cfg.initialEnvironment.toValue],
            Contracts.environmentReady⟩
          (m.nonceOf header.coinbase site.state) site first firstReceipt mid ∧
        SystemCall.Enacted m cfg role header history
          ⟨cfg.stakeManager, Contracts.managerSetup,
            [.address cfg.environment, .address cfg.allowlist], Contracts.managerReady⟩
          (m.nonceOf header.coinbase site.state + 1) mid second secondReceipt site' ∧
        site'.assembly.transactions = site.assembly.transactions ++ [first, second] ∧
        site'.assembly.receipts = site.assembly.receipts ++ [firstReceipt, secondReceipt] ∧
        site'.assembly.Pairs first firstReceipt ∧ site'.assembly.Pairs second secondReceipt ∧
        m.nonceOf header.coinbase site'.state = m.nonceOf header.coinbase site.state + 2) ∧
    ∀ validator schedule site',
      (slash validator schedule).run m cfg role header history site = (.ok (), site') →
      ∃ tx receipt,
        SystemCall.Enacted m cfg role header history
          ⟨cfg.stakeManager, Contracts.slash,
            [.address validator,
              .uint (BitVec.ofNat 256 (schedule.countP fun turn => turn.2 = validator))],
            Contracts.slashed⟩
          (m.nonceOf header.coinbase site.state) site tx receipt site' ∧
        site'.assembly.transactions = site.assembly.transactions ++ [tx] ∧
        site'.assembly.receipts = site.assembly.receipts ++ [receipt] ∧
        site'.assembly.Pairs tx receipt ∧
        m.nonceOf header.coinbase site'.state = m.nonceOf header.coinbase site.state + 1 := by
  refine ⟨?_, ?_⟩
  · intro site' ran
    obtain ⟨txs, receipts, enacted⟩ := run_enacts reads ran
    obtain ⟨htxs, hreceipts⟩ := enacted.appended
    have pairs := enacted.indexed paired
    have hnonce := enacted.recounted
    rcases enacted with _ | ⟨first, _ | ⟨second, ⟨-⟩⟩⟩
    exact ⟨_, _, _, _, _, first, second, htxs, hreceipts, pairs 0 _ _ rfl rfl, pairs 1 _ _ rfl rfl,
      hnonce⟩
  · intro validator schedule site' ran
    obtain ⟨txs, receipts, enacted⟩ := run_enacts reads ran
    obtain ⟨htxs, hreceipts⟩ := enacted.appended
    have pairs := enacted.indexed paired
    have hnonce := enacted.recounted
    rcases enacted with _ | ⟨only, ⟨-⟩⟩
    rw [missed_eq_countP] at only
    exact ⟨_, _, only, htxs, hreceipts, pairs 0 _ _ rfl rfl, hnonce⟩

end Operation

end

namespace Trial

def founded : Except (Stop Failure) Unit × Site Ledger :=
  Operation.run Ledger.machine config (.producer lenient) .empty .empty .bootstrap (site [])

def lapsed : Except (Stop Failure) Unit × Site Ledger :=
  Operation.run Ledger.machine config (.producer lenient) .empty .empty
    (.slash (.ofNat 20 8) [(3, .ofNat 20 8), (4, .ofNat 20 9), (5, .ofNat 20 8)]) founded.2

theorem founded_eq_ok : founded = (.ok (), founded.2) :=
  eq_ok_of_isOk (by decide +kernel)

theorem lapsed_eq_ok : lapsed = (.ok (), lapsed.2) :=
  eq_ok_of_isOk (by decide +kernel)

theorem three_transactions_found_and_slash : Ledger.machine.ReadsPurely ∧
    (site []).assembly.transactions.length = (site []).assembly.receipts.length ∧
    founded.2.assembly.transactions.length = founded.2.assembly.receipts.length ∧
    founded = (.ok (), founded.2) ∧ lapsed = (.ok (), lapsed.2) ∧ ∃ first second third,
      founded.2.assembly.transactions = [first, second] ∧
      lapsed.2.assembly.transactions = [first, second, third] ∧
      Contracts.environmentSetup.decodeInput first.body.data =
        .ok [config.initialEnvironment.toValue] ∧
      Contracts.managerSetup.decodeInput second.body.data =
        .ok [.address config.environment, .address config.allowlist] ∧
      Contracts.slash.decodeInput third.body.data = .ok [.address (.ofNat 20 8), .uint 2] ∧
      second.body.nonce.toNat = 1 ∧ third.body.nonce.toNat = 2 ∧
      lapsed.2.state.nonces (.zero 20) = 3 := by
  have reads : Ledger.machine.ReadsPurely := fun _ _ => rfl
  obtain ⟨first, second, _, _, mid, setup, install, htxs, hreceipts, -, -, hcount⟩ :=
    (Operation.run_has_prescribed_effect reads (site []) rfl).1 _ founded_eq_ok
  have paired : founded.2.assembly.transactions.length = founded.2.assembly.receipts.length := by
    rw [htxs, hreceipts]
    rfl
  obtain ⟨third, _, slashed, hthird, -, -, hslashed⟩ :=
    (Operation.run_has_prescribed_effect reads founded.2 paired).2 _ _ _ lapsed_eq_ok
  rw [hcount] at slashed hslashed
  exact ⟨reads, rfl, paired, founded_eq_ok, lapsed_eq_ok, first, second, third, htxs,
    hthird.trans (congrArg (· ++ [third]) htxs), setup.asks_of_producer.arguments,
    install.asks_of_producer.arguments, slashed.asks_of_producer.arguments,
    install.asks_of_producer.nonce, slashed.asks_of_producer.nonce, BitVec.eq_of_toNat_eq hslashed⟩

end Trial

end Issue

end StakedChain
