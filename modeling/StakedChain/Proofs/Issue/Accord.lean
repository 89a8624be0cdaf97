import StakedChain.Proofs.Issue.Founding

namespace StakedChain

namespace State.Ledger

open Abi Block Staking

variable {ledger next : Ledger} {tx : Transaction} {sender : Address}

theorem dataGas_eq (data : Bytes) :
    dataGas data = 4 * data.countP (· = 0) + 16 * data.countP (· ≠ 0) := by
  induction data with
  | nil => rfl
  | cons b data ih =>
    rw [dataGas, ih, List.countP_cons, List.countP_cons]
    by_cases hb : b = 0
    · simp only [hb, if_true, decide_true, ne_eq, not_true, decide_false, Bool.false_eq_true,
        if_false]
      omega
    · simp only [hb, if_false, decide_false, Bool.false_eq_true, ne_eq, not_false_iff, decide_true,
        if_true]
      omega

theorem callGas_eq (data : Bytes) : callGas data =
    21000 + 4 * data.countP (· = 0) + 16 * data.countP (· ≠ 0) + 20750 := by
  rw [callGas, intrinsicGas, dataGas_eq]
  omega

-- A contract that knows the method and its arguments refuses it only for what it holds already.
def Understands (ledger : Ledger) (target : Address) (data : Bytes) : Prop :=
  ledger.dispatch target data = .error .alreadyInitialized ∨
    ∃ effect, ledger.dispatch target data = .ok effect

theorem setup_understood (ledger : Ledger) (target : Address) (event : Event) :
    ledger.setup target event = .error .alreadyInitialized ∨
      ∃ effect, ledger.setup target event = .ok effect := by
  unfold setup
  split
  · exact .inr ⟨_, rfl⟩
  · exact .inl rfl

-- The first letters of the two texts tell them apart.
theorem Rejection.toList_message_intrinsicGas (available wanted : Nat) :
    ∃ rest, (Rejection.intrinsicGas available wanted).message.toList = 'i' :: rest := by
  unfold message
  simp only [String.toList_append, List.append_assoc]
  exact ⟨_, rfl⟩

theorem Rejection.toList_message_nonceMismatch (expected found : Word64) :
    ∃ rest, (Rejection.nonceMismatch expected found).message.toList = 'n' :: rest := by
  unfold message
  simp only [String.toList_append, List.append_assoc]
  exact ⟨_, rfl⟩

end State.Ledger

namespace Issue

open Abi Block Staking State

-- What tells that whoever sends a call and whoever answers it are not agreed on its form.
def Misunderstanding : ExecutionError → Prop
  | .rejected reason =>
    ∃ expected found, reason = (Ledger.Rejection.nonceMismatch expected found).message
  | .reverted _ reason =>
    reason = Ledger.Revert.missingSelector.message ∨
      reason = Ledger.Revert.invalidArguments.message ∨
      reason = Ledger.Revert.unknownMethod.message
  | .noGasUsed | .logCount _ | .missingEvent _ | .nonceNotAdvanced _ _ _ => True
  | _ => False

theorem not_misunderstanding_intrinsicGas (available wanted : Nat) :
    ¬Misunderstanding (.rejected (Ledger.Rejection.intrinsicGas available wanted).message) := by
  rintro ⟨expected, found, same⟩
  obtain ⟨rest, hrest⟩ :=
    Ledger.Rejection.toList_message_intrinsicGas available wanted
  obtain ⟨rest', hrest'⟩ := Ledger.Rejection.toList_message_nonceMismatch expected found
  rw [same, hrest'] at hrest
  exact absurd (List.cons.inj hrest).1 (by decide)

theorem not_misunderstanding_reverted (target : Address) {r : Ledger.Revert}
    (h : r = .alreadyInitialized ∨ r = .outOfGas) :
    ¬Misunderstanding (.reverted target r.message) := by
  simp only [Misunderstanding]
  rcases h with rfl | rfl
  · decide
  · decide

theorem not_misunderstanding_of_execute {ledger next : Ledger} {tx : Transaction}
    {sender : Address} {cause : ExecutionError} (hnonce : tx.body.nonce = ledger.nonces sender)
    (understood : ledger.Understands tx.body.target tx.body.data)
    (h : ledger.execute tx sender = (.error (.failed cause), next)) : ¬Misunderstanding cause := by
  by_cases hintrinsic : tx.body.gas.toNat < Ledger.intrinsicGas tx.body.data
  · simp only [Ledger.execute, hnonce, ne_eq, not_true, if_false, hintrinsic, if_true] at h
    cases h
    exact not_misunderstanding_intrinsicGas _ _
  · rcases understood with refused | ⟨effect, dispatched⟩
    · simp only [Ledger.execute, hnonce, ne_eq, not_true, if_false, hintrinsic, refused] at h
      cases h
      exact not_misunderstanding_reverted _ (.inl rfl)
    · by_cases hgas : tx.body.gas.toNat < Ledger.callGas tx.body.data
      · simp only [Ledger.execute, hnonce, ne_eq, not_true, if_false, hintrinsic, dispatched, hgas,
          if_true] at h
        cases h
        exact not_misunderstanding_reverted _ (.inr rfl)
      · rw [Ledger.execute_of_accepts hnonce dispatched (Nat.le_of_not_lt hgas)] at h
        split at h
        · cases h
        · cases h

theorem not_misunderstanding_of_sign {signer : Signer} {chainId : Word64} {sender : Address}
    {body : Body} {cause : ExecutionError}
    (h : sign signer chainId sender body = .error (.failed cause)) : ¬Misunderstanding cause := by
  unfold sign at h
  split at h
  · split at h
    · unfold Body.attach at h
      split at h
      · cases h
      · cases h
    · cases h
      exact id
  · cases h
    exact id

theorem failed_of_map_execution {e : Stop ExecutionError} {cause : ExecutionError}
    (h : e.map Failure.execution = .failed (.execution cause)) : e = .failed cause := by
  cases e with
  | failed cause' =>
    cases h
    rfl
  | fault f => cases h

namespace SystemCall

variable {cfg : Config} {signer : Signer} {header : Header} {history : History}
  {call : SystemCall} {site next : Site Ledger} {tx : Transaction} {ops : List Operation}

theorem decodes_of_mem_calls (mem : call ∈ ops.flatMap (Operation.calls cfg)) {data : Bytes}
    (encoded : call.method.encodeCall call.args = .ok data) :
    call.method.decodeInput data = .ok call.args := by
  obtain ⟨_, encoded', short⟩ := Operation.encoded_of_mem_calls mem
  obtain rfl := Except.ok.inj (encoded.symm.trans encoded')
  exact (asks_of_mem_calls mem encoded short 0).arguments

theorem understood_of_mem_calls {ledger : Ledger} (hosts : Hosts ledger cfg)
    (mem : call ∈ ops.flatMap (Operation.calls cfg)) {data : Bytes}
    (decoded : call.method.decodeInput data = .ok call.args) :
    ledger.Understands call.target data := by
  rcases Operation.eq_of_mem_calls mem with rfl | rfl | ⟨validator, blocks, rfl⟩
  · rw [Ledger.Understands, Ledger.dispatch_environment hosts.environment.symm decoded]
    exact ledger.setup_understood _ _
  · rw [Ledger.Understands, Ledger.dispatch_manager hosts.stakeManager.symm decoded]
    exact ledger.setup_understood _ _
  · exact .inr ⟨_, Ledger.dispatch_slash hosts.stakeManager.symm decoded⟩

theorem Aborted.not_misunderstanding {e : Stop Failure} (hosts : Hosts site.state cfg)
    (running : site.state.frozen = false) (mem : call ∈ ops.flatMap (Operation.calls cfg))
    (h : Aborted Ledger.machine cfg (.producer signer) header history call site e next)
    {cause : ExecutionError} (he : e = .failed (.execution cause)) : ¬Misunderstanding cause := by
  cases h with
  | encoding => cases he
  | sealing sealed =>
    obtain ⟨-, -, sealed⟩ := sealed
    obtain rfl := failed_of_map_execution he
    exact not_misunderstanding_of_sign (Prod.mk.inj sealed).1
  | execution sealed executed =>
    obtain rfl := failed_of_map_execution he
    obtain ⟨data, encoded, hbody⟩ := sealed.body mem (discerns_producer signer)
    obtain ⟨rfl, rfl⟩ := sealed.on_ledger
    refine not_misunderstanding_of_execute (by rw [hbody]; rfl) ?_ executed
    rw [hbody]
    exact understood_of_mem_calls hosts mem (decodes_of_mem_calls mem encoded)
  | confirmation sealed executed recounted confirmed =>
    obtain ⟨data, encoded, hbody⟩ := sealed.body mem (discerns_producer signer)
    obtain ⟨rfl, rfl⟩ := sealed.on_ledger
    obtain ⟨rfl, rfl⟩ := Prod.mk.inj recounted
    have executed := Ledger.executed executed
    obtain ⟨effect, accepted, rfl, -⟩ := executed.accepted rfl
    have := confirm_of_accepted mem encoded hbody accepted ((executed.counted rfl).advanced running)
    rw [this] at confirmed
    cases confirmed
  | overflow =>
    cases he
    exact id

theorem Committed.frozen {role : Role}
    (h : Committed Ledger.machine cfg role header history call site tx next) :
    next.state.frozen = site.state.frozen := by
  obtain ⟨_, executed, -⟩ := h.on_ledger
  exact executed.frozen

theorem runAll_not_misunderstanding {calls : List SystemCall}
    (mem : ∀ call ∈ calls, call ∈ ops.flatMap (Operation.calls cfg))
    (hosts : Hosts site.state cfg) (running : site.state.frozen = false) {cause : ExecutionError}
    (h : (runAll Ledger.machine cfg (.producer signer) header history calls site).1 =
      .error (.failed (.execution cause))) : ¬Misunderstanding cause := by
  induction calls generalizing site with
  | nil => cases h
  | cons call calls ih =>
    obtain ⟨hmem, hmems⟩ := List.forall_mem_cons.mp mem
    rcases run_cases Ledger.machine cfg (.producer signer) header history call site with
      ⟨tx, next, hrun, committed⟩ | ⟨e, next, hrun, aborted⟩
    · simp only [runAll, hrun] at h
      exact ih hmems (hosts.grow committed.posts.grows) (committed.frozen.trans running) h
    · simp only [runAll, hrun] at h
      exact aborted.not_misunderstanding hosts running hmem (Except.error.inj h)

structure Affordable (cfg : Config) (signer : Signer) (header : Header) (site : Site Ledger)
    (body : Body) (cost : Nat) : Prop where
  address : signer.address = header.coinbase
  signs : ∃ sig, signer.sign (body.signingHash cfg.chainId) = .ok sig
  nonce : (site.state.nonces header.coinbase).toNat < 0xffffffffffffffff
  limit : cost ≤ cfg.gasLimit.toNat
  room : site.assembly.gasUsed.toNat + cost < 0x10000000000000000

theorem Committed.on_ledger_of_producer
    (h : Committed Ledger.machine cfg (.producer signer) header history call site tx next)
    {data : Bytes} (encoded : call.method.encodeCall call.args = .ok data) :
    ∃ effect receipt,
      tx.body = call.body cfg (site.state.nonces header.coinbase) data ∧
      Ledger.Accepted site.state tx header.coinbase effect ∧
      next.state.storage = (site.state.written tx.body effect).storage ∧
      next.assembly.receipts = site.assembly.receipts ++ [receipt] ∧
      receipt.gasUsed.toNat = Ledger.callGas data ∧
      Affordable cfg signer header site tx.body (Ledger.callGas data) := by
  have advanced := h.advanced
  have hnext := (next.state.nonces header.coinbase).isLt
  obtain ⟨encoded', counted, sealed, executed, recounted, -, pushed⟩ := h
  obtain rfl := Except.ok.inj (encoded.symm.trans encoded')
  obtain ⟨rfl, rfl⟩ := Prod.mk.inj counted
  obtain ⟨-, rfl⟩ := Prod.mk.inj recounted
  obtain ⟨-, address, sig, signed, attached⟩ := Role.seal_producer_eq_ok_iff.mp sealed
  have hbody := (Body.attach_eq_ok_iff.mp attached).2.1
  obtain ⟨effect, accepted, rfl, stored⟩ := (Ledger.executed executed).stored rfl
  obtain ⟨cumulative, hcumulative, rfl⟩ := Assembly.push?_eq_some_iff.mp pushed
  have hdata : tx.body.data = data := congrArg Body.data hbody
  have hgas := accepted.toNat_gasUsed
  have hlimit := accepted.gas
  have hroom := cumulative.isLt
  rw [hdata] at hgas hlimit
  rw [hcumulative, hgas] at hroom
  rw [congrArg Body.gas hbody] at hlimit
  refine ⟨effect, _, hbody, accepted, stored, rfl, hgas, address, ⟨sig, ?_⟩, ?_, hlimit, hroom⟩
  · rw [hbody]
    exact signed
  · omega

theorem Affordable.commits {data : Bytes} {effect : Ledger.Effect} (history : History)
    (range : cfg.chainId ≤ maxChainId) (running : site.state.frozen = false)
    (mem : call ∈ ops.flatMap (Operation.calls cfg))
    (encoded : call.method.encodeCall call.args = .ok data)
    (dispatched : site.state.dispatch call.target data = .ok effect)
    (h : Affordable cfg signer header site
      (call.body cfg (site.state.nonces header.coinbase) data) (Ledger.callGas data)) :
    ∃ tx next, Committed Ledger.machine cfg (.producer signer) header history call site tx next := by
  obtain ⟨address, ⟨sig, signed⟩, hnonce, limit, room⟩ := h
  obtain ⟨tx, attached⟩ : ∃ tx, (call.body cfg (site.state.nonces header.coinbase) data).attach sig
    cfg.chainId = .ok tx := ⟨_, if_pos range⟩
  have hbody := (Body.attach_eq_ok_iff.mp attached).2.1
  have accepted : Ledger.Accepted site.state tx header.coinbase effect := by
    constructor
    all_goals rw [hbody]
    · rfl
    · exact Ledger.dispatched dispatched
    · exact limit
  obtain ⟨nonce, counted⟩ : ∃ nonce, Word.add? (site.state.nonces header.coinbase) 1 = some nonce :=
    Option.ne_none_iff_exists'.mp fun overflow => by
      rw [Word.add?_one_eq_none_iff.mp overflow] at hnonce
      exact Nat.lt_irrefl _ hnonce
  have executed := accepted.execute_of_counted running counted
  have advanced := ((Ledger.executed executed).counted rfl).advanced running
  have confirmed := confirm_of_accepted mem encoded hbody accepted advanced
  have hgas : (effect.outcome tx.body).gasUsed.toNat = Ledger.callGas data := by
    rw [accepted.toNat_gasUsed, hbody]
    rfl
  obtain ⟨assembly, pushed⟩ :
      ∃ assembly, site.assembly.push? tx (effect.outcome tx.body) header = some assembly := by
    refine ⟨_, Assembly.push?_eq_some_iff.mpr
      ⟨BitVec.ofNat 64 (site.assembly.gasUsed.toNat + Ledger.callGas data), ?_, rfl⟩⟩
    rw [hgas, BitVec.toNat_ofNat]
    exact Nat.mod_eq_of_lt room
  exact ⟨tx, _, .intro encoded rfl
    (Role.seal_producer_eq_ok_iff.mpr ⟨rfl, address, sig, signed, attached⟩) executed rfl confirmed
    pushed⟩

theorem run_eq_ok_iff_affordable {data : Bytes} {effect : Ledger.Effect} (history : History)
    (range : cfg.chainId ≤ maxChainId) (running : site.state.frozen = false)
    (mem : call ∈ ops.flatMap (Operation.calls cfg))
    (encoded : call.method.encodeCall call.args = .ok data)
    (dispatched : site.state.dispatch call.target data = .ok effect) :
    (call.run Ledger.machine cfg (.producer signer) header history site).1 = .ok () ↔
      Affordable cfg signer header site
        (call.body cfg (site.state.nonces header.coinbase) data) (Ledger.callGas data) := by
  constructor
  · intro ok
    obtain ⟨tx, committed⟩ := run_eq_ok_iff.mp (Prod.ext ok rfl)
    obtain ⟨_, _, hbody, -, -, -, -, affordable⟩ := committed.on_ledger_of_producer encoded
    rwa [hbody] at affordable
  · intro affordable
    obtain ⟨tx, next, committed⟩ := affordable.commits history range running mem encoded dispatched
    rw [run_eq_ok_iff.mpr ⟨tx, committed⟩]

structure Slashed (cfg : Config) (sender : Address) (before after : Site Ledger) (cost : Nat) :
    Prop where
  slot : after.state.storage cfg.stakeManager 1 = 2
  cells : ∀ account slot, ¬(account = cfg.stakeManager ∧ slot = 1) →
    after.state.storage account slot = before.state.storage account slot
  nonce : (after.state.nonces sender).toNat = (before.state.nonces sender).toNat + 1
  others : ∀ account, account ≠ sender → after.state.nonces account = before.state.nonces account
  receipt : ∃ receipt, after.assembly.receipts = before.assembly.receipts ++ [receipt] ∧
    receipt.gasUsed.toNat = cost

theorem Committed.slashes {args : List Value} {data : Bytes} (hosts : Hosts site.state cfg)
    (encoded : Contracts.slash.encodeCall args = .ok data)
    (decoded : Contracts.slash.decodeInput data = .ok args)
    (h : Committed Ledger.machine cfg (.producer signer) header history
      ⟨cfg.stakeManager, Contracts.slash, args, Contracts.slashed⟩ site tx next) :
    Slashed cfg header.coinbase site next (Ledger.callGas data) := by
  obtain ⟨effect, receipt, hbody, accepted, stored, hreceipts, hgas, -⟩ :=
    h.on_ledger_of_producer encoded
  have htarget : tx.body.target = cfg.stakeManager := congrArg Body.target hbody
  have hdata : tx.body.data = data := congrArg Body.data hbody
  have dispatched := Ledger.dispatch_eq_ok_iff.mpr accepted.dispatched
  rw [htarget, hdata] at dispatched
  have hslash := Ledger.dispatch_slash hosts.stakeManager.symm decoded
  obtain rfl := Except.ok.inj (hslash.symm.trans dispatched)
  rw [Ledger.written, htarget] at stored
  refine ⟨?_, fun account slot other => ?_, h.advanced, h.posts.others, receipt, hreceipts, hgas⟩
  · rw [stored, Ledger.storage_store]
    exact if_pos ⟨rfl, rfl⟩
  · rw [stored, Ledger.storage_store]
    exact if_neg other

end SystemCall

theorem Operation.run_slash (cfg : Config) (role : Role) (header : Header) (history : History)
    (validator : Address) (schedule : List (Word64 × Address)) (site : Site Ledger) :
    (slash validator schedule).run Ledger.machine cfg role header history site =
      SystemCall.run Ledger.machine cfg role header history
        ⟨cfg.stakeManager, Contracts.slash,
          [.address validator, .uint (BitVec.ofNat 256 (missed validator schedule))],
          Contracts.slashed⟩ site := by
  simp only [run, calls, SystemCall.runAll]
  split
  · rename_i hrun
    exact hrun.symm
  · rename_i hrun
    exact hrun.symm

theorem slashing_succeeds_iff_affordable {cfg : Config} (valid : cfg.Valid) {site : Site Ledger}
    (environment : site.state.environment = cfg.environment)
    (stakeManager : site.state.stakeManager = cfg.stakeManager)
    (running : site.state.frozen = false) (signer : Signer) (header : Header) (history : History) :
    (∀ validator schedule, ∃ data,
      Contracts.slash.encodeCall
        [.address validator, .uint (BitVec.ofNat 256 (missed validator schedule))] = .ok data ∧
      let cost := 21000 + 4 * data.countP (· = 0) + 16 * data.countP (· ≠ 0) + 20750
      let body : Body :=
        ⟨site.state.nonces header.coinbase, 0, cfg.gasLimit, cfg.stakeManager, 0, data⟩
      let run := (Operation.slash validator schedule).run Ledger.machine cfg (.producer signer)
        header history site
      (run.1 = .ok () ↔ SystemCall.Affordable cfg signer header site body cost) ∧
      (run.1 = .ok () → SystemCall.Slashed cfg header.coinbase site run.2 cost)) ∧
    ∀ (op : Operation) (cause : ExecutionError),
      (op.run Ledger.machine cfg (.producer signer) header history site).1 =
        .error (.failed (.execution cause)) → ¬Misunderstanding cause := by
  obtain ⟨range, -, -, -, apart, -, -⟩ := cfg.valid_iff.mp valid
  have hosts : Hosts site.state cfg := ⟨environment, stakeManager, apart⟩
  refine ⟨fun validator schedule => ?_, fun op cause => ?_⟩
  · have mem : (⟨cfg.stakeManager, Contracts.slash,
        [.address validator, .uint (BitVec.ofNat 256 (missed validator schedule))],
        Contracts.slashed⟩ : SystemCall) ∈
        [Operation.slash validator schedule].flatMap (Operation.calls cfg) := by
      rw [List.flatMap_singleton]
      exact List.mem_cons_self
    obtain ⟨data, encoded, -⟩ := Operation.encoded_of_mem_calls mem
    have decoded := SystemCall.decodes_of_mem_calls mem encoded
    have dispatched := Ledger.dispatch_slash hosts.stakeManager.symm decoded
    refine ⟨data, encoded, ?_⟩
    rw [Operation.run_slash, ← Ledger.callGas_eq]
    refine ⟨SystemCall.run_eq_ok_iff_affordable history range running mem encoded dispatched,
      fun ok => ?_⟩
    obtain ⟨tx, committed⟩ := SystemCall.run_eq_ok_iff.mp (Prod.ext ok rfl)
    exact committed.slashes hosts encoded decoded
  · exact SystemCall.runAll_not_misunderstanding (fun call hcall => by
      rwa [List.flatMap_singleton]) hosts running

namespace Trial

def counted : Site Ledger :=
  { site [] with
    state := Step.applyAll config [.setNonce (.zero 20) 7]
      (.empty config.environment config.stakeManager) }

def slashed : Except (Stop Failure) Unit × Site Ledger :=
  Operation.run Ledger.machine config (.producer lenient) .empty .empty slashing counted

theorem slashed_eq_ok : slashed = (.ok (), slashed.2) :=
  eq_ok_of_isOk (by decide +kernel)

theorem slashing_lands_on_counted_ledger : config.Valid ∧
    counted.state.environment = config.environment ∧
    counted.state.stakeManager = config.stakeManager ∧ counted.state.frozen = false ∧
    slashed = (.ok (), slashed.2) ∧ slashed.2.state.storage config.stakeManager 1 = 2 ∧
    slashed.2.state.nonces (.zero 20) = 8 ∧
    ∃ data receipt, SystemCall.Affordable config lenient .empty counted
        ⟨7, 0, config.gasLimit, config.stakeManager, 0, data⟩ receipt.gasUsed.toNat ∧
      slashed.2.assembly.receipts = [receipt] := by
  have valid : config.Valid := by decide
  have grows : Ledger.Grows (.empty config.environment config.stakeManager) counted.state :=
    Step.applyAll_grows config _ _
  have running : counted.state.frozen = false := rfl
  have hnonce : counted.state.nonces Header.empty.coinbase = 7 := rfl
  obtain ⟨data, -, affordable, lands⟩ := (slashing_succeeds_iff_affordable valid grows.environment
    grows.stakeManager running lenient .empty .empty).1 (.zero 20) [(1, .zero 20)]
  have ok : slashed.1 = .ok () := congrArg Prod.fst slashed_eq_ok
  have affordable := affordable.mp ok
  have lands := lands ok
  obtain ⟨receipt, hreceipts, hgas⟩ := lands.receipt
  rw [hnonce, ← hgas] at affordable
  refine ⟨valid, grows.environment, grows.stakeManager, running, slashed_eq_ok, lands.slot,
    BitVec.eq_of_toNat_eq ?_, data, receipt, affordable, hreceipts⟩
  exact lands.nonce.trans (by rw [hnonce]; rfl)

end Trial

end Issue

end StakedChain
