import StakedChain.Proofs.Abi.Extent
import StakedChain.Proofs.Block.Preimage
import StakedChain.Proofs.Issue.Agreement

namespace StakedChain.Issue

open Abi Block Staking State

section

variable {σ : Type} {m : Machine σ} {cfg : Config} {header : Header} {history : History}

def Foreign (cfg : Config) (header : Header) (body : Body) (tx : Transaction) : Prop :=
  (tx.body ≠ body ∧ ¬ Body.Collide cfg.chainId tx.body body) ∨
    tx.sender cfg.chainId ≠ .ok header.coinbase ∨
      ∃ chainId account, chainId ≠ cfg.chainId ∧ tx.sender chainId = .ok account

theorem check_error_of_foreign {body : Body} {tx : Transaction}
    (short : body.data.length < Bytes.bufferLimit) (foreign : Foreign cfg header body tx) :
    ∃ e, check cfg.chainId header.coinbase body tx = .error e := by
  cases hcheck : check cfg.chainId header.coinbase body tx with
  | error e => exact ⟨e, rfl⟩
  | ok =>
    obtain ⟨hhash, hsender⟩ := check_eq_ok_iff.mp hcheck
    rcases foreign with ⟨hbody, free⟩ | hother | ⟨chainId, account, hchain, hsigned⟩
    · exact absurd (Body.eq_of_signingHash short free hhash) hbody
    · exact absurd hsender hother
    · exact absurd (Transaction.chainId_eq_of_sender hsigned hsender) hchain

namespace SystemCall

def prescribed (m : Machine σ) (cfg : Config) (header : Header) (call : SystemCall)
    (site : Site σ) : Except EncodeError Body :=
  (call.method.encodeCall call.args).map fun data =>
    { nonce := (m.nonce header.coinbase site.state).1
      gasPrice := 0
      gas := cfg.gasLimit
      target := call.target
      value := 0
      data }

theorem prescribed_eq_ok_iff {call : SystemCall} {site : Site σ} {body : Body} :
    call.prescribed m cfg header site = .ok body ↔ ∃ data,
      call.method.encodeCall call.args = .ok data ∧
        call.body cfg (m.nonce header.coinbase site.state).1 data = body :=
  map_eq_ok_iff

-- By then the nonce is read and the transaction is gone from the queue; nothing has been executed.
theorem run_refuses {call : SystemCall} {site : Site σ} {tx : Transaction}
    {rest : List Transaction} {body : Body} (history : History) (front : site.received = tx :: rest)
    (hbody : call.prescribed m cfg header site = .ok body)
    (short : body.data.length < Bytes.bufferLimit) (foreign : Foreign cfg header body tx) :
    ∃ e, call.run m cfg .validator header history site = (.error (.failed (.execution e)),
      { site with state := (m.nonce header.coinbase site.state).2, received := rest }) := by
  obtain ⟨data, hdata, rfl⟩ := prescribed_eq_ok_iff.mp hbody
  obtain ⟨e, he⟩ := check_error_of_foreign short foreign
  refine ⟨e, ?_⟩
  simp only [run, hdata, Role.seal, front, accept, he]
  rfl

theorem Committed.of_validator {call : SystemCall} {site site' : Site σ} {tx : Transaction}
    (h : Committed m cfg .validator header history call site tx site') :
    site.received = tx :: site'.received ∧
      ∃ body, call.prescribed m cfg header site = .ok body ∧
        tx.sender cfg.chainId = .ok header.coinbase ∧
        tx.body.signingHash cfg.chainId = body.signingHash cfg.chainId := by
  obtain ⟨encoded, counted, accepted, -, -, -, -⟩ := h
  obtain ⟨front, hhash, hsender⟩ := Role.seal_validator_eq_ok_iff.mp accepted
  refine ⟨front, _, prescribed_eq_ok_iff.mpr ⟨_, encoded, rfl⟩, hsender, ?_⟩
  rw [hhash, counted]

theorem CommittedAll.of_validator {calls : List SystemCall} {site site' : Site σ}
    {txs : List Transaction}
    (h : CommittedAll m cfg .validator header history calls site txs site') :
    site.received = txs ++ site'.received ∧ txs.length = calls.length ∧
      ∀ (i : Nat) (tx : Transaction), txs[i]? = some tx → ∃ call body, calls[i]? = some call ∧
        call.prescribed m cfg header
          (runAll m cfg .validator header history (calls.take i) site).2 = .ok body ∧
        tx.sender cfg.chainId = .ok header.coinbase ∧
        tx.body.signingHash cfg.chainId = body.signingHash cfg.chainId := by
  induction h with
  | nil => exact ⟨rfl, rfl, nofun⟩
  | @cons call calls site mid site' tx txs hcall _ ih =>
    obtain ⟨front, body, hfirst⟩ := hcall.of_validator
    obtain ⟨hrest, hlength, hlater⟩ := ih
    refine ⟨by rw [front, hrest, List.cons_append], congrArg (· + 1) hlength, ?_⟩
    intro i
    cases i with
    | zero =>
      intro first hi
      obtain rfl := Option.some.inj hi
      exact ⟨call, body, rfl, hfirst⟩
    | succ i =>
      intro later hi
      have hmid : runAll m cfg .validator header history ((call :: calls).take (i + 1)) site =
          runAll m cfg .validator header history (calls.take i) mid := by
        rw [List.take_succ_cons, runAll, run_eq_ok_iff.mpr ⟨tx, hcall⟩]
      rw [hmid]
      exact hlater i later hi

end SystemCall

namespace Operation

def count : List Operation → Nat
  | [] => 0
  | .bootstrap :: ops => count ops + 2
  | .slash _ _ :: ops => count ops + 1

theorem length_calls (ops : List Operation) : (ops.flatMap (calls cfg)).length = count ops := by
  induction ops with
  | nil => rfl
  | cons op ops ih =>
    rw [List.flatMap_cons, List.length_append, ih]
    cases op with
    | bootstrap => exact Nat.add_comm 2 _
    | slash _ _ => exact Nat.add_comm 1 _

theorem encoded_of_mem_calls {ops : List Operation} {call : SystemCall}
    (h : call ∈ ops.flatMap (calls cfg)) :
    ∃ data, call.method.encodeCall call.args = .ok data ∧ data.length < Bytes.bufferLimit := by
  have hstatic : Value.conformsAll call.args call.method.inputs = true ∧
      Ty.anyDynamic call.method.inputs = false ∧ Ty.headSizes call.method.inputs ≤ 288 := by
    rcases eq_of_mem_calls h with rfl | rfl | ⟨validator, blocks, rfl⟩
    · exact ⟨rfl, rfl, Nat.le_refl 288⟩
    · exact ⟨rfl, rfl, (by decide : 64 ≤ 288)⟩
    · exact ⟨rfl, rfl, (by decide : 64 ≤ 288)⟩
  obtain ⟨hconforms, hfixed, hsize⟩ := hstatic
  obtain ⟨data, hdata, hlength⟩ := Method.encodeCall_of_static hconforms hfixed
  have hlimit : 4 + 288 < Bytes.bufferLimit := by decide
  exact ⟨data, hdata, by omega⟩

theorem prescribed_of_mem_calls {ops : List Operation} {call : SystemCall}
    (h : call ∈ ops.flatMap (calls cfg)) (site : Site σ) :
    ∃ body, call.prescribed m cfg header site = .ok body ∧
      body.data.length < Bytes.bufferLimit := by
  obtain ⟨data, hdata, short⟩ := encoded_of_mem_calls h
  exact ⟨_, SystemCall.prescribed_eq_ok_iff.mpr ⟨data, hdata, rfl⟩, short⟩

theorem eq_of_free {ops : List Operation} {call : SystemCall} {site : Site σ} {body : Body}
    {tx : Transaction} (hmem : call ∈ ops.flatMap (calls cfg))
    (hbody : call.prescribed m cfg header site = .ok body)
    (hsender : tx.sender cfg.chainId = .ok header.coinbase)
    (hhash : tx.body.signingHash cfg.chainId = body.signingHash cfg.chainId)
    (free : ¬ Body.Collide cfg.chainId tx.body body) :
    tx.body = body ∧ isSystem cfg header tx = true := by
  obtain ⟨_, hok, short⟩ := prescribed_of_mem_calls hmem site
  obtain rfl := Except.ok.inj (hbody.symm.trans hok)
  have hsame := Body.eq_of_signingHash short free hhash
  obtain ⟨data, -, hdata⟩ := SystemCall.prescribed_eq_ok_iff.mp hbody
  exact ⟨hsame, isSystem_of_body (target_of_mem_calls hmem) (hsame.trans hdata.symm) hsender⟩

theorem runAll_refuses {ops : List Operation} {before after : List SystemCall}
    {call : SystemCall} {site mid : Site σ} {tx : Transaction} {rest : List Transaction}
    (hcalls : ops.flatMap (calls cfg) = before ++ call :: after)
    (hbefore : SystemCall.runAll m cfg .validator header history before site = (.ok (), mid))
    (front : mid.received = tx :: rest) :
    ∃ body, call.prescribed m cfg header mid = .ok body ∧
      (Foreign cfg header body tx →
        ∃ e, runAll m cfg .validator header history ops site =
          (.error (.failed (.execution e)),
            { mid with state := (m.nonce header.coinbase mid.state).2, received := rest })) := by
  have hmem : call ∈ ops.flatMap (calls cfg) := by
    rw [hcalls]
    exact List.mem_append_right _ List.mem_cons_self
  obtain ⟨body, hbody, short⟩ := prescribed_of_mem_calls hmem mid
  refine ⟨body, hbody, fun foreign => ?_⟩
  obtain ⟨e, refused⟩ := SystemCall.run_refuses history front hbody short foreign
  refine ⟨e, ?_⟩
  rw [runAll_eq_calls, hcalls, SystemCall.runAll_append, hbefore]
  simp only [SystemCall.runAll, refused]

theorem validator_appends_prescribed (ops : List Operation) (site : Site σ) :
    (∀ site', runAll m cfg .validator header history ops site = (.ok (), site') →
      ∃ txs, txs.length = count ops ∧ site.received = txs ++ site'.received ∧
        site'.assembly.transactions = site.assembly.transactions ++ txs ∧
        ∀ (i : Nat) (tx : Transaction), txs[i]? = some tx →
          ∃ call body, (ops.flatMap (calls cfg))[i]? = some call ∧
            call.prescribed m cfg header (SystemCall.runAll m cfg .validator header history
              ((ops.flatMap (calls cfg)).take i) site).2 = .ok body ∧
            tx.sender cfg.chainId = .ok header.coinbase ∧
            tx.body.signingHash cfg.chainId = body.signingHash cfg.chainId ∧
            (¬ Body.Collide cfg.chainId tx.body body →
              tx.body = body ∧ isSystem cfg header tx = true)) ∧
    ∀ before call after mid tx rest, ops.flatMap (calls cfg) = before ++ call :: after →
      SystemCall.runAll m cfg .validator header history before site = (.ok (), mid) →
      mid.received = tx :: rest →
      ∃ body, call.prescribed m cfg header mid = .ok body ∧
        (Foreign cfg header body tx →
          ∃ e, runAll m cfg .validator header history ops site =
            (.error (.failed (.execution e)),
              { mid with state := (m.nonce header.coinbase mid.state).2, received := rest })) := by
  refine ⟨?_, fun _ _ _ _ _ _ hcalls hbefore front => runAll_refuses hcalls hbefore front⟩
  intro site' validated
  obtain ⟨txs, committed⟩ := runAll_eq_ok_iff.mp validated
  obtain ⟨hreceived, hlength, heach⟩ := committed.of_validator
  refine ⟨txs, hlength.trans (length_calls ops), hreceived, committed.transactions, ?_⟩
  intro i tx hi
  obtain ⟨call, body, hcall, hbody, hsender, hhash⟩ := heach i tx hi
  exact ⟨call, body, hcall, hbody, hsender, hhash,
    eq_of_free (List.mem_of_getElem? hcall) hbody hsender hhash⟩

end Operation

end

namespace Trial

def aged (received : List Transaction) : Site Ledger :=
  { site received with
    state := (Ledger.empty config.environment config.stakeManager).setNonce header.coinbase 3 }

def authentic : Transaction where
  body :=
    ⟨3, 0, config.gasLimit, config.stakeManager, 0, [2, 251, 77, 133] ++ List.replicate 63 0 ++ [1]⟩
  v := 50
  r := 0xd71036e3d94acadbab3a0267f827bf855808ee555b628183493100d1d8059706
  s := 0x084f121afcc154f0ad47086f18cfe5455b149e668dff673fb5bceaa93988cb63

def forged : Transaction :=
  { authentic with v := 52 }

def validated (tx : Transaction) : Except (Stop Failure) Unit × Site Ledger :=
  Operation.runAll Ledger.machine config .validator header .empty [slashing] (aged [tx])

theorem validated_eq_ok : validated authentic = (.ok (), (validated authentic).2) :=
  eq_ok_of_isOk (by decide +kernel)

theorem forged_foreign (body : Body) : Foreign config header body forged := by
  refine .inr (.inl fun h => ?_)
  have hno : (forged.sender config.chainId).isOk = false := by decide +kernel
  rw [h] at hno
  cases hno

theorem validator_appends_slashing : validated authentic = (.ok (), (validated authentic).2) ∧
    (validated authentic).2.assembly.transactions = [authentic] ∧
    authentic.sender config.chainId = .ok header.coinbase ∧
    (∃ call body, slashing.calls config = [call] ∧
      call.prescribed Ledger.machine config header (aged [authentic]) = .ok body ∧
      body.nonce = 3 ∧
      authentic.body.signingHash config.chainId = body.signingHash config.chainId) ∧
    ∃ e, validated forged =
      (.error (.failed (.execution e)), { aged [forged] with received := [] }) := by
  obtain ⟨txs, hlength, hreceived, happended, heach⟩ :=
    (Operation.validator_appends_prescribed [slashing] (aged [authentic])).1 _ validated_eq_ok
  obtain ⟨tx, rfl⟩ := List.length_eq_one_iff.mp hlength
  obtain ⟨rfl, -⟩ := List.cons.inj hreceived
  obtain ⟨call, body, hcall, hbody, hsender, hhash, -⟩ := heach 0 authentic rfl
  obtain rfl := Option.some.inj hcall
  obtain ⟨_, -, hfields⟩ := SystemCall.prescribed_eq_ok_iff.mp hbody
  have hnonce : body.nonce = 3 := hfields ▸ if_pos rfl
  obtain ⟨forgedBody, -, hrefused⟩ :=
    (Operation.validator_appends_prescribed [slashing] (aged [forged])).2 [] _ [] (aged [forged])
      forged [] rfl rfl rfl
  exact ⟨validated_eq_ok, happended, hsender, ⟨_, body, rfl, hbody, hnonce, hhash⟩,
    hrefused (forged_foreign forgedBody)⟩

end Trial

end StakedChain.Issue
