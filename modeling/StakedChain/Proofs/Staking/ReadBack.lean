import StakedChain.Proofs.Issue.Sending
import StakedChain.Proofs.Staking.Conversion

namespace StakedChain.Staking

open Abi Block State

namespace Environment

theorem eq_ofHead_iff {env : Environment} {output : Bytes} : env = ofHead output ↔
    env.fields.map BitVec.toNat =
      (List.range 9).map fun i => Bytes.value ((output.drop (32 * i)).take 32) := by
  have hwords : (ofHead output).fields.map BitVec.toNat =
      (List.range 9).map fun i => Bytes.value ((output.drop (32 * i)).take 32) := by
    rw [fields_ofHead, row, List.map_map]
    refine List.map_congr_left fun i _ => ?_
    rw [Function.comp_apply, toNat_wordAt, Nat.zero_add]
  rw [← hwords]
  constructor
  · rintro rfl
    rfl
  · intro h
    exact fields_injective (List.map_injective_iff.mpr (fun _ _ => BitVec.eq_of_toNat_eq) h)

theorem length_layout (env : Environment) :
    (Layout.sequence [Contracts.environmentTy] [env.toValue]).length = 288 :=
  Layout.length_sequence_of_static rfl rfl

theorem decodeOutput_layout (env : Environment) (t : Bytes) :
    Contracts.nextEnvironment.decodeOutput
        (Layout.sequence [Contracts.environmentTy] [env.toValue] ++ t) = .ok [env.toValue] := by
  have hlength := env.length_layout
  have hlimit : 288 < Bytes.bufferLimit := by decide
  have hconforms : Value.conformsAll [env.toValue] [Contracts.environmentTy] = true := rfl
  rw [Method.decodeOutput, Contracts.nextEnvironment,
    decode_layout hconforms (hlength.symm ▸ hlimit), if_neg]
  rintro ⟨hnil, -⟩
  rw [(List.append_eq_nil_iff.mp hnil).1] at hlength
  cases hlength

theorem decodeInput_setup {env : Environment} {data : Bytes}
    (encoded : Contracts.environmentSetup.encodeCall [env.toValue] = .ok data) :
    Contracts.environmentSetup.decodeInput data = .ok [env.toValue] := by
  refine Method.decodeInput_of_encodeCall encoded ?_ rfl
  obtain ⟨-, rfl⟩ := Method.encodeCall_eq_ok_iff.mp encoded
  have hlimit : 4 + 288 < Bytes.bufferLimit := by decide
  have hlength : (Layout.sequence Contracts.environmentSetup.inputs [env.toValue]).length = 288 :=
    env.length_layout
  rwa [List.length_append, Octets.length_bytes, hlength]

end Environment

namespace Query

def environmentRequest (cfg : Config) : Request where
  sender := none
  target := cfg.environment
  data := Contracts.nextEnvironment.selector.bytes ++
    Layout.sequence Contracts.nextEnvironment.inputs []

theorem inquires_environment (cfg : Config) :
    Inquires Contracts.nextEnvironment cfg.environment [] (environmentRequest cfg) :=
  ⟨rfl, rfl, encodeCall_environment⟩

theorem nextEnvironment_eq {σ : Type} (caller : Caller σ) (cfg : Config) (block : BlockRef)
    (s : Session σ) : nextEnvironment caller cfg block s =
      (receive Contracts.nextEnvironment readEnvironment
          (caller (environmentRequest cfg) block s.caller).1,
        s.counted Contracts.nextEnvironment
          (caller (environmentRequest cfg) block s.caller).2) :=
  ask_eq encodeCall_environment s

theorem receive_environment (response : Except CallError Bytes) :
    receive Contracts.nextEnvironment readEnvironment response =
      front 288 Environment.ofHead response :=
  receive_front Environment.decodeOutput_eq fun _ => readEnvironment_values _

theorem receive_encoded {env : Environment} {e : Bytes}
    (encoded : encode Contracts.nextEnvironment.outputs [env.toValue] = .ok e) (t : Bytes) :
    receive Contracts.nextEnvironment readEnvironment (.ok (e ++ t)) = .ok env := by
  obtain ⟨-, rfl⟩ := encode_eq_ok_iff.mp encoded
  have decoded : Contracts.nextEnvironment.decodeOutput
      (Layout.sequence Contracts.nextEnvironment.outputs [env.toValue] ++ t) =
        .ok [env.toValue] := env.decodeOutput_layout t
  simp only [receive, decoded, readEnvironment_values]

end Query

open Issue

theorem setup_of_sends {cfg : Config} {sent : List Transaction} {tx : Transaction}
    (sends : List.Forall₂ (SystemCall.Sends cfg)
      ((Operation.bootstrap.calls cfg).take sent.length) sent)
    (hfirst : sent.head? = some tx) : tx.body.target = cfg.environment ∧
      ∃ value, Contracts.environmentSetup.decodeInput tx.body.data = .ok [value] ∧
        Environment.ofValue value = .ok cfg.initialEnvironment := by
  cases sent with
  | nil => cases hfirst
  | cons first rest =>
    obtain rfl := Option.some.inj hfirst
    cases sends with
    | cons sends _ =>
      obtain ⟨nonce, data, encoded, hbody⟩ := sends
      rw [hbody]
      exact ⟨rfl, _, Environment.decodeInput_setup encoded, Environment.ofValue_toValue _⟩

theorem environment_reads_back (cfg : Config) :
    (∀ (σ : Type) (caller : Caller σ) (block : BlockRef) (s : Query.Session σ), ∃ one,
      Query.Inquires Contracts.nextEnvironment cfg.environment [] one ∧
      let response := (caller one block s.caller).1
      let result := (Query.nextEnvironment caller cfg block s).1
      (Query.nextEnvironment caller cfg block s).2.caller = (caller one block s.caller).2 ∧
      (∀ env, result = .ok env ↔ ∃ output, response = .ok output ∧ 288 ≤ output.length ∧
        [env.startBlock, env.startEpoch, env.blockPeriod, env.epochPeriod, env.rewardRate,
            env.commissionRate, env.validatorThreshold, env.jailThreshold,
            env.jailPeriod].map BitVec.toNat =
          (List.range 9).map fun i => Bytes.value ((output.drop (32 * i)).take 32)) ∧
      (∀ f, result = .error f ↔
        (∃ e, response = .error e ∧ f = .call e) ∨ (response = .ok [] ∧ f = .decoding .empty) ∨
          ∃ output, response = .ok output ∧ 0 < output.length ∧ output.length < 288 ∧
            f = .decoding (.endOfBuffer (32 * (output.length / 32)))) ∧
      ∀ (env : Environment) (e t : Bytes),
        encode Contracts.nextEnvironment.outputs [env.toValue] = .ok e →
          response = .ok (e ++ t) → result = .ok env) ∧
    (∀ env : Environment, ∃ e,
      encode Contracts.nextEnvironment.outputs [env.toValue] = .ok e) ∧
    ∀ (σ : Type) (m : Machine σ) (signer : Signer) (header : Header) (history : History)
      (site : Site (σ × List Transaction)),
      let run := Operation.bootstrap.run m.noted cfg (.producer signer) header history
      Operation.bootstrap.run m cfg (.producer signer) header history site.forget =
          ((run site).1, (run site).2.forget) ∧
        ∃ sent, (run site).2.state.2 = site.state.2 ++ sent ∧
          ((run site).1 = .ok () → sent ≠ []) ∧
          ∀ tx, sent.head? = some tx → tx.body.target = cfg.environment ∧
            ∃ value, Contracts.environmentSetup.decodeInput tx.body.data = .ok [value] ∧
              Environment.ofValue value = .ok cfg.initialEnvironment := by
  refine ⟨?_, fun env => ⟨_, encode_eq_ok_iff.mpr ⟨rfl, rfl⟩⟩, ?_⟩
  · intro σ caller block s
    refine ⟨Query.environmentRequest cfg, Query.inquires_environment cfg, ?_⟩
    rw [Query.nextEnvironment_eq]
    intro response result
    have hresult : result = Query.front 288 Environment.ofHead response :=
      Query.receive_environment response
    refine ⟨rfl, fun env => ?_, fun f => ?_, ?_⟩
    · simp only [hresult, Query.front_eq_ok_iff (by decide : 0 < 288), Environment.eq_ofHead_iff,
        Environment.fields]
    · rw [hresult, Query.front_eq_error_iff]
    · intro env e t encoded hresponse
      have hread := Query.receive_encoded encoded t
      rwa [← hresponse] at hread
  · intro σ m signer header history site run
    obtain ⟨sent, hsent, hlength, sends⟩ :=
      SystemCall.runAll_sends (m := m) (Operation.bootstrap.calls cfg) site
    refine ⟨SystemCall.runAll_noted _ site, sent, hsent, ?_, fun tx => setup_of_sends sends⟩
    rintro done rfl
    cases hlength done

namespace Trial

open Issue.Trial

def genesis : Environment :=
  config.initialEnvironment

def founding : Except (Stop Failure) Unit × Site (Ledger × List Transaction) :=
  Operation.bootstrap.run Ledger.machine.noted config (.producer lenient) .empty .empty
    ⟨((site []).state, []), (site []).assembly, [], (site []).metrics⟩

theorem founding_eq_ok : founding.1 = .ok () :=
  congrArg Prod.fst (eq_ok_of_isOk (by decide +kernel : founding.1.isOk = true))

theorem genesis_read_back : ∃ e,
    encode Contracts.nextEnvironment.outputs [genesis.toValue] = .ok e ∧
      (Query.nextEnvironment CallQueue.call config .pending
        ⟨⟨[.ok (e ++ [1, 2, 3])], []⟩, .empty⟩).1 = .ok genesis ∧
      founding.1 = .ok () ∧ ∃ tx, founding.2.state.2.head? = some tx ∧
        tx.body.target = config.environment ∧
        ∃ value, Contracts.environmentSetup.decodeInput tx.body.data = .ok [value] ∧
          Environment.ofValue value = .ok genesis := by
  obtain ⟨reads, encodes, sends⟩ := environment_reads_back config
  obtain ⟨e, encoded⟩ := encodes genesis
  obtain ⟨one, -, -, -, -, back⟩ := reads CallQueue CallQueue.call .pending
    ⟨⟨[.ok (e ++ [1, 2, 3])], []⟩, .empty⟩
  obtain ⟨-, sent, hsent, hne, hfirst⟩ := sends Ledger Ledger.machine lenient .empty .empty
    ⟨((site []).state, []), (site []).assembly, [], (site []).metrics⟩
  obtain ⟨tx, rest, rfl⟩ := List.exists_cons_of_ne_nil (hne founding_eq_ok)
  exact ⟨e, encoded, back genesis e [1, 2, 3] encoded rfl, founding_eq_ok, tx,
    congrArg List.head? hsent, hfirst tx rfl⟩

end Trial

end StakedChain.Staking
