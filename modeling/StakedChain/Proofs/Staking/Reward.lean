import StakedChain.Proofs.Staking.Conversion

namespace StakedChain.Staking.Query

open Abi

theorem decodeOutput_total (output : Bytes) : Contracts.totalRewards.decodeOutput output =
    if output = [] then .error .empty
    else if 32 ≤ output.length then .ok [.uint (wordAt output 0)]
    else .error (.endOfBuffer (32 * (output.length / 32))) :=
  decode_row (n := 1) (by decide) (by decide) output

def firstWord : Except CallError Bytes → Except Failure Word256 :=
  front 32 fun output => wordAt output 0

theorem receive_total (response : Except CallError Bytes) :
    receive Contracts.totalRewards readRewards response = firstWord response :=
  receive_front decodeOutput_total fun _ => readRewards_values _

theorem firstWord_eq_ok_iff {response : Except CallError Bytes} {x : Word256} :
    firstWord response = .ok x ↔ ∃ output, response = .ok output ∧ 32 ≤ output.length ∧
      x.toNat = Bytes.value (output.take 32) := by
  have hword : ∀ output : Bytes,
      x = wordAt output 0 ↔ x.toNat = Bytes.value (output.take 32) := by
    intro output
    rw [← BitVec.toNat_inj, toNat_wordAt, List.drop_zero]
  simp only [firstWord, front_eq_ok_iff (by decide : 0 < 32), hword]

theorem decoded_of_receive_owners {response : Except CallError Bytes} {owners : List Address}
    (h : receive Contracts.validatorOwners readOwners response = .ok owners) :
    ∃ output cursor, response = .ok output ∧
      Contracts.validatorOwners.decodeOutput output =
        .ok [.array .address owners, .uint cursor] := by
  obtain ⟨output, vs, hresponse, decoded, hread⟩ := receive_eq_ok_iff.mp h
  obtain ⟨found, cursor, rfl⟩ := exists_owners decoded
  rw [readOwners_values] at hread
  cases hread
  exact ⟨output, cursor, hresponse, decoded⟩

def ownersRequest (cfg : Config) : Request where
  sender := none
  target := cfg.stakeManager
  data := Contracts.validatorOwners.selector.bytes ++ Layout.sequence
    Contracts.validatorOwners.inputs [.uint 0, .uint (Word.widen 256 cfg.pageSize)]

def rewardsRequest (cfg : Config) (owners : List Address) : Request where
  sender := none
  target := cfg.stakeManager
  data := Contracts.totalRewards.selector.bytes ++ Layout.sequence
    Contracts.totalRewards.inputs [.array .address owners, .uint 1]

theorem inquires_owners (cfg : Config) : Inquires Contracts.validatorOwners cfg.stakeManager
    [.uint 0, .uint (Word.widen 256 cfg.pageSize)] (ownersRequest cfg) :=
  ⟨rfl, rfl, encodeCall_owners cfg⟩

theorem inquires_rewards (cfg : Config) (owners : List Address) :
    Inquires Contracts.totalRewards cfg.stakeManager [.array .address owners, .uint 1]
      (rewardsRequest cfg owners) :=
  ⟨rfl, rfl, encodeCall_rewards owners⟩

section

variable {σ : Type} (caller : Caller σ) (cfg : Config) (block : BlockRef) (s : Session σ)

theorem askOwners_eq :
    ask caller cfg.stakeManager Contracts.validatorOwners
        [.uint 0, .uint (Word.widen 256 cfg.pageSize)] block readOwners s =
      (receive Contracts.validatorOwners readOwners
          (caller (ownersRequest cfg) block s.caller).1,
        s.counted Contracts.validatorOwners (caller (ownersRequest cfg) block s.caller).2) :=
  ask_eq (encodeCall_owners cfg) s

theorem askRewards_eq (owners : List Address) :
    ask caller cfg.stakeManager Contracts.totalRewards [.array .address owners, .uint 1] block
        readRewards s =
      (firstWord (caller (rewardsRequest cfg owners) block s.caller).1,
        s.counted Contracts.totalRewards
          (caller (rewardsRequest cfg owners) block s.caller).2) := by
  rw [← receive_total]
  exact ask_eq (encodeCall_rewards owners) s

theorem rewards_of_refused {f : Failure}
    (refused : receive Contracts.validatorOwners readOwners
      (caller (ownersRequest cfg) block s.caller).1 = .error f) :
    rewards caller cfg block s = (.error f,
      s.counted Contracts.validatorOwners (caller (ownersRequest cfg) block s.caller).2) := by
  simp only [rewards, askOwners_eq, refused]

theorem rewards_of_owners {owners : List Address}
    (received : receive Contracts.validatorOwners readOwners
      (caller (ownersRequest cfg) block s.caller).1 = .ok owners) :
    let rest := (caller (ownersRequest cfg) block s.caller).2
    rewards caller cfg block s =
      (firstWord (caller (rewardsRequest cfg owners) block rest).1,
        (s.counted Contracts.validatorOwners rest).counted Contracts.totalRewards
          (caller (rewardsRequest cfg owners) block rest).2) := by
  simp only [rewards, askOwners_eq, received, askRewards_eq]
  rfl

end

theorem rewards_asks_owners_then_total (cfg : Config) (block : BlockRef)
    (s : Session CallQueue) :
    let first := CallQueue.answer s.caller.responses
    let second := CallQueue.answer s.caller.responses.tail
    let result := (rewards CallQueue.call cfg block s).1
    let queue := (rewards CallQueue.call cfg block s).2.caller
    (∃ one, Inquires Contracts.validatorOwners cfg.stakeManager
        [.uint 0, .uint (Word.widen 256 cfg.pageSize)] one ∧
      ((∃ f, queue = ⟨s.caller.responses.tail, s.caller.requests ++ [(one, block)]⟩ ∧
          result = .error f ∧
          ((∃ e, first = .error e ∧ f = .call e) ∨
            ∃ output e, first = .ok output ∧
              Contracts.validatorOwners.decodeOutput output = .error e ∧ f = .decoding e)) ∨
        ∃ output owners cursor two, first = .ok output ∧
          Contracts.validatorOwners.decodeOutput output =
            .ok [.array .address owners, .uint cursor] ∧
          Inquires Contracts.totalRewards cfg.stakeManager
            [.array .address owners, .uint 1] two ∧
          queue = ⟨s.caller.responses.tail.tail,
            s.caller.requests ++ [(one, block), (two, block)]⟩ ∧
          result = firstWord second)) ∧
    ∀ x, result = .ok x ↔
      (∃ output vs, first = .ok output ∧
        Contracts.validatorOwners.decodeOutput output = .ok vs) ∧
      ∃ output, second = .ok output ∧ 32 ≤ output.length ∧
        x.toNat = Bytes.value (output.take 32) := by
  intro first second result queue
  cases received : receive Contracts.validatorOwners readOwners first with
  | error f =>
    have hrun := rewards_of_refused CallQueue.call cfg block s received
    have hresult : result = .error f := congrArg Prod.fst hrun
    have reason := suits_owners.receive_eq_error received
    refine ⟨⟨ownersRequest cfg, inquires_owners cfg, .inl ⟨f, ?_, hresult, reason⟩⟩, fun x => ?_⟩
    · exact congrArg (·.2.caller) hrun
    · rw [hresult]
      refine ⟨nofun, ?_⟩
      rintro ⟨⟨output, vs, hfirst, decoded⟩, -⟩
      rcases reason with ⟨e, failed, -⟩ | ⟨other, e, answered, refused, -⟩
      · cases hfirst.symm.trans failed
      · cases hfirst.symm.trans answered
        cases decoded.symm.trans refused
  | ok owners =>
    have hrun := rewards_of_owners CallQueue.call cfg block s received
    have hresult : result = firstWord second := congrArg Prod.fst hrun
    have hcaller : queue = ⟨s.caller.responses.tail.tail, s.caller.requests ++
        [(ownersRequest cfg, block)] ++ [(rewardsRequest cfg owners, block)]⟩ :=
      congrArg (·.2.caller) hrun
    rw [List.append_assoc] at hcaller
    obtain ⟨output, cursor, hfirst, decoded⟩ := decoded_of_receive_owners received
    refine ⟨⟨ownersRequest cfg, inquires_owners cfg, .inr ⟨output, owners, cursor,
      rewardsRequest cfg owners, hfirst, decoded, inquires_rewards cfg owners, hcaller,
      hresult⟩⟩, fun x => ?_⟩
    rw [hresult, firstWord_eq_ok_iff]
    exact (and_iff_right ⟨output, _, hfirst, decoded⟩).symm

end StakedChain.Staking.Query
