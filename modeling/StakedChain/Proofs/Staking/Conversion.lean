import StakedChain.Proofs.Abi.Rejection
import StakedChain.Proofs.Abi.WordRow
import StakedChain.Proofs.Staking.Course

namespace StakedChain.Staking

open Abi

namespace Environment

theorem fields_injective {a b : Environment} (h : a.fields = b.fields) : a = b := by
  cases a
  cases b
  simpa [fields] using h

def ofHead (data : Bytes) : Environment :=
  ⟨wordAt data 0, wordAt data 32, wordAt data 64, wordAt data 96, wordAt data 128,
    wordAt data 160, wordAt data 192, wordAt data 224, wordAt data 256⟩

theorem fields_ofHead (data : Bytes) : (ofHead data).fields = row data 0 9 := rfl

theorem decodeOutput_eq (output : Bytes) : Contracts.nextEnvironment.decodeOutput output =
    if output = [] then .error .empty
    else if 288 ≤ output.length then .ok [(ofHead output).toValue]
    else .error (.endOfBuffer (32 * (output.length / 32))) :=
  decode_tuple_row (by decide) (by decide) output

end Environment

namespace Query

section

variable {α : Type} {method : Method} {read : Reader α}

-- Whatever decodes as the method declares goes through the conversions of the reader.
def Suits (method : Method) (read : Reader α) : Prop :=
  ∀ output vs, method.decodeOutput output = .ok vs → ∃ x, read vs = .ok x

theorem Suits.receive_eq_error (suits : Suits method read) {response : Except CallError Bytes}
    {f : Failure} (h : receive method read response = .error f) :
    (∃ e, response = .error e ∧ f = .call e) ∨
      ∃ output e, response = .ok output ∧ method.decodeOutput output = .error e ∧
        f = .decoding e := by
  cases response with
  | error e => exact .inl ⟨e, rfl, (Except.error.inj h).symm⟩
  | ok output =>
    cases decoded : method.decodeOutput output with
    | error e =>
      simp only [receive, decoded, Except.error.injEq] at h
      exact .inr ⟨output, e, rfl, decoded, h.symm⟩
    | ok vs =>
      obtain ⟨x, hx⟩ := suits output vs decoded
      simp only [receive, decoded, hx, reduceCtorEq] at h

-- What a response comes to whose first `size` octets are all that is read.
def front (size : Nat) (opening : Bytes → α) : Except CallError Bytes → Except Failure α
  | .error e => .error (.call e)
  | .ok output =>
    if output = [] then .error (.decoding .empty)
    else if size ≤ output.length then .ok (opening output)
    else .error (.decoding (.endOfBuffer (32 * (output.length / 32))))

section

variable {size : Nat} {opening : Bytes → α} {response : Except CallError Bytes}

theorem receive_front {values : Bytes → List Value}
    (decodes : ∀ output, method.decodeOutput output =
      if output = [] then .error .empty
      else if size ≤ output.length then .ok (values output)
      else .error (.endOfBuffer (32 * (output.length / 32))))
    (reads : ∀ output, read (values output) = .ok (opening output)) :
    receive method read response = front size opening response := by
  cases response with
  | error e => rfl
  | ok output =>
    simp only [receive, front, decodes]
    by_cases hempty : output = []
    · simp only [hempty, if_true]
    · by_cases hlong : size ≤ output.length
      · simp only [hempty, hlong, if_false, if_true, reads]
      · simp only [hempty, hlong, if_false]

theorem front_eq_ok_iff {x : α} (hsize : 0 < size) : front size opening response = .ok x ↔
    ∃ output, response = .ok output ∧ size ≤ output.length ∧ x = opening output := by
  cases response with
  | error e => simp [front]
  | ok output =>
    have hne : size ≤ output.length → output ≠ [] := by
      rintro hlong rfl
      exact absurd hlong (Nat.not_le.mpr hsize)
    simp only [front, Except.ok.injEq, exists_eq_left']
    by_cases hlong : size ≤ output.length
    · simp [hne hlong, hlong, eq_comm]
    · by_cases hempty : output = [] <;> simp [hempty, hlong, Nat.not_le.mpr hsize]

theorem front_eq_error_iff {f : Failure} : front size opening response = .error f ↔
      (∃ e, response = .error e ∧ f = .call e) ∨ (response = .ok [] ∧ f = .decoding .empty) ∨
        ∃ output, response = .ok output ∧ 0 < output.length ∧ output.length < size ∧
          f = .decoding (.endOfBuffer (32 * (output.length / 32))) := by
  cases response with
  | error e => simp [front, eq_comm]
  | ok output =>
    simp only [front, Except.ok.injEq, exists_eq_left']
    by_cases hempty : output = []
    · simp [hempty, eq_comm]
    · have hpos : 0 < output.length := List.length_pos_iff.mpr hempty
      by_cases hlong : size ≤ output.length
      · simp [hempty, hlong, Nat.not_lt.mpr hlong]
      · simp [hempty, hlong, hpos, Nat.lt_of_not_le hlong, eq_comm]

end

end

theorem readOwners_values (owners : List Address) (cursor : Word256) :
    readOwners [.array .address owners, .uint cursor] = .ok owners := by
  simp only [readOwners, next, take, Value.toArray_array, Value.toAtom_atom, bind, Except.bind,
    pure, Except.pure]

theorem readRewards_values (total : Word256) : readRewards [.uint total] = .ok total := by
  simp only [readRewards, next, take, Value.toAtom_atom, bind, Except.bind, pure, Except.pure]

theorem readEnvironment_values (env : Environment) : readEnvironment [env.toValue] = .ok env := by
  simp only [readEnvironment, next, take, Environment.ofValue_toValue, bind, Except.bind, pure,
    Except.pure]

section

variable {output : Bytes} {vs : List Value}

theorem exists_owners (h : Contracts.validatorOwners.decodeOutput output = .ok vs) :
    ∃ owners cursor, vs = [.array .address owners, .uint cursor] := by
  have hc := conformsAll_of_decode h
  simp only [Contracts.validatorOwners] at hc
  match vs, hc with
  | [.array .address owners, .atom .uint cursor], _ => exact ⟨owners, cursor, rfl⟩

theorem exists_total (h : Contracts.totalRewards.decodeOutput output = .ok vs) :
    ∃ total, vs = [.uint total] := by
  have hc := conformsAll_of_decode h
  simp only [Contracts.totalRewards] at hc
  match vs, hc with
  | [.atom .uint total], _ => exact ⟨total, rfl⟩

theorem exists_environment (h : Contracts.nextEnvironment.decodeOutput output = .ok vs) :
    ∃ env : Environment, vs = [env.toValue] := by
  rw [Environment.decodeOutput_eq] at h
  split at h
  · cases h
  · split at h <;> cases h
    exact ⟨_, rfl⟩

end

theorem suits_owners : Suits Contracts.validatorOwners readOwners := by
  intro output vs h
  obtain ⟨owners, cursor, rfl⟩ := exists_owners h
  exact ⟨owners, readOwners_values owners cursor⟩

theorem suits_rewards : Suits Contracts.totalRewards readRewards := by
  intro output vs h
  obtain ⟨total, rfl⟩ := exists_total h
  exact ⟨total, readRewards_values total⟩

theorem suits_environment : Suits Contracts.nextEnvironment readEnvironment := by
  intro output vs h
  obtain ⟨env, rfl⟩ := exists_environment h
  exact ⟨env, readEnvironment_values env⟩

inductive Explained (queries : List (Method × Address)) : Failure → Prop where
  | call (e : CallError) : Explained queries (.call e)
  | protocol (e : ProtocolError) : Explained queries (.protocol e)
  | decoding {query : Method × Address} {output : Bytes} {e : DecodeError} :
      query ∈ queries → query.1.decodeOutput output = .error e → Explained queries (.decoding e)

def failure? {α : Type} : Except Failure α → Option Failure
  | .ok _ => none
  | .error f => some f

theorem failure?_eq_some_iff {α : Type} {result : Except Failure α} {f : Failure} :
    failure? result = some f ↔ result = .error f := by
  cases result <;> simp [failure?]

def Reply.failure? : Reply → Option Failure
  | pushed => none
  | roster result => Query.failure? result
  | total result => Query.failure? result
  | parameters result => Query.failure? result

section

variable {σ α : Type} {caller : Caller σ} {target : Address} {method : Method}
  {args : List Value} {block : BlockRef} {read : Reader α} {data : Bytes} {f : Failure}
  {queries : List (Method × Address)} {s : Session σ}

theorem Suits.ask_explained (suits : Suits method read)
    (encoded : method.encodeCall args = .ok data) (mem : (method, target) ∈ queries)
    (h : (ask caller target method args block read s).1 = .error f) : Explained queries f := by
  rw [ask_eq encoded] at h
  rcases suits.receive_eq_error h with ⟨e, -, rfl⟩ | ⟨output, e, -, refused, rfl⟩
  · exact .call e
  · exact .decoding mem refused

variable {cfg : Config}

theorem enumerate_explained {epoch : Word64} {n : Nat} {cursor : Word256} {roster : Roster}
    (h : (enumerate caller cfg block epoch n cursor roster s).1 = .error f) :
    Explained [(Contracts.validators, cfg.stakeManager)] f := by
  induction n generalizing cursor roster s with
  | zero =>
    cases h
    exact .protocol _
  | succ n ih =>
    obtain ⟨response, next, -, ⟨result, halts, hrun⟩ | ⟨page, -, -, -, -, hrun⟩⟩ :=
      enumerate_step cfg block epoch caller n cursor roster s
    · rw [hrun] at h
      obtain rfl : result = .error f := h
      cases halts with
      | call _ => exact .call _
      | decoding _ refused => exact .decoding (List.mem_singleton_self _) refused
      | shape _ _ _ => exact .protocol _
      | stalled _ _ _ _ => exact .protocol _
    · rw [hrun] at h
      exact ih h

theorem rewards_explained (h : (rewards caller cfg block s).1 = .error f) :
    Explained [(Contracts.validatorOwners, cfg.stakeManager),
      (Contracts.totalRewards, cfg.stakeManager)] f := by
  unfold rewards at h
  split at h
  · rename_i e rest asked
    cases h
    exact suits_owners.ask_explained (encodeCall_owners cfg) (by simp) (congrArg Prod.fst asked)
  · exact suits_rewards.ask_explained (encodeCall_rewards _) (by simp) h

theorem nextEnvironment_explained (h : (nextEnvironment caller cfg block s).1 = .error f) :
    Explained [(Contracts.nextEnvironment, cfg.environment)] f :=
  suits_environment.ask_explained encodeCall_environment (List.mem_singleton_self _) h

theorem Step.run_explained {push : σ → Except CallError Bytes → σ} (step : Step)
    (h : (step.run caller push cfg s).1.failure? = some f) : Explained (step.queries cfg) f := by
  cases step with
  | push response => cases h
  | validators block epoch => exact enumerate_explained (failure?_eq_some_iff.mp h)
  | rewards block => exact rewards_explained (failure?_eq_some_iff.mp h)
  | environment block => exact nextEnvironment_explained (failure?_eq_some_iff.mp h)

end

theorem conversions_follow_declarations (cfg : Config) :
    ((∀ output vs, Contracts.validators.decodeOutput output = .ok vs →
        ∃ page, vs = page.values ∧ Page.read vs = .ok page) ∧
      (∀ output vs, Contracts.validatorOwners.decodeOutput output = .ok vs →
        ∃ owners cursor, vs = [.array .address owners, .uint cursor] ∧
          readOwners vs = .ok owners) ∧
      (∀ output vs, Contracts.totalRewards.decodeOutput output = .ok vs →
        ∃ total, vs = [.uint total] ∧ readRewards vs = .ok total) ∧
      ∀ output vs, Contracts.nextEnvironment.decodeOutput output = .ok vs →
        ∃ env : Environment, vs = [env.toValue] ∧ readEnvironment vs = .ok env) ∧
    ∀ (σ : Type) (caller : Caller σ) (push : σ → Except CallError Bytes → σ) (s : Session σ)
      (step : Step) (f : Failure), (step.run caller push cfg s).1.failure? = some f →
        (∃ e, f = .call e) ∨ (∃ e, f = .protocol e) ∨
          ∃ query ∈ step.queries cfg, ∃ output e, query.1.decodeOutput output = .error e ∧
            f = .decoding e ∧
            (e = .empty ∨ ∃ place, e = .endOfBuffer place ∨ e = .invalidOffset place ∨
              e = .invalidLength place ∨ e = .malformed .bool place ∨
                e = .malformed .address place) := by
  refine ⟨⟨?_, ?_, ?_, ?_⟩, ?_⟩
  · intro output vs h
    obtain ⟨page, rfl⟩ := Page.exists_values h
    exact ⟨page, rfl, page.read_values⟩
  · intro output vs h
    obtain ⟨owners, cursor, rfl⟩ := exists_owners h
    exact ⟨owners, cursor, rfl, readOwners_values owners cursor⟩
  · intro output vs h
    obtain ⟨total, rfl⟩ := exists_total h
    exact ⟨total, rfl, readRewards_values total⟩
  · intro output vs h
    obtain ⟨env, rfl⟩ := exists_environment h
    exact ⟨env, rfl, readEnvironment_values env⟩
  · intro σ caller push s step f h
    cases step.run_explained h with
    | call e => exact .inl ⟨e, rfl⟩
    | protocol e => exact .inr (.inl ⟨e, rfl⟩)
    | @decoding query output e mem refused =>
      refine .inr (.inr ⟨query, mem, output, e, refused, rfl, ?_⟩)
      rcases empty_or_arises_of_decode refused with rfl | arises
      · exact .inl rfl
      · cases arises <;> simp

namespace Trial

def blank : Bytes := List.replicate 288 0

def strayOwner : Bytes :=
  [[64], [0], [1], List.replicate 32 255].flatMap fun word =>
    List.replicate (32 - word.length) 0 ++ word

theorem decodes_blank : ∀ method ∈ queried, ∃ vs, method.decodeOutput blank = .ok vs := by
  have hall : ∀ method ∈ queried, (method.decodeOutput blank).isOk = true := by decide +kernel
  intro method hm
  cases hd : method.decodeOutput blank with
  | ok vs => exact ⟨vs, rfl⟩
  | error e => simpa [hd, Except.isOk, Except.toBool] using hall method hm

theorem stray_owner_explained :
    let cfg := Config.standard 1 (.genesis 3 200)
    let start : Session CallQueue := ⟨⟨[.ok strayOwner], []⟩, .empty⟩
    let run := (Step.rewards .pending).run CallQueue.call CallQueue.push cfg start
    (∃ vs, Contracts.validators.decodeOutput blank = .ok vs ∧
        ∃ page, vs = page.values ∧ Page.read vs = .ok page) ∧
      (∃ vs, Contracts.validatorOwners.decodeOutput blank = .ok vs ∧
        ∃ owners cursor, vs = [.array .address owners, .uint cursor] ∧
          readOwners vs = .ok owners) ∧
      (∃ vs, Contracts.totalRewards.decodeOutput blank = .ok vs ∧
        ∃ total, vs = [.uint total] ∧ readRewards vs = .ok total) ∧
      (∃ vs, Contracts.nextEnvironment.decodeOutput blank = .ok vs ∧
        ∃ env : Environment, vs = [env.toValue] ∧ readEnvironment vs = .ok env) ∧
      ∃ f, run.1.failure? = some f ∧ f.message = "decoding failed: invalid address at 96" ∧
        ((∃ e, f = .call e) ∨ (∃ e, f = .protocol e) ∨
          ∃ query ∈ (Step.rewards .pending).queries cfg, ∃ output e,
            query.1.decodeOutput output = .error e ∧ f = .decoding e ∧
            (e = .empty ∨ ∃ place, e = .endOfBuffer place ∨ e = .invalidOffset place ∨
              e = .invalidLength place ∨ e = .malformed .bool place ∨
                e = .malformed .address place)) := by
  intro cfg start run
  obtain ⟨page, hpage⟩ := decodes_blank Contracts.validators (by simp [queried])
  obtain ⟨owners, howners⟩ := decodes_blank Contracts.validatorOwners (by simp [queried])
  obtain ⟨total, htotal⟩ := decodes_blank Contracts.totalRewards (by simp [queried])
  obtain ⟨env, henv⟩ := decodes_blank Contracts.nextEnvironment (by simp [queried])
  have htext : run.1.failure?.map Failure.message =
      some "decoding failed: invalid address at 96" := by decide +kernel
  obtain ⟨f, hfails, hmessage⟩ := Option.map_eq_some_iff.mp htext
  obtain ⟨⟨ofPage, ofOwners, ofTotal, ofEnv⟩, explained⟩ := conversions_follow_declarations cfg
  exact ⟨⟨page, hpage, ofPage _ _ hpage⟩, ⟨owners, howners, ofOwners _ _ howners⟩,
    ⟨total, htotal, ofTotal _ _ htotal⟩, ⟨env, henv, ofEnv _ _ henv⟩,
    f, hfails, hmessage, explained _ _ _ start _ f hfails⟩

end Trial

end Query

end StakedChain.Staking
