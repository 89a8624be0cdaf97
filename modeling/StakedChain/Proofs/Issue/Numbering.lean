import StakedChain.Proofs.Issue.Founding

namespace StakedChain.Issue

open Block Staking State

variable {cfg : Config} {account : Address} {ledger : Ledger} {step : Step} {steps : List Step}

namespace Step

def Inside : Step → Prop
  | issue _ | freeze => True
  | setNonce _ _ | execute _ _ => False

def appended (cfg : Config) (account : Address) (ledger : Ledger) : Step → List Transaction
  | issue i => if i.header.coinbase = account then i.appended cfg ledger else []
  | _ => []

def lost (cfg : Config) (account : Address) (ledger : Ledger) : Step → Nat
  | issue i => if i.header.coinbase = account then Issue.lost (i.run cfg ledger).1 else 0
  | _ => 0

def Discerns (cfg : Config) (ledger : Ledger) : Step → Prop
  | issue i => i.Discerns cfg ledger
  | _ => True

theorem ascending (cfg : Config) (account : Address) (ledger : Ledger) (inside : step.Inside) :
    Ascending (ledger.nonces account).toNat ((step.apply cfg ledger).nonces account).toNat
      ((step.appended cfg account ledger).map nonceOf) := by
  cases step with
  | issue i =>
    obtain ⟨-, posts⟩ := i.run_posts cfg ledger
    by_cases h : i.header.coinbase = account
    · subst h
      rw [appended, if_pos rfl]
      exact posts.ascending
    · rw [appended, if_neg h, apply, posts.others account (Ne.symm h)]
      exact .nil (Nat.le_refl _)
  | freeze => exact .nil (Nat.le_refl _)
  | setNonce | execute => exact inside.elim

theorem balanced (account : Address) (inside : step.Inside)
    (discerns : step.Discerns cfg ledger) :
    ((step.apply cfg ledger).nonces account).toNat = (ledger.nonces account).toNat +
      (step.appended cfg account ledger).length + step.lost cfg account ledger := by
  cases step with
  | issue i =>
    by_cases h : i.header.coinbase = account
    · subst h
      rw [appended, if_pos rfl, lost, if_pos rfl]
      exact Issuance.run_balanced discerns
    · rw [appended, if_neg h, lost, if_neg h, apply,
        (i.run_posts cfg ledger).2.others account (Ne.symm h)]
      rfl
  | freeze => rfl
  | setNonce | execute => exact inside.elim

theorem appended_of_frozen (cfg : Config) (account : Address) (frozen : ledger.frozen = true)
    (step : Step) : step.appended cfg account ledger = [] := by
  cases step with
  | issue i =>
    rw [appended, (i.run_posts cfg ledger).2.eq_nil frozen]
    exact ite_self []
  | setNonce | freeze | execute => rfl

def appendedAll (cfg : Config) (account : Address) : List Step → Ledger → List Transaction
  | [], _ => []
  | step :: steps, ledger =>
    step.appended cfg account ledger ++ appendedAll cfg account steps (step.apply cfg ledger)

def lostAll (cfg : Config) (account : Address) : List Step → Ledger → Nat
  | [], _ => 0
  | step :: steps, ledger =>
    step.lost cfg account ledger + lostAll cfg account steps (step.apply cfg ledger)

def DiscernsAll (cfg : Config) : List Step → Ledger → Prop
  | [], _ => True
  | step :: steps, ledger => step.Discerns cfg ledger ∧ DiscernsAll cfg steps (step.apply cfg ledger)

theorem ascendingAll (cfg : Config) (account : Address) (ledger : Ledger)
    (inside : ∀ step ∈ steps, step.Inside) :
    Ascending (ledger.nonces account).toNat ((applyAll cfg steps ledger).nonces account).toNat
      ((appendedAll cfg account steps ledger).map nonceOf) := by
  induction steps generalizing ledger with
  | nil => exact .nil (Nat.le_refl _)
  | cons step steps ih =>
    obtain ⟨hstep, hsteps⟩ := List.forall_mem_cons.mp inside
    rw [appendedAll, List.map_append]
    exact (ascending cfg account ledger hstep).append (ih _ hsteps)

theorem balancedAll (inside : ∀ step ∈ steps, step.Inside)
    (discerns : DiscernsAll cfg steps ledger) :
    ((applyAll cfg steps ledger).nonces account).toNat = (ledger.nonces account).toNat +
      (appendedAll cfg account steps ledger).length + lostAll cfg account steps ledger := by
  induction steps generalizing ledger with
  | nil => rfl
  | cons step steps ih =>
    obtain ⟨hstep, hsteps⟩ := List.forall_mem_cons.mp inside
    have first := balanced account hstep discerns.1
    have rest := ih hsteps discerns.2
    simp only [applyAll, appendedAll, lostAll, List.length_append]
    omega

theorem appendedAll_of_frozen (cfg : Config) (account : Address) (frozen : ledger.frozen = true)
    (steps : List Step) : appendedAll cfg account steps ledger = [] := by
  induction steps generalizing ledger with
  | nil => rfl
  | cons step steps ih =>
    have frozen' := (step.apply_grows cfg ledger).frozen frozen
    rw [appendedAll, appended_of_frozen cfg account frozen, ih frozen', List.append_nil]

theorem nonces_never_reused (cfg : Config) (steps : List Step)
    (inside : ∀ step ∈ steps, step.Inside) (ledger : Ledger) (account : Address) :
    ((appendedAll cfg account steps ledger).map nonceOf).Pairwise (· < ·) ∧
    (DiscernsAll cfg steps ledger →
      ((applyAll cfg steps ledger).nonces account).toNat = (ledger.nonces account).toNat +
        (appendedAll cfg account steps ledger).length + lostAll cfg account steps ledger) ∧
    (ledger.frozen = true → appendedAll cfg account steps ledger = []) :=
  ⟨(ascendingAll cfg account ledger inside).sorted, balancedAll inside,
    fun frozen => appendedAll_of_frozen cfg account frozen steps⟩

end Step

namespace Trial

-- Its second transaction is executed and then not recorded; the slashing comes after it.
def numbered : List Step :=
  [.issue halfway, .issue { halfway with op := slashing, assembly := .empty 0 }]

def unnumbered : Ledger :=
  .empty config.environment config.stakeManager

theorem slashing_skips_lost_nonce : (∀ step ∈ numbered, step.Inside) ∧
    ((Step.appendedAll config (.zero 20) numbered unnumbered).map nonceOf).Pairwise (· < ·) ∧
    (Step.appendedAll config (.zero 20) numbered unnumbered).map nonceOf = [0, 2] ∧
    Step.lostAll config (.zero 20) numbered unnumbered = 1 ∧
    (Step.applyAll config numbered unnumbered).nonces (.zero 20) = 3 := by
  have inside : ∀ step ∈ numbered, step.Inside :=
    List.forall_mem_cons.mpr ⟨trivial, List.forall_mem_singleton.mpr trivial⟩
  have discerns : Step.DiscernsAll config numbered unnumbered :=
    ⟨SystemCall.discernsAll_producer _ _ _ _, SystemCall.discernsAll_producer _ _ _ _, trivial⟩
  obtain ⟨ascending, balanced, -⟩ :=
    Step.nonces_never_reused config numbered inside unnumbered (.zero 20)
  obtain ⟨hnonces, hlost⟩ :
      (Step.appendedAll config (.zero 20) numbered unnumbered).map nonceOf = [0, 2] ∧
        Step.lostAll config (.zero 20) numbered unnumbered = 1 := by decide +kernel
  have hnonce := balanced discerns
  rw [hlost, ← List.length_map nonceOf, hnonces] at hnonce
  exact ⟨inside, ascending, hnonces, hlost, BitVec.eq_of_toNat_eq hnonce⟩

end Trial

end StakedChain.Issue
