import StakedChain.Proofs.Issue.Effect
import StakedChain.Proofs.State.Execution

namespace StakedChain

structure Ascending (lo hi : Nat) (ns : List Nat) : Prop where
  le : lo ≤ hi
  within : ∀ n ∈ ns, lo ≤ n ∧ n < hi
  sorted : ns.Pairwise (· < ·)

namespace Ascending

variable {lo mid hi : Nat} {ns ms : List Nat}

theorem nil (h : lo ≤ hi) : Ascending lo hi [] :=
  ⟨h, nofun, .nil⟩

theorem singleton (n : Nat) : Ascending n (n + 1) [n] :=
  ⟨Nat.le_succ n, by simp, List.pairwise_singleton _ n⟩

theorem append (h : Ascending lo mid ns) (h' : Ascending mid hi ms) :
    Ascending lo hi (ns ++ ms) := by
  have hle := h.le
  have hle' := h'.le
  refine ⟨Nat.le_trans hle hle', fun n hn => ?_, ?_⟩
  · rcases List.mem_append.mp hn with hn | hn
    · have := h.within n hn
      omega
    · have := h'.within n hn
      omega
  · refine List.pairwise_append.mpr ⟨h.sorted, h'.sorted, fun n hn m hm => ?_⟩
    exact Nat.lt_of_lt_of_le (h.within n hn).2 (h'.within m hm).1

theorem eq_nil (h : Ascending lo lo ns) : ns = [] :=
  List.eq_nil_iff_forall_not_mem.mpr fun n hn =>
    Nat.lt_irrefl lo (Nat.lt_of_le_of_lt (h.within n hn).1 (h.within n hn).2)

end Ascending

namespace Issue

open Abi Block Staking State

def nonceOf (tx : Transaction) : Nat :=
  tx.body.nonce.toNat

theorem sign_error {signer : Signer} {chainId : Word64} {sender : Address} {body : Body}
    {e : Stop ExecutionError} (h : sign signer chainId sender body = .error e) :
    e = .fault .chainIdRange ∧ ¬chainId ≤ maxChainId ∨
      ∃ cause, e = .failed cause ∧ cause ≠ .gasOverflow := by
  unfold sign at h
  split at h
  · split at h
    · unfold Body.attach at h
      split at h
      · cases h
      · rename_i range
        cases h
        exact .inl ⟨rfl, range⟩
    · cases h
      exact .inr ⟨_, rfl, nofun⟩
  · cases h
    exact .inr ⟨_, rfl, nofun⟩

theorem check_error {chainId : Word64} {sender : Address} {body : Body} {tx : Transaction}
    {e : ExecutionError} (h : check chainId sender body tx = .error e) : e ≠ .gasOverflow := by
  simp only [check] at h
  split at h
  · split at h
    · split at h
      · cases h
      · cases h
        nofun
    · cases h
      nofun
  · cases h
    nofun

theorem Role.of_seal_error {role : Role} {name : String} {chainId : Word64} {sender : Address}
    {body : Body} {received rest : List Transaction} {e : Stop ExecutionError}
    (h : role.seal name chainId sender body received = (.error e, rest)) :
    e = .fault .chainIdRange ∧ ¬chainId ≤ maxChainId ∨
      ∃ cause, e = .failed cause ∧ cause ≠ .gasOverflow := by
  cases role with
  | producer signer => exact sign_error (Prod.mk.inj h).1
  | validator =>
    cases received with
    | nil =>
      cases h
      exact .inr ⟨_, rfl, nofun⟩
    | cons front others =>
      simp only [Role.seal, accept] at h
      rcases hcheck : check chainId sender body front with cause | ⟨⟩
      · rw [hcheck] at h
        cases h
        exact .inr ⟨_, rfl, check_error hcheck⟩
      · rw [hcheck] at h
        cases h

namespace SystemCall

theorem confirm_error {call : SystemCall} {sender : Address} {before after : Word64}
    {outcome : Outcome} {e : ExecutionError}
    (h : call.confirm sender before after outcome = .error e) : e ≠ .gasOverflow := by
  unfold confirm at h
  repeat' split at h
  all_goals cases h
  all_goals nofun

section

variable {σ : Type} {m : Machine σ} {cfg : Config} {role : Role} {header : Header}
  {call : SystemCall} {site : Site σ}

-- No digest that a validator compares on the way is shared by two bodies.
def Discerns (m : Machine σ) (cfg : Config) (role : Role) (header : Header) (call : SystemCall)
    (site : Site σ) : Prop :=
  ∀ tx rest body, site.received = tx :: rest → call.prescribed m cfg header site = .ok body →
    role.Binds cfg.chainId tx.body body

def DiscernsAll (m : Machine σ) (cfg : Config) (role : Role) (header : Header)
    (history : History) : List SystemCall → Site σ → Prop
  | [], _ => True
  | call :: calls, site => call.Discerns m cfg role header site ∧
      ∀ next, call.run m cfg role header history site = (.ok (), next) →
        DiscernsAll m cfg role header history calls next

theorem discerns_producer (signer : Signer) : call.Discerns m cfg (.producer signer) header site :=
  fun _ _ _ _ _ => trivial

theorem discernsAll_producer (signer : Signer) (history : History) (calls : List SystemCall)
    (site : Site σ) : DiscernsAll m cfg (.producer signer) header history calls site := by
  induction calls generalizing site with
  | nil => trivial
  | cons call calls ih => exact ⟨discerns_producer signer, fun next _ => ih next⟩

theorem Sealed.body {ops : List Operation} {before : Word64} {read : σ} {tx : Transaction}
    {received : List Transaction} (mem : call ∈ ops.flatMap (Operation.calls cfg))
    (discerns : call.Discerns m cfg role header site)
    (h : Sealed m cfg role header call site before read (.ok tx) received) :
    ∃ data, call.method.encodeCall call.args = .ok data ∧ tx.body = call.body cfg before data := by
  obtain ⟨body, prescribed, short⟩ : ∃ body, call.prescribed m cfg header site = .ok body ∧ _ :=
    Operation.prescribed_of_mem_calls mem site
  obtain ⟨data, encoded, rfl⟩ := prescribed_eq_ok_iff.mp prescribed
  obtain ⟨encoded', counted, sealed⟩ := h
  obtain rfl := Except.ok.inj (encoded.symm.trans encoded')
  rw [counted] at prescribed short
  refine ⟨data, encoded, role.body_of_seal short sealed ?_⟩
  cases role with
  | producer signer => trivial
  | validator =>
    obtain ⟨front, -, -⟩ := Role.seal_validator_eq_ok_iff.mp sealed
    exact discerns tx received _ front prescribed

end

variable {cfg : Config} {role : Role} {header : Header} {history : History} {call : SystemCall}
  {site next : Site Ledger} {tx : Transaction}

theorem Sealed.on_ledger {before : Word64} {read : Ledger}
    {result : Except (Stop ExecutionError) Transaction} {received : List Transaction}
    (h : Sealed Ledger.machine cfg role header call site before read result received) :
    before = site.state.nonces header.coinbase ∧ read = site.state := by
  obtain ⟨-, counted, -⟩ := h
  obtain ⟨rfl, rfl⟩ := Prod.mk.inj counted
  exact ⟨rfl, rfl⟩

theorem topic_of_dispatched {ops : List Operation} {ledger : Ledger} {target : Address}
    {data : Bytes} {effect : Ledger.Effect} (mem : call ∈ ops.flatMap (Operation.calls cfg))
    (encoded : call.method.encodeCall call.args = .ok data)
    (h : Ledger.Dispatched ledger target data effect) :
    effect.event.topic = call.event.topic := by
  have hselector : data.take 4 = call.method.selector.bytes := by
    obtain ⟨-, rfl⟩ := Method.encodeCall_eq_ok_iff.mp encoded
    exact List.take_left' call.method.selector.length_bytes
  rcases Operation.eq_of_mem_calls mem with rfl | rfl | ⟨validator, blocks, rfl⟩
  · cases h with
    | environment | manager => rfl
    | slash _ selected =>
      exact absurd hselector
        (Ledger.not_selected Contracts.slash_selector_ne_environmentSetup selected)
  · cases h with
    | environment | manager => rfl
    | slash _ selected =>
      exact absurd hselector
        (Ledger.not_selected Contracts.slash_selector_ne_managerSetup selected)
  · cases h with
    | environment _ selected =>
      exact absurd selected
        (Ledger.not_selected Contracts.slash_selector_ne_environmentSetup hselector)
    | manager _ selected =>
      exact absurd selected
        (Ledger.not_selected Contracts.slash_selector_ne_managerSetup hselector)
    | slash => rfl

theorem confirm_of_accepted {ops : List Operation} {data : Bytes} {effect : Ledger.Effect}
    {ledger : Ledger} {before after : Word64} (mem : call ∈ ops.flatMap (Operation.calls cfg))
    (encoded : call.method.encodeCall call.args = .ok data)
    (hbody : tx.body = call.body cfg before data)
    (accepted : Ledger.Accepted ledger tx header.coinbase effect)
    (advanced : after.toNat = before.toNat + 1) :
    call.confirm header.coinbase before after (effect.outcome tx.body) = .ok () := by
  refine confirm_eq_ok_iff.mpr ⟨advanced, accepted.gasUsed_ne_zero, _, rfl, ?_, ?_⟩
  · rw [hbody]
    rfl
  · have dispatched := accepted.dispatched
    rw [hbody] at dispatched
    exact congrArg some (topic_of_dispatched mem encoded dispatched)

end SystemCall

structure Posts (sender : Address) (before after : Ledger) (txs : List Transaction) : Prop where
  grows : Ledger.Grows before after
  others : ∀ account, account ≠ sender → after.nonces account = before.nonces account
  held : before.frozen = true → after.nonces = before.nonces
  ascending : Ascending (before.nonces sender).toNat (after.nonces sender).toNat (txs.map nonceOf)

namespace Posts

variable {sender : Address} {before mid after : Ledger} {txs txs' : List Transaction}

theorem refl (sender : Address) (ledger : Ledger) : Posts sender ledger ledger [] :=
  ⟨.refl ledger, fun _ _ => rfl, fun _ => rfl, .nil (Nat.le_refl _)⟩

theorem append (h : Posts sender before mid txs) (h' : Posts sender mid after txs') :
    Posts sender before after (txs ++ txs') := by
  refine ⟨h.grows.trans h'.grows, fun account other => ?_, fun frozen => ?_, ?_⟩
  · rw [h'.others account other, h.others account other]
  · rw [h'.held (h.grows.frozen frozen), h.held frozen]
  · rw [List.map_append]
    exact h.ascending.append h'.ascending

theorem eq_nil (h : Posts sender before after txs) (frozen : before.frozen = true) : txs = [] := by
  have ascending := h.ascending
  rw [h.held frozen] at ascending
  exact List.map_eq_nil_iff.mp ascending.eq_nil

end Posts

theorem posts_of_executed {ledger next : Ledger} {tx : Transaction} {sender : Address}
    {result : Except (Stop ExecutionError) Outcome}
    (h : Ledger.Executed ledger tx sender result next) : Posts sender ledger next [] := by
  cases result with
  | error e =>
    have same := h.nonces_of_error
    exact ⟨h.grows, fun _ _ => by rw [same], fun _ => same, .nil (Nat.le_of_eq (by rw [same]))⟩
  | ok outcome =>
    have counted := h.counted rfl
    refine ⟨h.grows, counted.others, counted.held, .nil ?_⟩
    cases hfrozen : ledger.frozen with
    | true => exact Nat.le_of_eq (by rw [counted.held hfrozen])
    | false =>
      rw [counted.advanced hfrozen]
      exact Nat.le_succ _

-- One for an operation whose last execution stands although the block had no room to record it.
def lost : Except (Stop Failure) Unit → Nat
  | .error (.failed (.execution .gasOverflow)) => 1
  | _ => 0

theorem lost_of_ne {e : Stop ExecutionError} (h : e ≠ .failed .gasOverflow) :
    lost (.error (e.map .execution)) = 0 := by
  cases e with
  | fault f => rfl
  | failed cause =>
    cases cause with
    | gasOverflow => exact absurd rfl h
    | _ => rfl

namespace SystemCall

variable {cfg : Config} {role : Role} {header : Header} {history : History} {call : SystemCall}
  {site next : Site Ledger} {tx : Transaction}

theorem Committed.on_ledger
    (h : Committed Ledger.machine cfg role header history call site tx next) : ∃ outcome,
      Ledger.Executed site.state tx header.coinbase (.ok outcome) next.state ∧
      call.confirm header.coinbase (site.state.nonces header.coinbase)
        (next.state.nonces header.coinbase) outcome = .ok () := by
  obtain ⟨-, counted, -, executed, recounted, confirmed, -⟩ := h
  obtain ⟨rfl, rfl⟩ := Prod.mk.inj counted
  obtain ⟨rfl, rfl⟩ := Prod.mk.inj recounted
  exact ⟨_, Ledger.executed executed, confirmed⟩

theorem Committed.advanced
    (h : Committed Ledger.machine cfg role header history call site tx next) :
    (next.state.nonces header.coinbase).toNat = (site.state.nonces header.coinbase).toNat + 1 := by
  obtain ⟨_, -, confirmed⟩ := h.on_ledger
  exact (confirm_eq_ok_iff.mp confirmed).1

theorem Committed.posts
    (h : Committed Ledger.machine cfg role header history call site tx next) :
    Posts header.coinbase site.state next.state [tx] := by
  obtain ⟨outcome, executed, -⟩ := h.on_ledger
  have posts := posts_of_executed executed
  refine ⟨posts.grows, posts.others, posts.held, ?_⟩
  rw [h.advanced, List.map_singleton, nonceOf, (executed.counted rfl).nonce]
  exact .singleton _

theorem Aborted.posts {e : Stop Failure}
    (h : Aborted Ledger.machine cfg role header history call site e next) :
    Posts header.coinbase site.state next.state [] := by
  cases h with
  | encoding => exact .refl _ _
  | sealing sealed =>
    obtain ⟨-, rfl⟩ := sealed.on_ledger
    exact .refl _ _
  | execution sealed executed =>
    obtain ⟨-, rfl⟩ := sealed.on_ledger
    exact posts_of_executed (Ledger.executed executed)
  | confirmation sealed executed recounted | overflow sealed executed recounted =>
    obtain ⟨-, rfl⟩ := sealed.on_ledger
    obtain ⟨-, rfl⟩ := Prod.mk.inj recounted
    exact posts_of_executed (Ledger.executed executed)

theorem run_posts (cfg : Config) (role : Role) (header : Header) (history : History)
    (call : SystemCall) (site : Site Ledger) : ∃ txs,
      (call.run Ledger.machine cfg role header history site).2.assembly.transactions =
        site.assembly.transactions ++ txs ∧
      Posts header.coinbase site.state
        (call.run Ledger.machine cfg role header history site).2.state txs := by
  rcases run_cases Ledger.machine cfg role header history call site with
    ⟨tx, next, hrun, committed⟩ | ⟨e, next, hrun, aborted⟩
  · rw [hrun]
    exact ⟨[tx], committed.transactions, committed.posts⟩
  · rw [hrun]
    exact ⟨[], by rw [aborted.kept.1, List.append_nil], aborted.posts⟩

def Balanced (sender : Address) (before after : Site Ledger)
    (result : Except (Stop Failure) Unit) : Prop :=
  (after.state.nonces sender).toNat + before.assembly.transactions.length =
    (before.state.nonces sender).toNat + after.assembly.transactions.length + lost result

theorem Committed.balanced
    (h : Committed Ledger.machine cfg role header history call site tx next) :
    Balanced header.coinbase site next (.ok ()) := by
  have hlength := congrArg List.length h.transactions
  rw [List.length_append, List.length_singleton] at hlength
  simp only [Balanced, h.advanced, hlength, lost]
  omega

theorem Sealed.nonces_of_refusal {ops : List Operation} {before : Word64} {read ledger : Ledger}
    {received : List Transaction} {outcome : Outcome} {e : ExecutionError}
    (mem : call ∈ ops.flatMap (Operation.calls cfg))
    (discerns : call.Discerns Ledger.machine cfg role header site)
    (h : Sealed Ledger.machine cfg role header call site before read (.ok tx) received)
    (executed : Ledger.Executed site.state tx header.coinbase (.ok outcome) ledger)
    (refused : call.confirm header.coinbase before (ledger.nonces header.coinbase) outcome =
      .error e) : ledger.nonces = site.state.nonces := by
  have counted := executed.counted rfl
  cases hfrozen : site.state.frozen with
  | true => exact counted.held hfrozen
  | false =>
    obtain ⟨data, encoded, hbody⟩ := h.body mem discerns
    obtain ⟨rfl, -⟩ := h.on_ledger
    obtain ⟨effect, accepted, rfl, -⟩ := executed.accepted rfl
    have := confirm_of_accepted mem encoded hbody accepted (counted.advanced hfrozen)
    rw [this] at refused
    cases refused

theorem Aborted.balanced {ops : List Operation} {e : Stop Failure}
    (mem : call ∈ ops.flatMap (Operation.calls cfg))
    (discerns : call.Discerns Ledger.machine cfg role header site)
    (h : Aborted Ledger.machine cfg role header history call site e next) :
    Balanced header.coinbase site next (.error e) := by
  have kept {ledger : Ledger} {cause : Stop ExecutionError} (same : ledger.nonces =
      site.state.nonces) (ne : cause ≠ .failed .gasOverflow) :
      Balanced header.coinbase site { next with state := ledger, assembly := site.assembly }
        (.error (cause.map .execution)) := by
    simp only [Balanced, same, lost_of_ne ne, Nat.add_zero]
  cases h with
  | encoding => rfl
  | sealing sealed =>
    obtain ⟨-, rfl⟩ := sealed.on_ledger
    obtain ⟨-, -, sealed⟩ := sealed
    refine kept rfl ?_
    rcases Role.of_seal_error sealed with ⟨rfl, -⟩ | ⟨cause, rfl, ne⟩
    · nofun
    · exact fun heq => ne (Stop.failed.inj heq)
  | execution sealed executed =>
    obtain ⟨-, rfl⟩ := sealed.on_ledger
    have executed := Ledger.executed executed
    exact kept executed.nonces_of_error executed.ne_overflow
  | confirmation sealed executed recounted confirmed =>
    obtain ⟨rfl, rfl⟩ := sealed.on_ledger
    obtain ⟨rfl, rfl⟩ := Prod.mk.inj recounted
    exact kept (sealed.nonces_of_refusal mem discerns (Ledger.executed executed) confirmed)
      fun heq => confirm_error confirmed (Stop.failed.inj heq)
  | overflow sealed executed recounted confirmed =>
    obtain ⟨rfl, rfl⟩ := sealed.on_ledger
    obtain ⟨rfl, rfl⟩ := Prod.mk.inj recounted
    obtain ⟨advanced, -⟩ := confirm_eq_ok_iff.mp confirmed
    simp only [Balanced, advanced, lost]
    omega

theorem run_balanced {ops : List Operation} (history : History)
    (mem : call ∈ ops.flatMap (Operation.calls cfg))
    (discerns : call.Discerns Ledger.machine cfg role header site) :
    Balanced header.coinbase site (call.run Ledger.machine cfg role header history site).2
      (call.run Ledger.machine cfg role header history site).1 := by
  rcases run_cases Ledger.machine cfg role header history call site with
    ⟨tx, next, hrun, committed⟩ | ⟨e, next, hrun, aborted⟩
  · rw [hrun]
    exact committed.balanced
  · rw [hrun]
    exact aborted.balanced mem discerns

theorem runAll_posts (cfg : Config) (role : Role) (header : Header) (history : History)
    (calls : List SystemCall) (site : Site Ledger) : ∃ txs,
      (runAll Ledger.machine cfg role header history calls site).2.assembly.transactions =
        site.assembly.transactions ++ txs ∧
      Posts header.coinbase site.state
        (runAll Ledger.machine cfg role header history calls site).2.state txs := by
  induction calls generalizing site with
  | nil => exact ⟨[], (List.append_nil _).symm, .refl _ _⟩
  | cons call calls ih =>
    obtain ⟨first, appended, posts⟩ := run_posts cfg role header history call site
    rcases hrun : call.run Ledger.machine cfg role header history site with ⟨e | ⟨⟩, mid⟩
    · rw [hrun] at appended posts
      simp only [runAll, hrun]
      exact ⟨first, appended, posts⟩
    · rw [hrun] at appended posts
      obtain ⟨later, happended, hposts⟩ := ih mid
      simp only [runAll, hrun]
      exact ⟨first ++ later, by rw [happended, appended, List.append_assoc], posts.append hposts⟩

theorem runAll_balanced {ops : List Operation} {calls : List SystemCall}
    (mem : ∀ call ∈ calls, call ∈ ops.flatMap (Operation.calls cfg)) {site : Site Ledger}
    (discerns : DiscernsAll Ledger.machine cfg role header history calls site) :
    Balanced header.coinbase site (runAll Ledger.machine cfg role header history calls site).2
      (runAll Ledger.machine cfg role header history calls site).1 := by
  induction calls generalizing site with
  | nil => rfl
  | cons call calls ih =>
    obtain ⟨first, later⟩ := discerns
    obtain ⟨hmem, hmems⟩ := List.forall_mem_cons.mp mem
    have balanced := run_balanced history hmem first
    rcases hrun : call.run Ledger.machine cfg role header history site with ⟨e | ⟨⟩, mid⟩
    · rw [hrun] at balanced
      simp only [runAll, hrun]
      exact balanced
    · rw [hrun] at balanced
      have hlater := ih hmems (later mid hrun)
      simp only [runAll, hrun]
      simp only [Balanced, lost] at balanced hlater ⊢
      omega

end SystemCall

end Issue

end StakedChain
