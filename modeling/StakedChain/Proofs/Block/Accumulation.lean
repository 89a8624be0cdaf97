import StakedChain.Block.Assembly

namespace StakedChain.Block

structure Push where
  tx : Transaction
  outcome : Outcome
  header : Header

def Push.gas (p : Push) : Nat :=
  p.outcome.gasUsed.toNat

-- Exact, where the assembly counts in 64 bits.
def totalGas : List Push → Nat
  | [] => 0
  | p :: ps => p.gas + totalGas ps

theorem totalGas_append (ps qs : List Push) : totalGas (ps ++ qs) = totalGas ps + totalGas qs := by
  induction ps with
  | nil => simp [totalGas]
  | cons p ps ih => simp only [List.cons_append, totalGas, ih, Nat.add_assoc]

structure Receipt.Tells (receipt : Receipt) (p : Push) (index total : Nat) : Prop where
  status : receipt.status = true
  transactionHash : receipt.transactionHash = p.tx.hash
  transactionIndex : receipt.transactionIndex = index
  gasUsed : receipt.gasUsed = p.outcome.gasUsed
  logs : receipt.logs = p.outcome.logs
  bloom : receipt.bloom = .ofLogs p.outcome.logs
  blockHash : receipt.blockHash = p.header.hash
  blockNumber : receipt.blockNumber = p.header.number
  cumulativeGas : receipt.cumulativeGas.toNat = total

namespace Assembly

def capacity : Nat := 0x10000000000000000

def attempt (assembly : Assembly) (p : Push) : Except ExecutionError Receipt × Assembly :=
  assembly.push p.tx p.outcome p.header

def pushAll : Assembly → List Push → Assembly
  | assembly, [] => assembly
  | assembly, p :: ps => pushAll (assembly.attempt p).2 ps

def accepted : Assembly → List Push → List Push
  | _, [] => []
  | assembly, p :: ps =>
    match assembly.attempt p with
    | (.ok _, next) => p :: accepted next ps
    | (.error _, next) => accepted next ps

theorem receipt_tells (assembly : Assembly) (p : Push) {cumulative : Word64} {total : Nat}
    (h : cumulative.toNat = total) : (assembly.receipt p.tx p.outcome p.header cumulative).Tells p
      assembly.transactions.length total := by
  constructor
  case cumulativeGas => exact h
  all_goals rfl

theorem attempt_of_fits {assembly : Assembly} {p : Push}
    (h : assembly.gasUsed.toNat + p.gas < capacity) : ∃ receipt : Receipt,
      assembly.attempt p = (.ok receipt, ⟨assembly.transactions ++ [p.tx],
        assembly.receipts ++ [receipt], receipt.cumulativeGas⟩) ∧
      receipt.Tells p assembly.transactions.length (assembly.gasUsed.toNat + p.gas) := by
  have hsum : Word.add? assembly.gasUsed p.outcome.gasUsed =
      some (BitVec.ofNat 64 (assembly.gasUsed.toNat + p.gas)) := by
    rw [Word.add?_eq_some_iff, BitVec.toNat_ofNat]
    exact Nat.mod_eq_of_lt h
  exact ⟨_, by rw [attempt, push, hsum]; rfl,
    assembly.receipt_tells p (Word.add?_eq_some_iff.mp hsum)⟩

theorem attempt_of_overflows {assembly : Assembly} {p : Push}
    (h : capacity ≤ assembly.gasUsed.toNat + p.gas) :
    assembly.attempt p = (.error .gasOverflow, assembly) := by
  have hsum : Word.add? assembly.gasUsed p.outcome.gasUsed = none := Word.ofNat?_eq_none_iff.mpr h
  rw [attempt, push, hsum]

structure Accounts (assembly : Assembly) (start : Word64) (taken : List Push) : Prop where
  transactions : assembly.transactions = taken.map (·.tx)
  receipts : assembly.receipts.length = taken.length
  receipt : ∀ (i : Nat) (p : Push), taken[i]? = some p → ∃ receipt : Receipt,
    assembly.receipts[i]? = some receipt ∧
      receipt.Tells p i (start.toNat + totalGas (taken.take (i + 1)))
  gasUsed : assembly.gasUsed.toNat = start.toNat + totalGas taken

variable {assembly : Assembly} {start : Word64} {taken : List Push}

theorem accounts_empty (start : Word64) : (empty start).Accounts start [] :=
  ⟨rfl, rfl, nofun, rfl⟩

theorem Accounts.push (h : assembly.Accounts start taken) {p : Push} {receipt : Receipt}
    (tells : receipt.Tells p assembly.transactions.length (assembly.gasUsed.toNat + p.gas)) :
    Accounts ⟨assembly.transactions ++ [p.tx], assembly.receipts ++ [receipt],
      receipt.cumulativeGas⟩ start (taken ++ [p]) := by
  have hlength : assembly.transactions.length = taken.length := by
    rw [h.transactions, List.length_map]
  have htotal : assembly.gasUsed.toNat + p.gas = start.toNat + totalGas (taken ++ [p]) := by
    rw [h.gasUsed, totalGas_append, Nat.add_assoc]
    rfl
  rw [hlength, htotal] at tells
  refine ⟨by simp [h.transactions], by simp [h.receipts], ?_, tells.cumulativeGas⟩
  intro i q hq
  rcases Nat.lt_or_ge i taken.length with earlier | last
  · rw [List.getElem?_append_left earlier] at hq
    obtain ⟨old, hold, holds⟩ := h.receipt i q hq
    refine ⟨old, ?_, ?_⟩
    · rw [List.getElem?_append_left (h.receipts ▸ earlier), hold]
    · rwa [List.take_append_of_le_length earlier]
  · have hbound : i < (taken ++ [p]).length := (List.getElem?_eq_some_iff.mp hq).1
    rw [List.length_append, List.length_singleton] at hbound
    obtain rfl : i = taken.length := Nat.le_antisymm (Nat.le_of_lt_succ hbound) last
    rw [List.getElem?_concat_length] at hq
    obtain rfl := Option.some.inj hq
    refine ⟨receipt, ?_, ?_⟩
    · rw [← h.receipts, List.getElem?_concat_length]
    · rwa [List.take_of_length_le (by simp)]

theorem Accounts.pushAll (h : assembly.Accounts start taken) (ps : List Push) :
    (assembly.pushAll ps).Accounts start (taken ++ assembly.accepted ps) := by
  induction ps generalizing assembly taken with
  | nil => simpa only [Assembly.pushAll, accepted, List.append_nil] using h
  | cons p ps ih =>
    rcases Nat.lt_or_ge (assembly.gasUsed.toNat + p.gas) capacity with fits | overflows
    · obtain ⟨receipt, hpush, tells⟩ := attempt_of_fits fits
      have hrest := ih (h.push tells)
      rw [List.append_assoc, List.singleton_append] at hrest
      simpa only [Assembly.pushAll, accepted, hpush] using hrest
    · simpa only [Assembly.pushAll, accepted, attempt_of_overflows overflows] using ih h

theorem Accounts.last (h : assembly.Accounts start taken) :
    assembly.gasUsed = (assembly.receipts.getLast?.map (·.cumulativeGas)).getD start := by
  apply BitVec.eq_of_toNat_eq
  rw [h.gasUsed, List.getLast?_eq_getElem?, h.receipts]
  rcases List.eq_nil_or_concat taken with rfl | ⟨earlier, p, rfl⟩
  · rw [List.eq_nil_of_length_eq_zero h.receipts]
    rfl
  · rw [List.concat_eq_append] at h ⊢
    rw [List.length_append, List.length_singleton, Nat.add_sub_cancel]
    obtain ⟨receipt, hlast, tells⟩ := h.receipt earlier.length p List.getElem?_concat_length
    rw [hlast, Option.map_some, Option.getD_some, tells.cumulativeGas, List.take_of_length_le]
    simp

theorem pushAll_accounts (start : Word64) (ps : List Push) :
    ((empty start).pushAll ps).transactions = ((empty start).accepted ps).map (·.tx) ∧
    ((empty start).pushAll ps).receipts.length = ((empty start).accepted ps).length ∧
    (∀ (i : Nat) (p : Push), ((empty start).accepted ps)[i]? = some p → ∃ receipt : Receipt,
      ((empty start).pushAll ps).receipts[i]? = some receipt ∧
        receipt.Tells p i
          (start.toNat + totalGas (((empty start).accepted ps).take (i + 1)))) ∧
    ((empty start).pushAll ps).gasUsed =
      (((empty start).pushAll ps).receipts.getLast?.map (·.cumulativeGas)).getD start ∧
    ∀ p : Push,
      (((empty start).pushAll ps).attempt p = (.error .gasOverflow, (empty start).pushAll ps) ↔
        capacity ≤ start.toNat + totalGas ((empty start).accepted ps) + p.gas) ∧
      ((∃ receipt, (((empty start).pushAll ps).attempt p).1 = .ok receipt) ↔
        start.toNat + totalGas ((empty start).accepted ps) + p.gas < capacity) := by
  have h := (accounts_empty start).pushAll ps
  rw [List.nil_append] at h
  refine ⟨h.transactions, h.receipts, h.receipt, h.last, fun p => ?_⟩
  rw [← h.gasUsed]
  rcases Nat.lt_or_ge (((empty start).pushAll ps).gasUsed.toNat + p.gas) capacity with
    fits | overflows
  · obtain ⟨receipt, hpush, -⟩ := attempt_of_fits fits
    simp [hpush, fits]
  · simp [attempt_of_overflows overflows, overflows]

def plain (gas : Word64) : Push :=
  ⟨⟨⟨0, 0, gas, .zero 20, 0, []⟩, 37, 1, 1⟩, ⟨gas, []⟩, .empty⟩

theorem pushAll_skips_overflow :
    (empty 0xfffffffffffffff6).accepted [plain 4, plain 7, plain 5] = [plain 4, plain 5] ∧
      ∃ receipt : Receipt,
        ((empty 0xfffffffffffffff6).pushAll [plain 4, plain 7, plain 5]).receipts[1]? =
          some receipt ∧ receipt.Tells (plain 5) 1 0xffffffffffffffff := by
  obtain ⟨-, -, hreceipt, -, -⟩ :=
    pushAll_accounts 0xfffffffffffffff6 [plain 4, plain 7, plain 5]
  exact ⟨rfl, hreceipt 1 (plain 5) rfl⟩

end Assembly

end StakedChain.Block
