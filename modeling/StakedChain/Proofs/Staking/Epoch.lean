import StakedChain.Staking.Environment

namespace StakedChain.Staking.Environment

attribute [local instance (2000)] instPowNat

variable {env : Environment}

-- The epochs in exact integers: each begins where the one before it has run its period.
structure Begins (env : Environment) (epoch first : Nat) : Prop where
  started : env.startEpoch.toNat ≤ epoch
  first_eq : first =
    env.startBlock.toNat + (epoch - env.startEpoch.toNat) * env.epochPeriod.toNat

def Spans (env : Environment) (first number : Nat) : Prop :=
  first ≤ number ∧ number < first + env.epochPeriod.toNat

namespace Begins

variable {epoch later first first' number : Nat}

theorem next (h : env.Begins epoch first) :
    env.Begins (epoch + 1) (first + env.epochPeriod.toNat) where
  started := Nat.le_succ_of_le h.started
  first_eq := by rw [Nat.succ_sub h.started, Nat.succ_mul, ← Nat.add_assoc, ← h.first_eq]

theorem add_period_le (h : env.Begins epoch first) (h' : env.Begins later first')
    (hlt : epoch < later) : first + env.epochPeriod.toNat ≤ first' := by
  have hsteps : epoch + 1 - env.startEpoch.toNat ≤ later - env.startEpoch.toNat :=
    Nat.sub_le_sub_right hlt _
  rw [h.next.first_eq, h'.first_eq]
  exact Nat.add_le_add_left (Nat.mul_le_mul_right _ hsteps) _

theorem le_of_spans (h : env.Begins epoch first) (h' : env.Begins later first')
    (spans : env.Spans first number) (reached : first' ≤ number) : later ≤ epoch := by
  refine Nat.le_of_not_lt fun hlt => ?_
  have := h.add_period_le h' hlt
  have := spans.2
  omega

theorem unique (h : env.Begins epoch first) (h' : env.Begins later first')
    (spans : env.Spans first number) (spans' : env.Spans first' number) : epoch = later :=
  Nat.le_antisymm (h'.le_of_spans h spans' spans.1) (h.le_of_spans h' spans spans'.1)

theorem spans_first (hperiod : env.epochPeriod ≠ 0) (first : Nat) : env.Spans first first :=
  ⟨Nat.le_refl _, Nat.lt_add_of_pos_right (Nat.pos_of_ne_zero fun h =>
    hperiod (BitVec.eq_of_toNat_eq h))⟩

end Begins

section

variable {number epoch first : Word64}

theorem elapsed?_eq_some_iff {blocks : Word256} : env.elapsed? number = some blocks ↔
    env.startBlock.toNat ≤ number.toNat ∧
      blocks.toNat = number.toNat - env.startBlock.toNat := by
  rw [elapsed?, Word.sub?_eq_some_iff, Word.toNat_widen (by decide)]

theorem exists_elapsed (h : env.startBlock.toNat ≤ number.toNat) : ∃ blocks : Word256,
    env.elapsed? number = some blocks ∧
      blocks.toNat = number.toNat - env.startBlock.toNat := by
  have hlt : number.toNat - env.startBlock.toNat < 2 ^ 256 := by
    have := number.isLt
    omega
  exact ⟨.ofNatLT _ hlt, elapsed?_eq_some_iff.mpr ⟨h, rfl⟩, rfl⟩

theorem epoch?_eq_some_iff_div : env.epoch? number = some epoch ↔
    env.startBlock.toNat ≤ number.toNat ∧ env.epochPeriod ≠ 0 ∧
      epoch.toNat = env.startEpoch.toNat +
        (number.toNat - env.startBlock.toNat) / env.epochPeriod.toNat := by
  simp only [epoch?, bind, Option.bind_eq_some_iff, elapsed?_eq_some_iff, Word.div?_eq_some_iff,
    Word.add?_eq_some_iff, Word.narrow?_eq_some_iff]
  constructor
  · rintro ⟨blocks, ⟨hstart, hblocks⟩, epochs, ⟨hperiod, hepochs⟩, sum, hsum, hepoch⟩
    exact ⟨hstart, hperiod, by rw [hepoch, hsum, hepochs, hblocks]⟩
  · rintro ⟨hstart, hperiod, hepoch⟩
    obtain ⟨blocks, -, hblocks⟩ := exists_elapsed hstart
    have hsum := Word.toNat_widen (by decide : 64 ≤ 256) epoch
    exact ⟨blocks, ⟨hstart, hblocks⟩, blocks / env.epochPeriod,
      ⟨hperiod, BitVec.toNat_udiv⟩, Word.widen 256 epoch,
      by rw [hsum, hepoch, BitVec.toNat_udiv, hblocks], hsum.symm⟩

theorem epochStart?_eq_some_iff :
    env.epochStart? epoch = some first ↔ env.Begins epoch.toNat first.toNat := by
  simp only [epochStart?, bind, Option.bind_eq_some_iff, Word.sub?_eq_some_iff,
    Word.mul?_eq_some_iff, Word.add?_eq_some_iff, Word.narrow?_eq_some_iff,
    Word.toNat_widen (by decide : 64 ≤ 256)]
  constructor
  · rintro ⟨epochs, ⟨hstart, hepochs⟩, offset, hoffset, sum, hsum, hfirst⟩
    exact ⟨hstart, by rw [hfirst, hsum, hoffset, hepochs]⟩
  · rintro ⟨hstart, hfirst⟩
    have hepoch := epoch.isLt
    have hlimit := first.isLt
    have hsum := Word.toNat_widen (by decide : 64 ≤ 256) first
    exact ⟨.ofNatLT (epoch.toNat - env.startEpoch.toNat) (by omega), ⟨hstart, rfl⟩,
      .ofNatLT ((epoch.toNat - env.startEpoch.toNat) * env.epochPeriod.toNat) (by omega), rfl,
      Word.widen 256 first, hsum.trans hfirst, hsum.symm⟩

theorem epoch?_eq_some_iff : env.epoch? number = some epoch ↔
    ∃ first, env.Begins epoch.toNat first ∧ env.Spans first number.toNat := by
  rw [epoch?_eq_some_iff_div]
  constructor
  · rintro ⟨hstart, hperiod, hepoch⟩
    have hpos : 0 < env.epochPeriod.toNat :=
      Nat.pos_of_ne_zero fun h => hperiod (BitVec.eq_of_toNat_eq h)
    have hlow := Nat.div_mul_le_self (number.toNat - env.startBlock.toNat) env.epochPeriod.toNat
    have hhigh := Nat.lt_div_mul_add (a := number.toNat - env.startBlock.toNat) hpos
    refine ⟨_, ⟨hepoch ▸ Nat.le_add_right _ _, rfl⟩, ?_⟩
    rw [hepoch, Nat.add_sub_cancel_left, Spans]
    omega
  · rintro ⟨first, ⟨hstart, hfirst⟩, hlow, hhigh⟩
    have hdiv : (number.toNat - env.startBlock.toNat) / env.epochPeriod.toNat =
        epoch.toNat - env.startEpoch.toNat := by
      apply Nat.div_eq_of_lt_le
      · omega
      · rw [Nat.succ_mul]
        omega
    refine ⟨by omega, fun hzero => ?_, by omega⟩
    have : env.epochPeriod.toNat = 0 := congrArg BitVec.toNat hzero
    omega

theorem startsEpoch_iff : env.startsEpoch number = true ↔
    env.epochPeriod ≠ 0 ∧ ∃ epoch, env.Begins epoch number.toNat := by
  have hrest : env.startsEpoch number = true ↔
      ((env.elapsed? number).bind fun blocks => Word.rem? blocks env.epochPeriod) = some 0 := by
    unfold startsEpoch
    simp only [bind]
    cases (env.elapsed? number).bind fun blocks => Word.rem? blocks env.epochPeriod <;> simp
  simp only [hrest, Option.bind_eq_some_iff, elapsed?_eq_some_iff, Word.rem?_eq_some_iff]
  constructor
  · rintro ⟨blocks, ⟨hstart, hblocks⟩, hperiod, hzero⟩
    have hdvd : env.epochPeriod.toNat ∣ number.toNat - env.startBlock.toNat :=
      Nat.dvd_of_mod_eq_zero (by rw [← hblocks, ← hzero]; rfl)
    obtain ⟨epochs, hepochs⟩ := hdvd
    refine ⟨hperiod, env.startEpoch.toNat + epochs, Nat.le_add_right _ _, ?_⟩
    rw [Nat.add_sub_cancel_left, Nat.mul_comm, ← hepochs]
    omega
  · rintro ⟨hperiod, epoch, hstart, hfirst⟩
    have hle : env.startBlock.toNat ≤ number.toNat := by omega
    obtain ⟨blocks, -, hblocks⟩ := exists_elapsed hle
    refine ⟨blocks, ⟨hle, hblocks⟩, hperiod, ?_⟩
    rw [hblocks, hfirst, Nat.add_sub_cancel_left, Nat.mul_mod_left]
    rfl

theorem exists_epochStart {first : Nat} (begins : env.Begins epoch.toNat first)
    (spans : env.Spans first number.toNat) :
    ∃ word : Word64, env.epochStart? epoch = some word ∧ word.toNat = first :=
  have hlt : first < 2 ^ 64 := Nat.lt_of_le_of_lt spans.1 number.isLt
  ⟨.ofNatLT first hlt, epochStart?_eq_some_iff.mpr begins, rfl⟩

theorem epoch?_next {next later : Word64} (hnext : next.toNat = number.toNat + 1)
    (h : env.epoch? number = some epoch) (h' : env.epoch? next = some later) :
    later.toNat = if env.startsEpoch next then epoch.toNat + 1 else epoch.toNat := by
  obtain ⟨first, begins, spans⟩ := epoch?_eq_some_iff.mp h
  obtain ⟨first', begins', spans'⟩ := epoch?_eq_some_iff.mp h'
  have hperiod := (epoch?_eq_some_iff_div.mp h).2.1
  obtain ⟨hlow, hhigh⟩ := spans
  -- The next block is still spanned, or it is where the epoch after this one begins.
  rcases Nat.lt_or_eq_of_le (by omega : next.toNat ≤ first + env.epochPeriod.toNat) with hin | hend
  · have hsame : env.Spans first next.toNat := ⟨by omega, hin⟩
    rw [if_neg, begins'.unique begins spans' hsame]
    intro hstarts
    obtain ⟨-, other, begins''⟩ := startsEpoch_iff.mp hstarts
    obtain rfl := begins''.unique begins (Begins.spans_first hperiod _) hsame
    have := begins''.first_eq
    have := begins.first_eq
    omega
  · have hbegins := begins.next
    rw [← hend] at hbegins
    rw [if_pos (startsEpoch_iff.mpr ⟨hperiod, _, hbegins⟩)]
    exact begins'.unique hbegins spans' (Begins.spans_first hperiod _)

end

theorem epochs_tile_blocks (env : Environment) :
    (env.epochPeriod ≠ 0 → ∀ number epoch : Word64,
      (env.epoch? number = some epoch ↔ ∃ first, env.epochStart? epoch = some first ∧
        first.toNat ≤ number.toNat ∧ number.toNat < first.toNat + env.epochPeriod.toNat) ∧
      (∀ first, env.epochStart? epoch = some first →
        env.startsEpoch first = true ∧ env.epoch? first = some epoch) ∧
      (env.epoch? number = some epoch →
        (env.startsEpoch number = true ↔ env.epochStart? epoch = some number)) ∧
      ∀ next later : Word64, next.toNat = number.toNat + 1 → env.epoch? number = some epoch →
        env.epoch? next = some later →
          later.toNat = if env.startsEpoch next then epoch.toNat + 1 else epoch.toNat) ∧
    (env.epochPeriod = 0 → ∀ number : Word64,
      env.epoch? number = none ∧ env.startsEpoch number = false) := by
  refine ⟨fun hperiod number epoch => ⟨?_, ?_, ?_, fun next later => epoch?_next⟩, ?_⟩
  · rw [epoch?_eq_some_iff]
    constructor
    · rintro ⟨first, begins, spans⟩
      obtain ⟨word, hword, rfl⟩ := exists_epochStart begins spans
      exact ⟨word, hword, spans⟩
    · rintro ⟨first, hfirst, spans⟩
      exact ⟨first.toNat, epochStart?_eq_some_iff.mp hfirst, spans⟩
  · intro first hfirst
    have begins := epochStart?_eq_some_iff.mp hfirst
    exact ⟨startsEpoch_iff.mpr ⟨hperiod, _, begins⟩,
      epoch?_eq_some_iff.mpr ⟨_, begins, Begins.spans_first hperiod _⟩⟩
  · intro hepoch
    obtain ⟨first, begins, spans⟩ := epoch?_eq_some_iff.mp hepoch
    rw [startsEpoch_iff, epochStart?_eq_some_iff]
    constructor
    · rintro ⟨-, other, begins'⟩
      rwa [← begins'.unique begins (Begins.spans_first hperiod _) spans]
    · exact fun begins' => ⟨hperiod, _, begins'⟩
  · intro hzero number
    constructor
    · refine Option.eq_none_iff_forall_ne_some.mpr fun epoch h => ?_
      exact (epoch?_eq_some_iff_div.mp h).2.1 hzero
    · exact Bool.eq_false_iff.mpr fun h => (startsEpoch_iff.mp h).1 hzero

-- Two epochs before the epochs run out, and thirty blocks before the blocks do.
def lastEpochs : Environment :=
  { genesis 3 20 with startBlock := 0xffffffffffffffe2, startEpoch := 0xfffffffffffffffe }

theorem last_epochs_tile :
    lastEpochs.epochPeriod ≠ 0 ∧
    lastEpochs.epoch? 0xfffffffffffffff5 = some 0xfffffffffffffffe ∧
    lastEpochs.startsEpoch 0xfffffffffffffff6 = true ∧
    lastEpochs.epochStart? 0xffffffffffffffff = some 0xfffffffffffffff6 ∧
    lastEpochs.epoch? 0xfffffffffffffff6 = some 0xffffffffffffffff ∧
    (0xffffffffffffffff : Word64).toNat =
      (if lastEpochs.startsEpoch 0xfffffffffffffff6 then (0xfffffffffffffffe : Word64).toNat + 1
        else (0xfffffffffffffffe : Word64).toNat) ∧
    ({ lastEpochs with epochPeriod := 0 } : Environment).epoch? 0xfffffffffffffff6 = none := by
  have hperiod : lastEpochs.epochPeriod ≠ 0 := by decide
  have tiled := (epochs_tile_blocks lastEpochs).1 hperiod
  have hlast := (tiled 0xfffffffffffffff5 0xfffffffffffffffe).1.mpr
    ⟨0xffffffffffffffe2, by decide, by decide, by decide⟩
  obtain ⟨hstarts, hnext⟩ :=
    (tiled 0 0xffffffffffffffff).2.1 0xfffffffffffffff6 (by decide)
  have hstep := (tiled 0xfffffffffffffff5 0xfffffffffffffffe).2.2.2 0xfffffffffffffff6
    0xffffffffffffffff (by decide) hlast hnext
  have hfirst := ((tiled 0xfffffffffffffff6 0xffffffffffffffff).2.2.1 hnext).mp hstarts
  exact ⟨hperiod, hlast, hstarts, hfirst, hnext, hstep,
    ((epochs_tile_blocks { lastEpochs with epochPeriod := 0 }).2 rfl 0xfffffffffffffff6).1⟩

end StakedChain.Staking.Environment
