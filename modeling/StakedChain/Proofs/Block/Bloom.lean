import StakedChain.Block.Log

namespace StakedChain

theorem Bytes.value_pair {bs : Bytes} {k : Nat} {high low : UInt8} (hhigh : bs[k]? = some high)
    (hlow : bs[k + 1]? = some low) :
    value ((bs.drop k).take 2) = high.toNat * 256 + low.toNat := by
  obtain ⟨hk, rfl⟩ := List.getElem?_eq_some_iff.mp hhigh
  obtain ⟨hnext, rfl⟩ := List.getElem?_eq_some_iff.mp hlow
  rw [List.drop_eq_getElem_cons hk, List.drop_eq_getElem_cons hnext]
  simp only [List.take_succ_cons, List.take_zero, value, List.length_singleton, List.length_nil,
    Nat.pow_one, Nat.pow_zero, Nat.mul_one, Nat.add_zero]

theorem Bytes.getElem?_ofNat (n : Nat) {width k : Nat} (h : k < width) :
    (ofNat width n)[k]? = some (UInt8.ofNat (n >>> (8 * (width - 1 - k)))) := by
  induction width generalizing k with
  | zero => cases h
  | succ width ih =>
    cases k with
    | zero =>
      rw [ofNat, List.getElem?_cons_zero, Nat.shiftRight_eq_div_pow, Nat.pow_mul]
      rfl
    | succ k =>
      have hk : k < width := Nat.lt_of_succ_lt_succ h
      have hplace : width + 1 - 1 - (k + 1) = width - 1 - k := by omega
      rw [ofNat, List.getElem?_cons_succ, ih hk, hplace]

namespace Block.Bloom

theorem lt_of_mem_indices {mark : Bytes} {i : Nat} (h : i ∈ indices mark) : i < 2048 := by
  obtain ⟨j, -, rfl⟩ := List.mem_map.mp h
  exact Nat.mod_lt _ (by decide)

theorem getLsbD_set_iff (bloom : Bloom) {i : Nat} (h : i < 2048) (j : Nat) :
    (bloom.set i).getLsbD j = true ↔ bloom.getLsbD j = true ∨ j = i := by
  simp only [getLsbD_set, h, decide_true, Bool.true_and, Bool.or_eq_true, decide_eq_true_eq,
    @eq_comm Nat i]

theorem getLsbD_foldl_set_iff {is : List Nat} (bounded : ∀ i ∈ is, i < 2048) (bloom : Bloom)
    (j : Nat) : (is.foldl set bloom).getLsbD j = true ↔ bloom.getLsbD j = true ∨ j ∈ is := by
  induction is generalizing bloom with
  | nil => simp
  | cons i is ih =>
    obtain ⟨hi, his⟩ := List.forall_mem_cons.mp bounded
    rw [List.foldl_cons, ih his, getLsbD_set_iff bloom hi, or_assoc, List.mem_cons]

theorem getLsbD_insert_iff (bloom : Bloom) (mark : Bytes) (j : Nat) :
    (bloom.insert mark).getLsbD j = true ↔ bloom.getLsbD j = true ∨ j ∈ indices mark :=
  getLsbD_foldl_set_iff (fun _ => lt_of_mem_indices) bloom j

theorem getLsbD_foldl_insert_iff (marks : List Bytes) (bloom : Bloom) (j : Nat) :
    (marks.foldl insert bloom).getLsbD j = true ↔
      bloom.getLsbD j = true ∨ ∃ mark ∈ marks, j ∈ indices mark := by
  induction marks generalizing bloom with
  | nil => simp
  | cons mark marks ih =>
    rw [List.foldl_cons, ih, getLsbD_insert_iff, or_assoc]
    simp only [List.mem_cons, exists_eq_or_imp]

theorem getLsbD_ofLogs_iff (logs : List Log) (j : Nat) :
    (ofLogs logs).getLsbD j = true ↔ ∃ mark ∈ logs.flatMap Log.marks, j ∈ indices mark := by
  simp [ofLogs, getLsbD_foldl_insert_iff]

theorem ofLogs_ne_zero {logs : List Log} (h : logs ≠ []) : ofLogs logs ≠ 0 := by
  intro hzero
  obtain ⟨log, rest, rfl⟩ := List.exists_cons_of_ne_nil h
  have hmark : log.address.bytes ∈ (log :: rest).flatMap Log.marks :=
    List.mem_flatMap.mpr ⟨log, List.mem_cons_self, List.mem_cons_self⟩
  have hset := (getLsbD_ofLogs_iff (log :: rest) _).mpr ⟨_, hmark, List.mem_cons_self⟩
  rw [hzero] at hset
  simp at hset

theorem eq_of_getLsbD_iff {a b : Bloom} (h : ∀ i, a.getLsbD i = true ↔ b.getLsbD i = true) :
    a = b :=
  BitVec.eq_of_getLsbD_eq fun i _ => Bool.eq_iff_iff.mpr (h i)

theorem ofLogs_append (logs others : List Log) :
    ofLogs (logs ++ others) = ofLogs logs ||| ofLogs others := by
  apply eq_of_getLsbD_iff
  intro i
  rw [BitVec.getLsbD_or, Bool.or_eq_true]
  simp only [getLsbD_ofLogs_iff, List.flatMap_append, List.mem_append, or_and_right, exists_or]

-- The last of the 256 octets holds the bits 0 to 7, from its low end.
theorem exists_octet (bloom : Bloom) {i : Nat} (h : i < 2048) : ∃ octet : UInt8,
    bloom.bytes[255 - i / 8]? = some octet ∧ octet.toNat.testBit (i % 8) = bloom.getLsbD i := by
  have hplace : 256 - 1 - (255 - i / 8) = i / 8 := by omega
  have hi : 8 * (i / 8) + i % 8 = i := Nat.div_add_mod i 8
  have hinside : i % 8 < 8 := Nat.mod_lt i (by decide)
  refine ⟨_, Bytes.getElem?_ofNat _ (by omega), ?_⟩
  rw [hplace, UInt8.toNat_ofNat', Nat.testBit_mod_two_pow, decide_eq_true hinside, Bool.true_and,
    Nat.testBit_shiftRight, hi]
  rfl

def StandsFor (i : Nat) (mark : Bytes) : Prop :=
  ∃ k < 3, ∃ high low : UInt8, (keccak mark).bytes[2 * k]? = some high ∧
    (keccak mark).bytes[2 * k + 1]? = some low ∧ i = (high.toNat * 256 + low.toNat) % 2048

theorem mem_indices_iff {mark : Bytes} {i : Nat} : i ∈ indices mark ↔ StandsFor i mark := by
  have hindices : indices mark = (List.range 3).map fun k =>
      Bytes.value (((keccak mark).bytes.drop (2 * k)).take 2) % 2048 := rfl
  simp only [hindices, List.mem_map, List.mem_range]
  constructor
  · rintro ⟨k, hk, rfl⟩
    have hlength := (keccak mark).length_bytes
    have hhigh := List.getElem?_eq_getElem (l := (keccak mark).bytes) (i := 2 * k) (by omega)
    have hlow := List.getElem?_eq_getElem (l := (keccak mark).bytes) (i := 2 * k + 1) (by omega)
    exact ⟨k, hk, _, _, hhigh, hlow, by rw [Bytes.value_pair hhigh hlow]⟩
  · rintro ⟨k, hk, high, low, hhigh, hlow, rfl⟩
    exact ⟨k, hk, by rw [Bytes.value_pair hhigh hlow]⟩

theorem contains_iff {bloom : Bloom} {mark : Bytes} :
    bloom.contains mark = true ↔ ∀ i, StandsFor i mark → bloom.getLsbD i = true := by
  have halone (i : Nat) : (insert 0 mark).getLsbD i = true ↔ StandsFor i mark := by
    simp [getLsbD_insert_iff, mem_indices_iff]
  rw [contains, beq_iff_eq]
  constructor
  · intro covered i hi
    have hbit := congrArg (·.getLsbD i) covered
    simp only [BitVec.getLsbD_and, (halone i).mpr hi, Bool.true_and] at hbit
    exact hbit
  · intro covered
    apply BitVec.eq_of_getLsbD_eq
    intro i _
    rw [BitVec.getLsbD_and]
    cases hbit : (insert 0 mark).getLsbD i with
    | false => rfl
    | true => exact covered i ((halone i).mp hbit)

theorem getLsbD_ofLogs_iff_standsFor (logs : List Log) (i : Nat) :
    (ofLogs logs).getLsbD i = true ↔
      ∃ log ∈ logs, StandsFor i log.address.bytes ∨
        ∃ topic ∈ log.topics, StandsFor i topic.bytes := by
  simp only [getLsbD_ofLogs_iff, mem_indices_iff, List.mem_flatMap, Log.marks, List.mem_cons,
    List.mem_map]
  constructor
  · rintro ⟨_, ⟨log, hlog, rfl | ⟨topic, htopic, rfl⟩⟩, hi⟩
    · exact ⟨log, hlog, .inl hi⟩
    · exact ⟨log, hlog, .inr ⟨topic, htopic, hi⟩⟩
  · rintro ⟨log, hlog, hi | ⟨topic, htopic, hi⟩⟩
    · exact ⟨_, ⟨log, hlog, .inl rfl⟩, hi⟩
    · exact ⟨_, ⟨log, hlog, .inr ⟨topic, htopic, rfl⟩⟩, hi⟩

-- Both lists have the same addresses and the same topics: the order of the logs and of their
-- topics, how often each occurs and the data do not count, nor does the log a topic stands in.
structure Alike (logs others : List Log) : Prop where
  addresses : ∀ address : Address,
    (∃ log ∈ logs, log.address = address) ↔ ∃ log ∈ others, log.address = address
  topics : ∀ topic : Hash,
    (∃ log ∈ logs, topic ∈ log.topics) ↔ ∃ log ∈ others, topic ∈ log.topics

theorem getLsbD_ofLogs_iff_listed (logs : List Log) (i : Nat) :
    (ofLogs logs).getLsbD i = true ↔
      (∃ address : Address, (∃ log ∈ logs, log.address = address) ∧ StandsFor i address.bytes) ∨
        ∃ topic : Hash, (∃ log ∈ logs, topic ∈ log.topics) ∧ StandsFor i topic.bytes := by
  rw [getLsbD_ofLogs_iff_standsFor]
  constructor
  · rintro ⟨log, hlog, hi | ⟨topic, htopic, hi⟩⟩
    · exact .inl ⟨log.address, ⟨log, hlog, rfl⟩, hi⟩
    · exact .inr ⟨topic, ⟨log, hlog, htopic⟩, hi⟩
  · rintro (⟨_, ⟨log, hlog, rfl⟩, hi⟩ | ⟨topic, ⟨log, hlog, htopic⟩, hi⟩)
    · exact ⟨log, hlog, .inl hi⟩
    · exact ⟨log, hlog, .inr ⟨topic, htopic, hi⟩⟩

theorem Alike.ofLogs_eq {logs others : List Log} (alike : Alike logs others) :
    ofLogs logs = ofLogs others := by
  apply eq_of_getLsbD_iff
  intro i
  simp only [getLsbD_ofLogs_iff_listed, alike.addresses, alike.topics]

theorem ofLogs_misses_and_adds_nothing (logs : List Log) :
    (∀ i, (ofLogs logs).getLsbD i = true ↔
      ∃ log ∈ logs, StandsFor i log.address.bytes ∨
        ∃ topic ∈ log.topics, StandsFor i topic.bytes) ∧
    (∀ i < 2048, ∃ octet : UInt8, (ofLogs logs).bytes[255 - i / 8]? = some octet ∧
      octet.toNat.testBit (i % 8) = (ofLogs logs).getLsbD i) ∧
    (∀ others, ofLogs (logs ++ others) = ofLogs logs ||| ofLogs others) ∧
    (∀ others, Alike logs others → ofLogs logs = ofLogs others) ∧
    (∀ mark, (ofLogs logs).contains mark = true ↔
      ∀ i, StandsFor i mark → (ofLogs logs).getLsbD i = true) ∧
    (∀ log ∈ logs, (ofLogs logs).contains log.address.bytes = true ∧
      ∀ topic ∈ log.topics, (ofLogs logs).contains topic.bytes = true) ∧
    (logs ≠ [] → ofLogs logs ≠ 0) := by
  have hbits := getLsbD_ofLogs_iff_standsFor logs
  refine ⟨hbits, fun _ => exists_octet _, ofLogs_append logs, fun _ => Alike.ofLogs_eq,
    fun _ => contains_iff, fun log hlog => ⟨?_, fun topic htopic => ?_⟩, ofLogs_ne_zero⟩
  · exact contains_iff.mpr fun i hi => (hbits i).mpr ⟨log, hlog, .inl hi⟩
  · exact contains_iff.mpr fun i hi => (hbits i).mpr ⟨log, hlog, .inr ⟨topic, htopic, hi⟩⟩

namespace Trial

def ready : Log :=
  ⟨.ofNat 20 1, [.ofNat 32 2, .ofNat 32 3], []⟩

def moved : Log :=
  ⟨.ofNat 20 9, [.ofNat 32 2], [7]⟩

def turned : Log :=
  ⟨.ofNat 20 1, [.ofNat 32 3, .ofNat 32 2, .ofNat 32 3], [8]⟩

theorem turned_alike : Alike [ready, moved] [moved, turned, moved] := by
  constructor
  case addresses =>
    intro address
    simp only [ready, moved, turned, List.mem_cons, List.not_mem_nil, or_false,
      exists_eq_or_imp, exists_eq_left]
    grind
  case topics =>
    intro topic
    simp only [ready, moved, turned, List.mem_cons, List.not_mem_nil, or_false,
      exists_eq_or_imp, exists_eq_left]
    grind

theorem moved_found_in_any_order : Alike [ready, moved] [moved, turned, moved] ∧
    ofLogs [ready, moved] = ofLogs [moved, turned, moved] ∧
    moved ∈ [ready, moved] ∧ Octets.ofNat 32 2 ∈ moved.topics ∧
    (ofLogs [ready, moved]).contains moved.address.bytes = true ∧
    (ofLogs [ready, moved]).contains (Octets.ofNat 32 2).bytes = true ∧
    [ready, moved] ≠ [] ∧ ofLogs [ready, moved] ≠ 0 ∧
    StandsFor 1680 moved.address.bytes ∧ 1680 < 2048 ∧
    ∃ octet : UInt8, (ofLogs [ready, moved]).bytes[45]? = some octet ∧
      octet.toNat.testBit 0 = true := by
  obtain ⟨bits, octets, -, alike, -, marks, nonzero⟩ :=
    ofLogs_misses_and_adds_nothing [ready, moved]
  have listed : moved ∈ [ready, moved] := by simp
  have topic : Octets.ofNat 32 2 ∈ moved.topics := by simp [moved]
  have stands : StandsFor 1680 moved.address.bytes :=
    ⟨0, by decide, 230, 144, by decide +kernel, by decide +kernel, by decide⟩
  obtain ⟨octet, hoctet, hbit⟩ := octets 1680 (by decide)
  rw [(bits 1680).mpr ⟨moved, listed, .inl stands⟩] at hbit
  exact ⟨turned_alike, alike _ turned_alike, listed, topic, (marks moved listed).1,
    (marks moved listed).2 _ topic, by simp, nonzero (by simp), stands, by decide, octet, hoctet,
    hbit⟩

end Trial

end Block.Bloom

end StakedChain
