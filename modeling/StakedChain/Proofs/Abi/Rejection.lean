import StakedChain.Proofs.Abi.Conformance

namespace StakedChain.Abi

-- What a reading can complain of. Every word is a number, so a number is never malformed.
inductive DecodeError.Arises : DecodeError → Prop where
  | endOfBuffer (place : Nat) : Arises (.endOfBuffer place)
  | invalidOffset (place : Nat) : Arises (.invalidOffset place)
  | invalidLength (place : Nat) : Arises (.invalidLength place)
  | bool (place : Nat) : Arises (.malformed .bool place)
  | address (place : Nat) : Arises (.malformed .address place)

variable {data : Bytes} {place : Nat} {e : DecodeError}

namespace Reading

theorem word_eq_error (h : word data place = .error e) : e = .endOfBuffer place := by
  unfold word at h
  split at h
  · split at h <;> cases h
    rfl
  · cases h
    rfl

theorem arises_of_word (h : word data place = .error e) : e.Arises := by
  rw [word_eq_error h]
  exact .endOfBuffer place

theorem arises_of_atom {a : Atom} (h : atom a data place = .error e) : e.Arises := by
  unfold atom at h
  split at h
  · split at h
    · cases h
    · rename_i refused
      cases h
      cases a with
      | address => exact .address place
      | uint => cases refused
      | bool => exact .bool place
  · rename_i failed
    cases h
    exact arises_of_word failed

theorem arises_of_number {invalid : Nat → DecodeError} (arises : (invalid place).Arises)
    (h : number data place invalid = .error e) : e.Arises := by
  unfold number at h
  split at h
  · split at h <;> cases h
    exact arises
  · rename_i failed
    cases h
    exact arises_of_word failed

theorem arises_of_items {a : Atom} {n : Nat} (h : items a data n place = .error e) :
    e.Arises := by
  induction n generalizing place with
  | zero => cases h
  | succ n ih =>
    unfold items at h
    split at h
    · exact ih (map_eq_error_iff.mp h)
    · rename_i failed
      cases h
      exact arises_of_atom failed

theorem arises_of_array {a : Atom} (h : array a data place = .error e) : e.Arises := by
  unfold array at h
  split at h
  · split at h
    · exact arises_of_items h
    · cases h
      exact .invalidLength place
  · rename_i failed
    cases h
    exact arises_of_number (.invalidLength place) failed

theorem arises_of_destination {start : Nat} (h : destination data start place = .error e) :
    e.Arises := by
  unfold destination at h
  split at h
  · split at h <;> cases h
    exact .invalidOffset place
  · rename_i failed
    cases h
    exact arises_of_number (.invalidOffset place) failed

mutual

theorem arises_of_value : ∀ {t : Ty} {place : Nat}, value data t place = .error e → e.Arises
  | .atom _, _, h => by
    rw [value, map_eq_error_iff] at h
    exact arises_of_atom h
  | .array _, _, h => by
    rw [value, map_eq_error_iff] at h
    exact arises_of_array h
  | .tuple _, _, h => by
    rw [value, map_eq_error_iff] at h
    exact arises_of_sequence h

theorem arises_of_sequence : ∀ {ts : List Ty} {start place : Nat},
    sequence data ts start place = .error e → e.Arises
  | [], _, _, h => by simp [sequence] at h
  | t :: ts, start, place, h => by
    simp only [sequence] at h
    split at h
    · split at h
      · exact arises_of_sequence (map_eq_error_iff.mp h)
      · rename_i failed
        cases h
        exact arises_of_value failed
    · rename_i failed
      cases h
      cases hd : t.isDynamic with
      | true =>
        rw [hd, if_pos rfl] at failed
        exact arises_of_destination failed
      | false =>
        rw [hd] at failed
        cases failed

end

end Reading

theorem empty_or_arises_of_decode {schema : List Ty} (h : decode schema data = .error e) :
    e = .empty ∨ e.Arises := by
  unfold decode at h
  split at h
  · cases h
    exact .inl rfl
  · exact .inr (Reading.arises_of_sequence h)

end StakedChain.Abi
