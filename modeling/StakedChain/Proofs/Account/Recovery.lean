import StakedChain.Account.PrivateKey
import StakedChain.Proofs.Curve.Lifting

namespace StakedChain

open Curve

attribute [local instance (2000)] Zero.ofOfNat0

theorem Curve.Point.Represents.account_eq {p q : Point} {P : Element} (ne : P ≠ 0)
    (rep : p.Represents P) (rep' : q.Represents P) : p.account = q.account := by
  simp only [Point.account, Point.bytes, rep.affine_eq ne rep']

theorem Curve.Scalar.toNat_word (k : Scalar) : (BitVec.ofNat 256 k.val).toNat = k.val := by
  rw [BitVec.toNat_ofNat]
  exact Nat.mod_eq_of_lt (Nat.lt_trans k.isLt (by decide))

namespace Signature

variable {d k z : Scalar} {sig : Signature}

-- `t` is the lower of the two solutions, and `flip` tells that it is not the one computed.
structure Made (d k z r t : Scalar) (flip : Bool) (sig : Signature) : Prop where
  abscissa : r = Fin.ofNat groupOrder (Point.base.times k).affine.1.val
  r_ne_zero : r ≠ 0
  t_pos : 0 < t.val
  t_low : t.val ≤ groupOrder / 2
  equation : (if flip then -t else t) = inverse k * (z + r * d)
  eq : sig = ⟨BitVec.ofNat 256 r.val, BitVec.ofNat 256 t.val,
    ((Point.base.times k).affine.2.val % 2 == 1) != flip⟩

theorem made_of_make? (h : make? d k z = some sig) : ∃ r t flip, Made d k z r t flip sig := by
  simp only [make?] at h
  generalize hr : Fin.ofNat groupOrder (Point.base.times k).affine.1.val = r at h
  generalize hs : inverse k * (z + r * d) = s at h
  split at h
  case isTrue => cases h
  case isFalse hne =>
    obtain ⟨hr0, hs0⟩ := not_or.mp hne
    have hpos : 0 < s.val := Nat.pos_of_ne_zero fun h0 => hs0 (Fin.ext h0)
    split at h
    case isTrue hhigh =>
      have hneg := val_neg_of_ne_zero hs0
      have hlt := s.isLt
      have hodd : groupOrder = groupOrder / 2 + groupOrder / 2 + 1 := by decide
      refine ⟨r, -s, true, hr.symm, hr0, by omega, by omega, ?_, ?_⟩
      · rw [if_pos rfl, ← reduce_inj, reduce_neg, reduce_neg, neg_neg, ← hs]
      · rw [Bool.bne_true]
        exact (Option.some.inj h).symm
    case isFalse hlow =>
      refine ⟨r, s, false, hr.symm, hr0, hpos, Nat.le_of_not_lt hlow, hs.symm, ?_⟩
      rw [Bool.bne_false]
      exact (Option.some.inj h).symm

variable {r t : Scalar} {flip : Bool}

theorem Made.toNat_r (h : Made d k z r t flip sig) : sig.r.toNat = r.val := by
  rw [h.eq]
  exact r.toNat_word

theorem Made.toNat_s (h : Made d k z r t flip sig) : sig.s.toNat = t.val := by
  rw [h.eq]
  exact t.toNat_word

theorem Made.canonical (h : Made d k z r t flip sig) : sig.Canonical := by
  rw [Canonical, h.toNat_r, h.toNat_s]
  exact ⟨Nat.pos_of_ne_zero fun h0 => h.r_ne_zero (Fin.ext h0), r.isLt, h.t_pos, h.t_low⟩

theorem Made.lift (h : Made d k z r t flip sig) (hk : k ≠ 0)
    (below : (Point.base.times k).affine.1.val < groupOrder) :
    ∃ point, Point.lift? (Fin.ofNat fieldOrder sig.r.toNat) sig.odd = some point ∧
      point.Represents (multiple (if flip then -reduce k else reduce k)) := by
  have rep := Point.represents_times_base k
  have ne := multiple_reduce_ne_zero hk
  have hx : Fin.ofNat fieldOrder sig.r.toNat = (Point.base.times k).affine.1 := by
    have hval : r.val = (Point.base.times k).affine.1.val := by
      rw [h.abscissa, Fin.val_ofNat, Nat.mod_eq_of_lt below]
    rw [h.toNat_r, hval, Fin.ofNat_val_eq_self]
  have hodd : sig.odd = (((Point.base.times k).affine.2.val % 2 == 1) != flip) := by
    rw [h.eq]
  obtain ⟨atAffine, atOpposite⟩ := rep.at_affine ne
  rw [hx, Point.lift?_eq (rep.affine_on_curve ne), hodd]
  refine ⟨_, rfl, ?_⟩
  cases flip with
  | false => simpa using atAffine
  | true => simpa using atOpposite

theorem Made.sum (h : Made d k z r t flip sig) (hk : k ≠ 0) :
    reduce (-(z * inverse r)) + reduce (t * inverse r) * (if flip then -reduce k else reduce k) =
      reduce d := by
  have hr : reduce r ≠ 0 := mt reduce_eq_zero_iff.mp h.r_ne_zero
  have hk' : reduce k ≠ 0 := mt reduce_eq_zero_iff.mp hk
  have range : 2 < groupOrder := by decide
  have hsigned : reduce t * (if flip then -reduce k else reduce k) =
      reduce z + reduce r * reduce d := by
    have hequation := congrArg (fun s => reduce s * reduce k) h.equation
    simp only [reduce_mul, reduce_add, reduce_inverse range] at hequation
    rw [mul_right_comm, inv_mul_cancel₀ hk', one_mul] at hequation
    rw [← hequation]
    cases flip <;> simp
  simp only [reduce_neg, reduce_mul, reduce_inverse range]
  rw [mul_right_comm, hsigned]
  field_simp
  ring

theorem publicKey?_of_make? (hk : k ≠ 0) (hd : d ≠ 0)
    (below : (Point.base.times k).affine.1.val < groupOrder) (h : make? d k z = some sig) :
    ∃ key, sig.publicKey? z = some key ∧ key.Represents (multiple (reduce d)) := by
  obtain ⟨r, t, flip, made⟩ := made_of_make? h
  obtain ⟨point, lifted, rep⟩ := made.lift hk below
  have ne := multiple_reduce_ne_zero hd
  have key := (Point.represents_times_base (-(z * inverse r))).add (rep.times (t * inverse r))
  rw [nsmul_multiple, ← map_add, made.sum hk] at key
  refine ⟨_, ?_, key⟩
  rw [made.toNat_r] at lifted
  simp only [publicKey?, lifted, Option.bind_eq_bind, Option.bind_some, made.toNat_r,
    made.toNat_s, Fin.ofNat_val_eq_self]
  rw [if_neg (mt key.eq_zero_iff.mp ne)]

theorem recover_of_make? (hk : k ≠ 0) (hd : d ≠ 0)
    (below : (Point.base.times k).affine.1.val < groupOrder) {digest : Hash}
    (h : make? d k (Scalar.ofHash digest) = some sig) :
    sig.Canonical ∧ sig.recover digest = .ok (Point.base.times d).account := by
  obtain ⟨r, t, flip, made⟩ := made_of_make? h
  obtain ⟨key, hkey, rep⟩ := publicKey?_of_make? hk hd below h
  have ne := multiple_reduce_ne_zero hd
  refine ⟨made.canonical, ?_⟩
  simp only [recover, if_pos made.canonical, hkey]
  rw [rep.account_eq ne (Point.represents_times_base d)]

end Signature

namespace PrivateKey

theorem sign_eq_ok_iff {key : PrivateKey} {digest : Hash} {sig : Signature} :
    key.sign digest = .ok sig ↔ ∃ k, key.ephemeral? digest = some k ∧
      Signature.make? key.secret k (Scalar.ofHash digest) = some sig := by
  -- The function is opened before it is applied: applied, it would be evaluated.
  have opened : ∀ f, f = sign → (f key digest = .ok sig ↔ (key.ephemeral? digest).bind (fun k =>
      Signature.make? key.secret k (Scalar.ofHash digest)) = some sig) := by
    intro f hf
    delta sign at hf
    subst hf
    dsimp only
    cases (key.ephemeral? digest).bind fun k =>
        Signature.make? key.secret k (Scalar.ofHash digest) with
    | some made =>
      exact ⟨fun h => congrArg some (Except.ok.inj h), fun h => congrArg _ (Option.some.inj h)⟩
    | none => exact ⟨nofun, nofun⟩
  rw [← Option.bind_eq_some_iff]
  exact opened sign rfl

theorem ephemeral?_ne_zero {key : PrivateKey} {digest : Hash} {k : Scalar}
    (h : key.ephemeral? digest = some k) : k ≠ 0 := by
  obtain ⟨n, hn, rfl⟩ := Option.map_eq_some_iff.mp h
  obtain ⟨hpos, hlt⟩ := Random.Drbg.draw?_range hn
  intro h0
  have hval := congrArg Fin.val h0
  rw [Fin.val_ofNat, Nat.mod_eq_of_lt hlt] at hval
  exact absurd hval (Nat.ne_of_gt hpos)

def Unreduced (key : PrivateKey) (digest : Hash) : Prop :=
  ∀ k, key.ephemeral? digest = some k → (Point.base.times k).affine.1.val < groupOrder

theorem recover_of_sign {key : PrivateKey} {digest : Hash} {sig : Signature}
    (signed : key.sign digest = .ok sig) (unreduced : key.Unreduced digest) :
    sig.Canonical ∧ sig.recover digest = .ok key.address := by
  obtain ⟨k, drawn, made⟩ := sign_eq_ok_iff.mp signed
  exact Signature.recover_of_make? (ephemeral?_ne_zero drawn) key.secret_ne_zero
    (unreduced k drawn) made

end PrivateKey

end StakedChain
