import StakedChain.Abi.Method

namespace StakedChain

-- What has been read when the reading is at `i` is the front of the data.
theorem toList_loop_of_read {bs : ByteArray} (n i : Nat) (h : i + n = bs.size) :
    ByteArray.toList.loop bs i (bs.data.toList.take i).reverse = bs.data.toList := by
  have hsize : bs.data.toList.length = bs.size := rfl
  induction n generalizing i with
  | zero =>
    rw [ByteArray.toList.loop, if_neg (by omega), List.reverse_reverse,
      List.take_of_length_le (by omega)]
  | succ n ih =>
    have hi : i < bs.data.toList.length := by omega
    have hread : bs.get! i = bs.data.toList[i] := getElem!_pos bs.data i hi
    rw [ByteArray.toList.loop, if_pos (by omega), hread, ← List.reverse_concat,
      List.take_append_getElem hi, ih (i + 1) (by omega)]

theorem eq_of_toUTF8 {s t : String} (h : s.toUTF8.toList = t.toUTF8.toList) : s = t := by
  have hs : s.toUTF8.toList = s.toUTF8.data.toList := toList_loop_of_read _ 0 (Nat.zero_add _)
  have ht : t.toUTF8.toList = t.toUTF8.data.toList := toList_loop_of_read _ 0 (Nat.zero_add _)
  rw [hs, ht, Array.toList_inj] at h
  exact String.toByteArray_inj.mp (ByteArray.ext h)

namespace Abi

structure Balanced (cs : List Char) : Prop where
  nested : ∀ p, p <+: cs → p.count ')' ≤ p.count '('
  paired : cs.count '(' = cs.count ')'

namespace Balanced

variable {as bs : List Char}

theorem of_free (ho : '(' ∉ as) (hc : ')' ∉ as) : Balanced as where
  nested p hp := by
    rw [List.count_eq_zero_of_not_mem fun h => hc (hp.subset h)]
    exact Nat.zero_le _
  paired := by
    rw [List.count_eq_zero_of_not_mem ho, List.count_eq_zero_of_not_mem hc]

theorem append (ha : Balanced as) (hb : Balanced bs) : Balanced (as ++ bs) where
  nested p hp := by
    rcases List.prefix_or_prefix_of_prefix hp (List.prefix_append as bs) with h | ⟨q, rfl⟩
    · exact ha.nested p h
    · have := hb.nested q ((List.prefix_append_right_inj as).mp hp)
      have := ha.paired
      rw [List.count_append, List.count_append]
      omega
  paired := by
    rw [List.count_append, List.count_append, ha.paired, hb.paired]

theorem wrap (ha : Balanced as) : Balanced ('(' :: (as ++ [')'])) where
  nested p hp := by
    cases p with
    | nil => exact Nat.le_refl _
    | cons c p =>
      obtain ⟨rfl, hq⟩ := List.cons_prefix_cons.mp hp
      have inner : p.count ')' ≤ p.count '(' + 1 := by
        rcases List.prefix_concat_iff.mp hq with rfl | hq
        · simp [ha.paired]
        · exact Nat.le_succ_of_le (ha.nested p hq)
      simpa using inner
  paired := by simp [ha.paired]

-- The parenthesis behind a name is the one that the last of all closes.
theorem eq_nil_of_split {cs : List Char} (ha : Balanced as) (hb : Balanced bs)
    (h : '(' :: as = cs ++ '(' :: bs) : cs = [] := by
  cases cs with
  | nil => rfl
  | cons c cs =>
    obtain ⟨-, rfl⟩ := List.cons.inj h
    have opened := ha.paired
    have := hb.paired
    have := ha.nested cs (List.prefix_append _ _)
    simp at opened
    omega

theorem split_inj {ns ms : List Char} (ha : Balanced as) (hb : Balanced bs)
    (h : ns ++ '(' :: as = ms ++ '(' :: bs) : ns = ms ∧ as = bs := by
  rcases List.append_eq_append_iff.mp h with ⟨cs, rfl, hcs⟩ | ⟨cs, rfl, hcs⟩
  · obtain rfl := eq_nil_of_split ha hb hcs
    exact ⟨(List.append_nil _).symm, (List.cons.inj hcs).2⟩
  · obtain rfl := eq_nil_of_split hb ha hcs
    exact ⟨List.append_nil _, (List.cons.inj hcs).2.symm⟩

end Balanced

namespace Ty

def following : List Ty → List Char
  | [] => []
  | t :: ts => ',' :: joined (t :: ts)

theorem joined_cons (t : Ty) (ts : List Ty) : joined (t :: ts) = chars t ++ following ts := by
  cases ts <;> simp [joined, following]

theorem balanced_text (a : Atom) : Balanced a.text.toList := by
  cases a <;> exact .of_free (by decide) (by decide)

mutual

theorem balanced_chars : ∀ t : Ty, Balanced (chars t)
  | .atom a => by
    rw [chars]
    exact balanced_text a
  | .array a => by
    rw [chars]
    exact (balanced_text a).append (.of_free (by decide) (by decide))
  | .tuple ts => by
    rw [chars]
    exact (balanced_joined ts).wrap
termination_by structural t => t

theorem balanced_joined : ∀ ts : List Ty, Balanced (joined ts)
  | [] => by
    rw [joined]
    exact .of_free List.not_mem_nil List.not_mem_nil
  | t :: ts => by
    have rest := balanced_joined ts
    rw [joined_cons]
    refine (balanced_chars t).append ?_
    cases ts with
    | nil => exact rest
    | cons u us =>
      have comma : Balanced [','] := .of_free (by decide) (by decide)
      exact comma.append rest
termination_by structural ts => ts

end

theorem text_append_inj {a b : Atom} {r s : List Char}
    (h : a.text.toList ++ r = b.text.toList ++ s) : a = b ∧ r = s := by
  cases a <;> cases b <;> simp_all [Atom.text]

theorem text_append_ne {a : Atom} {r s : List Char} {c : Char} (hc : c = '(' ∨ c = ')') :
    a.text.toList ++ r ≠ c :: s := by
  rcases hc with rfl | rfl <;> cases a <;> simp [Atom.text]

theorem chars_append_ne {t : Ty} {r s : List Char} : chars t ++ r ≠ ')' :: s := by
  cases t with
  | atom a =>
    rw [chars]
    exact text_append_ne (.inr rfl)
  | array a =>
    rw [chars, List.append_assoc]
    exact text_append_ne (.inr rfl)
  | tuple ts => simp [chars]

-- What a type may be followed by in a list of types; a bracket would go on with its name.
def Ends (r : List Char) : Prop :=
  ∀ s, r ≠ '[' :: s

theorem ends_following (ts : List Ty) (r : List Char) : Ends (following ts ++ ')' :: r) := by
  cases ts <;> simp [Ends, following]

mutual

theorem chars_append_inj : ∀ {t u : Ty} {r s : List Char}, Ends r → Ends s →
    chars t ++ r = chars u ++ s → t = u ∧ r = s
  | .atom a, .atom b, r, s, _, _, h => by
    rw [chars, chars] at h
    obtain ⟨rfl, hrs⟩ := text_append_inj h
    exact ⟨rfl, hrs⟩
  | .atom a, .array b, r, s, hr, _, h => by
    rw [chars, chars, List.append_assoc] at h
    exact absurd (text_append_inj h).2 (hr _)
  | .array a, .atom b, r, s, _, hs, h => by
    rw [chars, chars, List.append_assoc] at h
    exact absurd (text_append_inj h).2.symm (hs _)
  | .array a, .array b, r, s, _, _, h => by
    rw [chars, chars, List.append_assoc, List.append_assoc] at h
    obtain ⟨rfl, hrs⟩ := text_append_inj h
    exact ⟨rfl, List.append_cancel_left hrs⟩
  | .tuple ts, .tuple us, r, s, _, _, h => by
    simp only [chars, List.cons_append, List.append_assoc, List.nil_append, List.cons.injEq,
      true_and] at h
    obtain ⟨rfl, hrs⟩ := joined_append_inj h
    exact ⟨rfl, hrs⟩
  | .tuple _, .atom _, _, _, _, _, h => by
    rw [chars, chars] at h
    exact absurd h.symm (text_append_ne (.inl rfl))
  | .tuple _, .array _, _, _, _, _, h => by
    rw [chars, chars, List.append_assoc] at h
    exact absurd h.symm (text_append_ne (.inl rfl))
  | .atom _, .tuple _, _, _, _, _, h => by
    rw [chars, chars] at h
    exact absurd h (text_append_ne (.inl rfl))
  | .array _, .tuple _, _, _, _, _, h => by
    rw [chars, chars, List.append_assoc] at h
    exact absurd h (text_append_ne (.inl rfl))
termination_by structural t => t

theorem joined_append_inj : ∀ {ts us : List Ty} {r s : List Char},
    joined ts ++ ')' :: r = joined us ++ ')' :: s → ts = us ∧ r = s
  | [], [], _, _, h => by
    rw [joined] at h
    exact ⟨rfl, (List.cons.inj h).2⟩
  | [], u :: us, _, _, h => by
    rw [joined, joined_cons, List.append_assoc] at h
    exact absurd h.symm chars_append_ne
  | t :: ts, [], _, _, h => by
    rw [joined, joined_cons, List.append_assoc] at h
    exact absurd h chars_append_ne
  | t :: ts, u :: us, r, s, h => by
    rw [joined_cons, joined_cons, List.append_assoc, List.append_assoc] at h
    obtain ⟨rfl, hrest⟩ := chars_append_inj (ends_following ts r) (ends_following us s) h
    have rest : joined ts ++ ')' :: r = joined us ++ ')' :: s → ts = us ∧ r = s :=
      joined_append_inj
    cases ts with
    | nil =>
      cases us with
      | nil => exact ⟨rfl, (List.cons.inj hrest).2⟩
      | cons u us => simp [following] at hrest
    | cons t ts =>
      cases us with
      | nil => simp [following] at hrest
      | cons u us =>
        obtain ⟨htail, hrs⟩ := rest (List.cons.inj hrest).2
        exact ⟨by rw [htail], hrs⟩
termination_by structural ts => ts

end

theorem joined_inj {ts us : List Ty} (h : joined ts = joined us) : ts = us :=
  (joined_append_inj (r := []) (s := []) (by rw [h])).1

end Ty

theorem signature_inj {name other : String} {inputs others : List Ty} :
    signature name inputs = signature other others ↔ name = other ∧ inputs = others := by
  constructor
  · intro h
    have hchars := String.ofList_inj.mp h
    rw [← List.cons_append, ← List.cons_append, ← List.append_assoc, ← List.append_assoc] at hchars
    obtain ⟨hname, hinputs⟩ := Balanced.split_inj (Ty.balanced_joined inputs)
      (Ty.balanced_joined others) (List.append_cancel_right hchars)
    exact ⟨String.toList_inj.mp hname, Ty.joined_inj hinputs⟩
  · rintro ⟨rfl, rfl⟩
    rfl

def Collide (text other : String) : Prop :=
  text.toUTF8.toList ≠ other.toUTF8.toList ∧
    keccak text.toUTF8.toList = keccak other.toUTF8.toList

theorem signatureHash_eq_iff {name other : String} {inputs others : List Ty} :
    signatureHash name inputs = signatureHash other others ↔
      (name = other ∧ inputs = others) ∨
        Collide (signature name inputs) (signature other others) := by
  constructor
  · intro h
    by_cases hsame : name = other ∧ inputs = others
    · exact .inl hsame
    · exact .inr ⟨fun hbytes => hsame (signature_inj.mp (eq_of_toUTF8 hbytes)), h⟩
  · rintro (⟨rfl, rfl⟩ | ⟨-, h⟩)
    · rfl
    · exact h

theorem signatures_identify_declarations :
    (∀ m n : Method, m.signature = n.signature ↔ m.name = n.name ∧ m.inputs = n.inputs) ∧
    (∀ e f : Event, e.signature = f.signature ↔ e.name = f.name ∧ e.inputs = f.inputs) ∧
    (∀ (m : Method) (e : Event),
      m.signature = e.signature ↔ m.name = e.name ∧ m.inputs = e.inputs) ∧
    (∀ m n : Method, signatureHash m.name m.inputs = signatureHash n.name n.inputs ↔
      (m.name = n.name ∧ m.inputs = n.inputs) ∨ Collide m.signature n.signature) ∧
    ∀ e f : Event, e.topic = f.topic ↔ e = f ∨ Collide e.signature f.signature := by
  refine ⟨fun m n => signature_inj, fun e f => signature_inj, fun m e => signature_inj,
    fun m n => signatureHash_eq_iff, fun e f => ?_⟩
  rw [Event.topic, Event.topic, signatureHash_eq_iff, Event.mk.injEq]
  rfl

example : signature "f(" [.tuple []] = "f((())" ∧ signature "f" [.tuple [], .array .bool] =
    "f((),bool[])" := by decide +kernel

end Abi

end StakedChain
