import Mathlib.Data.List.Forall2
import Conformance.ClassFile.Reader

/-!
# What a reader consumes

A reader of a class file knows how many bytes a value takes before it looks at them. So there
is nothing between reading a value whole and running out of bytes: if a reader takes some bytes
and gives a value, then it gives the same value whatever follows them, and on any part of them
that is cut off at the end it fails, and only ever with the report that the input has ended
(`Reader.Consumes`).

Writing and reading are compared through this relation (the bytes of a value are consumed as
that value), and so are the runs of one reader on an input and on what was cut off from it. For
the latter a reader has to behave like this whenever it succeeds (`Reader.Steady`), which is
passed on from the parts of a reader to the whole.
-/

namespace Conformance.ClassFile

namespace Reader

variable {α β : Type}

/-- A reader takes some bytes and gives a value for them. -/
structure Consumes (r : Reader α) (taken : List UInt8) (value : α) : Prop where
  /-- What follows is left alone. -/
  whole : ∀ size rest, r size (taken ++ rest) = .ok (value, rest)
  /-- With fewer bytes the input is reported to have ended. -/
  cut : ∀ size part, part <+: taken → part.length < taken.length →
    r size part = .error (.truncated size)

/-- Whenever the reader gives a value, it is for the bytes that it took and for these alone. -/
def Steady (r : Reader α) : Prop :=
  ∀ size input value rest, r size input = .ok (value, rest) →
    ∃ taken, input = taken ++ rest ∧ r.Consumes taken value

theorem bind_apply (r : Reader α) (f : α → Reader β) (size : Nat) (input : List UInt8) :
    (r >>= f) size input = match r size input with
      | .ok (value, rest) => f value size rest
      | .error fault => .error fault := by
  change (r size input >>= fun p => f p.1 size p.2) = _
  cases r size input <;> rfl

theorem bind_eq_ok {r : Reader α} {f : α → Reader β} {size : Nat} {input rest : List UInt8}
    {b : β} (h : (r >>= f) size input = .ok (b, rest)) :
    ∃ a mid, r size input = .ok (a, mid) ∧ f a size mid = .ok (b, rest) := by
  rw [bind_apply] at h
  cases hr : r size input with
  | error fault => simp [hr] at h
  | ok found =>
    rw [hr] at h
    exact ⟨found.1, found.2, rfl, h⟩

namespace Consumes

variable {r : Reader α} {f : α → Reader β} {s t : List UInt8} {a : α} {b : β}

theorem pure (a : α) : (Pure.pure a : Reader α).Consumes [] a where
  whole _ _ := rfl
  cut _ _ _ h := absurd h (Nat.not_lt_zero _)

/-- Two readers one after the other take what both of them take. -/
theorem bind (h : r.Consumes s a) (h' : (f a).Consumes t b) : (r >>= f).Consumes (s ++ t) b where
  whole size rest := by
    rw [bind_apply, List.append_assoc, h.whole]
    exact h'.whole size rest
  cut size part hpart hlt := by
    rw [bind_apply]
    rcases Nat.lt_or_ge part.length s.length with hs | hs
    · -- the cut is within what the first reader takes
      have hfirst : part <+: s := List.prefix_of_prefix_length_le hpart (List.prefix_append s t)
        (Nat.le_of_lt hs)
      rw [h.cut size part hfirst hs]
    · -- the first reader has all that it takes
      obtain ⟨left, rfl⟩ := List.prefix_of_prefix_length_le (List.prefix_append s t) hpart hs
      rw [h.whole]
      refine h'.cut size left ((List.prefix_append_right_inj s).mp hpart) ?_
      simp only [List.length_append] at hlt
      omega

theorem map (g : α → β) (h : r.Consumes s a) :
    (r >>= fun x => Pure.pure (g x)).Consumes s (g a) := by
  have := h.bind (f := fun x => Pure.pure (g x)) (pure (g a))
  rwa [List.append_nil] at this

/-- A reader repeated takes what it takes each time. -/
theorem times {chunks : List (List UInt8)} {values : List α}
    (h : List.Forall₂ r.Consumes chunks values) :
    (Reader.times values.length r).Consumes chunks.flatten values := by
  induction h with
  | nil => exact pure []
  | cons hfirst _ ih => exact hfirst.bind (ih.map _)

end Consumes

/-! ## Numbers and bytes -/

theorem consumes_u1 (a : UInt8) : u1.Consumes [a] a where
  whole _ _ := rfl
  cut size part _ h := by
    have : part = [] := List.eq_nil_of_length_eq_zero (by simpa using h)
    rw [this]
    rfl

theorem consumes_u2_pair (a b : UInt8) : u2.Consumes [a, b] (u2OfBytes a b) where
  whole _ _ := rfl
  cut size part _ h := by
    match part, h with
    | [], _ | [_], _ => rfl
    | _ :: _ :: _, h =>
      simp only [List.length_cons, List.length_nil] at h
      omega

theorem consumes_u4_quad (a b c d : UInt8) : u4.Consumes [a, b, c, d] (u4OfBytes a b c d) where
  whole _ _ := rfl
  cut size part _ h := by
    match part, h with
    | [], _ | [_], _ | [_, _], _ | [_, _, _], _ => rfl
    | _ :: _ :: _ :: _ :: _, h =>
      simp only [List.length_cons, List.length_nil] at h
      omega

theorem splitExact_append (taken rest : List UInt8) :
    splitExact taken.length (taken ++ rest) = some (taken, rest) := by
  induction taken with
  | nil => rfl
  | cons a taken ih =>
    rw [List.length_cons, List.cons_append, splitExact, ih]
    rfl

theorem splitExact_eq_some {n : Nat} {input taken rest : List UInt8}
    (h : splitExact n input = some (taken, rest)) : input = taken ++ rest ∧ taken.length = n := by
  induction n generalizing input taken with
  | zero =>
    cases h
    exact ⟨rfl, rfl⟩
  | succ n ih =>
    cases input with
    | nil => cases h
    | cons a input =>
      rw [splitExact, Option.map_eq_some_iff] at h
      obtain ⟨⟨taken', left⟩, hsplit, heq⟩ := h
      cases heq
      obtain ⟨rfl, hlength⟩ := ih hsplit
      exact ⟨rfl, by rw [List.length_cons, hlength]⟩

theorem consumes_bytes (taken : List UInt8) : (bytes taken.length).Consumes taken taken where
  whole size rest := by rw [bytes, splitExact_append]
  cut size part _ h := by
    rw [bytes]
    cases hsplit : splitExact taken.length part with
    | none => rfl
    | some found =>
      obtain ⟨taken', rest⟩ := found
      obtain ⟨rfl, hlength⟩ := splitExact_eq_some hsplit
      rw [List.length_append] at h
      omega

theorem u2OfBytes_bytesOfU2 (n : UInt16) :
    u2OfBytes (UInt8.ofNat (n.toNat / 256)) (UInt8.ofNat n.toNat) = n := by
  rw [u2OfBytes, ← UInt16.toNat_inj]
  have := n.toNat_lt
  simp only [UInt8.toNat_ofNat', UInt16.toNat_ofNat']
  omega

theorem u4OfBytes_bytesOfU4 (n : UInt32) :
    u4OfBytes (UInt8.ofNat (n.toNat / 0x1000000)) (UInt8.ofNat (n.toNat / 0x10000))
      (UInt8.ofNat (n.toNat / 256)) (UInt8.ofNat n.toNat) = n := by
  rw [u4OfBytes, ← UInt32.toNat_inj]
  have := n.toNat_lt
  simp only [UInt8.toNat_ofNat', UInt32.toNat_ofNat']
  omega

/-- Two bytes that were written for a number are read as the number. -/
theorem consumes_u2 (n : UInt16) : u2.Consumes (bytesOfU2 n) n := by
  have := consumes_u2_pair (UInt8.ofNat (n.toNat / 256)) (UInt8.ofNat n.toNat)
  rwa [u2OfBytes_bytesOfU2] at this

/-- Four bytes that were written for a number are read as the number. -/
theorem consumes_u4 (n : UInt32) : u4.Consumes (bytesOfU4 n) n := by
  have := consumes_u4_quad (UInt8.ofNat (n.toNat / 0x1000000)) (UInt8.ofNat (n.toNat / 0x10000))
    (UInt8.ofNat (n.toNat / 256)) (UInt8.ofNat n.toNat)
  rwa [u4OfBytes_bytesOfU4] at this

/-! ## Steady readers -/

namespace Steady

variable {r : Reader α} {f : α → Reader β}

theorem pure (a : α) : Steady (Pure.pure a : Reader α) := by
  intro size input value rest h
  cases h
  exact ⟨[], rfl, .pure a⟩

/-- A reader that gives no value. -/
theorem of_fault {fault : Nat → List UInt8 → Fault}
    (h : ∀ size input, r size input = .error (fault size input)) : Steady r := by
  intro size input value rest hok
  rw [h] at hok
  cases hok

theorem throw (fault : Fault) : Steady (MonadExcept.throw fault : Reader α) :=
  of_fault fun _ _ => rfl

theorem truncated : Steady (Reader.truncated : Reader α) := of_fault fun _ _ => rfl

theorem bind (h : Steady r) (h' : ∀ a, Steady (f a)) : Steady (r >>= f) := by
  intro size input value rest hok
  obtain ⟨a, mid, hr, hf⟩ := bind_eq_ok hok
  obtain ⟨s, rfl, hs⟩ := h size input a mid hr
  obtain ⟨t, rfl, ht⟩ := h' a size mid value rest hf
  exact ⟨s ++ t, (List.append_assoc ..).symm, hs.bind ht⟩

theorem map (g : α → β) (h : Steady r) : Steady (r >>= fun x => Pure.pure (g x)) :=
  h.bind fun a => pure (g a)

theorem u1 : Steady Reader.u1 := by
  intro size input value rest h
  cases input with
  | nil => cases h
  | cons a input =>
    cases h
    exact ⟨[value], rfl, consumes_u1 value⟩

theorem u2 : Steady Reader.u2 := by
  intro size input value rest h
  match input, h with
  | [], h | [_], h => cases h
  | a :: b :: input, h =>
    cases h
    exact ⟨[a, b], rfl, consumes_u2_pair a b⟩

theorem u4 : Steady Reader.u4 := by
  intro size input value rest h
  match input, h with
  | [], h | [_], h | [_, _], h | [_, _, _], h => cases h
  | a :: b :: c :: d :: input, h =>
    cases h
    exact ⟨[a, b, c, d], rfl, consumes_u4_quad a b c d⟩

theorem bytes (count : Nat) : Steady (Reader.bytes count) := by
  intro size input value rest h
  rw [Reader.bytes] at h
  cases hsplit : splitExact count input with
  | none =>
    rw [hsplit] at h
    cases h
  | some found =>
    rw [hsplit] at h
    cases h
    obtain ⟨rfl, rfl⟩ := splitExact_eq_some hsplit
    exact ⟨_, rfl, consumes_bytes _⟩

theorem times (count : Nat) (h : Steady r) : Steady (Reader.times count r) := by
  induction count with
  | zero => exact pure []
  | succ count ih => exact h.bind fun first => ih.map _

end Steady

end Reader

end Conformance.ClassFile
