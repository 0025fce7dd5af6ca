import Mathlib.Data.List.Basic
import Mathlib.Tactic

namespace HyruleProxy
set_option autoImplicit true

/-- A writer and a reader of values of one kind at the front of a byte string. What the reader
takes is exactly what the writer writes for a value in `range`. -/
structure PrefixCode (α : Type) where
  range : α → Prop
  write : α → List UInt8
  read : List UInt8 → Option (α × List UInt8)
  read_write : ∀ a rest, range a → read (write a ++ rest) = some (a, rest)
  write_read : ∀ s a rest, read s = some (a, rest) → range a ∧ s = write a ++ rest

namespace PrefixCode

section Words

/-- The `n` bytes of a number, the most significant one first. -/
def writeWord : Nat → Nat → List UInt8
  | 0, _ => []
  | n + 1, k => UInt8.ofNat (k / 256 ^ n) :: writeWord n (k % 256 ^ n)

def readWord : Nat → List UInt8 → Option (Nat × List UInt8)
  | 0, s => some (0, s)
  | _ + 1, [] => none
  | n + 1, b :: s => (readWord n s).map fun r => (b.toNat * 256 ^ n + r.1, r.2)

theorem readWord_writeWord (n k : Nat) (rest : List UInt8) (h : k < 256 ^ n) :
    readWord n (writeWord n k ++ rest) = some (k, rest) := by
  induction n generalizing k with
  | zero =>
    rw [Nat.pow_zero, Nat.lt_one_iff] at h
    subst h
    rfl
  | succ n ih =>
    have hpos : 0 < 256 ^ n := Nat.pow_pos (by decide)
    have hdiv : k / 256 ^ n < 256 := by
      rw [Nat.div_lt_iff_lt_mul hpos, Nat.mul_comm, ← Nat.pow_succ]
      exact h
    rw [writeWord, List.cons_append, readWord, ih _ (Nat.mod_lt _ hpos), Option.map_some,
      UInt8.toNat_ofNat', Nat.mod_eq_of_lt hdiv, Nat.div_add_mod']

theorem writeWord_readWord {n k : Nat} {s rest : List UInt8}
    (h : readWord n s = some (k, rest)) :
    k < 256 ^ n ∧ s = writeWord n k ++ rest := by
  induction n generalizing k s rest with
  | zero =>
    cases h
    exact ⟨Nat.one_pos, rfl⟩
  | succ n ih =>
    cases s with
    | nil => cases h
    | cons b s =>
      obtain ⟨⟨j, tail⟩, hj, he⟩ := Option.map_eq_some_iff.1 h
      obtain ⟨hlt, hs⟩ := ih hj
      cases he
      have hb := b.toNat_lt
      have hpos : 0 < 256 ^ n := Nat.pow_pos (by decide)
      constructor
      · calc b.toNat * 256 ^ n + j < b.toNat * 256 ^ n + 256 ^ n := by omega
          _ = (b.toNat + 1) * 256 ^ n := (Nat.succ_mul _ _).symm
          _ ≤ 256 * 256 ^ n := Nat.mul_le_mul_right _ hb
          _ = 256 ^ (n + 1) := by rw [Nat.pow_succ, Nat.mul_comm]
      · have hdiv : (b.toNat * 256 ^ n + j) / 256 ^ n = b.toNat := by
          rw [Nat.add_comm, Nat.add_mul_div_right _ _ hpos, Nat.div_eq_of_lt hlt, Nat.zero_add]
        have hmod : (b.toNat * 256 ^ n + j) % 256 ^ n = j := by
          rw [Nat.add_comm, Nat.add_mul_mod_self_right, Nat.mod_eq_of_lt hlt]
        rw [writeWord, hdiv, hmod, hs, UInt8.ofNat_toNat]
        rfl

/-- A number in `n` bytes, big-endian. -/
def word (n : Nat) : PrefixCode Nat where
  range k := k < 256 ^ n
  write := writeWord n
  read := readWord n
  read_write k rest h := readWord_writeWord n k rest h
  write_read _ _ _ h := writeWord_readWord h

end Words

section Bytes

/-- A byte string whose length is known. -/
def fixed (n : Nat) : PrefixCode (List UInt8) where
  range s := s.length = n
  write s := s
  read s := if n ≤ s.length then some (s.take n, s.drop n) else none
  read_write a rest h := by
    rw [if_pos (by rw [List.length_append]; omega), List.take_left' h, List.drop_left' h]
  write_read s a rest h := by
    split at h
    · rename_i hn
      cases h
      exact ⟨List.length_take_of_le hn, (List.take_append_drop n s).symm⟩
    · cases h

/-- A byte string after its length, a word of `n` bytes. -/
def sized (n : Nat) : PrefixCode (List UInt8) where
  range s := s.length < 256 ^ n
  write s := writeWord n s.length ++ s
  read s := (readWord n s).bind fun r => (fixed r.1).read r.2
  read_write a rest h := by
    rw [List.append_assoc, readWord_writeWord n _ _ h, Option.bind_some]
    exact (fixed a.length).read_write a rest rfl
  write_read s a rest h := by
    obtain ⟨⟨k, tail⟩, hk, hr⟩ := Option.bind_eq_some_iff.1 h
    obtain ⟨hlt, hs⟩ := writeWord_readWord hk
    obtain ⟨hlen, ht⟩ := (fixed k).write_read tail a rest hr
    cases hlen
    refine ⟨hlt, ?_⟩
    rw [hs, ht, List.append_assoc]
    rfl

end Bytes

section Combine

/-- A value and then another. -/
def pair (c : PrefixCode α) (d : PrefixCode β) : PrefixCode (α × β) where
  range p := c.range p.1 ∧ d.range p.2
  write p := c.write p.1 ++ d.write p.2
  read s := (c.read s).bind fun p => (d.read p.2).map fun q => ((p.1, q.1), q.2)
  read_write p rest h := by
    rw [List.append_assoc, c.read_write _ _ h.1, Option.bind_some, d.read_write _ _ h.2]
    rfl
  write_read s p rest h := by
    obtain ⟨⟨a, tail⟩, ha, hq⟩ := Option.bind_eq_some_iff.1 h
    obtain ⟨⟨b, rest'⟩, hb, he⟩ := Option.map_eq_some_iff.1 hq
    cases he
    obtain ⟨hra, hs⟩ := c.write_read s a tail ha
    obtain ⟨hrb, ht⟩ := d.write_read tail b rest' hb
    refine ⟨⟨hra, hrb⟩, ?_⟩
    rw [hs, ht, List.append_assoc]

/-- A code for another type: `g` says how to write its values as those of `c`. -/
def along (c : PrefixCode α) (f : α → β) (g : β → α) (hfg : ∀ b, f (g b) = b)
    (hgf : ∀ a, c.range a → g (f a) = a) : PrefixCode β where
  range b := c.range (g b)
  write b := c.write (g b)
  read s := (c.read s).map fun r => (f r.1, r.2)
  read_write b rest h := by
    rw [c.read_write _ _ h, Option.map_some, hfg]
  write_read s b rest h := by
    obtain ⟨⟨a, rest'⟩, ha, he⟩ := Option.map_eq_some_iff.1 h
    cases he
    obtain ⟨hr, hs⟩ := c.write_read s a rest' ha
    rw [hgf a hr]
    exact ⟨hr, hs⟩

/-- A `uint32`. -/
def uint32 : PrefixCode UInt32 :=
  (word 4).along UInt32.ofNat UInt32.toNat (fun _ => UInt32.ofNat_toNat)
    fun _ h => UInt32.toNat_ofNat_of_lt' h

theorem range_uint32 (x : UInt32) : uint32.range x := x.toNat_lt

end Combine

section Whole

/-- The value that the whole string stands for. -/
def decode (c : PrefixCode α) (s : List UInt8) : Option α :=
  match c.read s with
  | some (a, []) => some a
  | _ => none

theorem decode_eq_some {c : PrefixCode α} {s : List UInt8} {a : α} :
    c.decode s = some a ↔ c.range a ∧ s = c.write a := by
  constructor
  · intro h
    rw [decode] at h
    split at h
    · rename_i b hr
      cases h
      simpa using c.write_read s a [] hr
    · cases h
  · rintro ⟨hr, rfl⟩
    have hw := c.read_write a [] hr
    rw [List.append_nil] at hw
    rw [decode, hw]

end Whole

end PrefixCode

end HyruleProxy
