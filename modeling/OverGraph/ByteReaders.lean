import Mathlib.Tactic.Ring
import OverGraph.Fallible

/-!
# Readers of byte formats

A reader takes a value from the front of a list of bytes. It reads an encoding back if it gives
the value and leaves what follows, and such readers compose like the encodings do.
-/

namespace OverGraph.ByteReaders

open List Fallible Nat Prod Except

variable {ε α β : Type}

abbrev Reader (ε α : Type) := StateT (List UInt8) (Except ε) α

/-- The reader gives the value back from its bytes, whatever follows them. -/
def Reads (p : Reader ε α) (bytes : List UInt8) (a : α) : Prop := ∀ rest, p.run (bytes ++ rest) = .ok (a, rest)

/-- The reader gives the value back from its bytes if they are the last. -/
def ReadsLast (p : Reader ε α) (bytes : List UInt8) (a : α) : Prop := p.run bytes = .ok (a, [])

variable {p : Reader ε α} {a : α}

theorem Reads.pure (a : α) : Reads (pure a : Reader ε α) [] a := fun _ => rfl

variable {p : Reader ε α} {k : α → Reader ε β}

theorem Reads.bind {bytes more : List UInt8} {a : α} {b : β}
    (hp : Reads p bytes a) (hk : Reads (k a) more b) : Reads (p >>= k) (bytes ++ more) b := by
  intro rest
  have hfst := hp (more ++ rest)
  rw [append_assoc, StateT.run_bind, hfst]
  exact hk rest

section
variable {k : α → Reader ε β} {bytes more : List UInt8} {b : β} (hp : Reads p bytes a)
include hp

theorem Reads.bindLast_iff : ReadsLast (p >>= k) (bytes ++ more) b ↔ ReadsLast (k a) more b := by
  have hfst := hp more
  rw [ReadsLast, StateT.run_bind, hfst]
  rfl

theorem Reads.bindLast (hk : ReadsLast (k a) more b) : ReadsLast (p >>= k) (bytes ++ more) b :=
  hp.bindLast_iff.mpr hk

end

theorem Reads.map {bytes : List UInt8} {a : α} (h : Reads p bytes a) (f : α → β) : Reads (f <$> p) bytes (f a) := by
  intro rest
  rw [StateT.run_map, h rest]
  rfl

/-- The value read is paid for in bytes. -/
def Spends (p : Reader ε α) (size : α → ℕ) : Prop := ∀ input a rest, p.run input = .ok (a, rest) → size a + rest.length ≤ input.length

variable {size : α → ℕ}

theorem Spends.weaken {less : α → ℕ} (h : Spends p size) (hle : ∀ a, less a ≤ size a) : Spends p less := by
  intro input a rest hread
  have hspent := h input a rest hread
  have hless := hle a
  omega

theorem Spends.free (h : Spends p size) : Spends p fun _ => 0 := h.weaken fun _ => Nat.zero_le _

theorem Spends.pure (h : size a = 0) : Spends (pure a : Reader ε α) size := by
  intro input b rest hread
  obtain ⟨rfl, rfl⟩ := mk.inj (ok.inj hread)
  omega

theorem Spends.throw (e : ε) (size : α → ℕ) : Spends (throw e : Reader ε α) size := by
  intro input a rest h
  cases h

/-- What is paid for a value can be part of what is paid for the result. -/
theorem Spends.bind {fst : α → ℕ} {total : β → ℕ} (hp : Spends p fst)
    (hk : ∀ a, Spends (k a) fun b => total b - fst a) : Spends (p >>= k) total := by
  intro input b rest h
  rw [StateT.run_bind] at h
  obtain ⟨found, hread, h⟩ := bind_ok h
  have hfst := hp input found.1 found.2 hread
  have hsnd : total b - fst found.1 + rest.length ≤ found.2.length := hk found.1 found.2 b rest h
  omega

theorem Spends.map {f : α → β} {size : β → ℕ} (h : Spends p fun a => size (f a)) : Spends (f <$> p) size := by
  intro input b rest hread
  rw [StateT.run_map] at hread
  obtain ⟨found, hp, hread⟩ := map_ok hread
  obtain ⟨rfl, rfl⟩ := mk.inj hread
  exact h input found.1 found.2 hp

def Yields (p : Reader ε α) (P : α → Prop) : Prop := ∀ input a rest, p.run input = .ok (a, rest) → P a

theorem Yields.pure {P : α → Prop} (h : P a) : Yields (pure a : Reader ε α) P := by
  intro input b rest hread
  obtain ⟨rfl, -⟩ := mk.inj (ok.inj hread)
  exact h

theorem Yields.bind {P : β → Prop} (hk : ∀ a, Yields (k a) P) : Yields (p >>= k) P := by
  intro input b rest h
  rw [StateT.run_bind] at h
  obtain ⟨found, -, h⟩ := bind_ok h
  exact hk found.1 found.2 b rest h

def readExact (n : ℕ) (eof : ε) : Reader ε (List UInt8) := fun input =>
  if n ≤ input.length then .ok (input.take n, input.drop n) else .error eof

def remainingBytes : Reader ε ℕ := fun input => .ok (input.length, input)

theorem reads_readExact (bytes : List UInt8) (eof : ε) : Reads (readExact bytes.length eof) bytes bytes := by
  intro rest
  have hle : bytes.length ≤ (bytes ++ rest).length := by
    rw [length_append]
    omega
  have hread : (readExact bytes.length eof).run (bytes ++ rest) = if bytes.length ≤ (bytes ++ rest).length then
        .ok ((bytes ++ rest).take bytes.length, (bytes ++ rest).drop bytes.length) else .error eof := rfl
  rw [hread, if_pos hle, take_left, drop_left]

theorem spends_readExact (n : ℕ) (eof : ε) : Spends (readExact n eof) fun _ => n := by
  intro input a rest h
  have hread : (if n ≤ input.length then .ok (input.take n, input.drop n) else .error eof : Except ε _) = .ok (a, rest) := h
  split at hread
  · obtain ⟨-, rfl⟩ := mk.inj (ok.inj hread)
    show n + (input.drop n).length ≤ input.length
    rw [length_drop]
    omega
  · cases hread

theorem spends_remainingBytes : Spends (remainingBytes : Reader ε ℕ) fun _ => 0 := by
  intro input a rest h
  obtain ⟨-, rfl⟩ := mk.inj (ok.inj h)
  exact (Nat.zero_add _).le

def leBytes : ℕ → ℕ → List UInt8
  | 0, _ => []
  | width + 1, n => UInt8.ofNat (n % 256) :: leBytes width (n / 256)

def fromLe : List UInt8 → ℕ
  | [] => 0
  | b :: bytes => b.toNat + 256 * fromLe bytes

@[simp] theorem length_leBytes (width n : ℕ) : (leBytes width n).length = width := by
  induction width generalizing n with
  | zero => rfl
  | succ width ih => rw [leBytes, length_cons, ih]

theorem fromLe_leBytes_mod (width n : ℕ) : fromLe (leBytes width n) = n % 256 ^ width := by
  induction width generalizing n with
  | zero => rw [leBytes, fromLe, pow_zero, mod_one]
  | succ width ih =>
    have hbyte : (UInt8.ofNat (n % 256)).toNat = n % 256 := by
      rw [UInt8.toNat_ofNat']
      exact mod_eq_of_lt (mod_lt n (by decide))
    rw [leBytes, fromLe, ih, hbyte, pow_succ, mul_comm (256 ^ width), mod_mul]

theorem fromLe_leBytes {width n : ℕ} (h : n < 256 ^ width) : fromLe (leBytes width n) = n := by rw [fromLe_leBytes_mod, mod_eq_of_lt h]

def readUnsigned (width : ℕ) (eof : ε) : Reader ε ℕ := fromLe <$> readExact width eof

/-- A number that is too large for its bytes is cut. -/
theorem reads_readUnsigned_mod (width n : ℕ) (eof : ε) : Reads (readUnsigned width eof) (leBytes width n) (n % 256 ^ width) := by
  have hxt := reads_readExact (leBytes width n) eof
  rw [length_leBytes] at hxt
  have hmap := hxt.map fromLe
  rwa [fromLe_leBytes_mod] at hmap

theorem reads_readUnsigned {width n : ℕ} (h : n < 256 ^ width) (eof : ε) : Reads (readUnsigned width eof) (leBytes width n) n := by
  have hmod := reads_readUnsigned_mod width n eof
  rwa [mod_eq_of_lt h] at hmod

theorem spends_readUnsigned (width : ℕ) (eof : ε) : Spends (readUnsigned width eof) fun _ => width :=
  Spends.map (spends_readExact width eof)

/-- The unsigned value of a signed 64-bit number. -/
def signedBits (i : ℤ) : ℕ := (i % 2 ^ 64).toNat

def ofSignedBits (n : ℕ) : ℤ := if n < 2 ^ 63 then n else (n : ℤ) - 2 ^ 64

theorem signedBits_lt (i : ℤ) : signedBits i < 256 ^ 8 := by
  rw [signedBits]
  omega

theorem ofSignedBits_signedBits {i : ℤ} (hlo : -2 ^ 63 ≤ i) (hup : i < 2 ^ 63) : ofSignedBits (signedBits i) = i := by
  rw [ofSignedBits, signedBits]
  split <;> omega

def readMany (p : Reader ε α) : ℕ → Reader ε (List α)
  | 0 => pure []
  | n + 1 => do
    let a ← p
    let rest ← readMany p n
    pure (a :: rest)

theorem reads_readMany {encode : α → List UInt8} {vs : List α}
    (h : ∀ a ∈ vs, Reads p (encode a) a) : Reads (readMany p vs.length) (vs.flatMap encode) vs := by
  induction vs with
  | nil => exact Reads.pure []
  | cons a vs ih =>
    have hfst := h a mem_cons_self
    have hrest := ih fun other hoth => h other (mem_cons_of_mem _ hoth)
    have hpure : Reads (pure (a :: vs) : Reader ε (List α)) [] (a :: vs) := Reads.pure _
    have hall := hfst.bind (k := fun a => do
      let rest ← readMany p vs.length
      pure (a :: rest)) (hrest.bind (k := fun rest => pure (a :: rest)) hpure)
    rw [append_nil] at hall
    exact hall

theorem yields_readMany (p : Reader ε α) (n : ℕ) : Yields (readMany p n) fun vs => vs.length = n := by
  induction n with
  | zero => exact Yields.pure rfl
  | succ n ih =>
    intro input vs rest h
    rw [readMany, StateT.run_bind] at h
    obtain ⟨fst, -, h⟩ := bind_ok h
    rw [StateT.run_bind] at h
    obtain ⟨others, hothers, h⟩ := bind_ok h
    obtain ⟨rfl, -⟩ := mk.inj (ok.inj h)
    rw [length_cons, ih _ _ _ hothers]

theorem spends_readMany {size : ℕ} (h : Spends p fun _ => size) (n : ℕ) : Spends (readMany p n) fun vs => size * vs.length := by
  induction n with
  | zero => exact Spends.pure (mul_zero size)
  | succ n ih =>
    refine h.bind fun a => ?_
    refine Spends.bind ih fun vs => ?_
    refine Spends.pure ?_
    rw [length_cons, mul_succ]
    omega

end OverGraph.ByteReaders
