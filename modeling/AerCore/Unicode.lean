import Mathlib.Data.Char
import Mathlib.Data.List.Basic
import Mathlib.Tactic.Common

/-!
# Strings of code units

A string of a managed language is a list of UTF-16 code units, and nothing says that its
surrogates come in pairs.  Decoding puts a replacement character in the place of a
surrogate that stands alone, so it is total, and it loses nothing exactly on the lists
that are encodings.

A NUL ends a string that is passed by its address.  One that is cut off among the code
units, among the characters or among the bytes of UTF-8 leaves the same behind.

Nothing in this module is about a particular program.

## Main definitions

* `Utf16.decode`, `Utf16.encode` — from code units to characters and back.
* `Utf16.paired` — the surrogates come in pairs.
* `Utf8.bytes` — the bytes of UTF-8.

## Main results

* `Utf16.decode_encode` — the round trip of characters.
* `Utf16.encode_decode_iff` — **the round trip of code units, exactly when they are paired**.
* `Utf16.decode_takeWhile` — a NUL cuts off the same before decoding and after it.
* `Utf8.bytes_takeWhile` — and after encoding in UTF-8.
-/

namespace Utf16

/-- The first half of a pair. -/
def isHigh (u : UInt16) : Bool := decide (0xD800 ≤ u.toNat ∧ u.toNat < 0xDC00)

/-- The second half of a pair. -/
def isLow (u : UInt16) : Bool := decide (0xDC00 ≤ u.toNat ∧ u.toNat < 0xE000)

/-- What a surrogate is decoded to that stands alone. -/
def replacement : Char := Char.ofNat 0xFFFD

/-- The character of a code unit that stands alone. -/
def single (u : UInt16) : Char :=
  if isHigh u || isLow u then replacement else Char.ofNat u.toNat

/-- The character of a pair. -/
def pair (u v : UInt16) : Char :=
  Char.ofNat (0x10000 + (u.toNat - 0xD800) * 0x400 + (v.toNat - 0xDC00))

/-- The characters of a list of code units. -/
def decode : List UInt16 → List Char
  | [] => []
  | [u] => [single u]
  | u :: v :: us =>
      if isHigh u && isLow v then pair u v :: decode us else single u :: decode (v :: us)

/-- The code units of a character. -/
def encodeChar (c : Char) : List UInt16 :=
  if c.toNat < 0x10000 then [UInt16.ofNat c.toNat]
  else [UInt16.ofNat (0xD800 + (c.toNat - 0x10000) / 0x400),
    UInt16.ofNat (0xDC00 + (c.toNat - 0x10000) % 0x400)]

/-- The code units of a list of characters. -/
def encode (cs : List Char) : List UInt16 := cs.flatMap encodeChar

/-- No surrogate stands alone. -/
def paired : List UInt16 → Bool
  | [] => true
  | [u] => !(isHigh u || isLow u)
  | u :: v :: us =>
      if isHigh u && isLow v then paired us else !(isHigh u || isLow u) && paired (v :: us)

@[simp] theorem encode_nil : encode [] = [] := rfl

@[simp] theorem encode_cons (c : Char) (cs : List Char) :
    encode (c :: cs) = encodeChar c ++ encode cs := rfl

/-! ### One character -/

theorem toNat_ofNat {n : ℕ} (h : n.isValidChar) : (Char.ofNat n).toNat = n := by
  rw [Char.ofNat, dif_pos h]
  rfl

theorem toNat_lt (c : Char) : c.toNat < 0x110000 := by
  have hvalid : c.toNat < 0xD800 ∨ 0xDFFF < c.toNat ∧ c.toNat < 0x110000 := c.valid
  omega

theorem not_surrogate (c : Char) : ¬(0xD800 ≤ c.toNat ∧ c.toNat < 0xE000) := by
  have hvalid : c.toNat < 0xD800 ∨ 0xDFFF < c.toNat ∧ c.toNat < 0x110000 := c.valid
  omega

theorem toNat_ofNat_unit {n : ℕ} (h : n < 0x10000) : (UInt16.ofNat n).toNat = n := by
  simpa using Nat.mod_eq_of_lt h

/-- A code unit that is no surrogate is a character. -/
theorem single_of_not_surrogate {u : UInt16} (h : (isHigh u || isLow u) = false) :
    (single u).toNat = u.toNat := by
  rw [single, h]
  apply toNat_ofNat
  simp only [isHigh, isLow, Bool.or_eq_false_iff, decide_eq_false_iff_not] at h
  have hlt : u.toNat < 0x10000 := u.toNat_lt
  simp only [Nat.isValidChar]
  omega

/-- A pair is a character beyond those of a single code unit. -/
theorem toNat_pair {u v : UInt16} (hu : isHigh u = true) (hv : isLow v = true) :
    (pair u v).toNat = 0x10000 + (u.toNat - 0xD800) * 0x400 + (v.toNat - 0xDC00) := by
  apply toNat_ofNat
  simp only [isHigh, isLow, decide_eq_true_eq] at hu hv
  simp only [Nat.isValidChar]
  omega

/-- A small character is one code unit, which is no surrogate. -/
theorem encodeChar_of_lt {c : Char} (h : c.toNat < 0x10000) :
    ∃ u, encodeChar c = [u] ∧ (isHigh u || isLow u) = false ∧ single u = c := by
  have hu : (UInt16.ofNat c.toNat).toNat = c.toNat := toNat_ofNat_unit h
  have hnot := not_surrogate c
  have hplain : (isHigh (UInt16.ofNat c.toNat) || isLow (UInt16.ofNat c.toNat)) = false := by
    simp only [isHigh, isLow, hu, Bool.or_eq_false_iff, decide_eq_false_iff_not]
    omega
  refine ⟨UInt16.ofNat c.toNat, if_pos h, hplain, ?_⟩
  rw [single, hplain, hu]
  exact Char.ofNat_toNat c

/-- A large one is a pair. -/
theorem encodeChar_of_le {c : Char} (h : 0x10000 ≤ c.toNat) :
    ∃ u v, encodeChar c = [u, v] ∧ isHigh u = true ∧ isLow v = true ∧ pair u v = c := by
  have hlt := toNat_lt c
  have hu := toNat_ofNat_unit (n := 0xD800 + (c.toNat - 0x10000) / 0x400) (by omega)
  have hv := toNat_ofNat_unit (n := 0xDC00 + (c.toNat - 0x10000) % 0x400) (by omega)
  refine ⟨_, _, if_neg (by omega), ?_, ?_, ?_⟩
  · simp only [isHigh, hu, decide_eq_true_eq]
    omega
  · simp only [isLow, hv, decide_eq_true_eq]
    omega
  · have hsum : 0x10000 + (0xD800 + (c.toNat - 0x10000) / 0x400 - 0xD800) * 0x400 +
        (0xDC00 + (c.toNat - 0x10000) % 0x400 - 0xDC00) = c.toNat := by omega
    rw [pair, hu, hv, hsum, Char.ofNat_toNat]

/-- The code unit of a character is found again. -/
theorem encodeChar_single {u : UInt16} (h : (isHigh u || isLow u) = false) :
    encodeChar (single u) = [u] := by
  have hlt : u.toNat < 0x10000 := u.toNat_lt
  rw [encodeChar, single_of_not_surrogate h, if_pos hlt, UInt16.ofNat_toNat]

/-- So is a pair. -/
theorem encodeChar_pair {u v : UInt16} (hu : isHigh u = true) (hv : isLow v = true) :
    encodeChar (pair u v) = [u, v] := by
  rw [encodeChar, toNat_pair hu hv, if_neg (by omega)]
  simp only [isHigh, isLow, decide_eq_true_eq] at hu hv
  have hhigh : 0xD800 + (0x10000 + (u.toNat - 0xD800) * 0x400 + (v.toNat - 0xDC00) - 0x10000) /
      0x400 = u.toNat := by omega
  have hlow : 0xDC00 + (0x10000 + (u.toNat - 0xD800) * 0x400 + (v.toNat - 0xDC00) - 0x10000) %
      0x400 = v.toNat := by omega
  rw [hhigh, hlow, UInt16.ofNat_toNat, UInt16.ofNat_toNat]

/-! ### The round trips -/

theorem decode_cons_of_not_surrogate {u : UInt16} (h : (isHigh u || isLow u) = false)
    (us : List UInt16) : decode (u :: us) = single u :: decode us := by
  have hu : isHigh u = false := (Bool.or_eq_false_iff.mp h).1
  cases us with
  | nil => rfl
  | cons v us => simp [decode, hu]

theorem decode_encodeChar_append (c : Char) (us : List UInt16) :
    decode (encodeChar c ++ us) = c :: decode us := by
  by_cases h : c.toNat < 0x10000
  · obtain ⟨u, hc, hu, hsingle⟩ := encodeChar_of_lt h
    rw [hc, List.singleton_append, decode_cons_of_not_surrogate hu, hsingle]
  · obtain ⟨u, v, hc, hu, hv, hpair⟩ := encodeChar_of_le (Nat.le_of_not_lt h)
    rw [hc]
    simp [decode, hu, hv, hpair]

/-- **Characters survive.** -/
theorem decode_encode (cs : List Char) : decode (encode cs) = cs := by
  induction cs with
  | nil => rfl
  | cons c cs ih => rw [encode_cons, decode_encodeChar_append, ih]

theorem paired_encodeChar_append (c : Char) {us : List UInt16} (h : paired us = true) :
    paired (encodeChar c ++ us) = true := by
  by_cases hc : c.toNat < 0x10000
  · obtain ⟨u, hc, hu, -⟩ := encodeChar_of_lt hc
    obtain ⟨hhigh, hlow⟩ := Bool.or_eq_false_iff.mp hu
    rw [hc, List.singleton_append]
    cases us with
    | nil => simp [paired, hu]
    | cons v us => simp [paired, hhigh, hlow, h]
  · obtain ⟨u, v, hc, hu, hv, -⟩ := encodeChar_of_le (Nat.le_of_not_lt hc)
    rw [hc]
    simp [paired, hu, hv, h]

theorem paired_encode (cs : List Char) : paired (encode cs) = true := by
  induction cs with
  | nil => rfl
  | cons c cs ih => exact paired_encodeChar_append c ih

/-- **Code units survive exactly when no surrogate stands alone.** -/
theorem encode_decode_iff (us : List UInt16) : encode (decode us) = us ↔ paired us = true := by
  constructor
  · intro h
    rw [← h]
    exact paired_encode _
  · intro h
    induction us using decode.induct with
    | case1 => rfl
    | case2 u =>
      have hu : (isHigh u || isLow u) = false := by simpa [paired] using h
      simp [decode, encodeChar_single hu]
    | case3 u v us hpair ih =>
      obtain ⟨hu, hv⟩ := Bool.and_eq_true_iff.mp hpair
      rw [paired, if_pos hpair] at h
      rw [decode, if_pos hpair, encode_cons, encodeChar_pair hu hv, ih h]
      rfl
    | case4 u v us hpair ih =>
      rw [paired, if_neg hpair, Bool.and_eq_true, Bool.not_eq_true'] at h
      rw [decode, if_neg hpair, encode_cons, encodeChar_single h.1, ih h.2]
      rfl

/-! ### The first NUL -/

theorem single_eq_nul_iff (u : UInt16) : single u = '\x00' ↔ u = 0 := by
  have hnul : ('\x00' : Char).toNat = 0 := rfl
  constructor
  · intro h
    by_cases hu : (isHigh u || isLow u) = true
    · rw [single, if_pos hu] at h
      cases h
    · have hnat := single_of_not_surrogate (Bool.eq_false_iff.mpr hu)
      rw [h, hnul] at hnat
      exact UInt16.toNat_inj.mp hnat.symm
  · rintro rfl
    rfl

theorem pair_ne_nul {u v : UInt16} (hu : isHigh u = true) (hv : isLow v = true) :
    pair u v ≠ '\x00' := by
  intro h
  have hnat := toNat_pair hu hv
  have hnul : ('\x00' : Char).toNat = 0 := rfl
  rw [h, hnul] at hnat
  omega

theorem ne_zero_of_surrogate {u : UInt16} (h : (isHigh u || isLow u) = true) : u ≠ 0 := by
  rintro rfl
  cases h

/-- Only NUL has a zero code unit. -/
theorem zero_notMem_encode {cs : List Char} (h : '\x00' ∉ cs) : 0 ∉ encode cs := by
  intro hmem
  obtain ⟨c, hc, hzero⟩ := List.mem_flatMap.mp hmem
  have hne : c ≠ '\x00' := fun hnul => h (hnul ▸ hc)
  by_cases hlt : c.toNat < 0x10000
  · obtain ⟨u, hu, -, hsingle⟩ := encodeChar_of_lt hlt
    rw [hu, List.mem_singleton] at hzero
    exact hne (hsingle ▸ (single_eq_nul_iff u).mpr hzero.symm)
  · obtain ⟨u, v, huv, hu, hv, -⟩ := encodeChar_of_le (Nat.le_of_not_lt hlt)
    have hu₀ : u ≠ 0 := ne_zero_of_surrogate (by rw [hu]; rfl)
    have hv₀ : v ≠ 0 := ne_zero_of_surrogate (by rw [hv, Bool.or_true])
    rw [huv] at hzero
    simp [hu₀.symm, hv₀.symm] at hzero

/-- **A NUL among the code units cuts off what it cuts off among the characters.** -/
theorem decode_takeWhile (us : List UInt16) :
    decode (us.takeWhile (· ≠ 0)) = (decode us).takeWhile (· ≠ '\x00') := by
  induction us using decode.induct with
  | case1 => rfl
  | case2 u =>
    by_cases hu : u = 0
    · subst hu
      rfl
    · have hsingle : single u ≠ '\x00' := (single_eq_nul_iff u).not.mpr hu
      simp [decode, hu, hsingle]
  | case3 u v us hpair ih =>
    obtain ⟨hu, hv⟩ := Bool.and_eq_true_iff.mp hpair
    have hu₀ : u ≠ 0 := ne_zero_of_surrogate (by rw [hu]; rfl)
    have hv₀ : v ≠ 0 := ne_zero_of_surrogate (by rw [hv, Bool.or_true])
    have hne := pair_ne_nul hu hv
    rw [List.takeWhile_cons_of_pos (by simpa using hu₀),
      List.takeWhile_cons_of_pos (by simpa using hv₀), decode, if_pos hpair, decode, if_pos hpair,
      List.takeWhile_cons_of_pos (by simpa using hne), ih]
  | case4 u v us hpair ih =>
    rw [decode, if_neg hpair]
    by_cases hu : u = 0
    · subst hu
      rfl
    · have hsingle : single u ≠ '\x00' := (single_eq_nul_iff u).not.mpr hu
      rw [List.takeWhile_cons_of_pos (a := u) (by simpa using hu),
        List.takeWhile_cons_of_pos (a := single u) (by simpa using hsingle), ← ih]
      -- what follows `u` may have been cut off
      by_cases hv : v = 0
      · subst hv
        rfl
      · rw [List.takeWhile_cons_of_pos (by simpa using hv), decode, if_neg hpair]

end Utf16

namespace Utf8

/-- The bytes of a list of characters. -/
def bytes (cs : List Char) : List UInt8 := cs.flatMap String.utf8EncodeChar

@[simp] theorem bytes_nil : bytes [] = [] := rfl

@[simp] theorem bytes_cons (c : Char) (cs : List Char) :
    bytes (c :: cs) = String.utf8EncodeChar c ++ bytes cs := rfl

/-- Only NUL has a zero byte. -/
theorem zero_notMem {c : Char} (h : c ≠ '\x00') : 0 ∉ String.utf8EncodeChar c := by
  have h₀ : c.val.toNat ≠ 0 := by
    intro hz
    apply h
    apply Char.ext
    exact UInt32.toNat_inj.mp hz
  intro hmem
  have key : ∀ b ∈ String.utf8EncodeChar c, b.toNat ≠ 0 := by
    fun_cases String.utf8EncodeChar c with
    | case1 =>
      rw [List.forall_mem_singleton, UInt8.toNat_ofNat']
      omega
    | case2 | case3 | case4 => simp; omega
  exact key 0 hmem rfl

/-- **A NUL among the bytes cuts off what it cuts off among the characters.** -/
theorem bytes_takeWhile (cs : List Char) :
    (bytes cs ++ [0]).takeWhile (· ≠ 0) = bytes (cs.takeWhile (· ≠ '\x00')) := by
  induction cs with
  | nil => rfl
  | cons c cs ih =>
    rw [bytes_cons, List.append_assoc]
    by_cases h : c = '\x00'
    · subst h
      rfl
    · have hpos : ∀ b ∈ String.utf8EncodeChar c, decide (b ≠ 0) = true :=
        fun b hb => decide_eq_true fun hz => zero_notMem h (hz ▸ hb)
      rw [List.takeWhile_append_of_pos hpos, ih, List.takeWhile_cons_of_pos (by simpa using h),
        bytes_cons]

/-- A string is found again in its bytes. -/
theorem fromUTF8?_bytes (cs : List Char) :
    String.fromUTF8? ⟨(bytes cs).toArray⟩ = some (String.ofList cs) := by
  have hbytes : (⟨(bytes cs).toArray⟩ : ByteArray) = cs.utf8Encode :=
    ByteArray.ext List.data_toByteArray.symm
  rw [hbytes, String.fromUTF8?, dif_pos ByteArray.isValidUTF8_utf8Encode]
  rfl

end Utf8
