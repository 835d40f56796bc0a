import Mathlib.Data.List.Basic
import Mathlib.Data.Nat.Basic

namespace Wire

abbrev Bytes := List UInt8

instance : LawfulBEq Bytes := List.instLawfulBEq

namespace Varint

-- Seven bits a byte, the least significant group first; the high bit says that
-- another byte follows. Each step divides the number, so the number itself is
-- enough fuel.
def encodeLoop : Nat → Nat → Bytes
  | 0, n => [UInt8.ofNat (n % 128)]
  | fuel + 1, n =>
      if n / 128 = 0 then [UInt8.ofNat (n % 128)]
      else UInt8.ofNat (n % 128 + 128) :: encodeLoop fuel (n / 128)

def encode (n : Nat) : Bytes := encodeLoop n n

-- The value of the varint at the head of some bytes; bytes that end inside it
-- give `none`.
def decode? : Bytes → Option Nat
  | [] => none
  | byte :: rest =>
      if byte.toNat < 128 then some byte.toNat
      else (decode? rest).map fun high => byte.toNat % 128 + 128 * high

-- The same reading, stopped at the end of the bytes.
def decodeUpToEnd : Bytes → Nat
  | [] => 0
  | byte :: rest =>
      if byte.toNat < 128 then byte.toNat
      else byte.toNat % 128 + 128 * decodeUpToEnd rest

-- How many bytes the varint at the head occupies, if the bytes hold all of it.
def span? : Bytes → Option Nat
  | [] => none
  | byte :: rest => if byte.toNat < 128 then some 1 else (span? rest).map (· + 1)

theorem encodeLoop_eq (fuel : Nat) : ∀ more n : Nat, n ≤ fuel → n ≤ more →
    encodeLoop fuel n = encodeLoop more n := by
  induction fuel with
  | zero =>
      intro more n hf hm
      have hn : n = 0 := Nat.le_zero.mp hf
      subst hn
      cases more <;> rfl
  | succ fuel ih =>
      intro more n hf hm
      cases more with
      | zero =>
          have hn : n = 0 := Nat.le_zero.mp hm
          subst hn
          rfl
      | succ more =>
          simp only [encodeLoop]
          split
          · rfl
          · rw [ih more (n / 128) (by omega) (by omega)]

theorem encode_eq (n : Nat) :
    encode n = if n < 128 then [UInt8.ofNat n]
      else UInt8.ofNat (n % 128 + 128) :: encode (n / 128) := by
  unfold encode
  cases n with
  | zero => rfl
  | succ n =>
      simp only [encodeLoop]
      by_cases h : n + 1 < 128
      · rw [if_pos (by omega), if_pos h, Nat.mod_eq_of_lt h]
      · rw [if_neg (by omega), if_neg h,
          encodeLoop_eq n ((n + 1) / 128) ((n + 1) / 128) (by omega) (Nat.le_refl _)]

theorem toNat_last (n : Nat) (h : n < 128) : (UInt8.ofNat n).toNat = n := by
  rw [UInt8.toNat_ofNat']
  omega

theorem toNat_more (n : Nat) : (UInt8.ofNat (n % 128 + 128)).toNat = n % 128 + 128 := by
  rw [UInt8.toNat_ofNat']
  omega

@[simp] theorem encode_ne_nil (n : Nat) : encode n ≠ [] := by
  rw [encode_eq]
  split <;> simp

theorem encode_length_pos (n : Nat) : 0 < (encode n).length :=
  List.length_pos_iff.mpr (encode_ne_nil n)

theorem encode_length_small (n : Nat) (h : n < 128) : (encode n).length = 1 := by
  rw [encode_eq, if_pos h]
  rfl

-- What stands after a varint does not change how it reads.
@[simp] theorem decode?_encode (n : Nat) (rest : Bytes) : decode? (encode n ++ rest) = some n := by
  induction n using Nat.strong_induction_on with
  | h n ih =>
      rw [encode_eq]
      split
      · rename_i h
        simp only [List.cons_append, List.nil_append, decode?, toNat_last n h, h, ite_true]
      · rename_i h
        have hbyte : ¬(UInt8.ofNat (n % 128 + 128)).toNat < 128 := by rw [toNat_more]; omega
        rw [List.cons_append, decode?, if_neg hbyte, ih (n / 128) (by omega), toNat_more]
        simp only [Option.map_some, Option.some.injEq]
        omega

@[simp] theorem span?_encode (n : Nat) (rest : Bytes) :
    span? (encode n ++ rest) = some (encode n).length := by
  induction n using Nat.strong_induction_on with
  | h n ih =>
      rw [encode_eq]
      split
      · rename_i h
        simp only [List.cons_append, List.nil_append, span?, toNat_last n h, h, ite_true,
          List.length_cons, List.length_nil]
      · rename_i h
        have hbyte : ¬(UInt8.ofNat (n % 128 + 128)).toNat < 128 := by rw [toNat_more]; omega
        simp only [List.cons_append, span?, hbyte, ite_false, ih (n / 128) (by omega),
          Option.map_some, List.length_cons]

theorem decode?_append {raw : Bytes} {n : Nat} (h : decode? raw = some n) (more : Bytes) :
    decode? (raw ++ more) = some n := by
  induction raw generalizing n with
  | nil => simp [decode?] at h
  | cons byte rest ih =>
      rw [List.cons_append]
      unfold decode? at h ⊢
      by_cases hlast : byte.toNat < 128
      · rw [if_pos hlast] at h ⊢
        exact h
      · rw [if_neg hlast] at h ⊢
        obtain ⟨high, hhigh, rfl⟩ := Option.map_eq_some_iff.mp h
        rw [ih hhigh, Option.map_some]

theorem span?_append {raw : Bytes} {n : Nat} (h : Varint.span? raw = some n) (more : Bytes) :
    Varint.span? (raw ++ more) = some n := by
  induction raw generalizing n with
  | nil => cases h
  | cons byte rest ih =>
      rw [List.cons_append]
      unfold span? at h ⊢
      by_cases hlast : byte.toNat < 128
      · rw [if_pos hlast] at h ⊢
        exact h
      · rw [if_neg hlast] at h ⊢
        obtain ⟨m, hm, rfl⟩ := Option.map_eq_some_iff.mp h
        rw [ih hm]
        rfl

theorem decodeUpToEnd_eq (bytes : Bytes) (n : Nat) (h : decode? bytes = some n) :
    decodeUpToEnd bytes = n := by
  induction bytes generalizing n with
  | nil => simp [decode?] at h
  | cons byte rest ih =>
      simp only [decode?] at h
      simp only [decodeUpToEnd]
      split at h
      · rename_i hlast
        simpa only [hlast, ite_true] using Option.some.inj h
      · rename_i hmore
        obtain ⟨high, hrest, hn⟩ := Option.map_eq_some_iff.mp h
        simpa only [hmore, ite_false, ih high hrest] using hn

theorem decodeUpToEnd_encode (n : Nat) (rest : Bytes) : decodeUpToEnd (encode n ++ rest) = n :=
  decodeUpToEnd_eq _ n (decode?_encode n rest)

theorem span?_pos {bytes : Bytes} {n : Nat} (h : span? bytes = some n) : 0 < n := by
  cases bytes with
  | nil => cases h
  | cons byte rest =>
      unfold span? at h
      split at h
      · obtain rfl := Option.some.inj h
        omega
      · obtain ⟨m, -, rfl⟩ := Option.map_eq_some_iff.mp h
        omega

theorem span?_behind (front : Bytes) {back : Bytes} (h : (span? back).isSome) :
    (span? (front ++ back)).isSome := by
  induction front with
  | nil => exact h
  | cons byte front ih =>
      rw [List.cons_append, span?]
      split
      · rfl
      · rwa [Option.isSome_map]

theorem span?_drop {bytes : Bytes} {position : Nat} (h : (span? (bytes.drop position)).isSome) :
    position < bytes.length := by
  by_contra hpast
  rw [List.drop_eq_nil_of_le (Nat.le_of_not_lt hpast)] at h
  cases h

-- These bytes are a varint, shortest or not, and nothing behind it.
def States (raw : Bytes) (n : Nat) : Prop := decode? raw = some n ∧ span? raw = some raw.length

theorem states_encode (n : Nat) : States (encode n) n := by
  have hvalue := decode?_encode n []
  have hspan := span?_encode n []
  rw [List.append_nil] at hvalue hspan
  exact ⟨hvalue, hspan⟩

theorem States.length_pos {raw : Bytes} {n : Nat} (h : States raw n) : 0 < raw.length := span?_pos h.2

theorem States.decodeUpToEnd {raw : Bytes} {n : Nat} (h : States raw n) (more : Bytes) :
    decodeUpToEnd (raw ++ more) = n := decodeUpToEnd_eq _ n (decode?_append h.1 more)

-- Where one varint ends and the next thing begins, the bytes tell.
theorem States.append_inj {raw raw' more more' : Bytes} {n n' : Nat} (h : States raw n)
    (h' : States raw' n') (heq : raw ++ more = raw' ++ more') :
    raw = raw' ∧ n = n' ∧ more = more' := by
  have hspan := span?_append h.2 more
  rw [heq, span?_append h'.2 more'] at hspan
  obtain ⟨rfl, rfl⟩ := List.append_inj heq (Option.some.inj hspan).symm
  exact ⟨rfl, Option.some.inj (h.1.symm.trans h'.1), rfl⟩

-- Of the spellings of a number the encoding is the shortest, and the only one of its length.
theorem States.shortest {raw : Bytes} {n : Nat} (h : States raw n) :
    (encode n).length ≤ raw.length ∧ ((encode n).length = raw.length → raw = encode n) := by
  obtain ⟨hvalue, hspan⟩ := h
  induction raw generalizing n with
  | nil => simp [decode?] at hvalue
  | cons byte rest ih =>
      unfold decode? at hvalue
      unfold span? at hspan
      by_cases hlast : byte.toNat < 128
      · rw [if_pos hlast, Option.some.injEq] at hvalue hspan
        subst hvalue
        have hrest : rest = [] := by
          apply List.eq_nil_of_length_eq_zero
          rw [List.length_cons] at hspan
          omega
        rw [hrest, encode_eq, if_pos hlast, UInt8.ofNat_toNat]
        exact ⟨Nat.le_refl _, fun _ => rfl⟩
      · rw [if_neg hlast] at hvalue hspan
        obtain ⟨high, hhigh, rfl⟩ := Option.map_eq_some_iff.mp hvalue
        obtain ⟨m, hm, hlength⟩ := Option.map_eq_some_iff.mp hspan
        rw [List.length_cons] at hlength
        obtain rfl : m = rest.length := by omega
        obtain ⟨hle, hsame⟩ := ih hhigh hm
        have hpos := span?_pos hm
        have hbyte := byte.toNat_lt
        by_cases hsmall : byte.toNat % 128 + 128 * high < 128
        · rw [encode_length_small _ hsmall, List.length_cons]
          exact ⟨by omega, fun h => by omega⟩
        · have hdiv : (byte.toNat % 128 + 128 * high) / 128 = high := by omega
          have hmod : (byte.toNat % 128 + 128 * high) % 128 + 128 = byte.toNat := by omega
          rw [encode_eq, if_neg hsmall, hdiv, hmod, UInt8.ofNat_toNat, List.length_cons,
            List.length_cons]
          refine ⟨by omega, fun h => ?_⟩
          rw [← hsame (by omega)]

-- A reading that stops at the end has all of a varint whose bytes come before it.
theorem decodeUpToEnd_of_span {front back : Bytes} {n value : Nat} (hn : n ≤ front.length)
    (hspan : span? (front ++ back) = some n) (hvalue : decode? (front ++ back) = some value) :
    decodeUpToEnd front = value := by
  induction front generalizing n value with
  | nil =>
      have hpos := span?_pos hspan
      rw [List.length_nil] at hn
      omega
  | cons byte rest ih =>
      rw [List.cons_append] at hspan hvalue
      unfold span? at hspan
      unfold decode? at hvalue
      unfold decodeUpToEnd
      by_cases hlast : byte.toNat < 128
      · rw [if_pos hlast] at hvalue ⊢
        exact Option.some.inj hvalue
      · rw [if_neg hlast] at hspan hvalue ⊢
        obtain ⟨m, hm, rfl⟩ := Option.map_eq_some_iff.mp hspan
        obtain ⟨high, hhigh, rfl⟩ := Option.map_eq_some_iff.mp hvalue
        rw [ih (by rw [List.length_cons] at hn; omega) hm hhigh]

example : encode 300 = [172, 2] := by decide

end Varint

-- A length-delimited value: the varint of its length, then the value.
def delimited (content : Bytes) : Bytes := Varint.encode content.length ++ content

theorem delimited_length (content : Bytes) :
    (delimited content).length = (Varint.encode content.length).length + content.length :=
  List.length_append

end Wire
