import Jerboa.Manifest.TupleParser
import Mathlib.Data.Nat.Bitwise

/-!
# The characters of a valid text

On valid UTF-8, `utf8_decode` gives the characters of the text and
`push_character` writes their bytes.
-/

namespace Jerboa.Manifest.C

open List Lib

theorem trailBits : ∀ b < 64, (UInt8.ofNat (b + 128) &&& 0x3f).toUInt32 = UInt32.ofNat b := by
  decide

theorem addBits_ofNat {a b : Nat} (ha : a < 2 ^ 26) (hb : b < 64) :
    addBits (UInt32.ofNat a) (UInt8.ofNat (b + 128)) = UInt32.ofNat (a * 64 + b) := by
  rw [addBits, trailBits b hb]
  apply UInt32.toNat_inj.mp
  have ha' : a % 2 ^ 32 = a := Nat.mod_eq_of_lt (by omega)
  have hb' : b % 2 ^ 32 = b := Nat.mod_eq_of_lt (by omega)
  have hshift : a <<< 6 = a * 64 := Nat.shiftLeft_eq a 6
  have hor : a * 64 + b = a * 64 ||| b := by
    rw [← hshift]
    exact Nat.shiftLeft_add_eq_or_of_lt hb a
  simp only [UInt32.toNat_or, UInt32.toNat_shiftLeft, UInt32.toNat_ofNat', UInt32.reduceToNat,
    Nat.reduceMod, ha', hb', hshift]
  rw [Nat.mod_eq_of_lt (by omega : a * 64 < 2 ^ 32), Nat.mod_eq_of_lt (by omega), hor]

section Bytes

theorem utf8Length_two : ∀ a < 32, utf8Length (UInt8.ofNat (a + 192)) = 2 := by decide

theorem utf8Length_three : ∀ a < 16, utf8Length (UInt8.ofNat (a + 224)) = 3 := by decide

theorem utf8Length_four : ∀ a < 8, utf8Length (UInt8.ofNat (a + 240)) = 4 := by decide

theorem leadBits_two : ∀ a < 32, leadBits (UInt8.ofNat (a + 192)) 2 = UInt32.ofNat a := by decide

theorem leadBits_three : ∀ a < 16, leadBits (UInt8.ofNat (a + 224)) 3 = UInt32.ofNat a := by decide

theorem leadBits_four : ∀ a < 8, leadBits (UInt8.ofNat (a + 240)) 4 = UInt32.ofNat a := by decide

theorem utf8Length_one : ∀ a < 128, utf8Length (UInt8.ofNat a) = 1 := by decide

theorem leadByte_two :
    ∀ a < 32, UInt32.toUInt8 (UInt32.ofNat a ||| 0xc0) = UInt8.ofNat (a + 192) := by decide

theorem leadByte_three :
    ∀ a < 16, UInt32.toUInt8 (UInt32.ofNat a ||| 0xe0) = UInt8.ofNat (a + 224) := by decide

theorem leadByte_four :
    ∀ a < 8, UInt32.toUInt8 (UInt32.ofNat a ||| 0xf0) = UInt8.ofNat (a + 240) := by decide

theorem trailByte :
    ∀ b < 64, UInt32.toUInt8 (UInt32.ofNat b ||| 0x80) = UInt8.ofNat (b + 128) := by decide

end Bytes

theorem ofNat_toNat_val (c : Char) : UInt32.ofNat c.val.toNat = c.val := UInt32.ofNat_toNat

theorem val_le (c : Char) : c.val.toNat < 0x110000 := by
  rcases c.valid with h | ⟨-, h⟩
  · have h' : c.val.toNat < 0xd800 := h
    omega
  · exact h

theorem utf8Decode_cons {x : UInt8} {t : Bytes} (h : utf8Length x = t.length + 1)
    (rest : Bytes) :
    utf8Decode (x :: (t ++ rest)) =
      some (t.foldl addBits (leadBits x (t.length + 1)), t.length + 1) := by
  have hlen : ¬(x :: (t ++ rest)).length < t.length + 1 := by
    simp only [length_cons, length_append]
    omega
  simp only [utf8Decode, h, if_neg hlen, Nat.add_sub_cancel, take_left]

theorem utf8Decode_utf8EncodeChar (c : Char) (rest : Bytes) :
    utf8Decode (String.utf8EncodeChar c ++ rest) =
      some (c.val, (String.utf8EncodeChar c).length) := by
  have hle := val_le c
  have hval := ofNat_toNat_val c
  unfold String.utf8EncodeChar
  generalize c.val.toNat = v at hle hval
  dsimp only
  rw [← hval]
  split
  · next h1 =>
    have hlead : ∀ a < 128, leadBits (UInt8.ofNat a) 1 = UInt32.ofNat a := by decide
    refine (utf8Decode_cons (t := []) (utf8Length_one v (by omega)) rest).trans ?_
    rw [foldl_nil, length_nil, hlead v (by omega)]
    rfl
  · split
    · next h2 =>
      have hlead : v / 64 % 32 < 32 := Nat.mod_lt _ (by omega)
      have htrail : v % 64 < 64 := Nat.mod_lt _ (by omega)
      refine (utf8Decode_cons (t := [_]) (utf8Length_two _ hlead) rest).trans ?_
      simp only [foldl_cons, foldl_nil, length_cons, length_nil, Nat.zero_add,
        Nat.reduceAdd, leadBits_two _ hlead]
      rw [addBits_ofNat (by omega) htrail]
      congr 3
      omega
    · split
      · next h3 =>
        have hlead : v / 4096 % 16 < 16 := Nat.mod_lt _ (by omega)
        have hmid : v / 64 % 64 < 64 := Nat.mod_lt _ (by omega)
        have htrail : v % 64 < 64 := Nat.mod_lt _ (by omega)
        refine (utf8Decode_cons (t := [_, _]) (utf8Length_three _ hlead) rest).trans ?_
        simp only [foldl_cons, foldl_nil, length_cons, length_nil,
          Nat.zero_add, Nat.reduceAdd, leadBits_three _ hlead]
        rw [addBits_ofNat (by omega) hmid, addBits_ofNat (by omega) htrail]
        congr 3
        omega
      · next h4 =>
        have hlead : v / 262144 % 8 < 8 := Nat.mod_lt _ (by omega)
        have hhigh : v / 4096 % 64 < 64 := Nat.mod_lt _ (by omega)
        have hmid : v / 64 % 64 < 64 := Nat.mod_lt _ (by omega)
        have htrail : v % 64 < 64 := Nat.mod_lt _ (by omega)
        refine (utf8Decode_cons (t := [_, _, _]) (utf8Length_four _ hlead) rest).trans ?_
        simp only [foldl_cons, foldl_nil, length_cons, length_nil,
          Nat.zero_add, Nat.reduceAdd, leadBits_four _ hlead]
        rw [addBits_ofNat (by omega) hhigh, addBits_ofNat (by omega) hmid,
          addBits_ofNat (by omega) htrail]
        congr 3
        omega

section Write

variable {v : Nat}

theorem ofNat_lt_iff (hv : v < 2 ^ 32) {n : Nat} (hn : n < 2 ^ 32) :
    UInt32.ofNat v < UInt32.ofNat n ↔ v < n := by
  rw [UInt32.lt_iff_toNat_lt, UInt32.toNat_ofNat_of_lt' hv, UInt32.toNat_ofNat_of_lt' hn]

theorem ofNat_shiftRight (hv : v < 2 ^ 32) {i : Nat} (hi : i < 32) :
    UInt32.ofNat v >>> UInt32.ofNat i = UInt32.ofNat (v / 2 ^ i) := by
  apply UInt32.toNat_inj.mp
  have hle : v / 2 ^ i < 2 ^ 32 := Nat.lt_of_le_of_lt (Nat.div_le_self v _) hv
  have hi' : i < 2 ^ 32 := by omega
  rw [UInt32.toNat_shiftRight, UInt32.toNat_ofNat_of_lt' hv, UInt32.toNat_ofNat_of_lt' hi',
    UInt32.toNat_ofNat_of_lt' hle, Nat.mod_eq_of_lt hi, Nat.shiftRight_eq_div_pow]

theorem ofNat_and_63 (hv : v < 2 ^ 32) : UInt32.ofNat v &&& 0x3f = UInt32.ofNat (v % 64) := by
  apply UInt32.toNat_inj.mp
  have hmod : v % 64 < 2 ^ 32 := by omega
  rw [UInt32.toNat_and, UInt32.toNat_ofNat_of_lt' hv, UInt32.toNat_ofNat_of_lt' hmod]
  exact Nat.and_two_pow_sub_one_eq_mod v 6

end Write

theorem pushCharacter_val (s : Bytes) (c : Char) :
    pushCharacter s c.val = s ++ String.utf8EncodeChar c := by
  have hle := val_le c
  have hval := ofNat_toNat_val c
  unfold String.utf8EncodeChar
  generalize c.val.toNat = v at hle hval
  rw [← hval]
  have h32 : v < 2 ^ 32 := by omega
  have hmid : v / 64 < 2 ^ 32 := by omega
  have hhigh : v / 4096 < 2 ^ 32 := by omega
  have hshift6 : UInt32.ofNat v >>> 6 = UInt32.ofNat (v / 64) :=
    ofNat_shiftRight (i := 6) h32 (by decide)
  have hshift12 : UInt32.ofNat v >>> 12 = UInt32.ofNat (v / 4096) :=
    ofNat_shiftRight (i := 12) h32 (by decide)
  have hshift18 : UInt32.ofNat v >>> 18 = UInt32.ofNat (v / 262144) :=
    ofNat_shiftRight (i := 18) h32 (by decide)
  have hlt : ∀ n < 2 ^ 32, UInt32.ofNat v < UInt32.ofNat n ↔ v < n := fun n hn =>
    ofNat_lt_iff h32 hn
  have htrail := trailByte (v % 64) (by omega)
  unfold pushCharacter
  rw [hshift6, hshift12, hshift18, ofNat_and_63 h32, ofNat_and_63 hmid, ofNat_and_63 hhigh, htrail]
  split
  · next h1 =>
    have h1' : v < 128 := (hlt 128 (by omega)).mp h1
    have hbyte : ∀ a < 128, UInt32.toUInt8 (UInt32.ofNat a) = UInt8.ofNat a := by decide
    rw [if_pos (show v ≤ 127 by omega), hbyte v h1']
  · next h1 =>
    have h1' : ¬v < 128 := fun h => h1 ((hlt 128 (by omega)).mpr h)
    rw [if_neg (show ¬v ≤ 127 by omega)]
    split
    · next h2 =>
      have h2' : v < 2048 := (hlt 2048 (by omega)).mp h2
      rw [if_pos (show v ≤ 2047 by omega), leadByte_two _ (by omega),
        Nat.mod_eq_of_lt (show v / 64 < 32 by omega)]
    · next h2 =>
      have h2' : ¬v < 2048 := fun h => h2 ((hlt 2048 (by omega)).mpr h)
      rw [if_neg (show ¬v ≤ 2047 by omega), trailByte (v / 64 % 64) (by omega)]
      split
      · next h3 =>
        have h3' : v < 65536 := (hlt 65536 (by omega)).mp h3
        rw [if_pos (show v ≤ 65535 by omega), leadByte_three _ (by omega),
          Nat.mod_eq_of_lt (show v / 4096 < 16 by omega)]
      · next h3 =>
        have h3' : ¬v < 65536 := fun h => h3 ((hlt 65536 (by omega)).mpr h)
        have h4 : UInt32.ofNat v < 0x110000 := (hlt 0x110000 (by omega)).mpr hle
        rw [if_neg (show ¬v ≤ 65535 by omega), if_pos h4, trailByte (v / 4096 % 64) (by omega),
          leadByte_four _ (by omega), Nat.mod_eq_of_lt (show v / 262144 < 8 by omega)]

/-- The bytes of a text. -/
def bytes (t : List Char) : Bytes := t.flatMap String.utf8EncodeChar

theorem bytes_append (t u : List Char) : bytes (t ++ u) = bytes t ++ bytes u :=
  flatMap_append

theorem utf8Encode_toList (t : List Char) : t.utf8Encode.data.toList = bytes t := by
  simp [List.utf8Encode, bytes]

theorem pushCharacter_bytes (t : List Char) (c : Char) :
    pushCharacter (bytes t) c.val = bytes (t ++ [c]) := by
  rw [pushCharacter_val, bytes_append]
  simp [bytes]

theorem bytes_injective : Function.Injective bytes := by
  intro t u h
  have hencode : t.utf8Encode = u.utf8Encode := congrArg List.toByteArray h
  have hdecode := congrArg ByteArray.utf8Decode? hencode
  rw [List.utf8Decode?_utf8Encode, List.utf8Decode?_utf8Encode] at hdecode
  simpa using hdecode

theorem popCharacters_bytes {n : Nat} {t : List Char} (hn : (bytes t).length ≤ n) :
    popCharacters n (bytes t) = t.map Char.val := by
  induction n generalizing t with
  | zero =>
    cases t with
    | nil => rfl
    | cons c =>
      have hpos : 0 < (String.utf8EncodeChar c).length :=
        length_pos_iff.mpr String.utf8EncodeChar_ne_nil
      simp only [bytes, flatMap_cons, length_append] at hn
      omega
  | succ n ih =>
    cases t with
    | nil => rfl
    | cons c t =>
      have hcons : bytes (c :: t) = String.utf8EncodeChar c ++ bytes t := rfl
      have hpos : 0 < (String.utf8EncodeChar c).length :=
        length_pos_iff.mpr String.utf8EncodeChar_ne_nil
      have hlen : (bytes t).length ≤ n := by
        rw [hcons, length_append] at hn
        omega
      rw [hcons, popCharacters, utf8Decode_utf8EncodeChar]
      dsimp only
      rw [drop_left, ih hlen, map_cons]

theorem characters_bytes (t : List Char) : characters (bytes t) = t.map Char.val :=
  popCharacters_bytes (Nat.le_refl _)

end Jerboa.Manifest.C
