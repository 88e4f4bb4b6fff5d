import StackCalc.Token.Scanner

namespace StackCalc

theorem ofNat_ne_lineFeed {n : Nat} (hlow : 128 ≤ n) (hhigh : n < 256) : UInt8.ofNat n ≠ Text.lineFeed := by
  intro he
  have hn := congrArg UInt8.toNat he
  rw [UInt8.toNat_ofNat_of_lt' hhigh] at hn
  simp only [Text.lineFeed, UInt8.toNat_ofNat] at hn
  omega

theorem count_utf8EncodeChar (c : Char) :
    (String.utf8EncodeChar c).count Text.lineFeed = if c = '\n' then 1 else 0 := by
  by_cases hv : c.val.toNat ≤ 127
  · have hbytes : String.utf8EncodeChar c = [UInt8.ofNat c.val.toNat] := if_pos hv
    have hc : UInt8.ofNat c.val.toNat = Text.lineFeed ↔ c = '\n' := by
      constructor
      · intro he
        have hn := congrArg UInt8.toNat he
        rw [UInt8.toNat_ofNat_of_lt' (Nat.lt_of_le_of_lt hv (by decide))] at hn
        exact Char.ext (UInt32.toNat_inj.mp hn)
      · rintro rfl
        rfl
    rw [hbytes, List.count_singleton]
    simp only [beq_iff_eq, hc]
  · have hbytes : Text.lineFeed ∉ String.utf8EncodeChar c := by
      intro hmem
      rw [String.utf8EncodeChar] at hmem
      simp only [if_neg hv] at hmem
      split at hmem
      · simp only [List.mem_cons, List.not_mem_nil, or_false] at hmem
        rcases hmem with h | h <;> exact ofNat_ne_lineFeed (by omega) (by omega) h.symm
      · split at hmem
        · simp only [List.mem_cons, List.not_mem_nil, or_false] at hmem
          rcases hmem with h | h | h <;> exact ofNat_ne_lineFeed (by omega) (by omega) h.symm
        · simp only [List.mem_cons, List.not_mem_nil, or_false] at hmem
          rcases hmem with h | h | h | h <;> exact ofNat_ne_lineFeed (by omega) (by omega) h.symm
    have hc : c ≠ '\n' := by
      rintro rfl
      exact hv (by decide)
    rw [List.count_eq_zero_of_not_mem hbytes, if_neg hc]

theorem size_utf8Encode (cs : List Char) : cs.utf8Encode.size = byteLength cs := by
  induction cs with
  | nil => rfl
  | cons c cs ih =>
    rw [List.utf8Encode_cons, ByteArray.size_append, ih]
    simp [List.utf8Encode_singleton, byteLength]

theorem count_utf8Encode (cs : List Char) : cs.utf8Encode.data.count Text.lineFeed = cs.count '\n' := by
  induction cs with
  | nil => rfl
  | cons c cs ih =>
    rw [List.utf8Encode_cons, ByteArray.data_append, Array.count_append, ih, List.utf8Encode_singleton,
      List.count_cons]
    have := count_utf8EncodeChar c
    simp [this]
    omega

theorem byteLength_append (cs cs' : List Char) : byteLength (cs ++ cs') = byteLength cs + byteLength cs' := by
  induction cs with
  | nil => exact (Nat.zero_add _).symm
  | cons c cs ih => rw [List.cons_append, byteLength, byteLength, ih, Nat.add_assoc]

namespace Reach

variable {bytes : ByteArray} {r : Reach} {i j k : Nat}

theorem lineFeeds_add (hi : i ≤ j) (hk : j ≤ k) :
    lineFeeds bytes i k = lineFeeds bytes i j + lineFeeds bytes j k := by
  rw [lineFeeds, ByteArray.extract_eq_extract_append_extract j hi hk, ByteArray.data_append,
    Array.count_append]
  rfl

theorem lineFeeds_self : lineFeeds bytes i i = 0 := by
  rw [lineFeeds, ByteArray.extract_same]
  rfl

theorem lineFeeds_text (before after : List Char) :
    lineFeeds (before ++ after).utf8Encode 0 (byteLength before) = before.count '\n' := by
  rw [lineFeeds, List.utf8Encode_append, ByteArray.extract_append_eq_left (size_utf8Encode before).symm,
    count_utf8Encode]

theorem extend_extend (h : i ≤ j) : (r.extend bytes i).extend bytes j = r.extend bytes j := by
  have hmin : min i bytes.size ≤ min j bytes.size := by omega
  by_cases hi : r.offset < min i bytes.size
  · have hj : r.offset < min j bytes.size := by omega
    simp only [extend, if_pos hi, if_pos hj]
    split
    case isTrue => rw [lineFeeds_add (Nat.le_of_lt hi) hmin, Nat.add_assoc]
    case isFalse hlt =>
      have heq : min i bytes.size = min j bytes.size := by omega
      rw [heq]
  · simp only [extend, if_neg hi]

theorem extend_line_text (before after : List Char) :
    (({} : Reach).extend (before ++ after).utf8Encode (byteLength before)).line = 1 + before.count '\n' := by
  have hsize : min (byteLength before) (before ++ after).utf8Encode.size = byteLength before := by
    rw [size_utf8Encode, byteLength_append]
    omega
  simp only [extend, hsize, lineFeeds_text]
  split
  case isTrue => rfl
  case isFalse hlt =>
    have hzero : byteLength before = 0 := by omega
    rw [← lineFeeds_text before after, hzero, lineFeeds_self]

end Reach

end StackCalc
