import Mathlib.Data.List.Lex
import Mathlib.Data.String.Basic

/-!
# The order of texts by bytes

Texts are ordered by their code points. On the system they are bytes, and there they are ordered by
bytes. For UTF-8 that is the same order: a later character has a greater first byte, or the same
first byte and behind it greater ones.

## Main definitions

* `bytes` — the bytes of a text.

## Main results

* `encode_append_lt` — a later character is greater, whatever stands behind it.
* `bytes_lt_iff` — the order of texts is the order of their bytes.
-/

namespace Typings.Text

/-- The bytes of a text in UTF-8. -/
def bytes (text : String) : List UInt8 := text.toByteArray.data.toList

theorem bytes_eq (text : String) : bytes text = text.toList.flatMap String.utf8EncodeChar := by
  rw [bytes, ← String.utf8Encode_toList, List.utf8Encode, List.toList_data_toByteArray]

theorem bytes_injective : Function.Injective bytes := by
  intro a b h
  rw [bytes, bytes, Array.toList_inj] at h
  exact String.toByteArray_inj.mp (ByteArray.ext h)

/-- The digits of a number to the base of 64, as far as a character has them. -/
theorem exists_digits (n : Nat) : ∃ a b c d, n = 262144 * a + 4096 * b + 64 * c + d ∧
    b < 64 ∧ c < 64 ∧ d < 64 ∧
    n / 262144 = a ∧ n / 4096 % 64 = b ∧ n / 64 % 64 = c ∧ n % 64 = d := by
  refine ⟨n / 262144, n / 4096 % 64, n / 64 % 64, n % 64, ?_, ?_, ?_, ?_, rfl, rfl, rfl, rfl⟩
    <;> omega

/-- The four bytes of a character that has as many. -/
def fourBytes (n : Nat) : List UInt8 :=
  [.ofNat (n / 262144 % 8 + 240), .ofNat (n / 4096 % 64 + 128), .ofNat (n / 64 % 64 + 128),
    .ofNat (n % 64 + 128)]

/-- Where all characters have four bytes, the first digit decides in which they differ. -/
theorem fourBytes_append_lt {m n : Nat} (h : m < n) (hn : n < 0x110000) (x y : List UInt8) :
    fourBytes m ++ x < fourBytes n ++ y := by
  obtain ⟨a, b, c, d, hm, hb, hc, hd, ha', hb', hc', hd'⟩ := exists_digits m
  obtain ⟨e, f, g, k, hn', hf, hg, hk, he', hf', hg', hk'⟩ := exists_digits n
  simp only [fourBytes, ha', hb', hc', hd', he', hf', hg', hk', List.cons_append, List.nil_append,
    List.cons_lt_cons_iff, UInt8.lt_iff_toNat_lt, ← UInt8.toNat_inj, UInt8.toNat_ofNat']
  clear ha' hb' hc' hd' he' hf' hg' hk'
  omega

/-- **A later character is greater**, whatever stands behind it. -/
theorem encode_append_lt {c d : Char} (h : c < d) (x y : List UInt8) :
    String.utf8EncodeChar c ++ x < String.utf8EncodeChar d ++ y := by
  have hlt : c.val.toNat < d.val.toNat := h
  have hd : d.val.toNat < 0x110000 := by
    have hvalid := d.valid
    rw [UInt32.isValidChar, Nat.isValidChar] at hvalid
    omega
  simp only [String.utf8EncodeChar]
  generalize c.val.toNat = m at hlt
  generalize d.val.toNat = n at hlt hd
  by_cases hfour : m ≤ 65535
  · -- A character with more bytes has a greater first one.
    split <;> split <;> (try split) <;> (try split) <;> (try split) <;>
      simp only [List.cons_append, List.nil_append, List.cons_lt_cons_iff, UInt8.lt_iff_toNat_lt,
        ← UInt8.toNat_inj, UInt8.toNat_ofNat'] <;> omega
  · rw [if_neg (by omega), if_neg (by omega), if_neg hfour, if_neg (by omega), if_neg (by omega),
      if_neg (by omega)]
    exact fourBytes_append_lt hlt hd x y

theorem append_lt_append_iff {z x y : List UInt8} : z ++ x < z ++ y ↔ x < y := by
  induction z with
  | nil => rfl
  | cons b rest ih => simp [ih]

theorem flatMap_encode_lt {a b : List Char} (h : a < b) :
    a.flatMap String.utf8EncodeChar < b.flatMap String.utf8EncodeChar := by
  induction a generalizing b with
  | nil =>
      cases b with
      | nil => exact absurd h (List.lt_irrefl _)
      | cons d rest =>
          rw [List.flatMap_cons]
          obtain ⟨byte, more, hbytes⟩ :=
            List.exists_cons_of_ne_nil (String.utf8EncodeChar_ne_nil (c := d))
          rw [hbytes]
          exact List.nil_lt_cons _ _
  | cons c rest ih =>
      cases b with
      | nil => exact absurd h (List.not_lt_nil _)
      | cons d rest' =>
          rw [List.flatMap_cons, List.flatMap_cons]
          rcases List.cons_lt_cons_iff.mp h with hlt | ⟨rfl, hrest⟩
          · exact encode_append_lt hlt _ _
          · exact append_lt_append_iff.mpr (ih hrest)

/-- **The order of texts is the order of their bytes.** -/
theorem bytes_lt_iff {a b : String} : bytes a < bytes b ↔ a < b := by
  rw [bytes_eq, bytes_eq, String.lt_iff_toList_lt]
  refine ⟨fun h => ?_, flatMap_encode_lt⟩
  rcases lt_trichotomy a.toList b.toList with hlt | heq | hgt
  · exact hlt
  · rw [heq] at h
    exact absurd h (List.lt_irrefl _)
  · exact absurd (flatMap_encode_lt hgt) (List.lt_asymm h)

end Typings.Text
