import Mathlib.Data.List.Lex
import Mathlib.Tactic.SplitIfs
import Pedigree.Text.Utf8

/-!
# The order of bytes

Texts compare by code points. In UTF-8 the first byte of a character tells how many bytes follow,
longer characters have greater first bytes, and the bytes of two characters of one length are the
digits of their code points. So a character with a smaller code point has smaller bytes, whatever
follows it (`Text.lex_utf8EncodeChar_append`), and texts compare just as their bytes do
(`Text.lt_iff_lex_bytes`).

The bytes of a text are read as this text and no other (`Text.decode?_eq_some_iff`), and the byte of
an ASCII character stands for nothing else, so it occurs only where its character does
(`Text.notMem_bytes`).
-/

namespace Pedigree.Text

/-- The bytes of a text in UTF-8. -/
def bytes (text : List Char) : List UInt8 := text.flatMap String.utf8EncodeChar

theorem toList_toUTF8 (s : String) : s.toUTF8.data.toList = bytes s.toList := by
  rw [String.toUTF8_eq_toByteArray, ← String.utf8Encode_toList, List.utf8Encode,
    List.toList_data_toByteArray, bytes]

theorem bytes_ne_nil {text : List Char} (h : text ≠ []) : bytes text ≠ [] := by
  obtain ⟨c, rest, rfl⟩ := List.exists_cons_of_ne_nil h
  rw [bytes, List.flatMap_cons]
  exact fun hnil => String.utf8EncodeChar_ne_nil (List.append_eq_nil_iff.1 hnil).1

theorem toNat_val_lt (c : Char) : c.val.toNat < 0x110000 := by
  rcases c.valid with h | h <;> omega

/-- Characters differ in their bytes the way they differ in their code points. -/
theorem lex_utf8EncodeChar_append {c d : Char} (h : c < d) (more more' : List UInt8) :
    List.Lex (· < ·) (String.utf8EncodeChar c ++ more) (String.utf8EncodeChar d ++ more') := by
  have hval : c.val.toNat < d.val.toNat := h
  have hc := toNat_val_lt c
  have hd := toNat_val_lt d
  -- Written with single steps of base 64, the digits of a code point add up to it for `omega`.
  have htwo (n : Nat) : n / 4096 = n / 64 / 64 := by omega
  have hthree (n : Nat) : n / 262144 = n / 64 / 64 / 64 := by omega
  simp only [String.utf8EncodeChar, htwo, hthree]
  generalize c.val.toNat = m at *
  generalize d.val.toNat = n at *
  split_ifs <;>
    simp only [List.cons_append, List.cons_lex_cons_iff, UInt8.lt_iff_toNat_lt, ← UInt8.toNat_inj,
      UInt8.toNat_ofNat', Nat.reducePow] <;>
    simp (disch := omega) only [Nat.mod_eq_of_lt (b := 256)] <;>
    omega

theorem lex_bytes {text text' : List Char} (h : List.Lex (· < ·) text text') :
    List.Lex (· < ·) (bytes text) (bytes text') := by
  induction h with
  | @nil c rest =>
    obtain ⟨byte, bytes', hbytes⟩ := List.exists_cons_of_ne_nil
      (bytes_ne_nil (List.cons_ne_nil c rest))
    rw [hbytes]
    exact .nil
  | @cons c rest rest' _ ih =>
    simp only [bytes, List.flatMap_cons]
    exact List.Lex.append_left _ ih _
  | rel h =>
    simp only [bytes, List.flatMap_cons]
    exact lex_utf8EncodeChar_append h _ _

/-- Texts compare as their bytes do. -/
theorem lt_iff_lex_bytes {s t : String} :
    s < t ↔ List.Lex (· < ·) s.toUTF8.data.toList t.toUTF8.data.toList := by
  rw [toList_toUTF8, toList_toUTF8]
  refine ⟨lex_bytes, fun h => ?_⟩
  by_contra hnot
  by_cases hle : s ≤ t
  · obtain rfl := String.le_antisymm hle (String.not_lt.1 hnot)
    exact List.lex_irrefl (fun byte => UInt8.lt_irrefl byte) _ h
  · exact List.lex_asymm (fun hlt => UInt8.lt_asymm hlt) h (lex_bytes (String.not_le.1 hle))

/-! ## Texts and bytes -/

@[simp] theorem bytes_append (before after : List Char) :
    bytes (before ++ after) = bytes before ++ bytes after := List.flatMap_append ..

/-- Bytes that are read as a text are the bytes of this text. -/
theorem decode?_eq_some_iff {encoded : ByteArray} {s : String} :
    decode? encoded = some s ↔ encoded = s.toUTF8 := by
  unfold decode? String.fromUTF8?
  split
  · rename_i hvalid
    rw [Option.some.injEq]
    constructor
    · rintro rfl
      rfl
    · rintro rfl
      rfl
  · rename_i hinvalid
    refine ⟨nofun, ?_⟩
    rintro rfl
    exact absurd s.isValidUTF8 hinvalid

theorem decode?_bytes (text : List Char) :
    decode? (bytes text).toByteArray = some (String.ofList text) :=
  decode?_eq_some_iff.2 rfl

/-- All bytes of a character that is not ASCII lie above ASCII. -/
theorem le_of_mem_utf8EncodeChar {c : Char} (h : 127 < c.val.toNat) :
    ∀ byte ∈ String.utf8EncodeChar c, 128 ≤ byte.toNat := by
  simp only [String.utf8EncodeChar, if_neg (Nat.not_le.2 h)]
  split_ifs <;>
    simp only [List.forall_mem_cons, UInt8.toNat_ofNat', List.not_mem_nil, false_imp_iff,
      implies_true, and_true] <;> omega

/-- The byte of an ASCII character stands for this character only. -/
theorem eq_of_mem_utf8EncodeChar {c d : Char} (hd : d.val.toNat ≤ 127)
    (h : d.val.toNat.toUInt8 ∈ String.utf8EncodeChar c) : c = d := by
  have htoNat : d.val.toNat.toUInt8.toNat = d.val.toNat := by
    rw [UInt8.toNat_ofNat']
    omega
  have hascii : c.val.toNat ≤ 127 := by
    by_contra hnot
    have := le_of_mem_utf8EncodeChar (Nat.not_le.1 hnot) _ h
    omega
  rw [String.utf8EncodeChar, if_pos hascii, List.mem_singleton] at h
  have hbyte := congrArg UInt8.toNat h
  rw [htoNat, UInt8.toNat_ofNat'] at hbyte
  exact Char.ext (UInt32.toNat_inj.1 (by omega))

/-- A text without an ASCII character has no byte of it. -/
theorem notMem_bytes {d : Char} (hd : d.val.toNat ≤ 127) {text : List Char} (h : d ∉ text) :
    d.val.toNat.toUInt8 ∉ bytes text := by
  intro hmem
  obtain ⟨c, hc, hbyte⟩ := List.mem_flatMap.1 hmem
  exact h (eq_of_mem_utf8EncodeChar hd hbyte ▸ hc)

end Pedigree.Text
