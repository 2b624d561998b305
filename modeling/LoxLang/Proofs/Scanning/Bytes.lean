import LoxLang.Source.Scanner
/-!
Characters and their bytes. The scanner looks at single bytes, each taken for a character. What it
asks of them singles out ASCII characters only, and no byte of another character is taken for one of
these; so going through the bytes of a text comes to the same as going through its characters.

What is proved: a question of this kind has the same answer for a character and for each of its
bytes (`seen_of_coarse`); the bytes that are gone over in a row are those of the characters that
would be (`takeWhile_encode`); and the bytes of a part of a text are taken for that part
(`slice?_eq`).
-/
namespace LoxLang

def encode (cs : List Char) : List UInt8 := cs.flatMap String.utf8EncodeChar

theorem encode_nil : encode [] = [] := rfl

theorem encode_cons (c : Char) (cs : List Char) :
    encode (c :: cs) = String.utf8EncodeChar c ++ encode cs := rfl

theorem encode_append (cs ds : List Char) : encode (cs ++ ds) = encode cs ++ encode ds :=
  List.flatMap_append

/-- The bytes that the scanner goes through are those of the characters of the source. -/
theorem bytes_ofSource (source : String) :
    (Scanner.ofSource source).bytes.toList = encode source.toList := by
  have bytes : source.toByteArray = source.toList.utf8Encode := by
    rw [← String.toByteArray_ofList, String.ofList_toList]
  show source.toByteArray.data.toList = _
  rw [bytes]
  simp [List.utf8Encode, encode]

/-! Bytes of a character -/

/-- A character of one byte. -/
def Ascii (c : Char) : Prop := c.toNat < 128

instance (c : Char) : Decidable (Ascii c) := inferInstanceAs (Decidable (c.toNat < 128))

theorem encode_ascii {c : Char} (h : Ascii c) :
    String.utf8EncodeChar c = [UInt8.ofNat c.toNat] := by
  have small : c.val.toNat ≤ 127 := Nat.le_of_lt_succ h
  rw [String.utf8EncodeChar.eq_1, if_pos small]
  rfl

theorem ofUInt8_ascii {c : Char} (h : Ascii c) : Char.ofUInt8 (UInt8.ofNat c.toNat) = c := by
  have small : c.toNat < 256 := Nat.lt_trans h (by decide)
  apply Char.ext
  apply UInt32.toNat_inj.mp
  show (UInt8.ofNat c.toNat).toUInt32.toNat = c.toNat
  rw [UInt8.toNat_toUInt32, UInt8.toNat_ofNat', Nat.mod_eq_of_lt small]

/-- The first byte of a character of several bytes, and the others, are none of ASCII characters. -/
theorem utf8EncodeChar_wide {c : Char} (h : ¬ Ascii c) : ∃ lead rest,
    String.utf8EncodeChar c = lead :: rest ∧ 192 ≤ lead.toNat ∧ ∀ b ∈ rest, 128 ≤ b.toNat := by
  have wide : ¬ c.val.toNat ≤ 127 := fun small => h (Nat.lt_succ_of_le small)
  have leading (n m : Nat) (fits : 192 + m ≤ 256) (less : n < m) :
      192 ≤ (UInt8.ofNat (n + 192)).toNat := by
    rw [UInt8.toNat_ofNat']
    omega
  have further (n : Nat) : 128 ≤ (UInt8.ofNat (n % 64 + 128)).toNat := by
    rw [UInt8.toNat_ofNat']
    omega
  rw [String.utf8EncodeChar.eq_1, if_neg wide]
  split
  · refine ⟨_, _, rfl, leading _ 32 (by omega) (Nat.mod_lt _ (by omega)), ?_⟩
    simp only [List.mem_singleton, forall_eq]
    exact further _
  split
  · refine ⟨_, _, rfl, leading (_ + 32) 48 (by omega) ?_, ?_⟩
    · have := Nat.mod_lt (c.val.toNat / 4096) (show 16 > 0 by omega)
      omega
    · simp only [List.mem_cons, List.not_mem_nil, or_false, forall_eq_or_imp, forall_eq]
      exact ⟨further _, further _⟩
  · refine ⟨_, _, rfl, leading (_ + 48) 56 (by omega) ?_, ?_⟩
    · have := Nat.mod_lt (c.val.toNat / 262144) (show 8 > 0 by omega)
      omega
    · simp only [List.mem_cons, List.not_mem_nil, or_false, forall_eq_or_imp, forall_eq]
      exact ⟨further _, further _, further _⟩

/-- A byte that is none of an ASCII character is not taken for one. -/
theorem not_ascii_ofUInt8 {b : UInt8} (h : 128 ≤ b.toNat) : ¬ Ascii (Char.ofUInt8 b) := by
  show ¬ b.toUInt32.toNat < 128
  rw [UInt8.toNat_toUInt32]
  exact Nat.not_lt.mpr h

/-- A question that has the same answer for all characters that are not ASCII. -/
def Coarse (p : Char → Bool) : Prop := ∃ k, ∀ c, ¬ Ascii c → p c = k

/-- Such a question has the same answer for a character and for each of its bytes. -/
theorem seen_of_coarse {p : Char → Bool} (h : Coarse p) {c : Char} {b : UInt8}
    (mem : b ∈ String.utf8EncodeChar c) : p (Char.ofUInt8 b) = p c := by
  by_cases ascii : Ascii c
  · rw [encode_ascii ascii, List.mem_singleton] at mem
    rw [mem, ofUInt8_ascii ascii]
  · obtain ⟨k, same⟩ := h
    obtain ⟨lead, rest, bytes, leads, further⟩ := utf8EncodeChar_wide ascii
    have high : 128 ≤ b.toNat := by
      rw [bytes] at mem
      rcases List.mem_cons.mp mem with rfl | mem
      · omega
      · exact further b mem
    rw [same c ascii, same _ (not_ascii_ofUInt8 high)]

theorem utf8EncodeChar_ne_nil (c : Char) : String.utf8EncodeChar c ≠ [] := by
  by_cases ascii : Ascii c
  · rw [encode_ascii ascii]
    exact List.cons_ne_nil _ _
  · obtain ⟨lead, rest, bytes, _⟩ := utf8EncodeChar_wide ascii
    rw [bytes]
    exact List.cons_ne_nil _ _

theorem encode_ne_nil {cs : List Char} (h : cs ≠ []) : encode cs ≠ [] := by
  cases cs with
  | nil => exact (h rfl).elim
  | cons c cs =>
    rw [encode_cons]
    exact List.append_ne_nil_of_left_ne_nil (utf8EncodeChar_ne_nil c) _

/-- A question about one ASCII character, or about none of the others. -/
theorem coarse_of_ascii {p : Char → Bool} (h : ∀ c, p c = true → Ascii c) : Coarse p :=
  ⟨false, fun c wide => Bool.eq_false_iff.mpr fun yes => wide (h c yes)⟩

theorem coarse_eq {x : Char} (h : Ascii x) : Coarse (· == x) :=
  coarse_of_ascii fun _ same => eq_of_beq same ▸ h

theorem Coarse.not {p : Char → Bool} (h : Coarse p) : Coarse fun c => !p c := by
  obtain ⟨k, same⟩ := h
  exact ⟨!k, fun c wide => congrArg (!·) (same c wide)⟩

/-! Rows of bytes -/

section

variable {p : Char → Bool} (h : Coarse p)

include h

/-- The bytes in a row that are of some kind are those of the characters in a row that are. -/
theorem takeWhile_encode : ∀ cs : List Char,
    (encode cs).takeWhile (fun b => p (Char.ofUInt8 b)) = encode (cs.takeWhile p)
  | [] => rfl
  | c :: cs => by
    have same := fun b mem => seen_of_coarse h (c := c) (b := b) mem
    rw [encode_cons, List.takeWhile_cons]
    split
    · rename_i yes
      rw [List.takeWhile_append_of_pos fun b mem => (same b mem).trans yes, takeWhile_encode cs]
      rfl
    · rename_i no
      cases bytes : String.utf8EncodeChar c with
      | nil => exact (utf8EncodeChar_ne_nil c bytes).elim
      | cons b bs =>
        have first := same b (bytes ▸ List.mem_cons_self)
        rw [List.cons_append, List.takeWhile_cons, first, if_neg no]
        rfl

end

theorem countP_encode {x : Char} (h : Ascii x) : ∀ cs : List Char,
    (encode cs).countP (fun b => Char.ofUInt8 b == x) = cs.countP (· == x)
  | [] => rfl
  | c :: cs => by
    have first : (String.utf8EncodeChar c).countP (fun b => Char.ofUInt8 b == x) =
        if c == x then 1 else 0 := by
      by_cases ascii : Ascii c
      · rw [encode_ascii ascii, List.countP_singleton, ofUInt8_ascii ascii]
      · have other : (c == x) = false := beq_false_of_ne fun same => ascii (same ▸ h)
        rw [other, List.countP_eq_zero.mpr]
        · rfl
        · intro b mem
          rw [seen_of_coarse (coarse_eq h) mem, other]
          exact Bool.false_ne_true
    rw [encode_cons, List.countP_append, first, countP_encode h cs, List.countP_cons]
    omega

/-! Parts of a text -/

namespace Scanner

variable {s : Scanner} {i j : Nat}

theorem seen_eq (s : Scanner) (i : Nat) : s.seen i = Char.ofUInt8 (s.bytes.toList[i]?.getD 0) := by
  rw [seen, Array.getElem?_toList]

/-- The places between characters are those where the scanner may cut. -/
theorem isBoundary_of_bytes {a b : List Char} (bytes : s.bytes.toList = encode a ++ encode b) :
    s.isBoundary (encode a).length = true := by
  unfold isBoundary
  rw [← Array.getElem?_toList, bytes, List.getElem?_append_right (Nat.le_refl _), Nat.sub_self]
  cases b with
  | nil =>
    have size := congrArg List.length bytes
    rw [Array.length_toList, List.length_append] at size
    simpa [encode] using size.symm
  | cons c cs =>
    by_cases ascii : Ascii c
    · have low : UInt8.ofNat c.toNat < 128 := by
        unfold Ascii at ascii
        rw [UInt8.lt_iff_toNat_lt, UInt8.toNat_ofNat']
        exact Nat.lt_of_le_of_lt (Nat.mod_le _ _) ascii
      simp [encode_cons, encode_ascii ascii, low]
    · obtain ⟨lead, rest, eq, leads, _⟩ := utf8EncodeChar_wide ascii
      have high : 192 ≤ lead := UInt8.le_iff_toNat_le.mpr leads
      simp [encode_cons, eq, high]

theorem slice?_eq {a text b : List Char}
    (bytes : s.bytes.toList = encode a ++ encode text ++ encode b) :
    s.slice? (encode a).length ((encode a).length + (encode text).length) =
      some (String.ofList text) := by
  have first : s.isBoundary (encode a).length = true := by
    refine isBoundary_of_bytes (b := text ++ b) ?_
    rw [bytes, encode_append, List.append_assoc]
  have last : s.isBoundary ((encode a).length + (encode text).length) = true := by
    rw [← List.length_append, ← encode_append]
    refine isBoundary_of_bytes (b := b) ?_
    rw [bytes, encode_append]
  have part : (⟨s.bytes.extract (encode a).length
      ((encode a).length + (encode text).length)⟩ : ByteArray) = text.utf8Encode := by
    apply ByteArray.ext
    apply Array.toList_inj.mp
    rw [Array.toList_extract, bytes]
    simp [List.utf8Encode, encode]
  unfold slice?
  rw [if_pos ⟨Nat.le_add_right _ _, first, last⟩, part]
  unfold String.fromUTF8?
  rw [dif_pos ⟨text, rfl⟩]
  rfl

end Scanner

end LoxLang
