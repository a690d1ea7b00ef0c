import Alpm.Keyid.Extract

/-!
# Decoding a signature

A repository stores the signature of a package as base64 text, which `base64.c` reads.  The text may
be broken into lines anywhere.

## 1.  Two readings

The text is read twice, once to see that it is valid and to count its symbols and once to store the
bytes, and the second reading trusts the first.  It stores three bytes after every four symbols and
has no bound of its own, so that it stays inside of the buffer is a matter of the count of the first
(`length_storeBytes_le`).

## 2.  Reading back what was encoded

The encoder is the one of the same file.  It is compiled out there; here it says what text the
decoder has to read back.  A signature that was encoded and broken into lines anywhere is decoded as
it was (`decodeSignature_of_encoded`).

## 3.  Which texts are accepted

`decodeSignature_spec` is about any text.  It is accepted if and only if it has symbols and at most
two pads at its end, in lines, and the bytes of the symbols begun fit into the buffer.  What is
reported as decoded may then be more than what was stored: a text of line ends alone leaves the
length as it was set before (`decodeSignature_spec_lines`).
-/

namespace Alpm.Base64

open Keyid (sizeT)

def cr : UInt8 := 13

def lf : UInt8 := 10

/-- The `=` that fills up the last four symbols. -/
def pad : UInt8 := 61

/-- `base64_enc_map`. -/
def encMap : List UInt8 :=
  "ABCDEFGHIJKLMNOPQRSTUVWXYZabcdefghijklmnopqrstuvwxyz0123456789+/".toList.map
    fun c => c.toNat.toUInt8

/-- `base64_dec_map`. -/
def decMap : List ℕ :=
  [127, 127, 127, 127, 127, 127, 127, 127, 127, 127,
    127, 127, 127, 127, 127, 127, 127, 127, 127, 127,
    127, 127, 127, 127, 127, 127, 127, 127, 127, 127,
    127, 127, 127, 127, 127, 127, 127, 127, 127, 127,
    127, 127, 127,  62, 127, 127, 127,  63,  52,  53,
     54,  55,  56,  57,  58,  59,  60,  61, 127, 127,
    127,  64, 127, 127, 127,   0,   1,   2,   3,   4,
      5,   6,   7,   8,   9,  10,  11,  12,  13,  14,
     15,  16,  17,  18,  19,  20,  21,  22,  23,  24,
     25, 127, 127, 127, 127, 127, 127,  26,  27,  28,
     29,  30,  31,  32,  33,  34,  35,  36,  37,  38,
     39,  40,  41,  42,  43,  44,  45,  46,  47,  48,
     49,  50,  51, 127, 127, 127, 127, 127]

/-- `base64_dec_map[c]`, for a byte of the table. -/
def value (c : UInt8) : ℕ := decMap.getD c.toNat 127

/-- `base64_enc_map[n]`, for an index of the table. -/
def symbol (n : ℕ) : UInt8 := encMap.getD n pad

/-- What the two functions of `base64.c` return, with what they have stored and `*dlen`. -/
inductive Result where
  | invalidCharacter
  | bufferTooSmall (dlen : ℕ)
  | ok (stored : List UInt8) (dlen : ℕ)
  deriving DecidableEq, Repr

/-! ## The decoder -/

/-- `j` after `src[i] == '=' && ++j > 2`. -/
def countPads (c : UInt8) (j : ℕ) : ℕ := if c = pad then j + 1 else j

/-- The first loop of `base64_decode`: `j` counts the pads and `n` the symbols.  It skips line ends,
and refuses any other byte that is no symbol, a symbol behind a pad and a third pad. -/
def countSymbols : List UInt8 → ℕ → ℕ → Option ℕ
  | [], _, n => some n
  | c :: src, j, n =>
    if c = cr ∧ src.head? = some lf then countSymbols src j n
    else if c = lf then countSymbols src j n
    else if c = pad ∧ countPads c j > 2 then none
    else if c > 127 ∨ value c = 127 then none
    else if value c < 64 ∧ countPads c j ≠ 0 then none
    else countSymbols src (countPads c j) (n + 1)

/-- `j -= ( base64_dec_map[*src] == 64 )`.  After the first loop there are at most two pads, so
`j` begins at three and never falls below one. -/
def dropPad (c : UInt8) (j : ℕ) : ℕ := if value c = 64 then j - 1 else j

/-- `(x << 6) | ( base64_dec_map[*src] & 0x3F )`. -/
def shiftIn (c : UInt8) (x : UInt32) : UInt32 := x <<< 6 ||| (value c).toUInt32 &&& 0x3F

/-- What the second loop stores after every fourth symbol. -/
def storeQuad (j : ℕ) (x : UInt32) : List UInt8 :=
  (if j > 0 then [(x >>> 16).toUInt8] else []) ++
    (if j > 1 then [(x >>> 8).toUInt8] else []) ++ (if j > 2 then [x.toUInt8] else [])

/-- The second loop of `base64_decode`. -/
def storeBytes : List UInt8 → ℕ → ℕ → UInt32 → List UInt8
  | [], _, _, _ => []
  | c :: src, j, n, x =>
    if c = cr ∨ c = lf then storeBytes src j n x
    else if n + 1 = 4 then
      storeQuad (dropPad c j) (shiftIn c x) ++ storeBytes src (dropPad c j) 0 (shiftIn c x)
    else storeBytes src (dropPad c j) (n + 1) (shiftIn c x)

/-- `base64_decode`, for a buffer of `dlen` bytes.  A text without a symbol leaves `*dlen` as it
is. -/
def base64Decode (dlen : ℕ) (src : List UInt8) : Result :=
  match countSymbols src 0 0 with
  | none => .invalidCharacter
  | some n =>
    if n = 0 then .ok [] dlen
    else
      let n := sizeT (sizeT (n * 6) + 7) / 8
      if dlen < n then .bufferTooSmall n
      else
        let stored := storeBytes src 3 0 0
        .ok stored stored.length

/-- What `alpm_decode_signature` hands out: the size of the buffer, the bytes stored at its
beginning and `*data_len`. -/
structure Decoded where
  allocated : ℕ
  stored : List UInt8
  dataLen : ℕ
  deriving DecidableEq, Repr

/-- `alpm_decode_signature`. -/
def decodeSignature (base64Data : List UInt8) : Option Decoded :=
  let destlen := sizeT (base64Data.length * 3) / 4
  match base64Decode destlen base64Data with
  | .ok stored dlen => some ⟨destlen, stored, dlen⟩
  | .invalidCharacter => none
  | .bufferTooSmall _ => none

/-! ## The encoder -/

/-- The loop of `base64_encode` and what follows it for the one or two bytes left over. -/
def encodeBytes : List UInt8 → List UInt8
  | [] => []
  | [c₁] =>
    -- `C2` is zero
    [symbol (c₁.toNat >>> 2 &&& 0x3F), symbol ((c₁.toNat &&& 3) <<< 4 &&& 0x3F), pad, pad]
  | [c₁, c₂] =>
    [symbol (c₁.toNat >>> 2 &&& 0x3F),
      symbol ((c₁.toNat &&& 3) <<< 4 + c₂.toNat >>> 4 &&& 0x3F),
      symbol ((c₂.toNat &&& 15) <<< 2 &&& 0x3F), pad]
  | c₁ :: c₂ :: c₃ :: src =>
    symbol (c₁.toNat >>> 2 &&& 0x3F) ::
      symbol ((c₁.toNat &&& 3) <<< 4 + c₂.toNat >>> 4 &&& 0x3F) ::
      symbol ((c₂.toNat &&& 15) <<< 2 + c₃.toNat >>> 6 &&& 0x3F) ::
      symbol (c₃.toNat &&& 0x3F) :: encodeBytes src

/-- The number of symbols that `base64_encode` expects to write. -/
def encodedLength (slen : ℕ) : ℕ :=
  let bits := sizeT (slen * 8)
  let n := bits / 6
  match bits - n * 6 with
  | 2 => n + 3
  | 4 => n + 2
  | _ => n

/-- `base64_encode`, for a buffer of `dlen` bytes. -/
def base64Encode (dlen : ℕ) (src : List UInt8) : Result :=
  if src.length = 0 then .ok [] dlen
  else if dlen < encodedLength src.length + 1 then .bufferTooSmall (encodedLength src.length + 1)
  else
    let stored := encodeBytes src
    .ok stored stored.length

/-! ## Texts in lines -/

/-- The text broken into lines: a line end, LF or CR LF, may stand anywhere. -/
inductive Broken : List UInt8 → List UInt8 → Prop
  | nil : Broken [] []
  | symbol {text src : List UInt8} (c : UInt8) : Broken text src → Broken (c :: text) (c :: src)
  | lf {text src : List UInt8} : Broken text src → Broken text (lf :: src)
  | crlf {text src : List UInt8} : Broken text src → Broken text (cr :: lf :: src)

/-- A byte of a line end. -/
def IsLineEnd (c : UInt8) : Prop := c = cr ∨ c = lf

instance (c : UInt8) : Decidable (IsLineEnd c) := inferInstanceAs (Decidable (c = cr ∨ c = lf))

theorem value_lineEnd {c : UInt8} (h : IsLineEnd c) : value c = 127 := by
  rcases h with rfl | rfl <;> rfl

theorem not_isLineEnd_of_value {c : UInt8} (h : value c ≠ 127) : ¬IsLineEnd c :=
  fun hc => h (value_lineEnd hc)

/-! ## The two tables -/

theorem value_symbol : ∀ n < 64, value (symbol n) = n := by decide +kernel

/-- What the table holds for a byte: nothing, the value of a symbol or the mark of the pad. -/
theorem value_cases : ∀ c : UInt8, value c = 127 ∧ c ≠ pad ∨ value c < 64 ∧ c ≠ pad ∧ ¬c > 127 ∨
    value c = 64 ∧ c = pad := by
  decide +kernel

@[simp] theorem value_pad : value pad = 64 := rfl

/-! ## The first loop -/

/-- A byte inside a line passes as a symbol before the pads, or as one of two pads. -/
theorem countSymbols_cons {c : UInt8} (hc : ¬IsLineEnd c) (src : List UInt8) (j n : ℕ) :
    countSymbols (c :: src) j n =
      if value c < 64 ∧ j = 0 then countSymbols src 0 (n + 1)
      else if c = pad ∧ j < 2 then countSymbols src (j + 1) (n + 1)
      else none := by
  obtain ⟨hcr, hlf⟩ : ¬c = cr ∧ ¬c = lf := not_or.mp hc
  simp only [countSymbols, hcr, hlf, false_and, if_false, countPads]
  obtain ⟨hvalue, hpad⟩ | ⟨hvalue, hpad, hle⟩ | ⟨hvalue, rfl⟩ := value_cases c
  · simp [hvalue, hpad]
  · by_cases hj : j = 0
    · simp [hpad, hvalue, hvalue.trans (by decide : 64 < 127) |>.ne, hj, hle]
    · simp [hpad, hvalue, hj]
  · by_cases hj : j < 2
    · simp [hj, show ¬2 < j + 1 by omega, show ¬pad > 127 by decide]
    · simp [hj, show 2 < j + 1 by omega]

/-- The line ends are not counted. -/
theorem countSymbols_broken {text src : List UInt8} (hb : Broken text src)
    (htext : ∀ c ∈ text, ¬IsLineEnd c) (j n : ℕ) :
    countSymbols src j n = countSymbols text j n := by
  induction hb generalizing j n with
  | nil => rfl
  | symbol c hb ih =>
    obtain ⟨hc, htext⟩ := List.forall_mem_cons.mp htext
    simp only [countSymbols_cons hc, ih htext]
  | lf hb ih => simpa [countSymbols, show ¬lf = cr by decide] using ih htext j n
  | crlf hb ih => simpa [countSymbols, show ¬lf = cr by decide] using ih htext j n

/-- A text that passes has its line ends where lines end. -/
theorem broken_of_countSymbols {src : List UInt8} {j n m : ℕ} (h : countSymbols src j n = some m) :
    ∃ text, Broken text src ∧ ∀ c ∈ text, ¬IsLineEnd c := by
  induction src generalizing j n with
  | nil => exact ⟨[], .nil, by simp⟩
  | cons c src ih =>
    by_cases hcrlf : c = cr ∧ src.head? = some lf
    · obtain ⟨rfl, hhead⟩ := hcrlf
      obtain ⟨rest, rfl⟩ := List.head?_eq_some_iff.mp hhead
      rw [countSymbols, if_pos ⟨rfl, hhead⟩] at h
      obtain ⟨text, hb, htext⟩ := ih h
      cases hb with
      | symbol => exact absurd (Or.inr rfl) (htext lf (by simp))
      | lf hb => exact ⟨text, .crlf hb, htext⟩
    · by_cases hlf : c = lf
      · subst hlf
        rw [countSymbols, if_neg hcrlf, if_pos rfl] at h
        obtain ⟨text, hb, htext⟩ := ih h
        exact ⟨text, .lf hb, htext⟩
      · have hc : ¬IsLineEnd c := by
          rintro (rfl | rfl)
          · rw [countSymbols, if_neg hcrlf, if_neg hlf, if_neg (by simp [show ¬cr = pad by decide]),
              if_pos (Or.inr (value_lineEnd (Or.inl rfl)))] at h
            cases h
          · exact hlf rfl
        obtain ⟨j', n', hrest⟩ : ∃ j' n', countSymbols src j' n' = some m := by
          rw [countSymbols_cons hc] at h
          split_ifs at h
          · exact ⟨_, _, h⟩
          · exact ⟨_, _, h⟩
        obtain ⟨text, hb, htext⟩ := ih hrest
        exact ⟨c :: text, .symbol c hb, List.forall_mem_cons.mpr ⟨hc, htext⟩⟩

/-- The pads of a text stand at its end. -/
def Padded (text : List UInt8) (pads : ℕ) : Prop :=
  ∃ symbols, text = symbols ++ List.replicate pads pad ∧ ∀ c ∈ symbols, value c < 64

theorem padded_cons {c : UInt8} {text : List UInt8} {pads : ℕ} :
    Padded (c :: text) pads ↔ value c < 64 ∧ Padded text pads ∨
      c = pad ∧ text = List.replicate text.length pad ∧ pads = text.length + 1 := by
  constructor
  · rintro ⟨symbols, heq, hsymbols⟩
    cases symbols with
    | nil =>
      rw [List.nil_append] at heq
      obtain ⟨hlength, hall⟩ := List.eq_replicate_iff.mp heq
      exact Or.inr ⟨hall c (by simp), List.eq_replicate_iff.mpr
        ⟨rfl, fun d hd => hall d (List.mem_cons_of_mem c hd)⟩, hlength.symm⟩
    | cons d symbols =>
      obtain ⟨rfl, rfl⟩ := List.cons.inj heq
      obtain ⟨hd, hsymbols⟩ := List.forall_mem_cons.mp hsymbols
      exact Or.inl ⟨hd, symbols, rfl, hsymbols⟩
  · rintro (⟨hc, symbols, rfl, hsymbols⟩ | ⟨rfl, htext, rfl⟩)
    · exact ⟨c :: symbols, rfl, List.forall_mem_cons.mpr ⟨hc, hsymbols⟩⟩
    · refine ⟨[], ?_, by simp⟩
      rw [List.nil_append, List.replicate_succ, ← htext]

theorem countSymbols_pads {text : List UInt8} {j n m : ℕ} (htext : ∀ c ∈ text, ¬IsLineEnd c)
    (hj : j ≠ 0) (hle : j ≤ 2) : countSymbols text j n = some m ↔
      text = List.replicate text.length pad ∧ j + text.length ≤ 2 ∧ m = n + text.length := by
  induction text generalizing j n with
  | nil => simp [countSymbols, eq_comm, hle]
  | cons c text ih =>
    obtain ⟨hc, htext⟩ := List.forall_mem_cons.mp htext
    rw [countSymbols_cons hc, if_neg fun h => hj h.2]
    split_ifs with hpad
    · rw [ih htext (Nat.succ_ne_zero j) hpad.2]
      simp only [List.length_cons, List.replicate_succ, List.cons.injEq, hpad.1, true_and]
      exact and_congr_right fun _ => by omega
    · refine iff_of_false (by simp) ?_
      rintro ⟨heq, hlength, -⟩
      simp only [List.length_cons, List.replicate_succ, List.cons.injEq] at heq hlength
      exact hpad ⟨heq.1, by omega⟩

/-- The first loop accepts symbols, then at most two pads, and counts them all. -/
theorem countSymbols_iff {text : List UInt8} {n m : ℕ} (htext : ∀ c ∈ text, ¬IsLineEnd c) :
    countSymbols text 0 n = some m ↔ (∃ pads ≤ 2, Padded text pads) ∧ m = n + text.length := by
  induction text generalizing n with
  | nil =>
    have hpadded : ∃ pads ≤ 2, Padded [] pads := ⟨0, by omega, [], rfl, by simp⟩
    simp only [countSymbols, Option.some.injEq, hpadded, true_and, List.length_nil, add_zero]
    exact eq_comm
  | cons c text ih =>
    obtain ⟨hc, htext⟩ := List.forall_mem_cons.mp htext
    simp only [padded_cons, countSymbols_cons hc, List.length_cons, and_true, Nat.zero_lt_two]
    split_ifs with hsymbol hpad
    · have hne : c ≠ pad := by rintro rfl; simp at hsymbol
      simp only [hsymbol, hne, true_and, false_and, or_false, ih htext]
      exact and_congr_right fun _ => by omega
    · rw [countSymbols_pads htext (by omega) (by omega)]
      simp only [hpad, value_pad, lt_irrefl, false_and, false_or, true_and]
      constructor
      · rintro ⟨heq, hle, hm⟩
        exact ⟨⟨text.length + 1, by omega, heq, rfl⟩, by omega⟩
      · rintro ⟨⟨pads, hle, heq, rfl⟩, hm⟩
        exact ⟨heq, by omega, by omega⟩
    · simp [hsymbol, hpad]

/-! ## The second loop -/

theorem storeBytes_broken {text src : List UInt8} (hb : Broken text src)
    (htext : ∀ c ∈ text, ¬IsLineEnd c) (j n : ℕ) (x : UInt32) :
    storeBytes src j n x = storeBytes text j n x := by
  induction hb generalizing j n x with
  | nil => rfl
  | symbol c hb ih =>
    obtain ⟨hc, htext⟩ := List.forall_mem_cons.mp htext
    rw [IsLineEnd] at hc
    simp only [storeBytes, if_neg hc, ih htext]
  | lf hb ih => simpa [storeBytes] using ih htext j n x
  | crlf hb ih => simpa [storeBytes] using ih htext j n x

theorem length_storeQuad_le (j : ℕ) (x : UInt32) : (storeQuad j x).length ≤ 3 := by
  unfold storeQuad
  split_ifs <;> simp

/-- Four symbols give at most three bytes. -/
theorem length_storeBytes_le (src : List UInt8) (j n : ℕ) (x : UInt32) (hn : n < 4) :
    4 * (storeBytes src j n x).length ≤ 3 * (n + src.length) := by
  induction src generalizing j n x with
  | nil => simp [storeBytes]
  | cons c src ih =>
    rw [storeBytes, List.length_cons]
    split_ifs with hc hlast
    · exact (ih j n x hn).trans (by omega)
    · have hquad := length_storeQuad_le (dropPad c j) (shiftIn c x)
      have hrest := ih (dropPad c j) 0 (shiftIn c x) (by omega)
      rw [List.length_append]
      omega
    · have hrest := ih (dropPad c j) (n + 1) (shiftIn c x) (by omega)
      omega

/-! ### Four symbols -/

theorem toNat_shiftIn (c : UInt8) (x : UInt32) :
    (shiftIn c x).toNat = x.toNat * 64 % 2 ^ 32 + value c % 64 := by
  have hvalue : ((value c).toUInt32 &&& 0x3F).toNat = value c % 64 := by
    have hle : value c ≤ 127 := by
      obtain ⟨h, -⟩ | ⟨h, -⟩ | ⟨h, -⟩ := value_cases c <;> omega
    rw [UInt32.toNat_and, UInt32.toNat_ofNat_of_lt' (hle.trans_lt (by decide))]
    exact Nat.and_two_pow_sub_one_eq_mod _ 6
  have hshift : (x <<< 6).toNat = x.toNat * 64 % 2 ^ 32 := by
    rw [UInt32.toNat_shiftLeft, Nat.shiftLeft_eq]
    rfl
  rw [shiftIn, UInt32.toNat_or, hvalue, hshift, show (2 : ℕ) ^ 32 = 2 ^ 26 * 64 from rfl,
    Nat.mul_mod_mul_right, Nat.mul_comm]
  exact (Nat.two_pow_add_eq_or_of_lt (i := 6) (Nat.mod_lt _ (by decide)) _).symm

theorem toUInt8_eq {y : UInt32} {n : ℕ} (h : y.toNat % 256 = n % 256) : y.toUInt8 = n.toUInt8 := by
  apply UInt8.toNat_inj.mp
  rw [UInt32.toNat_toUInt8]
  exact h.trans UInt8.toNat_ofNat'.symm

/-- After four symbols the low three bytes of `x` come from these alone. -/
theorem storeQuad_shiftIn (c₁ c₂ c₃ c₄ : UInt8) (j : ℕ) (x : UInt32) :
    storeQuad j (shiftIn c₄ (shiftIn c₃ (shiftIn c₂ (shiftIn c₁ x)))) =
      [(value c₁ % 64 * 4 + value c₂ % 64 / 16).toUInt8,
        (value c₂ % 64 * 16 + value c₃ % 64 / 4).toUInt8,
        (value c₃ % 64 * 64 + value c₄ % 64).toUInt8].take j := by
  set y := shiftIn c₄ (shiftIn c₃ (shiftIn c₂ (shiftIn c₁ x))) with hy
  have hnat : y.toNat % 2 ^ 24 =
      value c₁ % 64 * 2 ^ 18 + value c₂ % 64 * 2 ^ 12 + value c₃ % 64 * 64 + value c₄ % 64 := by
    simp only [hy, toNat_shiftIn]
    omega
  have h16 : (y >>> 16).toNat = y.toNat / 65536 := by
    rw [UInt32.toNat_shiftRight, Nat.shiftRight_eq_div_pow]
    rfl
  have h8 : (y >>> 8).toNat = y.toNat / 256 := by
    rw [UInt32.toNat_shiftRight, Nat.shiftRight_eq_div_pow]
    rfl
  rw [storeQuad,
    toUInt8_eq (y := y >>> 16) (n := value c₁ % 64 * 4 + value c₂ % 64 / 16) (by omega),
    toUInt8_eq (y := y >>> 8) (n := value c₂ % 64 * 16 + value c₃ % 64 / 4) (by omega),
    toUInt8_eq (y := y) (n := value c₃ % 64 * 64 + value c₄ % 64) (by omega)]
  match j with
  | 0 => rfl
  | 1 => rfl
  | 2 => rfl
  | j + 3 => simp

/-- Four symbols in one step. -/
theorem storeBytes_quad {c₁ c₂ c₃ c₄ : UInt8} (h₁ : ¬IsLineEnd c₁) (h₂ : ¬IsLineEnd c₂)
    (h₃ : ¬IsLineEnd c₃) (h₄ : ¬IsLineEnd c₄) (src : List UInt8) (j : ℕ) (x : UInt32) :
    ∃ x', storeBytes (c₁ :: c₂ :: c₃ :: c₄ :: src) j 0 x =
      [(value c₁ % 64 * 4 + value c₂ % 64 / 16).toUInt8,
        (value c₂ % 64 * 16 + value c₃ % 64 / 4).toUInt8,
        (value c₃ % 64 * 64 + value c₄ % 64).toUInt8].take
          (dropPad c₄ (dropPad c₃ (dropPad c₂ (dropPad c₁ j)))) ++
        storeBytes src (dropPad c₄ (dropPad c₃ (dropPad c₂ (dropPad c₁ j)))) 0 x' := by
  refine ⟨shiftIn c₄ (shiftIn c₃ (shiftIn c₂ (shiftIn c₁ x))), ?_⟩
  rw [← storeQuad_shiftIn c₁ c₂ c₃ c₄ _ x]
  rw [IsLineEnd] at h₁ h₂ h₃ h₄
  simp only [storeBytes, h₁, h₂, h₃, h₄, if_false, Nat.reduceAdd, Nat.reduceEqDiff, if_true]

/-! ## Reading back what was encoded -/

theorem value_symbol_and (n : ℕ) : value (symbol (n &&& 0x3F)) = n % 64 := by
  rw [show n &&& 0x3F = n % 64 from Nat.and_two_pow_sub_one_eq_mod n 6]
  exact value_symbol _ (Nat.mod_lt n (by decide))

/-- The encoder writes symbols, then at most two pads. -/
theorem padded_encodeBytes (src : List UInt8) : ∃ pads ≤ 2, Padded (encodeBytes src) pads := by
  induction src using encodeBytes.induct with
  | case1 => exact ⟨0, by decide, [], rfl, by simp⟩
  | case2 c₁ =>
    refine ⟨2, le_rfl, [_, _], rfl, ?_⟩
    simp only [List.forall_mem_cons, value_symbol_and]
    exact ⟨Nat.mod_lt _ (by decide), Nat.mod_lt _ (by decide), by simp⟩
  | case3 c₁ c₂ =>
    refine ⟨1, by decide, [_, _, _], rfl, ?_⟩
    simp only [List.forall_mem_cons, value_symbol_and]
    exact ⟨Nat.mod_lt _ (by decide), Nat.mod_lt _ (by decide), Nat.mod_lt _ (by decide), by simp⟩
  | case4 c₁ c₂ c₃ src ih =>
    obtain ⟨pads, hle, hpadded⟩ := ih
    refine ⟨pads, hle, ?_⟩
    simp only [encodeBytes, padded_cons, value_symbol_and, hpadded, and_true]
    exact Or.inl ⟨Nat.mod_lt _ (by decide), Or.inl ⟨Nat.mod_lt _ (by decide),
      Or.inl ⟨Nat.mod_lt _ (by decide), Or.inl (Nat.mod_lt _ (by decide))⟩⟩⟩

theorem not_isLineEnd_of_padded {text : List UInt8} {pads : ℕ} (h : Padded text pads) :
    ∀ c ∈ text, ¬IsLineEnd c := by
  obtain ⟨symbols, rfl, hsymbols⟩ := h
  intro c hc hend
  have hvalue := value_lineEnd hend
  rcases List.mem_append.mp hc with hc | hc
  · have hlt := hsymbols c hc
    omega
  · rw [List.eq_of_mem_replicate hc, value_pad] at hvalue
    omega

theorem length_encodeBytes (src : List UInt8) :
    (encodeBytes src).length = (src.length + 2) / 3 * 4 := by
  induction src using encodeBytes.induct with
  | case1 => rfl
  | case2 c₁ => simp [encodeBytes]
  | case3 c₁ c₂ => simp [encodeBytes]
  | case4 c₁ c₂ c₃ src ih =>
    simp only [encodeBytes, List.length_cons, ih]
    omega

theorem eq_of_mod {n : ℕ} {c : UInt8} (h : n % 256 = c.toNat) : n.toUInt8 = c :=
  UInt8.toNat_inj.mp (UInt8.toNat_ofNat'.trans h)

theorem not_isLineEnd_symbol (n : ℕ) : ¬IsLineEnd (symbol (n &&& 0x3F)) := by
  refine not_isLineEnd_of_value ?_
  rw [value_symbol_and]
  omega

theorem dropPad_symbol (n j : ℕ) : dropPad (symbol (n &&& 0x3F)) j = j := by
  rw [dropPad, if_neg]
  rw [value_symbol_and]
  omega

@[simp] theorem dropPad_pad (j : ℕ) : dropPad pad j = j - 1 := rfl

/-- The second loop stores what was encoded. -/
theorem storeBytes_encodeBytes (src : List UInt8) (x : UInt32) :
    storeBytes (encodeBytes src) 3 0 x = src := by
  have hpad : ¬IsLineEnd pad := by decide
  have hand3 (n : ℕ) : n &&& 3 = n % 4 := Nat.and_two_pow_sub_one_eq_mod n 2
  have hand15 (n : ℕ) : n &&& 15 = n % 16 := Nat.and_two_pow_sub_one_eq_mod n 4
  induction src using encodeBytes.induct generalizing x with
  | case1 => rfl
  | case2 c₁ =>
    have h₁ := c₁.toNat_lt
    obtain ⟨x', hquad⟩ := storeBytes_quad (not_isLineEnd_symbol (c₁.toNat >>> 2))
      (not_isLineEnd_symbol ((c₁.toNat &&& 3) <<< 4)) hpad hpad [] 3 x
    rw [encodeBytes, hquad]
    simp only [dropPad_symbol, dropPad_pad, storeBytes, value_symbol_and, List.append_nil,
      List.take_succ_cons, List.take_zero, List.cons.injEq, and_true]
    refine eq_of_mod ?_
    simp only [hand3, Nat.shiftLeft_eq, Nat.shiftRight_eq_div_pow]
    omega
  | case3 c₁ c₂ =>
    have h₁ := c₁.toNat_lt
    have h₂ := c₂.toNat_lt
    obtain ⟨x', hquad⟩ := storeBytes_quad (not_isLineEnd_symbol (c₁.toNat >>> 2))
      (not_isLineEnd_symbol ((c₁.toNat &&& 3) <<< 4 + c₂.toNat >>> 4))
      (not_isLineEnd_symbol ((c₂.toNat &&& 15) <<< 2)) hpad [] 3 x
    rw [encodeBytes, hquad]
    simp only [dropPad_symbol, dropPad_pad, storeBytes, value_symbol_and, List.append_nil,
      List.take_succ_cons, List.take_zero, List.cons.injEq, and_true]
    refine ⟨eq_of_mod ?_, eq_of_mod ?_⟩ <;>
      simp only [hand3, hand15, Nat.shiftLeft_eq, Nat.shiftRight_eq_div_pow] <;> omega
  | case4 c₁ c₂ c₃ src ih =>
    have h₁ := c₁.toNat_lt
    have h₂ := c₂.toNat_lt
    have h₃ := c₃.toNat_lt
    obtain ⟨x', hquad⟩ := storeBytes_quad (not_isLineEnd_symbol (c₁.toNat >>> 2))
      (not_isLineEnd_symbol ((c₁.toNat &&& 3) <<< 4 + c₂.toNat >>> 4))
      (not_isLineEnd_symbol ((c₂.toNat &&& 15) <<< 2 + c₃.toNat >>> 6))
      (not_isLineEnd_symbol c₃.toNat) (encodeBytes src) 3 x
    rw [encodeBytes, hquad]
    simp only [dropPad_symbol, value_symbol_and, List.take_succ_cons, List.take_zero, ih x',
      List.cons_append, List.nil_append, List.cons.injEq, and_true]
    refine ⟨eq_of_mod ?_, eq_of_mod ?_, eq_of_mod ?_⟩ <;>
      simp only [hand3, hand15, Nat.shiftLeft_eq, Nat.shiftRight_eq_div_pow] <;> omega

theorem Broken.length_le {text src : List UInt8} (h : Broken text src) :
    text.length ≤ src.length := by
  induction h with
  | nil => exact le_rfl
  | symbol c h ih => exact Nat.succ_le_succ ih
  | lf h ih => exact Nat.le_succ_of_le ih
  | crlf h ih => exact Nat.le_succ_of_le (Nat.le_succ_of_le ih)

/-- The size that the decoder asks for does not exceed the one it would ask for without
overflow. -/
theorem asked_le (n : ℕ) : sizeT (sizeT (n * 6) + 7) / 8 ≤ (n * 6 + 7) / 8 := by
  unfold sizeT
  omega

theorem eq_encodeBytes {src text : List UInt8} {dlen n : ℕ} (hsrc : src ≠ [])
    (h : base64Encode dlen src = .ok text n) : text = encodeBytes src := by
  rw [base64Encode, if_neg (by simpa using hsrc)] at h
  split_ifs at h
  exact (Result.ok.inj h).1.symm

/-- **A signature comes back.**  What was encoded and broken into lines anywhere is decoded as it
was, into a buffer that is large enough for it.  The size of the buffer is computed from the length
of the text, line ends included, so more of them only make it larger. -/
theorem decodeSignature_of_encoded {src text lines : List UInt8} {dlen n : ℕ} (hsrc : src ≠ [])
    (hencode : base64Encode dlen src = .ok text n) (hb : Broken text lines)
    (hlength : lines.length * 3 < 2 ^ 64) :
    decodeSignature lines = some ⟨lines.length * 3 / 4, src, src.length⟩ ∧
      src.length ≤ lines.length * 3 / 4 := by
  obtain rfl := eq_encodeBytes hsrc hencode
  obtain ⟨pads, hpads, hpadded⟩ := padded_encodeBytes src
  have hends := not_isLineEnd_of_padded hpadded
  have hcount : countSymbols lines 0 0 = some (encodeBytes src).length := by
    rw [countSymbols_broken hb hends]
    exact (countSymbols_iff hends).mpr ⟨⟨pads, hpads, hpadded⟩, (Nat.zero_add _).symm⟩
  have hstored : storeBytes lines 3 0 0 = src := by
    rw [storeBytes_broken hb hends, storeBytes_encodeBytes]
  have hle := hb.length_le
  rw [length_encodeBytes] at hcount hle
  have hpos : 0 < src.length := List.length_pos_iff.mpr hsrc
  have hasked := asked_le ((src.length + 2) / 3 * 4)
  have hfits : ¬lines.length * 3 / 4 < sizeT (sizeT ((src.length + 2) / 3 * 4 * 6) + 7) / 8 := by
    omega
  constructor
  · simp only [decodeSignature, base64Decode, hcount, hstored]
    rw [show sizeT (lines.length * 3) = lines.length * 3 from Nat.mod_eq_of_lt hlength,
      if_neg (by omega), if_neg hfits]
  · omega

/-- `Hi!` in two lines. -/
theorem decodeSignature_of_encoded_hi :
    base64Encode 5 [72, 105, 33] = .ok [83, 71, 107, 104] 4 ∧
      decodeSignature [83, 71, 13, 10, 107, 104, 10] = some ⟨5, [72, 105, 33], 3⟩ := by
  have hencode : base64Encode 5 [72, 105, 33] = .ok [83, 71, 107, 104] 4 := by decide +kernel
  refine ⟨hencode, (decodeSignature_of_encoded (by decide) hencode ?_ (by decide)).1⟩
  exact .symbol 83 (.symbol 71 (.crlf (.symbol 107 (.symbol 104 (.lf .nil)))))

/-! ## Which texts are accepted -/

/-- A text that passes the first loop is a padded text in lines. -/
theorem countSymbols_eq_some {src : List UInt8} {m : ℕ} : countSymbols src 0 0 = some m ↔
    ∃ text, Broken text src ∧ (∃ pads ≤ 2, Padded text pads) ∧ m = text.length := by
  constructor
  · intro h
    obtain ⟨text, hb, hends⟩ := broken_of_countSymbols h
    rw [countSymbols_broken hb hends, countSymbols_iff hends, Nat.zero_add] at h
    exact ⟨text, hb, h⟩
  · rintro ⟨text, hb, ⟨pads, hpads, hpadded⟩, rfl⟩
    have hends := not_isLineEnd_of_padded hpadded
    rw [countSymbols_broken hb hends]
    exact (countSymbols_iff hends).mpr ⟨⟨pads, hpads, hpadded⟩, (Nat.zero_add _).symm⟩

theorem Broken.eq_nil_iff {text src : List UInt8} (h : Broken text src)
    (htext : ∀ c ∈ text, ¬IsLineEnd c) : text = [] ↔ ∀ c ∈ src, IsLineEnd c := by
  induction h with
  | nil => simp
  | symbol c h ih => simpa using fun hc => absurd hc (htext c (by simp))
  | lf h ih => simpa [IsLineEnd] using ih htext
  | crlf h ih => simpa [IsLineEnd] using ih htext

/-- The text is the source without its line ends. -/
theorem Broken.eq_filter {text src : List UInt8} (h : Broken text src)
    (htext : ∀ c ∈ text, ¬IsLineEnd c) : text = src.filter fun c => ¬IsLineEnd c := by
  induction h with
  | nil => rfl
  | symbol c h ih =>
    obtain ⟨hc, htext⟩ := List.forall_mem_cons.mp htext
    rw [List.filter_cons_of_pos (by simpa using hc), ← ih htext]
  | lf h ih => rw [List.filter_cons_of_neg (by simp [IsLineEnd]), ← ih htext]
  | crlf h ih =>
    rw [List.filter_cons_of_neg (by simp [IsLineEnd]),
      List.filter_cons_of_neg (by simp [IsLineEnd]), ← ih htext]

/-- What is accepted, and what is handed out then. -/
theorem decodeSignature_eq_some {src : List UInt8} {decoded : Decoded}
    (hlength : src.length * 6 + 7 < 2 ^ 64) : decodeSignature src = some decoded ↔
      ∃ text, Broken text src ∧ (∃ pads ≤ 2, Padded text pads) ∧
        (text = [] ∧ decoded = ⟨src.length * 3 / 4, [], src.length * 3 / 4⟩ ∨
          text ≠ [] ∧ (text.length * 6 + 7) / 8 ≤ src.length * 3 / 4 ∧ decoded =
            ⟨src.length * 3 / 4, storeBytes src 3 0 0, (storeBytes src 3 0 0).length⟩) := by
  have hdest : sizeT (src.length * 3) / 4 = src.length * 3 / 4 :=
    congrArg (· / 4) (Nat.mod_eq_of_lt (by omega))
  have hasked {n : ℕ} (hn : n ≤ src.length) :
      sizeT (sizeT (n * 6) + 7) / 8 = (n * 6 + 7) / 8 := by
    unfold sizeT
    omega
  rw [decodeSignature, hdest, base64Decode]
  rcases hcount : countSymbols src 0 0 with _ | n
  · refine iff_of_false (by simp) ?_
    rintro ⟨text, hb, hpadded, -⟩
    rw [countSymbols_eq_some.mpr ⟨text, hb, hpadded, rfl⟩] at hcount
    cases hcount
  · obtain ⟨text, hb, hpadded, rfl⟩ := countSymbols_eq_some.mp hcount
    have hends {text : List UInt8} : (∃ pads ≤ 2, Padded text pads) → ∀ c ∈ text, ¬IsLineEnd c :=
      fun ⟨_, _, h⟩ => not_isLineEnd_of_padded h
    have honly {Q : List UInt8 → Prop} :
        (∃ text, Broken text src ∧ (∃ pads ≤ 2, Padded text pads) ∧ Q text) ↔ Q text := by
      constructor
      · rintro ⟨text', hb', hpadded', hQ⟩
        rwa [hb.eq_filter (hends hpadded), ← hb'.eq_filter (hends hpadded')]
      · exact fun hQ => ⟨text, hb, hpadded, hQ⟩
    rw [honly]
    dsimp only
    rw [hasked hb.length_le]
    split_ifs with hnil hsmall
    · have hnil : text = [] := List.eq_nil_of_length_eq_zero hnil
      simp [hnil, eq_comm]
    · refine iff_of_false (by simp) ?_
      rintro (⟨rfl, -⟩ | ⟨-, hfits, -⟩)
      · exact hnil rfl
      · omega
    · have hne : text ≠ [] := fun h => hnil (by rw [h]; rfl)
      simp [hne, not_lt.mp hsmall, eq_comm]

/-- **Which texts are accepted.**  `alpm_decode_signature` accepts symbols and at most two pads in
lines, if the bytes of the symbols begun fit into the buffer.  It never stores outside of the
buffer.  What it reports as decoded is what it has stored, except that a text of line ends alone,
from the second on, is reported as bytes that nothing was stored in. -/
theorem decodeSignature_spec {src : List UInt8} (hlength : src.length * 6 + 7 < 2 ^ 64) :
    ((decodeSignature src).isSome ↔ ∃ text, Broken text src ∧ (∃ pads ≤ 2, Padded text pads) ∧
      (text = [] ∨ (text.length * 6 + 7) / 8 ≤ src.length * 3 / 4)) ∧
    ∀ decoded, decodeSignature src = some decoded →
      decoded.stored.length ≤ decoded.dataLen ∧ decoded.dataLen ≤ decoded.allocated ∧
      (decoded.dataLen = decoded.stored.length ↔ (∃ c ∈ src, ¬IsLineEnd c) ∨ src.length < 2) := by
  constructor
  · rw [Option.isSome_iff_exists]
    constructor
    · rintro ⟨decoded, hsome⟩
      obtain ⟨text, hb, hpadded, ⟨hnil, -⟩ | ⟨-, hfits, -⟩⟩ :=
        (decodeSignature_eq_some hlength).mp hsome
      · exact ⟨text, hb, hpadded, Or.inl hnil⟩
      · exact ⟨text, hb, hpadded, Or.inr hfits⟩
    · rintro ⟨text, hb, hpadded, hfits⟩
      by_cases hnil : text = []
      · exact ⟨_, (decodeSignature_eq_some hlength).mpr ⟨text, hb, hpadded, Or.inl ⟨hnil, rfl⟩⟩⟩
      · exact ⟨_, (decodeSignature_eq_some hlength).mpr
          ⟨text, hb, hpadded, Or.inr ⟨hnil, hfits.resolve_left hnil, rfl⟩⟩⟩
  · intro decoded hsome
    obtain ⟨text, hb, ⟨pads, hpads, hpadded⟩, hcases⟩ := (decodeSignature_eq_some hlength).mp hsome
    have hnil_iff := hb.eq_nil_iff (not_isLineEnd_of_padded hpadded)
    have hsymbol : (∃ c ∈ src, ¬IsLineEnd c) ↔ text ≠ [] := by
      rw [ne_eq, hnil_iff]
      push Not
      rfl
    rw [hsymbol]
    rcases hcases with ⟨hnil, rfl⟩ | ⟨hne, -, rfl⟩
    · refine ⟨Nat.zero_le _, le_rfl, ?_⟩
      simp only [hnil, List.length_nil, ne_eq, not_true, false_or]
      omega
    · have hstored := length_storeBytes_le src 3 0 0 (by decide)
      have hroom : (storeBytes src 3 0 0).length ≤ src.length * 3 / 4 := by omega
      exact ⟨le_rfl, hroom, by simp [hne]⟩

/-- Four line ends are accepted, as bytes that were never stored. -/
theorem decodeSignature_spec_lines : (decodeSignature [lf, lf, lf, lf]).isSome ∧
    ∀ decoded, decodeSignature [lf, lf, lf, lf] = some decoded →
      decoded.dataLen ≠ decoded.stored.length := by
  have hspec := @decodeSignature_spec [lf, lf, lf, lf] (by decide)
  refine ⟨hspec.1.mpr ⟨[], .lf (.lf (.lf (.lf .nil))), ⟨0, by decide, [], rfl, by simp⟩,
    Or.inl rfl⟩, fun decoded hsome heq => ?_⟩
  have hsymbol := (hspec.2 decoded hsome).2.2.mp heq
  revert hsymbol
  decide

end Alpm.Base64
