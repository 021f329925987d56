import JsonTree.Proofs.Bytes
import JsonTree.Whitespace

/-!
The run counted in words is the run counted in bytes. An operation on words whose lanes hold no
carry is the operation on each byte, and the lowest set bit of the lanes that hold no whitespace
stands in the lane of the first byte that ends the run.
-/
namespace JsonTree.Whitespace

theorem getD_eq_getElem {bytes : List UInt8} {i : Nat} (hi : i < bytes.length) :
    bytes.getD i 0 = bytes[i] := by
  simp [List.getD_eq_getElem?_getD, hi]

theorem testBit_littleEndian (bytes : List UInt8) (i : Nat) {j : Nat} (hj : j < 8) :
    (littleEndian bytes).testBit (8 * i + j) = (bytes.getD i 0).toNat.testBit j := by
  induction bytes generalizing i with
  | nil => simp [littleEndian]
  | cons b rest ih =>
    have split : littleEndian (b :: rest) = 2 ^ 8 * littleEndian rest + b.toNat := by
      simp [littleEndian, Nat.add_comm]
    rw [split, Nat.testBit_two_pow_mul_add _ b.toNat_lt]
    cases i with
    | zero => simp [hj]
    | succ i =>
      have above : ¬ 8 * (i + 1) + j < 8 := by omega
      have place : 8 * (i + 1) + j - 8 = 8 * i + j := by omega
      simp only [above, if_false, place, List.getD_cons_succ, ih]

theorem getLsbD_word (bytes : List UInt8) {i j : Nat} (hi : i < lanes) (hj : j < 8) :
    (word bytes).getLsbD (8 * i + j) = (bytes.getD i 0).toNat.testBit j := by
  have width : lanes = 16 := rfl
  have inside : 8 * i + j < 128 := by omega
  simp only [word, BitVec.getLsbD_ofNat, inside, decide_true, Bool.true_and,
    testBit_littleEndian bytes i hj]

theorem word_add (bytes : List UInt8) (c : UInt8) (full : bytes.length = lanes)
    (carry : ∀ b ∈ bytes, b.toNat + c.toNat < 256) :
    word bytes + splat c = word (bytes.map (· + c)) := by
  have sum : littleEndian bytes + littleEndian (List.replicate bytes.length c) =
      littleEndian (bytes.map (· + c)) := by
    clear full
    induction bytes with
    | nil => rfl
    | cons b rest ih =>
      have low : (b + c).toNat = b.toNat + c.toNat := by
        rw [UInt8.toNat_add]
        exact Nat.mod_eq_of_lt (carry b (by simp))
      have high := ih fun b hb => carry b (by simp [hb])
      simp only [littleEndian, List.length_cons, List.replicate_succ, List.map_cons,
        List.foldr_cons, low] at high ⊢
      omega
  rw [word, splat, word, word, ← full, ← sum, BitVec.ofNat_add]

theorem getD_map_xor (bytes : List UInt8) (c : UInt8) {i : Nat} (hi : i < bytes.length) :
    (bytes.map (· ^^^ c)).getD i 0 = bytes.getD i 0 ^^^ c := by
  simp [List.getD_eq_getElem?_getD, hi]

theorem word_xor (bytes : List UInt8) (c : UInt8) (full : bytes.length = lanes) :
    word bytes ^^^ splat c = word (bytes.map (· ^^^ c)) := by
  have width : lanes = 16 := rfl
  apply BitVec.eq_of_getLsbD_eq
  intro n hn
  have hi : n / 8 < lanes := by omega
  have hj : n % 8 < 8 := Nat.mod_lt _ (by decide)
  rw [← Nat.div_add_mod n 8, BitVec.getLsbD_xor, splat, getLsbD_word _ hi hj,
    getLsbD_word _ hi hj, getLsbD_word _ hi hj, getD_map_xor _ _ (full ▸ hi), UInt8.toNat_xor,
    Nat.testBit_xor]
  congr 2
  simp [List.getD_eq_getElem?_getD, hi]

theorem getLsbD_high {n : Nat} (hn : n < 128) : high.getLsbD n = (n % 8 == 7) := by
  have every : ∀ n : Fin 128, high.getLsbD n = (n.val % 8 == 7) := by decide +kernel
  exact every ⟨n, hn⟩

/-- What the high bit of a lane holds after the steps on its byte. -/
theorem testBit_isWhitespace {b : UInt8} (ascii : b < 0x80) :
    (((b + (0x80 - 0x09)).toNat.testBit 7 && !(b + (0x80 - 0x0E)).toNat.testBit 7) ||
      !((b ^^^ 0x20) + 0x7F).toNat.testBit 7) = Byte.isWhitespace b := by
  revert b
  decide +kernel

/-- Without a byte of 0x80 or more, the high bit of a lane tells whether its byte is whitespace. -/
theorem getLsbD_whitespaceLanes (bytes : List UInt8) (full : bytes.length = lanes)
    (ascii : ∀ b ∈ bytes, b < 0x80) {i : Nat} (hi : i < lanes) :
    (whitespaceLanes (word bytes)).getLsbD (8 * i + 7) = Byte.isWhitespace (bytes.getD i 0) := by
  have small : ∀ b ∈ bytes, b.toNat < 128 := fun b hb => UInt8.lt_iff_toNat_lt.1 (ascii b hb)
  have inside : 8 * i + 7 < 128 := by
    have width : lanes = 16 := rfl
    omega
  have flipped : ∀ b ∈ bytes.map (· ^^^ 0x20), b.toNat + (0x7F : UInt8).toNat < 256 := by
    intro b hb
    obtain ⟨a, ha, rfl⟩ := List.mem_map.1 hb
    have bound := Nat.xor_lt_two_pow (x := a.toNat) (y := 0x20) (n := 7) (small a ha) (by decide)
    rw [UInt8.toNat_xor]
    change (a.toNat ^^^ 0x20) + 127 < 256
    omega
  have reaches : ∀ c : UInt8, c.toNat ≤ 128 → ∀ b ∈ bytes, b.toNat + c.toNat < 256 := by
    intro c hc b hb
    have low := small b hb
    omega
  rw [whitespaceLanes, word_add _ _ full (reaches _ (by decide)),
    word_add _ _ full (reaches _ (by decide)), word_xor _ _ full,
    word_add _ _ (by simpa using full) flipped]
  have place : i < bytes.length := full ▸ hi
  have member : bytes.getD i 0 < 0x80 := by
    rw [getD_eq_getElem place]
    exact ascii _ (List.getElem_mem place)
  have read : ∀ f : UInt8 → UInt8, (bytes.map f).getD i 0 = f (bytes.getD i 0) := by
    intro f
    simp [List.getD_eq_getElem?_getD, place]
  have lane : ((8 * i + 7) % 8 == 7) = true := by
    rw [Nat.mul_add_mod]
    rfl
  simp only [BitVec.getLsbD_and, BitVec.getLsbD_or, BitVec.getLsbD_not, inside, decide_true,
    Bool.true_and, Bool.and_true, getLsbD_word _ hi (show 7 < 8 by decide), getLsbD_high inside, lane,
    List.map_map, read, Function.comp]
  exact testBit_isWhitespace member

theorem getLsbD_and_high (w : BitVec 128) {n : Nat} (hn : n < 128) :
    (w &&& high).getLsbD n = (w.getLsbD n && n % 8 == 7) := by
  rw [BitVec.getLsbD_and, getLsbD_high hn]

/-- The high bits of a word say where its bytes reach 0x80. -/
theorem word_and_high (bytes : List UInt8) (full : bytes.length = lanes) :
    word bytes &&& high = 0 ↔ ∀ b ∈ bytes, b < 0x80 := by
  have width : lanes = 16 := rfl
  have each : ∀ b : UInt8, b.toNat.testBit 7 = false ↔ b < 0x80 := by decide +kernel
  constructor
  · intro clear b hb
    obtain ⟨i, hi, rfl⟩ := List.mem_iff_getElem.1 hb
    have bit := getLsbD_and_high (word bytes) (n := 8 * i + 7) (by omega)
    have lane : (8 * i + 7) % 8 = 7 := by omega
    rw [clear, getLsbD_word bytes (by omega) (by decide), lane, getD_eq_getElem hi] at bit
    exact (each bytes[i]).1 (by simpa using bit.symm)
  · intro ascii
    apply BitVec.eq_of_getLsbD_eq
    intro n hn
    rw [getLsbD_and_high _ hn]
    by_cases last : n % 8 = 7
    · have place : n = 8 * (n / 8) + 7 := by omega
      have hi : n / 8 < bytes.length := by omega
      have bit := (each bytes[n / 8]).2 (ascii _ (List.getElem_mem hi))
      rw [place, getLsbD_word bytes (by omega) (by decide), getD_eq_getElem hi]
      simpa using bit
    · simp [last]

theorem lt_of_isWhitespace {b : UInt8} (h : Byte.isWhitespace b) : b < 0x80 := by
  revert b
  decide +kernel

theorem run_append (chunk rest : List UInt8) :
    run (chunk ++ rest) =
      if chunk.all Byte.isWhitespace then chunk.length + run rest else run chunk := by
  induction chunk with
  | nil => simp [run]
  | cons b chunk ih =>
    by_cases hb : Byte.isWhitespace b
    · simp only [run, List.cons_append, List.takeWhile_cons, hb, if_true, List.length_cons,
        List.all_cons, Bool.true_and] at ih ⊢
      rw [ih]
      split <;> omega
    · simp [run, hb]

theorem isWhitespace_of_lt_run {bytes : List UInt8} {i : Nat} (hi : i < run bytes) :
    Byte.isWhitespace (bytes.getD i 0) := by
  induction bytes generalizing i with
  | nil => simp [run] at hi
  | cons b rest ih =>
    by_cases hb : Byte.isWhitespace b
    · cases i with
      | zero => simpa using hb
      | succ i =>
        simp only [run, List.takeWhile_cons, hb, if_true, List.length_cons] at hi
        simpa using ih (i := i) (by simp only [run]; omega)
    · simp [run, hb] at hi

theorem not_isWhitespace_run {bytes : List UInt8} (some_other : ¬ bytes.all Byte.isWhitespace) :
    run bytes < bytes.length ∧ Byte.isWhitespace (bytes.getD (run bytes) 0) = false := by
  induction bytes with
  | nil => simp at some_other
  | cons b rest ih =>
    by_cases hb : Byte.isWhitespace b
    · have tail := ih (by simpa [hb] using some_other)
      simp only [run, List.takeWhile_cons, hb, if_true, List.length_cons, List.getD_cons_succ]
      exact ⟨by simpa [run] using tail.1, tail.2⟩
    · simp [run, hb]

/-- The lanes found are all there are exactly when the chunk is whitespace throughout. -/
theorem whitespaceLanes_eq_high (bytes : List UInt8) (full : bytes.length = lanes)
    (ascii : ∀ b ∈ bytes, b < 0x80) :
    whitespaceLanes (word bytes) = high ↔ bytes.all Byte.isWhitespace := by
  have width : lanes = 16 := rfl
  constructor
  · intro same
    rw [List.all_eq_true]
    intro b hb
    obtain ⟨i, hi, rfl⟩ := List.mem_iff_getElem.1 hb
    have lane := getLsbD_whitespaceLanes bytes full ascii (i := i) (by omega)
    have last : (8 * i + 7) % 8 = 7 := by omega
    rw [same, getLsbD_high (by omega), last, getD_eq_getElem hi] at lane
    exact lane.symm
  · intro all
    apply BitVec.eq_of_getLsbD_eq
    intro n hn
    rw [getLsbD_high hn]
    by_cases last : n % 8 = 7
    · have place : n = 8 * (n / 8) + 7 := by omega
      have hi : n / 8 < bytes.length := by omega
      rw [place, getLsbD_whitespaceLanes bytes full ascii (by omega), getD_eq_getElem hi,
        List.all_eq_true.1 all _ (List.getElem_mem hi)]
      simp
    · rw [whitespaceLanes, getLsbD_and_high _ hn]
      simp [last]

/-- The first lane without whitespace is the length of the run. -/
theorem trailingZeros_div (bytes : List UInt8) (full : bytes.length = lanes)
    (ascii : ∀ b ∈ bytes, b < 0x80) (some_other : ¬ bytes.all Byte.isWhitespace) :
    trailingZeros (~~~whitespaceLanes (word bytes) &&& high) / 8 = run bytes := by
  have width : lanes = 16 := rfl
  obtain ⟨inside, stops⟩ := not_isWhitespace_run some_other
  have others : ∀ {n : Nat}, n < 128 →
      (~~~whitespaceLanes (word bytes) &&& high).getLsbD n =
        (!(whitespaceLanes (word bytes)).getLsbD n && n % 8 == 7) := by
    intro n hn
    rw [getLsbD_and_high _ hn, BitVec.getLsbD_not]
    simp [hn]
  have first : trailingZeros (~~~whitespaceLanes (word bytes) &&& high) = 8 * run bytes + 7 := by
    unfold trailingZeros
    rw [List.findIdx_eq (by rw [List.length_range]; omega)]
    constructor
    · have last : (8 * run bytes + 7) % 8 = 7 := by omega
      rw [List.getElem_range, others (by omega),
        getLsbD_whitespaceLanes bytes full ascii (by omega), stops, last]
      rfl
    · intro n hn
      rw [List.getElem_range, others (by omega)]
      by_cases last : n % 8 = 7
      · have place : n = 8 * (n / 8) + 7 := by omega
        rw [place, getLsbD_whitespaceLanes bytes full ascii (by omega),
          isWhitespace_of_lt_run (by omega)]
        rfl
      · simp [last]
  rw [first]
  omega

theorem chunkRun_eq (bytes : List UInt8) (skipped : Nat) :
    chunkRun bytes skipped = skipped + run bytes := by
  fun_induction chunkRun bytes skipped with
  | case1 => rfl
  | case2 bytes skipped chunk long high_byte =>
    have full : chunk.length = lanes := Nat.le_antisymm (List.length_take_le _ _) (by omega)
    have some_other : ¬ chunk.all Byte.isWhitespace := fun all => high_byte
      ((word_and_high chunk full).2 fun b hb => lt_of_isWhitespace (List.all_eq_true.1 all b hb))
    rw [← List.take_append_drop lanes bytes, run_append, if_neg some_other]
  | case3 bytes skipped chunk long low found partly =>
    have full : chunk.length = lanes := Nat.le_antisymm (List.length_take_le _ _) (by omega)
    have ascii := (word_and_high chunk full).1 (Decidable.not_not.1 low)
    have some_other : ¬ chunk.all Byte.isWhitespace := fun all =>
      partly ((whitespaceLanes_eq_high chunk full ascii).2 all)
    rw [trailingZeros_div chunk full ascii some_other]
    rw [← List.take_append_drop lanes bytes, run_append, if_neg some_other]
  | case4 bytes skipped chunk long low found entire ih =>
    have full : chunk.length = lanes := Nat.le_antisymm (List.length_take_le _ _) (by omega)
    have ascii := (word_and_high chunk full).1 (Decidable.not_not.1 low)
    have all := (whitespaceLanes_eq_high chunk full ascii).1 (Decidable.not_not.1 entire)
    rw [ih, ← List.take_append_drop lanes bytes, run_append, if_pos all, List.drop_left' full, full]
    omega

theorem wideRun_eq_run (bytes : List UInt8) : wideRun bytes = run bytes := by
  cases bytes with
  | nil => rfl
  | cons b rest =>
    by_cases first : Byte.isWhitespace b
    · rw [wideRun, if_pos first, chunkRun_eq, Nat.zero_add]
    · simp [wideRun, run, first]

theorem isWhitespace_iff_mem (b : UInt8) :
    Byte.isWhitespace b ↔ b ∈ ([0x09, 0x0A, 0x0B, 0x0C, 0x0D, 0x20] : List UInt8) := by
  revert b
  decide +kernel

/-- Sixteen bytes at a time or one, the run counted is the same, and it is the longest run of
whitespace that the text opens with. -/
theorem wideRun_leading (bytes : List UInt8) : wideRun bytes = run bytes ∧
    ∃ w rest, bytes = w ++ rest ∧ w.length = wideRun bytes ∧
      (∀ b ∈ w, b ∈ ([0x09, 0x0A, 0x0B, 0x0C, 0x0D, 0x20] : List UInt8)) ∧
      ∀ b ∈ rest.head?, b ∉ ([0x09, 0x0A, 0x0B, 0x0C, 0x0D, 0x20] : List UInt8) := by
  have same := wideRun_eq_run bytes
  refine ⟨same, bytes.takeWhile Byte.isWhitespace, bytes.dropWhile Byte.isWhitespace,
    List.takeWhile_append_dropWhile.symm, same.symm, fun b hb => ?_, fun b hb whitespace => ?_⟩
  · exact (isWhitespace_iff_mem b).1 (List.all_eq_true.1 List.all_takeWhile b hb)
  · have other := List.head?_dropWhile_not Byte.isWhitespace bytes
    rw [hb] at other
    exact absurd ((isWhitespace_iff_mem b).2 whitespace) (by simpa using other)

end JsonTree.Whitespace
