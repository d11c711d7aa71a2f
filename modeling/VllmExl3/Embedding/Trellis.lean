/-
# VllmExl3.Embedding.Trellis — the trellis-coded embedding table (`trellis_embed.py`)

A packed row is a run of rings, one for each 256 channels: an fp16 scale, then `16 * K` words that
spell 256 symbols of `K` bits. `_unpack` reads each symbol through a window of two words and stacks
it on the ones before it into a 16-bit state. The states are the states of the tail-biting shift
register the ring's symbols drive, and they determine the ring.
-/
import VllmExl3.Embedding.Decode
import VllmExl3.Lib.BitStream

namespace VllmExl3.Embedding.Trellis

open BitStream

/-! ## Constants -/

def GROUP_DIM : Nat := 256
def MUL1 : Nat := 0x83DCD12D
def K_INV : UInt16 := 0x1EEE
def K_BIAS : UInt16 := 0xC931
def HADAMARD_STAGES : Nat := 8

/-- What fp16 adds to the arithmetic: a bit pattern read as a number, and rounding to fp16. -/
structure Fp16 (F : Type) where
  ofBits : UInt16 → F
  half : F → F

/-- The finite bit patterns as the numbers they are, and no rounding. -/
def exactFp16 : Fp16 ℚ where
  ofBits bits :=
    let sign : ℚ := if bits >>> 15 = 0 then 1 else -1
    let exponent := (bits >>> 10 &&& 31).toNat
    let mantissa := (bits &&& 1023).toNat
    if exponent = 0 then sign * mantissa / 2 ^ 24 else sign * (1024 + mantissa) * 2 ^ exponent / 2 ^ 25
  half := id

variable {D F : Type}

/-! ## The decoder -/

/-- `depth_from_shape` -/
def depthFromShape (row_words groups : Nat) : Except PyError Nat :=
  let words := if groups = 0 then 0 else row_words / groups
  let k := (words - 1) / 16
  if groups = 0 ∨ row_words % groups ≠ 0 ∨ words ≠ 1 + 16 * k ∨ ¬(1 ≤ k ∧ k ≤ 8) then
    .error (.exl3Format
      s!"trellis embedding: {row_words} words per row over {groups} groups is not a whole number of rings at K=1..8")
  else .ok k

/-- `codebook`. Irreducible: nothing is to unfold its 65536 values. -/
@[irreducible] def codebook (o : Fp32 F) (h : Fp16 F) : List F :=
  tabulate 65536 fun s =>
    let prod := s * MUL1 &&& 0xFFFFFFFF
    let total := (prod &&& 255) + (prod >>> 8 &&& 255) + (prod >>> 16 &&& 255) + (prod >>> 24 &&& 255)
    h.half (o.add (o.mul (o.ofNat (1024 + total)) (h.ofBits K_INV)) (h.ofBits K_BIAS))

/-- `torch.roll(x, j)`, along one dimension -/
def roll (x : List Nat) (j : Nat) : List Nat := tabulate x.length fun i => x.getD (back x.length i j) 0

/-- Each position's symbol, read through a two-word window. -/
def symbols (k : Nat) (stream : List Nat) : List Nat :=
  tabulate GROUP_DIM fun i =>
    let bit := i * k
    let window := stream.getD (bit >>> 4) 0 |||
      stream.getD ((bit >>> 4 + 1) % stream.length) 0 <<< 16
    window >>> (bit &&& 15) &&& (1 <<< k - 1)

/-- The states of one ring, from the words behind its scale. -/
def ringStates (k : Nat) (words : List UInt16) : List Nat :=
  let symbols := symbols k (words.map UInt16.toNat)
  let states := (List.range ((15 + k) / k)).foldl (fun states j =>
    List.zipWith (· ||| ·) states ((roll symbols j).map (· <<< (j * k)))) (symbols.map fun _ => 0)
  states.map (· &&& 0xFFFF)

/-- `_unpack` -/
def unpack (rings : List (List UInt16)) (k : Nat) : List (List Nat) × List UInt16 :=
  (rings.map fun ring => ringStates k ring.tail, rings.map (·.headD 0))

/-- One stage of `_hadamard` on one row: `x.view(-1, 2, h)`, the sums, then the differences. -/
def hadamardStage (o : Fp32 F) (x : List F) (h : Nat) : List F :=
  tabulate GROUP_DIM fun i =>
    let first := x.getD (i / (2 * h) * (2 * h) + i % h) (o.ofNat 0)
    let second := x.getD (i / (2 * h) * (2 * h) + h + i % h) (o.ofNat 0)
    if i / h % 2 = 0 then o.add first second else o.sub first second

/-- `_hadamard`, on one row -/
def hadamard (o : Fp32 F) (x : List F) : List F :=
  ((List.range HADAMARD_STAGES).foldl (fun x stage => hadamardStage o x (1 <<< stage)) x).map
    (o.div · (o.ofNat 16))

/-- The values of one ring under its group's signs. -/
def ringValues (o : Fp32 F) (h : Fp16 F) (book signs : List F) (states : List Nat) (scale : UInt16) :
    List F :=
  let values := states.map fun s => o.mul (book.getD s (o.ofNat 0)) (h.ofBits scale)
  List.zipWith o.mul (hadamard o values) signs

/-- One packed row of rings of `words` words, decoded. -/
def decodeRow (o : Fp32 F) (h : Fp16 F) (out_dtype : F → D) (signs : Dense F) (book : List F)
    (hidden k words : Nat) (row : List UInt16) : List D :=
  let rings := tabulate signs.rows.length fun g => slice (g * words) ((g + 1) * words) row
  let (states, scales) := unpack rings k
  let values := List.zipWith3 (fun signs states scale => ringValues o h book signs states scale)
    signs.rows states scales
  (slice 0 hidden (values.flatten.map h.half)).map out_dtype

/-- `decode`. The view of no rows leaves `-1` ambiguous, which torch refuses. -/
def decode (o : Fp32 F) (h : Fp16 F) (out_dtype : F → D) (packed : VocabTensor (List UInt16))
    (signs : Dense F) (book : List F) (hidden : Nat) : Except PyError (List (List D)) := do
  let row_words := packed.tail.headD 0
  let k ← depthFromShape row_words signs.rows.length
  if packed.rows = [] then throw (.runtime "cannot reshape tensor of 0 elements into shape [0, -1]")
  return packed.rows.map
    (decodeRow o h out_dtype signs book hidden k (row_words / signs.rows.length))

/-- `gather`, of flattened ids -/
def gather (o : Fp32 F) (h : Fp16 F) (out_dtype : F → D) (ids : List Nat)
    (table : VocabTensor (List UInt16)) (signs : Dense F) (book : List F) (hidden : Nat) :
    Except PyError (List (List D)) := do
  let packed ← table.indexSelect ids
  decode o h out_dtype packed signs book hidden

/-! ## Depths -/

/-- A row of `groups` rings at depth `k` is recognised. -/
theorem depthFromShape_ok {groups k : Nat} (hgroups : 0 < groups) (hk : 1 ≤ k) (hk' : k ≤ 8) :
    depthFromShape (groups * (1 + 16 * k)) groups = .ok k := by
  have hwords : groups * (1 + 16 * k) / groups = 1 + 16 * k := Nat.mul_div_cancel_left _ hgroups
  have hdepth : (1 + 16 * k - 1) / 16 = k := by omega
  rw [depthFromShape, if_neg hgroups.ne', hwords, hdepth, Nat.mul_mod_right]
  simp [hgroups.ne', hk, hk']

/-- What an accepted shape is made of. -/
theorem depthFromShape_eq_ok {row_words groups k : Nat} (h : depthFromShape row_words groups = .ok k) :
    0 < groups ∧ row_words = groups * (1 + 16 * k) ∧ 1 ≤ k ∧ k ≤ 8 := by
  unfold depthFromShape at h
  dsimp only at h
  split_ifs at h with hgroups hbad hbad
  · simp only [not_or, not_not] at hbad
    exact absurd hgroups hbad.1
  · simp only [not_or, not_not] at hbad
    obtain ⟨_, hrows, hwords, hk⟩ := hbad
    obtain rfl := Except.ok.inj h
    refine ⟨Nat.pos_of_ne_zero hgroups, ?_, hk⟩
    rw [← hwords]
    exact (Nat.mul_div_cancel' (Nat.dvd_of_mod_eq_zero hrows)).symm

/-! ## Rows -/

section Rows

variable {o : Fp32 F} {h : Fp16 F} {out_dtype : F → D}

theorem length_hadamard (x : List F) : (hadamard o x).length = GROUP_DIM := by
  have hstage : ∀ (stages : List Nat) (x : List F), x.length = GROUP_DIM →
      (stages.foldl (fun x stage => hadamardStage o x (1 <<< stage)) x).length = GROUP_DIM := by
    intro stages
    induction stages with
    | nil => exact fun x hx => hx
    | cons stage rest ih => exact fun x _ => ih _ (length_tabulate _ _)
  rw [hadamard, List.length_map, HADAMARD_STAGES, List.range_succ_eq_map, List.foldl_cons]
  exact hstage _ _ (length_tabulate _ _)

theorem length_ringValues {book signs : List F} (hsigns : signs.length = GROUP_DIM) (states : List Nat)
    (scale : UInt16) : (ringValues o h book signs states scale).length = GROUP_DIM := by
  rw [ringValues, List.length_zipWith, length_hadamard, hsigns, Nat.min_self]

/-- A row decodes ring by ring. -/
theorem decodeRow_eq {signs : Dense F} {book : List F} {hidden k words : Nat} (row : List UInt16) :
    decodeRow o h out_dtype signs book hidden k words row =
      (slice 0 hidden ((tabulate signs.rows.length fun g =>
        ringValues o h book (signs.rows.getD g [])
          (ringStates k (slice (g * words) ((g + 1) * words) row).tail)
          ((slice (g * words) ((g + 1) * words) row).headD 0)).flatten.map h.half)).map out_dtype := by
  have hsigns : tabulate signs.rows.length (signs.rows.getD · []) = signs.rows := tabulate_getD [] rfl
  rw [decodeRow, unpack]
  dsimp only
  conv_lhs => rw [← hsigns]
  rw [length_tabulate, tabulate, tabulate, List.map_map, List.map_map, zipWith3_map_map_map]
  rfl

theorem length_decodeRow {signs : Dense F} {book : List F} {hidden k words : Nat}
    (hsigns : signs.hidden = GROUP_DIM) (hhidden : hidden ≤ signs.rows.length * GROUP_DIM)
    (row : List UInt16) : (decodeRow o h out_dtype signs book hidden k words row).length = hidden := by
  rw [decodeRow_eq, List.length_map, length_slice, List.length_map, length_flatten_equal,
    length_tabulate, Nat.min_eq_left hhidden, Nat.sub_zero]
  intro vals hvals
  obtain ⟨g, hg, rfl⟩ := List.mem_map.mp hvals
  refine length_ringValues ?_ _ _
  rw [List.getD_eq_getElem _ _ (List.mem_range.mp hg)]
  exact (signs.hidden_eq _ (List.getElem_mem _)).trans hsigns

/-- A transform of zeros. -/
theorem hadamard_zeros (ho : o.ZeroLaws) {x : List F} (hx : ∀ y ∈ x, y = o.ofNat 0) :
    ∀ y ∈ hadamard o x, y = o.ofNat 0 := by
  have hread : ∀ {x : List F}, (∀ y ∈ x, y = o.ofNat 0) → ∀ i, x.getD i (o.ofNat 0) = o.ofNat 0 :=
    fun hx i => getD_mem_or (P := (· = o.ofNat 0)) i rfl hx
  have hstages : ∀ (stages : List Nat) (x : List F), (∀ y ∈ x, y = o.ofNat 0) →
      ∀ y ∈ stages.foldl (fun x stage => hadamardStage o x (1 <<< stage)) x, y = o.ofNat 0 := by
    intro stages
    induction stages with
    | nil => exact fun x hx => hx
    | cons stage rest ih =>
      refine fun x hx => ih _ fun y hy => ?_
      obtain ⟨i, _, rfl⟩ := List.mem_map.mp hy
      simp only [hread hx, ho.add_zero, ho.sub_zero, ite_self]
  intro y hy
  obtain ⟨z, hz, rfl⟩ := List.mem_map.mp hy
  rw [hstages _ x hx z hz, ho.zero_div]

/-- A zero row decodes to the zero vector: its scales are zero. -/
theorem decodeRow_zeros [Zero D] (ho : o.ZeroLaws) (hbits : h.ofBits 0 = o.ofNat 0)
    (hhalf : h.half (o.ofNat 0) = o.ofNat 0) (hout : out_dtype (o.ofNat 0) = 0) {signs : Dense F}
    {book : List F} {hidden k words : Nat} (hsigns : signs.hidden = GROUP_DIM)
    (hhidden : hidden ≤ signs.rows.length * GROUP_DIM) (row_words : Nat) :
    decodeRow o h out_dtype signs book hidden k words (List.replicate row_words 0) =
      List.replicate hidden 0 := by
  refine List.eq_replicate_iff.mpr ⟨length_decodeRow hsigns hhidden _, fun y hy => ?_⟩
  rw [decodeRow_eq] at hy
  obtain ⟨z, hz, rfl⟩ := List.mem_map.mp hy
  obtain ⟨v, hv, rfl⟩ := List.mem_map.mp (List.mem_of_mem_take (List.mem_of_mem_drop hz))
  obtain ⟨vals, hvals, hmem⟩ := List.mem_flatten.mp hv
  obtain ⟨g, _, rfl⟩ := List.mem_map.mp hvals
  have hscale : (slice (g * words) ((g + 1) * words) (List.replicate row_words (0 : UInt16))).headD 0 = 0 := by
    rw [slice, List.take_replicate, List.drop_replicate]
    cases min ((g + 1) * words) row_words - g * words <;> rfl
  rw [hscale, ringValues] at hmem
  obtain ⟨i, hi, rfl⟩ := List.mem_iff_getElem.mp hmem
  have hvalues : ∀ y ∈ (ringStates k (slice (g * words) ((g + 1) * words)
      (List.replicate row_words 0)).tail).map fun s => o.mul (book.getD s (o.ofNat 0)) (h.ofBits 0),
      y = o.ofNat 0 := by
    intro y hy
    obtain ⟨s, _, rfl⟩ := List.mem_map.mp hy
    rw [hbits, ho.mul_zero]
  rw [List.getElem_zipWith, hadamard_zeros ho hvalues _ (List.getElem_mem _), ho.zero_mul, hhalf, hout]

end Rows

/-! ## States -/

section States

variable {k : Nat} {words : List UInt16}

/-- The words as one little-endian number. -/
def streamOf (words : List UInt16) : Nat := Nat.ofDigits (2 ^ 16) (words.map UInt16.toNat)

/-- Symbol `i` of the stream: its bits `[i * k, (i + 1) * k)`. -/
def symbol (k : Nat) (words : List UInt16) (i : Nat) : Nat := field (streamOf words) (i * k) k

theorem symbol_lt (k : Nat) (words : List UInt16) (i : Nat) : symbol k words i < 2 ^ k :=
  field_lt _ _ _

theorem words_lt (words : List UInt16) : ∀ x ∈ words.map UInt16.toNat, x < 2 ^ 16 := by
  intro x hx
  obtain ⟨w, _, rfl⟩ := List.mem_map.mp hx
  exact w.toNat_lt

theorem symbols_eq (hk : k ≤ 16) (hlen : words.length = 16 * k) :
    symbols k (words.map UInt16.toNat) = tabulate GROUP_DIM (symbol k words) := by
  refine tabulate_congr fun i hi => ?_
  have hbit : i * k / 16 * 16 + i * k % 16 = i * k := by omega
  have hend : i * k + k ≤ 256 * k := by
    rw [← Nat.succ_mul]
    exact Nat.mul_le_mul_right k hi
  have hmask : ∀ n, n &&& 15 = n % 16 := fun n => Nat.and_two_pow_sub_one_eq_mod n 4
  -- `i * k >> 4` and `i * k & 15` are the word and the offset the symbol starts at
  have hwindow := window_eq_field (q := i * k / 16) (words_lt words)
    (Nat.mod_lt (i * k) (by decide : 0 < 16)) hk (by rw [List.length_map, hlen]; omega)
  rw [hbit] at hwindow
  dsimp only
  rw [hmask, Nat.one_shiftLeft, Nat.and_two_pow_sub_one_eq_mod, Nat.shiftRight_eq_div_pow (i * k) 4]
  exact hwindow

theorem roll_tabulate (f : Nat → Nat) (n j : Nat) :
    roll (tabulate n f) j = tabulate n fun i => f (back n i j) := by
  rw [roll, length_tabulate]
  refine tabulate_congr fun i hi => ?_
  rw [getD_tabulate (back_lt (by omega) i j)]

/-- The stacking loop after `m` passes. -/
theorem stacking_eq {f : Nat → Nat} (hf : ∀ i, f i < 2 ^ k) (m : Nat) :
    (List.range m).foldl (fun states j =>
        List.zipWith (· ||| ·) states ((roll (tabulate GROUP_DIM f) j).map (· <<< (j * k))))
      ((tabulate GROUP_DIM f).map fun _ => 0) = tabulate GROUP_DIM (stack GROUP_DIM k f m) := by
  induction m with
  | zero =>
    rw [tabulate, tabulate, List.map_map]
    rfl
  | succ m ih =>
    rw [List.range_succ, List.foldl_append, ih, List.foldl_cons, List.foldl_nil, roll_tabulate,
      zipWith_eq_tabulate 0 0 (length_tabulate _ _) (by rw [List.length_map, length_tabulate])]
    refine tabulate_congr fun i hi => ?_
    rw [getD_tabulate hi, tabulate, List.map_map]
    show stack GROUP_DIM k f m i ||| (tabulate GROUP_DIM _).getD i 0 = _
    rw [getD_tabulate hi]
    exact stack_or hf m i

/-- The states are the stacks of the ring's symbols, cut to 16 bits. -/
theorem ringStates_eq (hk : k ≤ 16) (hlen : words.length = 16 * k) :
    ringStates k words =
      tabulate GROUP_DIM fun i => stack GROUP_DIM k (symbol k words) ((15 + k) / k) i % 2 ^ 16 := by
  have hmask : ∀ n, n &&& 0xFFFF = n % 2 ^ 16 := fun n => Nat.and_two_pow_sub_one_eq_mod n 16
  rw [ringStates, symbols_eq hk hlen, stacking_eq (symbol_lt k words), tabulate, tabulate, List.map_map]
  exact List.map_congr_left fun i _ => hmask _

theorem stacked_bits (hk : 0 < k) : 16 ≤ (15 + k) / k * k := by
  have hceil := Nat.lt_div_mul_add (a := 15 + k) hk
  omega

theorem getD_ringStates (hk : 1 ≤ k) (hk' : k ≤ 16) (hlen : words.length = 16 * k) {m i : Nat}
    (hm : 16 ≤ m * k) (hi : i < GROUP_DIM) :
    (ringStates k words).getD i 0 = stack GROUP_DIM k (symbol k words) m i % 2 ^ 16 := by
  rw [ringStates_eq hk' hlen, getD_tabulate hi]
  -- 16 bits are stacked either way, and what is above them is cut off
  rcases Nat.le_total m ((15 + k) / k) with h | h
  · exact stack_mod_of_le hm h
  · exact (stack_mod_of_le (stacked_bits hk) h).symm

/-- A ring is determined by its symbols. -/
theorem words_of_symbols {words' : List UInt16} (hk : 1 ≤ k) (hlen : words.length = 16 * k)
    (hlen' : words'.length = 16 * k) (h : ∀ i < GROUP_DIM, symbol k words i = symbol k words' i) :
    words = words' := by
  -- 256 symbols of `k` bits are the whole stream of `16 * k` words
  have hbits : ∀ ws : List UInt16, ws.length = 16 * k → streamOf ws < 2 ^ (GROUP_DIM * k) := by
    intro ws hws
    have hlt := ofDigits_lt (by decide) (words_lt ws)
    rw [List.length_map, hws] at hlt
    rwa [show GROUP_DIM * k = 16 * k * 16 by unfold GROUP_DIM; omega]
  have hstream : streamOf words = streamOf words' := eq_of_fields hk (hbits words hlen)
    (hbits words' hlen') h
  have hnat := eq_of_ofDigits (by decide) (by rw [List.length_map, List.length_map, hlen, hlen'])
    (words_lt words) (words_lt words') hstream
  exact List.map_injective_iff.mpr (fun _ _ => UInt16.toNat_inj.mp) hnat

/-- `_unpack`, ring by ring: 256 states, each the low 16 bits of the stack of the symbols up to it; one
step of the tail-biting shift register leads from each to the next; and the words can be read back off
them. -/
theorem unpack_rings (k : Nat) (hk : 1 ≤ k) (hk' : k ≤ 8) (rings : List (List UInt16))
    (hrings : ∀ ring ∈ rings, ring.length = 1 + 16 * k) :
    (unpack rings k).1.length = rings.length ∧
      ∀ t < rings.length,
        let words := (rings.getD t []).tail
        let states := (unpack rings k).1.getD t []
        states.length = 256 ∧
        (∀ i < 256, states.getD i 0 =
          (∑ j ∈ Finset.range 256, symbol k words (((i : Int) - j) % 256).toNat <<< (j * k)) % 2 ^ 16) ∧
        (∀ i < 256, states.getD ((i + 1) % 256) 0 =
          (states.getD i 0 <<< k ||| symbol k words ((i + 1) % 256)) % 2 ^ 16) ∧
        ∀ ring : List UInt16, ring.length = 1 + 16 * k → (unpack [ring] k).1 = [states] →
          ring.tail = words := by
  refine ⟨List.length_map _, fun t ht => ?_⟩
  have hring := hrings _ (List.getElem_mem ht)
  have hstates : (unpack rings k).1.getD t [] = ringStates k (rings.getD t []).tail := by
    rw [unpack, List.getD_eq_getElem _ _ (by rwa [List.length_map]), List.getElem_map,
      List.getD_eq_getElem _ _ ht]
  have hlen : (rings.getD t []).tail.length = 16 * k := by
    rw [List.getD_eq_getElem _ _ ht, List.length_tail, hring]
    omega
  have hall : 16 ≤ 256 * k := by omega
  dsimp only
  rw [hstates]
  generalize (rings.getD t []).tail = words at hlen
  refine ⟨?_, fun i hi => ?_, fun i hi => ?_, fun ring hlength hsame => ?_⟩
  · rw [ringStates_eq (by omega) hlen, length_tabulate]
    rfl
  · rw [getD_ringStates hk (by omega) hlen hall hi, stack]
    simp only [Nat.shiftLeft_eq]
    rfl
  · have hnext : (i + 1) % 256 < GROUP_DIM := Nat.mod_lt _ (by decide)
    rw [getD_ringStates hk (by omega) hlen hall hnext, getD_ringStates hk (by omega) hlen hall hi]
    exact state_next (by decide) (symbol_lt k words) hall
  · have hlen' : ring.tail.length = 16 * k := by
      rw [List.length_tail, hlength]
      omega
    have heq : ringStates k ring.tail = ringStates k words := (List.cons.inj hsame).1
    refine words_of_symbols hk hlen' hlen
      (symbols_of_stacks (symbol_lt k _) (symbol_lt k _) (by omega : k ≤ 16)
        (by decide : 0 < 256) fun i hi => ?_)
    rw [← getD_ringStates hk (by omega) hlen' hall hi, heq, getD_ringStates hk (by omega) hlen hall hi]

/-- Rings at depth 3, of one word and of another. -/
def twoRings : List (List UInt16) := [3 :: List.replicate 48 0x1234, 7 :: List.replicate 48 0xFFFF]

/-- The last state of the second leads on to its first, and no other words give these states. -/
theorem unpack_two_rings :
    (unpack twoRings 3).1.length = 2 ∧ ((unpack twoRings 3).1.getD 1 []).length = 256 ∧
      ((unpack twoRings 3).1.getD 1 []).getD 0 0 =
        (((unpack twoRings 3).1.getD 1 []).getD 255 0 <<< 3 |||
          symbol 3 (List.replicate 48 0xFFFF) 0) % 2 ^ 16 ∧
      ∀ ring : List UInt16, ring.length = 49 →
        (unpack [ring] 3).1 = [(unpack twoRings 3).1.getD 1 []] → ring.tail = List.replicate 48 0xFFFF := by
  obtain ⟨hlength, hrings⟩ := unpack_rings 3 (by decide) (by decide) twoRings (by simp [twoRings])
  have htail : (twoRings.getD 1 []).tail = List.replicate 48 0xFFFF := by
    rw [twoRings, List.getD_cons_succ, List.getD_cons_zero, List.tail_cons]
  obtain ⟨hcount, -, hstep, hback⟩ := hrings 1 (by simp [twoRings])
  rw [htail] at hstep hback
  generalize (unpack twoRings 3).1.getD 1 [] = states at hcount hstep hback ⊢
  exact ⟨hlength, hcount, hstep 255 (by norm_num), hback⟩

end States

end VllmExl3.Embedding.Trellis
