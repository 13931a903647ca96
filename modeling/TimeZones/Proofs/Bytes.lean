import TimeZones.Bytes

/-! Byte strings by position: what slices, fields and pieces hold of the bytes they are cut from,
when what stands at the positions is in order, and what two byte strings have in common that hold
the same bytes there. -/
namespace TimeZones

variable {α : Type} {r : α → α → Prop}

theorem pairwise_map_range {f : Nat → α} {n : Nat} :
    ((List.range n).map f).Pairwise r ↔ ∀ i j, i < j → j < n → r (f i) (f j) := by
  rw [List.pairwise_iff_getElem]
  simp only [List.length_map, List.length_range, List.getElem_map, List.getElem_range]
  exact ⟨fun h i j hij hj => h i j (by omega) hj hij, fun h i j _ hj hij => h i j hij hj⟩

/-- To go on from a previous element it is enough to compare with that one. -/
theorem pairwise_previous_cons (htrans : ∀ {x y z}, r x y → r y z → r x z) {previous : Option α}
    {x : α} {xs : List α} : (previous.toList ++ x :: xs).Pairwise r ↔
      (∀ p ∈ previous, r p x) ∧ (x :: xs).Pairwise r := by
  cases previous with
  | none => simp
  | some p =>
    rw [Option.toList_some, List.singleton_append, List.pairwise_cons]
    simp only [Option.mem_some_iff, forall_eq']
    refine ⟨fun h => ⟨h.1 x (List.mem_cons_self), h.2⟩, fun h => ⟨?_, h.2⟩⟩
    intro y hy
    rcases List.mem_cons.mp hy with rfl | hy
    · exact h.1
    · exact htrans h.1 ((List.pairwise_cons.mp h.2).1 y hy)

namespace Bytes

variable {b : Bytes} {i len count : Nat}

/-- The byte at a place, as a number. Behind the end there are zeros. -/
def byteAt (b : Bytes) (i : Nat) : Nat := (b.getD i 0).toNat

/-- The number in two's complement of which the four bytes from `i` on are the digits to base 256,
the highest first. -/
def signedAt (b : Bytes) (i : Nat) : Int :=
  let n : Int := 16777216 * b.byteAt i + 65536 * b.byteAt (i + 1) + 256 * b.byteAt (i + 2) +
    b.byteAt (i + 3)
  if b.byteAt i < 128 then n else n - 4294967296

theorem byteAt_lt (b : Bytes) (i : Nat) : b.byteAt i < 256 := UInt8.toNat_lt _

theorem byteAt_eq_iff {x : UInt8} : b.byteAt i = x.toNat ↔ b.getD i 0 = x := UInt8.toNat_inj

theorem length_slice {start : Nat} (h : start + len ≤ b.length) :
    (b.slice start len).length = len := by
  simp only [slice, List.length_take, List.length_drop]
  omega

theorem getElem?_slice (b : Bytes) (start : Nat) (h : i < len) :
    (b.slice start len)[i]? = b[start + i]? := by
  simp [slice, h]

/-- A slice that is there in full holds the bytes from its start on. -/
theorem slice_eq {start : Nat} (h : start + len ≤ b.length) :
    b.slice start len = (List.range len).map fun i => b.getD (start + i) 0 := by
  apply List.ext_getElem?
  intro i
  by_cases hi : i < len
  · have hb : start + i < b.length := by omega
    rw [getElem?_slice b start hi, List.getElem?_map, List.getElem?_range hi, Option.map_some,
      List.getD_eq_getElem?_getD, List.getElem?_eq_getElem hb, Option.getD_some]
  · rw [List.getElem?_eq_none (by rw [length_slice h]; omega),
      List.getElem?_eq_none (by simpa using hi)]

theorem slice_slice (b : Bytes) (start : Nat) {n m : Nat} (h : i + m ≤ n) :
    (b.slice start n).slice i m = b.slice (start + i) m := by
  simp only [slice, List.drop_take, List.drop_drop, List.take_take]
  rw [Nat.min_eq_left (by omega)]

theorem slice_drop (b : Bytes) (start i len : Nat) :
    slice (b.drop start) i len = b.slice (start + i) len := by
  rw [slice, slice, List.drop_drop]

theorem take_slice {n m : Nat} (h : m ≤ n) : (b.slice i n).take m = b.slice i m := by
  rw [slice, slice, List.take_take, Nat.min_eq_left h]

theorem toInt_int32At (h : i + 4 ≤ b.length) : (b.int32At i).toInt = b.signedAt i := by
  have h0 := b.byteAt_lt i
  have h1 := b.byteAt_lt (i + 1)
  have h2 := b.byteAt_lt (i + 2)
  have h3 := b.byteAt_lt (i + 3)
  have hn : (bigEndian (b.slice i 4) : Int) = 16777216 * b.byteAt i + 65536 * b.byteAt (i + 1) +
      256 * b.byteAt (i + 2) + b.byteAt (i + 3) := by
    rw [slice_eq h]
    simp only [bigEndian, List.range_succ_eq_map, List.range_zero, List.map_cons, List.map_nil,
      List.foldl_cons, List.foldl_nil, Nat.succ_eq_add_one, Nat.reduceAdd, Nat.add_zero, byteAt]
    omega
  have hs : (Int32.size : Int) = 4294967296 := rfl
  simp only [int32At, Int32.toInt_ofInt, hn, signedAt, Int.bmod_def, hs]
  split <;> split <;> omega

theorem int32At_slice (b : Bytes) (start : Nat) {n : Nat} (h : i + 4 ≤ n) :
    (b.slice start n).int32At i = b.int32At (start + i) := by
  rw [int32At, int32At, slice_slice b start h]

/-- Piece `i` stands behind `i` others of its size. -/
theorem pieces_eq (size count : Nat) (b : Bytes) :
    pieces size count b = (List.range count).map fun i => b.slice (size * i) size := by
  induction count generalizing b with
  | zero => rfl
  | succ count ih =>
    rw [pieces, ih, List.range_succ_eq_map, List.map_cons, List.map_map]
    congr 1
    apply List.map_congr_left
    intro i _
    rw [slice_drop, Function.comp_apply, Nat.mul_succ, Nat.add_comm]

theorem toNat_charOfNat (x : UInt8) : (Char.ofNat x.toNat).toNat = x.toNat := by
  have hv : x.toNat.isValidChar := Or.inl (Nat.lt_trans x.toNat_lt (by decide))
  rw [Char.ofNat, dif_pos hv]
  rfl

theorem charOfNat_inj {x y : UInt8} : Char.ofNat x.toNat = Char.ofNat y.toNat ↔ x = y := by
  rw [← Char.toNat_inj, toNat_charOfNat, toNat_charOfNat, UInt8.toNat_inj]

theorem charOfNat_lt_iff {x y : UInt8} : Char.ofNat x.toNat < Char.ofNat y.toNat ↔ x < y := by
  rw [Char.lt_def, UInt32.lt_iff_toNat_lt, Char.toNat_val, Char.toNat_val, toNat_charOfNat,
    toNat_charOfNat, UInt8.lt_iff_toNat_lt]

/-- Texts come in the order of their bytes. -/
theorem text_lt_text_iff {a b : Bytes} : text a < text b ↔ a < b := by
  change (text a).toList < (text b).toList ↔ a < b
  rw [text, text, String.toList_ofList, String.toList_ofList]
  induction a generalizing b with
  | nil => cases b <;> simp
  | cons x a ih =>
    cases b with
    | nil => simp
    | cons y b =>
      rw [List.map_cons, List.map_cons, List.cons_lt_cons_iff, List.cons_lt_cons_iff, ih,
        charOfNat_lt_iff, charOfNat_inj]

/-- Both hold the same bytes from `start` on, up to `stop`, or both end at the same place before. -/
def AgreeOn (a b : Bytes) (start stop : Nat) : Prop := ∀ p < stop, start ≤ p → a[p]? = b[p]?

instance (a b : Bytes) (start stop : Nat) : Decidable (AgreeOn a b start stop) :=
  inferInstanceAs (Decidable (∀ p < stop, start ≤ p → a[p]? = b[p]?))

section
variable {a : Bytes} {start stop : Nat}

theorem AgreeOn.mono (h : AgreeOn a b start stop) {start' stop' : Nat} (hstart : start ≤ start')
    (hstop : stop' ≤ stop) : AgreeOn a b start' stop' :=
  fun p hp hle => h p (Nat.lt_of_lt_of_le hp hstop) (Nat.le_trans hstart hle)

theorem AgreeOn.byteAt (h : AgreeOn a b start stop) (hi : start ≤ i) (hlt : i < stop) :
    a.byteAt i = b.byteAt i := by
  rw [Bytes.byteAt, Bytes.byteAt, List.getD_eq_getElem?_getD, List.getD_eq_getElem?_getD,
    h i hlt hi]

theorem AgreeOn.signedAt (h : AgreeOn a b start stop) (hi : start ≤ i) (hle : i + 4 ≤ stop) :
    a.signedAt i = b.signedAt i := by
  have hbyte (j : Nat) (hij : i ≤ j) (hj : j < i + 4) : a.byteAt j = b.byteAt j :=
    h.byteAt (Nat.le_trans hi hij) (Nat.lt_of_lt_of_le hj hle)
  rw [Bytes.signedAt, Bytes.signedAt, hbyte i (by omega) (by omega),
    hbyte (i + 1) (by omega) (by omega), hbyte (i + 2) (by omega) (by omega),
    hbyte (i + 3) (by omega) (by omega)]

theorem AgreeOn.slice (h : AgreeOn a b start stop) (hi : start ≤ i) (hle : i + len ≤ stop) :
    a.slice i len = b.slice i len := by
  apply List.ext_getElem?
  intro j
  by_cases hj : j < len
  · rw [getElem?_slice a i hj, getElem?_slice b i hj]
    exact h _ (by omega) (by omega)
  · have hlen (x : Bytes) : (x.slice i len).length ≤ j :=
      Nat.le_trans (List.length_take_le _ _) (Nat.le_of_not_lt hj)
    rw [List.getElem?_eq_none (hlen a), List.getElem?_eq_none (hlen b)]

theorem AgreeOn.take (h : AgreeOn a b 0 stop) (hle : len ≤ stop) : a.take len = b.take len :=
  h.slice (Nat.le_refl 0) (by omega)

/-- Where one holds a byte that both share, the other reaches at least as far. -/
theorem AgreeOn.lt_length (h : AgreeOn a b start stop) (hi : start ≤ i) (hlt : i < stop)
    (hb : i < b.length) : i < a.length := by
  have hbyte := h i hlt hi
  rw [List.getElem?_eq_getElem hb] at hbyte
  exact (List.getElem?_eq_some_iff.mp hbyte).1

theorem agreeOn_take (b : Bytes) (n : Nat) : AgreeOn (b.take n) b 0 n :=
  fun _ hp _ => List.getElem?_take_of_lt hp

theorem agreeOn_append (b rest : Bytes) : AgreeOn (b ++ rest) b 0 b.length :=
  fun _ hp _ => List.getElem?_append_left hp

end

end Bytes

end TimeZones
