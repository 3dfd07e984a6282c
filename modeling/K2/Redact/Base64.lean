import K2.Redact.Variants
import K2.Redact.Stream

/-! # A secret inside base64

Where a value starts in what is encoded only matters modulo three bytes. The
characters between its edges are made of its bits alone; at each edge the other
bits come from a neighbour, or are zero at the end, and every such character is
among the forms. -/

namespace K2.Redact

/-- Base64 of some bytes, with zeros for the bits past the end. -/
def base64 (alpha : List UInt8) (padded : Bool) (d : List UInt8) : List UInt8 :=
  ((List.range ((8 * d.length + 5) / 6)).map fun c => charOf alpha (bits d (6 * c) 6)) ++
    if padded then List.replicate ((3 - d.length % 3) % 3) 0x3D else []

example : base64 b64Std true (ascii "Man") = ascii "TWFu" := by decide

example : base64 b64Std true (ascii "Ma") = ascii "TWE=" := by decide

example : base64 b64Url true [0xFB] = ascii "-w==" := by decide

/-! ## Bits -/

theorem bits_zero (v : List UInt8) (first : Nat) : bits v first 0 = 0 := rfl

theorem bits_succ (v : List UInt8) (first n : Nat) : bits v first (n + 1) = bits v first n <<< 1 ||| bit v (first + n) := by
  rw [bits, List.range_succ, List.foldl_append]
  rfl

theorem shift_succ {k : Nat} (small : k < 7) (x : UInt8) :
    (x <<< UInt8.ofNat k) <<< 1 = x <<< UInt8.ofNat (k + 1) := by
  have all : ∀ n : Fin 256, ∀ k : Fin 7,
      (UInt8.ofNat n <<< UInt8.ofNat k) <<< 1 = UInt8.ofNat n <<< UInt8.ofNat (k + 1) := by decide +kernel
  simpa using all ⟨x.toNat, x.toNat_lt⟩ ⟨k, small⟩

theorem bits_add (v : List UInt8) (first m : Nat) {k : Nat} (small : k < 8) :
    bits v first (m + k) = bits v first m <<< UInt8.ofNat k ||| bits v (first + m) k := by
  induction k with
  | zero => simp [bits_zero]
  | succ k ih =>
    rw [← Nat.add_assoc, bits_succ, ih (by omega), bits_succ, UInt8.shiftLeft_or, shift_succ (by omega), UInt8.or_assoc,
      Nat.add_assoc]

theorem bit_le_one (v : List UInt8) (i : Nat) : (bit v i).toNat ≤ 1 := by
  rw [bit, UInt8.toNat_and]
  exact Nat.and_le_right

theorem bits_lt (v : List UInt8) (first : Nat) {n : Nat} (small : n ≤ 8) : (bits v first n).toNat < 2 ^ n := by
  induction n with
  | zero => exact Nat.zero_lt_one
  | succ n ih =>
    have below := ih (by omega)
    have high : (bits v first n <<< 1).toNat < 2 ^ (n + 1) := by
      rw [UInt8.toNat_shiftLeft, Nat.shiftLeft_eq]
      exact Nat.lt_of_le_of_lt (Nat.mod_le ..) (by rw [Nat.pow_succ]; exact Nat.mul_lt_mul_of_pos_right below (by decide))
    have low : (bit v (first + n)).toNat < 2 ^ (n + 1) :=
      Nat.lt_of_le_of_lt (bit_le_one v _) (Nat.one_lt_two_pow (by omega))
    rw [bits_succ, UInt8.toNat_or]
    exact Nat.or_lt_two_pow high low

theorem bits_congr {v w : List UInt8} {f g n : Nat} (same : ∀ i < n, bit v (f + i) = bit w (g + i)) :
    bits v f n = bits w g n := by
  induction n with
  | zero => rfl
  | succ n ih => rw [bits_succ, bits_succ, ih fun i below => same i (by omega), same n (by omega)]

theorem bit_middle (a v b : List UInt8) {i : Nat} (inside : i < 8 * v.length) :
    bit (a ++ v ++ b) (8 * a.length + i) = bit v i := by
  have byte : (8 * a.length + i) / 8 = a.length + i / 8 := by omega
  have within : i / 8 < v.length := by omega
  have place : (8 * a.length + i) % 8 = i % 8 := by omega
  rw [bit, bit, byte, place, List.getD_eq_getElem?_getD, List.getD_eq_getElem?_getD, List.append_assoc,
    List.getElem?_append_right (Nat.le_add_right ..), Nat.add_sub_cancel_left, List.getElem?_append_left within]

theorem bits_middle (a v b : List UInt8) {i n : Nat} (inside : i + n ≤ 8 * v.length) :
    bits (a ++ v ++ b) (8 * a.length + i) n = bits v i n :=
  bits_congr fun j below => by rw [Nat.add_assoc, bit_middle a v b (by omega)]

theorem bits_past_end {v : List UInt8} {first : Nat} (past : 8 * v.length ≤ first) (n : Nat) : bits v first n = 0 := by
  have zero : ∀ i, bit v (first + i) = 0 := by
    intro i
    have beyond : v.length ≤ (first + i) / 8 := by omega
    rw [bit, List.getD_eq_getElem?_getD, List.getElem?_eq_none beyond, Option.getD_none, UInt8.zero_shiftRight,
      UInt8.zero_and]
  induction n with
  | zero => rfl
  | succ n ih => rw [bits_succ, ih, zero]; rfl

/-! ## The characters of a value -/

theorem range'_cut {f m e : Nat} (low : f ≤ m) (high : m ≤ e) :
    List.range' f (e - f) = List.range' f (m - f) ++ List.range' m (e - m) := by
  have joined := List.range'_append_1 (s := f) (m := m - f) (n := e - m)
  rwa [Nat.add_sub_cancel' low, show m - f + (e - m) = e - f by omega, eq_comm] at joined

section
variable (alpha a v b : List UInt8)

/-- A character of the whole. -/
def charAt (c : Nat) : UInt8 := charOf alpha (bits (a ++ v ++ b) (6 * c) 6)

/-- The first character with a bit of the value, and the end of the last. -/
def firstChar : Nat := 8 * a.length / 6

def lastChar : Nat := (8 * (a.length + v.length) + 5) / 6

variable {v}

theorem charAt_leading {c k : Nat} (some_bit : k < 6) (edge : 6 * c + (6 - k) = 8 * a.length) (long : k ≤ 8 * v.length) :
    ∃ u < 1 <<< (6 - k), charAt alpha a v b c = charOf alpha (UInt8.ofNat u <<< UInt8.ofNat k ||| bits v 0 k) := by
  refine ⟨(bits (a ++ v ++ b) (6 * c) (6 - k)).toNat, ?_, ?_⟩
  · rw [Nat.one_shiftLeft]
    exact bits_lt _ _ (by omega)
  · have parts := bits_add (a ++ v ++ b) (6 * c) (6 - k) (k := k) (by omega)
    have own : bits (a ++ v ++ b) (8 * a.length) k = bits v 0 k := bits_middle a v b (i := 0) (by omega)
    rw [Nat.sub_add_cancel (by omega), edge, own] at parts
    rw [charAt, parts, UInt8.ofNat_toNat]

theorem charAt_trailing {c k : Nat} (some_bit : k ≤ 6) (edge : 6 * c + k = 8 * (a.length + v.length)) (long : k ≤ 8 * v.length) :
    charAt alpha a v b c = charOf alpha (bits v (v.length * 8 - k) k <<< UInt8.ofNat (6 - k) |||
      bits (a ++ v ++ b) (6 * c + k) (6 - k)) := by
  have parts := bits_add (a ++ v ++ b) (6 * c) k (k := 6 - k) (by omega)
  have own := bits_middle a v b (i := v.length * 8 - k) (n := k) (by omega)
  rw [Nat.add_sub_cancel' some_bit] at parts
  rw [charAt, parts, ← own, show 8 * a.length + (v.length * 8 - k) = 6 * c by omega]

theorem charAt_full {c : Nat} (after : 8 * a.length ≤ 6 * c) (before : 6 * c + 6 ≤ 8 * (a.length + v.length)) :
    charAt alpha a v b c = charOf alpha (bits v (6 * c - 8 * a.length) 6) := by
  have own := bits_middle a v b (i := 6 * c - 8 * a.length) (n := 6) (by omega)
  rw [charAt, ← own, Nat.add_sub_cancel' after]

theorem leading_mem (long : 3 ≤ v.length) {first : Nat} (own : first = 4 * (a.length / 3) + (8 * (a.length % 3) + 5) / 6) :
    (List.range' (firstChar a) (first - firstChar a)).map (charAt alpha a v b) ∈
      leading v alpha (8 * (a.length % 3)) ((8 * (a.length % 3) + 5) / 6) := by
  have whole := Nat.div_add_mod a.length 3
  have mod_lt := Nat.mod_lt a.length (show 3 > 0 by decide)
  unfold leading firstChar
  generalize a.length / 3 = q at *
  generalize a.length % 3 = s at *
  by_cases even : 8 * s % 6 = 0
  · rw [if_pos even, show first - 8 * a.length / 6 = 0 by omega]
    exact List.mem_singleton.mpr rfl
  · have misaligned : s = 1 ∨ s = 2 := by omega
    have one : first - 8 * a.length / 6 = 1 := by rcases misaligned with rfl | rfl <;> omega
    have some_bit : 6 * ((8 * s + 5) / 6) - 8 * s < 6 := by rcases misaligned with rfl | rfl <;> decide
    have edge : 6 * (8 * a.length / 6) + (6 - (6 * ((8 * s + 5) / 6) - 8 * s)) = 8 * a.length := by
      rcases misaligned with rfl | rfl <;> omega
    obtain ⟨u, small, char⟩ := charAt_leading alpha a b (v := v) some_bit edge (by omega)
    rw [if_neg even, one]
    refine List.mem_map.mpr ⟨u, List.mem_range.mpr small, ?_⟩
    rw [List.range'_one, List.map_singleton, char]

/-- The value's own characters, placed among those of the whole. -/
theorem full_eq {s0 first last : Nat} (start : 6 * (4 * (a.length / 3)) + s0 = 8 * a.length) (after : s0 ≤ 6 * first)
    (before : 6 * last ≤ s0 + v.length * 8) :
    (List.range' (4 * (a.length / 3) + first) (last - first)).map (charAt alpha a v b) =
      (List.range' first (last - first)).map fun c => charOf alpha (bits v (6 * c - s0) 6) := by
  generalize 4 * (a.length / 3) = front at *
  rw [← List.map_add_range', List.map_map]
  refine List.map_congr_left fun c mem => ?_
  have bounds := List.mem_range'_1.mp mem
  rw [Function.comp_apply, charAt_full alpha a b (by omega) (by omega)]
  congr 2
  omega

theorem trailing_mem (long : 3 ≤ v.length) {s1 last : Nat}
    (spans : 6 * (4 * (a.length / 3)) + s1 = 8 * (a.length + v.length)) (own : last = s1 / 6) :
    (List.range' (4 * (a.length / 3) + last) (lastChar a v - (4 * (a.length / 3) + last))).map (charAt alpha a v b) ∈
      trailing v alpha s1 last := by
  unfold trailing lastChar
  generalize 4 * (a.length / 3) = front at *
  by_cases even : s1 % 6 = 0
  · rw [if_pos even, show (8 * (a.length + v.length) + 5) / 6 - (front + last) = 0 by omega]
    exact List.mem_singleton.mpr rfl
  · have one : (8 * (a.length + v.length) + 5) / 6 - (front + last) = 1 := by omega
    have char := charAt_trailing alpha a b (v := v) (c := front + last) (k := s1 - 6 * last) (by omega) (by omega) (by omega)
    rw [if_neg even, one, List.range'_one, List.map_singleton, char]
    refine List.mem_append_left _ (List.mem_map.mpr
      ⟨(bits (a ++ v ++ b) (6 * (front + last) + (s1 - 6 * last)) (6 - (s1 - 6 * last))).toNat, ?_, ?_⟩)
    · rw [List.mem_range, Nat.one_shiftLeft]
      exact bits_lt _ _ (by omega)
    · rw [UInt8.ofNat_toNat]

theorem trailing_padded_mem (long : 3 ≤ v.length) {s1 last : Nat}
    (spans : 6 * (4 * (a.length / 3)) + s1 = 8 * (a.length + v.length)) (own : last = s1 / 6) :
    (List.range' (4 * (a.length / 3) + last) (lastChar a v - (4 * (a.length / 3) + last))).map (charAt alpha a v []) ++
        List.replicate ((3 - (a.length + v.length) % 3) % 3) 0x3D ∈
      trailing v alpha s1 last := by
  have total : 8 * (a ++ v ++ []).length = 8 * (a.length + v.length) := by simp
  unfold trailing lastChar
  generalize 4 * (a.length / 3) = front at *
  by_cases even : s1 % 6 = 0
  · rw [if_pos even, show (8 * (a.length + v.length) + 5) / 6 - (front + last) = 0 by omega,
      show (3 - (a.length + v.length) % 3) % 3 = 0 by omega]
    exact List.mem_singleton.mpr rfl
  · have one : (8 * (a.length + v.length) + 5) / 6 - (front + last) = 1 := by omega
    have char := charAt_trailing alpha a [] (v := v) (c := front + last) (k := s1 - 6 * last) (by omega) (by omega) (by omega)
    have zero : bits (a ++ v ++ []) (6 * (front + last) + (s1 - 6 * last)) (6 - (s1 - 6 * last)) = 0 :=
      bits_past_end (by omega) _
    rw [zero, UInt8.or_zero] at char
    rw [if_neg even, one, List.range'_one, List.map_singleton, char, show (3 - (a.length + v.length) % 3) % 3 =
      (6 - (s1 - 6 * last)) / 2 by omega]
    exact List.mem_append_right _ (List.mem_singleton_self _)

/-! ## A form in the encoded text -/

theorem mem_aligned {l full t : List UInt8} {shift : Nat}
    (lead : l ∈ leading v alpha (8 * shift) ((8 * shift + 5) / 6))
    (middle : full = (List.range' ((8 * shift + 5) / 6) ((8 * shift + v.length * 8) / 6 - (8 * shift + 5) / 6)).map fun c =>
      charOf alpha (bits v (6 * c - 8 * shift) 6))
    (trail : t ∈ trailing v alpha (8 * shift + v.length * 8) ((8 * shift + v.length * 8) / 6))
    (enough : 4 ≤ (l ++ full ++ t).length) : l ++ full ++ t ∈ aligned v alpha shift := by
  subst middle
  exact List.mem_filter.mpr
    ⟨List.mem_flatMap.mpr ⟨l, lead, List.mem_map_of_mem trail⟩, decide_eq_true enough⟩

/-- The characters with bits of the value, as one form of it; at the end of the
    whole also with the padding. -/
theorem chars_mem_aligned (long : 3 ≤ v.length) {pads : List UInt8}
    (ends : pads = [] ∨ b = [] ∧ pads = List.replicate ((3 - (a.length + v.length) % 3) % 3) 0x3D) :
    (List.range' (firstChar a) (lastChar a v - firstChar a)).map (charAt alpha a v b) ++ pads ∈
      aligned v alpha (a.length % 3) := by
  have whole := Nat.div_add_mod a.length 3
  have mod_lt := Nat.mod_lt a.length (show 3 > 0 by decide)
  have start : 6 * (4 * (a.length / 3)) + 8 * (a.length % 3) = 8 * a.length := by omega
  have spans : 6 * (4 * (a.length / 3)) + (8 * (a.length % 3) + v.length * 8) = 8 * (a.length + v.length) := by omega
  have lead := leading_mem alpha a b (v := v) long rfl
  have middle := full_eq alpha a b start (show 8 * (a.length % 3) ≤ 6 * ((8 * (a.length % 3) + 5) / 6) by omega)
    (show 6 * ((8 * (a.length % 3) + v.length * 8) / 6) ≤ 8 * (a.length % 3) + v.length * 8 by omega)
  have trail : (List.range' (4 * (a.length / 3) + (8 * (a.length % 3) + v.length * 8) / 6)
        (lastChar a v - (4 * (a.length / 3) + (8 * (a.length % 3) + v.length * 8) / 6))).map (charAt alpha a v b) ++ pads ∈
      trailing v alpha (8 * (a.length % 3) + v.length * 8) ((8 * (a.length % 3) + v.length * 8) / 6) := by
    rcases ends with rfl | ⟨rfl, rfl⟩
    · rw [List.append_nil]
      exact trailing_mem alpha a b long spans rfl
    · exact trailing_padded_mem alpha a long spans rfl
  have order : firstChar a ≤ 4 * (a.length / 3) + (8 * (a.length % 3) + 5) / 6 ∧
      (8 * (a.length % 3) + 5) / 6 ≤ (8 * (a.length % 3) + v.length * 8) / 6 ∧
      4 * (a.length / 3) + (8 * (a.length % 3) + v.length * 8) / 6 ≤ lastChar a v ∧ firstChar a + 4 ≤ lastChar a v := by
    unfold firstChar lastChar
    omega
  have cut : List.range' (firstChar a) (lastChar a v - firstChar a) =
      List.range' (firstChar a) (4 * (a.length / 3) + (8 * (a.length % 3) + 5) / 6 - firstChar a) ++
      List.range' (4 * (a.length / 3) + (8 * (a.length % 3) + 5) / 6)
        ((8 * (a.length % 3) + v.length * 8) / 6 - (8 * (a.length % 3) + 5) / 6) ++
      List.range' (4 * (a.length / 3) + (8 * (a.length % 3) + v.length * 8) / 6)
        (lastChar a v - (4 * (a.length / 3) + (8 * (a.length % 3) + v.length * 8) / 6)) := by
    rw [range'_cut (m := 4 * (a.length / 3) + (8 * (a.length % 3) + 5) / 6) (by omega) (by omega),
      range'_cut (f := 4 * (a.length / 3) + (8 * (a.length % 3) + 5) / 6)
        (m := 4 * (a.length / 3) + (8 * (a.length % 3) + v.length * 8) / 6) (by omega) (by omega), Nat.add_sub_add_left,
      List.append_assoc]
  have formed := mem_aligned alpha lead middle trail (by
    simp only [List.length_append, List.length_map, List.length_range']
    omega)
  rwa [cut, List.map_append, List.map_append, List.append_assoc _ _ pads]

theorem base64_drop (padded : Bool) :
    (base64 alpha padded (a ++ v ++ b)).drop (firstChar a) =
      (List.range' (firstChar a) (lastChar a v - firstChar a)).map (charAt alpha a v b) ++
      ((List.range' (lastChar a v) ((8 * (a ++ v ++ b).length + 5) / 6 - lastChar a v)).map (charAt alpha a v b) ++
        if padded then List.replicate ((3 - (a ++ v ++ b).length % 3) % 3) 0x3D else []) := by
  have size : (a ++ v ++ b).length = a.length + v.length + b.length := by rw [List.length_append, List.length_append]
  have order : firstChar a ≤ lastChar a v ∧ lastChar a v ≤ (8 * (a ++ v ++ b).length + 5) / 6 := by
    unfold firstChar lastChar
    omega
  have cut : (List.range ((8 * (a ++ v ++ b).length + 5) / 6)).drop (firstChar a) =
      List.range' (firstChar a) (lastChar a v - firstChar a) ++
        List.range' (lastChar a v) ((8 * (a ++ v ++ b).length + 5) / 6 - lastChar a v) := by
    rw [List.range_eq_range', List.drop_range', Nat.zero_add, Nat.mul_one, range'_cut order.1 order.2]
  unfold base64
  rw [List.drop_append_of_le_length (by rw [List.length_map, List.length_range]; omega), ← List.map_drop, cut, List.map_append,
    List.append_assoc]
  rfl

/-- A form of the value stands where its first character is, and reaches past
    its last; without anything after the value, to the end of the whole. -/
theorem form_at_first (long : 3 ≤ v.length) (padded : Bool) :
    ∃ p ∈ aligned v alpha (a.length % 3), p <+: (base64 alpha padded (a ++ v ++ b)).drop (firstChar a) ∧
      lastChar a v ≤ firstChar a + p.length ∧
      (b = [] → (base64 alpha padded (a ++ v ++ b)).length ≤ firstChar a + p.length) := by
  have order : firstChar a ≤ lastChar a v := by
    unfold firstChar lastChar
    omega
  have drop := base64_drop alpha a b (v := v) padded
  by_cases ends : b = []
  · subst ends
    have last : (8 * (a ++ v ++ []).length + 5) / 6 - lastChar a v = 0 := by
      rw [List.append_nil, List.length_append, lastChar, Nat.sub_self]
    have pads : (if padded then List.replicate ((3 - (a ++ v ++ []).length % 3) % 3) (0x3D : UInt8) else []) = [] ∨
        ([] : List UInt8) = [] ∧ (if padded then List.replicate ((3 - (a ++ v ++ []).length % 3) % 3) (0x3D : UInt8) else []) =
          List.replicate ((3 - (a.length + v.length) % 3) % 3) 0x3D := by
      rw [List.append_nil, List.length_append]
      cases padded with
      | true => exact .inr ⟨rfl, rfl⟩
      | false => exact .inl rfl
    have formed := chars_mem_aligned alpha a [] long pads
    rw [last, List.range'_zero, List.map_nil, List.nil_append] at drop
    rw [← drop] at formed
    have reach : (base64 alpha padded (a ++ v ++ [])).length ≤
        firstChar a + ((base64 alpha padded (a ++ v ++ [])).drop (firstChar a)).length := by
      rw [List.length_drop]
      omega
    refine ⟨_, formed, List.prefix_rfl, ?_, fun _ => reach⟩
    rw [drop, List.length_append, List.length_map, List.length_range']
    omega
  · refine ⟨_, chars_mem_aligned alpha a b long (.inl rfl), ?_, ?_, fun none => absurd none ends⟩
    · rw [List.append_nil, drop]
      exact List.prefix_append ..
    · rw [List.append_nil, List.length_map, List.length_range', Nat.add_sub_cancel' order]

theorem firstChar_lt (long : 3 ≤ v.length) (padded : Bool) : firstChar a < (base64 alpha padded (a ++ v ++ b)).length := by
  rw [base64, List.length_append, List.length_map, List.length_range, List.length_append, List.length_append, firstChar]
  omega

end

/-! ## Among all the forms -/

theorem mem_destutter'_of_mem {α : Type} [DecidableEq α] {l : List α} {first a : α} (mem : a ∈ first :: l) :
    a ∈ l.destutter' (· ≠ ·) first := by
  induction l generalizing first with
  | nil => exact mem
  | cons next l ih =>
      by_cases same : first = next
      · subst same
        rw [List.destutter'_cons_neg _ (not_not.mpr rfl)]
        exact ih ((List.mem_cons.mp mem).elim (fun here => here ▸ List.mem_cons_self ..) id)
      · rw [List.destutter'_cons_pos _ same]
        rcases List.mem_cons.mp mem with rfl | later
        · exact List.mem_cons_self ..
        · exact List.mem_cons_of_mem _ (ih later)

theorem mem_sorted_of_mem {l : List (List UInt8)} {p : List UInt8} (mem : p ∈ l) : p ∈ sorted l := by
  have kept : p ∈ l.mergeSort fun a b => decide (a ≤ b) := List.mem_mergeSort.mpr mem
  unfold sorted
  cases order : l.mergeSort fun a b => decide (a ≤ b) with
  | nil => rw [order] at kept; cases kept
  | cons first rest =>
      rw [order] at kept
      rw [List.destutter_cons']
      exact mem_destutter'_of_mem kept

theorem mem_variants {v alpha p : List UInt8} {shift : Nat} (long : 3 ≤ v.length) (known : alpha ∈ [b64Std, b64Url])
    (small : shift < 3) (mem : p ∈ aligned v alpha shift) : p ∈ variants v := by
  have form : p ∈ base64Variants v := by
    rw [base64Variants, if_neg (Nat.not_lt.mpr long)]
    exact List.mem_flatMap.mpr ⟨shift, List.mem_range.mpr small, List.mem_flatMap.mpr ⟨alpha, known, mem⟩⟩
  exact mem_sorted_of_mem (List.mem_append_left _ (List.mem_append_left _ (List.mem_cons_of_mem _ form)))

end K2.Redact

/-! ## Nothing of a secret is left

Where no earlier match reaches into the characters of an encoded value, the
match that starts at the first of them takes all of them. -/

namespace K2.Redact

open Matching

/-- Character `c` of what is encoded carries a bit of the value after `a`. -/
def Carries (a v : List UInt8) (c : Nat) : Prop :=
  ∃ i, 6 * c ≤ i ∧ i < 6 * c + 6 ∧ 8 * a.length ≤ i ∧ i < 8 * (a.length + v.length)

theorem carries_firstChar (a : List UInt8) {v : List UInt8} (inhabited : v ≠ []) : Carries a v (firstChar a) := by
  have long := List.length_pos_iff.mpr inhabited
  refine ⟨8 * a.length, ?_, ?_, le_rfl, by omega⟩ <;> unfold firstChar <;> omega

theorem firstChar_le_of_carries {a v : List UInt8} {c : Nat} (carries : Carries a v c) : firstChar a ≤ c ∧ c < lastChar a v := by
  obtain ⟨i, low, high, after, before⟩ := carries
  unfold firstChar lastChar
  omega

variable {find : FindIter}

theorem new_pats {name : String} {v : List UInt8} (inhabited : v ≠ []) : (Redactor.new find [(name, v)]).pats = variants v := by
  have parts : Redactor.parts (name, v) = (variants v).map fun p => (p, utf8 ("[k2v:" ++ name ++ "]")) := if_neg inhabited
  have first : (fun p => p) = (Prod.fst ∘ fun p : List UInt8 => (p, utf8 ("[k2v:" ++ name ++ "]"))) := rfl
  change ([(name, v)].flatMap Redactor.parts).map Prod.fst = variants v
  rw [List.flatMap_cons, List.flatMap_nil, List.append_nil, parts, List.map_map, ← first,
    List.map_id']

theorem new_replacement {name : String} {v : List UInt8} (inhabited : v ≠ []) {k : Nat} (listed : k < (variants v).length) :
    (Redactor.new find [(name, v)]).replacement k = utf8 ("[k2v:" ++ name ++ "]") := by
  have parts : Redactor.parts (name, v) = (variants v).map fun p => (p, utf8 ("[k2v:" ++ name ++ "]")) := if_neg inhabited
  change (([(name, v)].flatMap Redactor.parts).map Prod.snd).getD k [] = _
  rw [List.flatMap_cons, List.flatMap_nil, List.append_nil, parts, List.map_map, List.getD_eq_getElem?_getD, List.getElem?_map,
    List.getElem?_eq_getElem listed]
  rfl

/-- A base64-encoded value leaves no character with any of its bits: where no
    form of it starts before the first such character and reaches into it, one
    match takes them all, up to the very end when the value is the last. -/
theorem encoded_value_redacted (leftmost : find.LeftmostLongest) (name : String) {v : List UInt8} (long : 3 ≤ v.length)
    (a b : List UInt8) {alpha : List UInt8} (known : alpha ∈ [b64Std, b64Url]) (padded : Bool)
    (clear : ∀ p ∈ variants v, ∀ i c, p <+: (base64 alpha padded (a ++ v ++ b)).drop i →
      (Carries a v c ∧ ∀ d < c, ¬Carries a v d) → i < c → i + p.length ≤ c) :
    let r := Redactor.new find [(name, v)]
    let whole := base64 alpha padded (a ++ v ++ b)
    ∃ m ∈ find r.pats whole, (∀ c, Carries a v c → m.start ≤ c ∧ c < m.stop) ∧ (b = [] → m.stop = whole.length) ∧
      r.redact whole = r.redact (whole.take m.start) ++ utf8 ("[k2v:" ++ name ++ "]") ++ r.redact (whole.drop m.stop) := by
  intro r whole
  have inhabited : v ≠ [] := List.ne_nil_of_length_pos (by omega)
  have pats : r.pats = variants v := new_pats inhabited
  obtain ⟨p, form, starts, reach, ends⟩ := form_at_first alpha a b long padded
  have mem : p ∈ r.pats := pats ▸ mem_variants long known (Nat.mod_lt _ (by decide)) form
  obtain ⟨k, n, found, covers⟩ := longestAt_ge mem starts
  obtain ⟨q, listed, size, taken⟩ := longestAt_mem found
  have some_char : 0 < n := size ▸ List.length_pos_iff.mpr (r.nonempty q (List.mem_of_getElem? listed))
  have inside : firstChar a < whole.length := firstChar_lt alpha a b long padded
  have fits : q.length ≤ (whole.drop (firstChar a)).length := taken.length_le
  rw [List.length_drop] at fits
  have before : (whole.take (firstChar a)).length = firstChar a := by rw [List.length_take]; omega
  have first : Carries a v (firstChar a) ∧ ∀ d < firstChar a, ¬Carries a v d :=
    ⟨carries_firstChar a inhabited, fun d earlier carries => by have := firstChar_le_of_carries carries; omega⟩
  have apart : Apart r.pats (whole.take (firstChar a)) (whole.drop (firstChar a)) := by
    intro i below p mem starts
    rw [before] at below ⊢
    rw [List.take_append_drop] at starts
    exact clear p (pats ▸ mem) i (firstChar a) starts first below
  have cut := matchesFrom_append apart 0 (Nat.zero_le _)
  have text : rewrite r.pats r.replacement 0 (whole.take (firstChar a) ++ whole.drop (firstChar a)) =
      rewrite r.pats r.replacement 0 (whole.take (firstChar a)) ++ rewrite r.pats r.replacement 0 (whole.drop (firstChar a)) :=
    rewrite_cut apart (Nat.zero_le _)
  rw [List.take_append_drop, before, Nat.zero_add] at cut
  rw [List.take_append_drop, rewrite_found found some_char, List.drop_drop, ← List.append_assoc] at text
  refine ⟨{ pattern := k, start := firstChar a, stop := firstChar a + n }, ?_, fun c carries => ?_, fun last => ?_, ?_⟩
  · rw [leftmost _ _ r.nonempty, leftmostLongest, cut]
    exact List.mem_append_right _ (mem_matchesFrom found some_char _)
  · have := firstChar_le_of_carries carries
    dsimp only
    omega
  · have reached : whole.length ≤ firstChar a + p.length := ends last
    dsimp only
    omega
  · have own : r.replacement k = utf8 ("[k2v:" ++ name ++ "]") :=
      new_replacement inhabited (pats ▸ (List.getElem?_eq_some_iff.mp listed).1)
    rw [redact_eq_rewrite leftmost, redact_eq_rewrite leftmost, redact_eq_rewrite leftmost, text, own]

theorem jsonVariants_key : jsonVariants (ascii "key") = [ascii "key", ascii "key"] := by
  have text : fromUtf8 (ascii "key") = some (String.ofList ['k', 'e', 'y']) :=
    fromUtf8_eq_some.mpr ((utf8_ofList _).trans (by decide))
  rw [jsonVariants, text]
  simp only [String.toList_ofList, utf8_ofList]
  decide

theorem encoded_value_redacted_key :
    let r := Redactor.new leftmostLongest [("K", ascii "key")]
    let whole := base64 b64Std true (ascii "x" ++ ascii "key" ++ [])
    ∃ m ∈ leftmostLongest r.pats whole, (∀ c, Carries (ascii "x") (ascii "key") c → m.start ≤ c ∧ c < m.stop) ∧
      (([] : List UInt8) = [] → m.stop = whole.length) ∧
      r.redact whole = r.redact (whole.take m.start) ++ utf8 ("[k2v:" ++ "K" ++ "]") ++ r.redact (whole.drop m.stop) := by
  refine encoded_value_redacted (fun _ _ _ => rfl) "K" (by decide) (ascii "x") [] (by decide) true
    fun p mem i c starts first below => ?_
  have one : c = 1 := by
    have low := (firstChar_le_of_carries first.1).1
    have high := first.2 (firstChar (ascii "x"))
    have carries := carries_firstChar (ascii "x") (v := ascii "key") (by decide)
    by_contra other
    exact high (lt_of_le_of_ne low fun same => other same.symm) carries
  obtain rfl : i = 0 := by omega
  have elsewhere : ∀ p ∈ ascii "key" :: base64Variants (ascii "key") ++ [hex (ascii "key"), upper (hex (ascii "key")),
      percent (ascii "key") true, percent (ascii "key") false] ++ [ascii "key", ascii "key"],
      ¬p <+: base64 b64Std true (ascii "x" ++ ascii "key" ++ []) := by decide +kernel
  refine absurd starts (elsewhere p ?_)
  have listed := mem_of_mem_sorted mem
  rwa [jsonVariants_key] at listed

end K2.Redact
