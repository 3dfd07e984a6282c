import K2.Lib.Buffers
import Mathlib.Tactic.Linarith

/-! # The inverse transforms

Intermediate values are stored as 16-bit integers between the passes, so that
out-of-range input wraps. -/

namespace K2.Vp8

open Checked Buffers Buffers.Edit

def clamp255 (v : Int) : UInt8 := UInt8.ofNat (max 0 (min v 255)).toNat

/-- `v as i16 as i32`. -/
def asI16 (v : Int) : Int := (Int16.ofInt v).toInt

/-! ## The Walsh-Hadamard transform -/

def whtButterfly (ip0 ip1 ip2 ip3 : Int) : Option (List Int) := do
  let a1 ← i32 (ip0 + ip3)
  let b1 ← i32 (ip1 + ip2)
  let c1 ← i32 (ip1 - ip2)
  let d1 ← i32 (ip0 - ip3)
  return [← i32 (a1 + b1), ← i32 (c1 + d1), ← i32 (a1 - b1), ← i32 (d1 - c1)]

def whtColumn (input : List Int16) (i : Nat) : Option (List Int16) := do
  let out ← whtButterfly (← input[i]?).toInt (← input[4 + i]?).toInt (← input[8 + i]?).toInt (← input[12 + i]?).toInt
  return out.map Int16.ofInt

def whtRow (columns : List (List Int16)) (i : Nat) : Option (List Int16) := do
  let ip ← columns.mapM (·[i]?)
  let out ← whtButterfly (← ip[0]?).toInt (← ip[1]?).toInt (← ip[2]?).toInt (← ip[3]?).toInt
  out.mapM fun v => do return Int16.ofInt ((← i32 (v + 3)) >>> (3 : Nat))

/-- The inverse transform of the Y2 block: the DC of each luma block. -/
def inverseWht (input : List Int16) : Option (List Int16) := do
  let columns ← (List.range 4).mapM (whtColumn input)
  let rows ← (List.range 4).mapM (whtRow columns)
  return rows.flatten

/-! ## The cosine transform -/

def mulSin (x : Int) : Option Int := do return (← i32 (x * 35468)) >>> (16 : Nat)

def mulCos (x : Int) : Option Int := do i32 (x + (← i32 (x * 20091)) >>> (16 : Nat))

def dctButterfly (ip0 ip1 ip2 ip3 : Int) : Option (List Int) := do
  let a1 ← i32 (ip0 + ip2)
  let b1 ← i32 (ip0 - ip2)
  let c1 ← i32 ((← mulSin ip1) - (← mulCos ip3))
  let d1 ← i32 ((← mulCos ip1) + (← mulSin ip3))
  return [← i32 (a1 + d1), ← i32 (b1 + c1), ← i32 (b1 - c1), ← i32 (a1 - d1)]

def dctColumn (coeffs : List Int16) (i : Nat) : Option (List Int16) := do
  let out ← dctButterfly (← coeffs[i]?).toInt (← coeffs[4 + i]?).toInt (← coeffs[8 + i]?).toInt
    (← coeffs[12 + i]?).toInt
  return out.map Int16.ofInt

def dctRow (columns : List (List Int16)) (r : Nat) : Option (List Int) := do
  let ip ← columns.mapM (·[r]?)
  let out ← dctButterfly (← ip[0]?).toInt (← ip[1]?).toInt (← ip[2]?).toInt (← ip[3]?).toInt
  out.mapM fun v => do return asI16 ((← i32 (v + 4)) >>> (3 : Nat))

/-- The residual of a block, row by row. -/
def idctRows (coeffs : List Int16) : Option (List (List Int)) := do
  let columns ← (List.range 4).mapM (dctColumn coeffs)
  (List.range 4).mapM (dctRow columns)

def addPixel (p : UInt8) (v : Int) : Option UInt8 := do return clamp255 (← i32 (p.toNat + v))

def addPixels (row : List UInt8) (o : List Int) : Option (List UInt8) :=
  (row.zip o).mapM fun (p, v) => addPixel p v

/-- Four pixels of `dst` and what is added to them. -/
def addRow (pos : Nat) (o : List Int) : Edit UInt8 Unit := do
  let row ← slice pos 4
  splice pos (← addPixels row o)

/-- The inverse transform of a 4x4 block, added to the prediction in `dst`. -/
def idctAdd (coeffs : List Int16) (pos stride : Nat) : Edit UInt8 Unit := do
  let rows ← idctRows coeffs
  loop (fun r _ => do addRow (pos + r * stride) (← rows[r]?)) 4 ()

/-- What a lone DC adds to every pixel. -/
def dcResidual (dc : Int16) : Option Int := do return asI16 ((← i32 (dc.toInt + 4)) >>> (3 : Nat))

/-- The inverse transform of a block whose only non-zero coefficient is the DC. -/
def idctDcAdd (dc : Int16) (pos stride : Nat) : Edit UInt8 Unit := do
  let v ← dcResidual dc
  loop (fun r _ => addRow (pos + r * stride) (List.replicate 4 v)) 4 ()

/-! ## No transform panics -/

/-- What an `i16` holds. -/
def Short (v : Int) : Prop := -32768 ≤ v ∧ v ≤ 32767

theorem short_toInt (x : Int16) : Short x.toInt := by
  have low := x.le_toInt
  have high := x.toInt_lt
  exact ⟨by omega, by omega⟩

theorem short_asI16 (v : Int) : Short (asI16 v) := short_toInt _

theorem yields_whtButterfly {a b c d : Int} (ha : Short a) (hb : Short b) (hc : Short c) (hd : Short d) :
    Yields (fun out => out.length = 4 ∧ ∀ v ∈ out, -131072 ≤ v ∧ v ≤ 131072) (whtButterfly a b c d) := by
  unfold Short at ha hb hc hd
  unfold whtButterfly
  rw [i32_eq (v := a + d) (by omega) (by omega), i32_eq (v := b + c) (by omega) (by omega),
    i32_eq (v := b - c) (by omega) (by omega), i32_eq (v := a - d) (by omega) (by omega)]
  simp only [Option.bind_eq_bind, Option.bind_some, i32_eq (v := a + d + (b + c)) (by omega) (by omega),
    i32_eq (v := b - c + (a - d)) (by omega) (by omega), i32_eq (v := a + d - (b + c)) (by omega) (by omega),
    i32_eq (v := a - d - (b - c)) (by omega) (by omega)]
  refine Yields.pure ⟨rfl, ?_⟩
  intro v mem
  simp only [List.mem_cons, List.not_mem_nil, or_false] at mem
  omega

theorem yields_mulSin {x : Int} (h : Short x) : Yields (fun v => -17736 ≤ v ∧ v ≤ 17736) (mulSin x) := by
  unfold Short at h
  unfold mulSin
  rw [i32_eq (by omega) (by omega)]
  refine Yields.pure ?_
  rw [Int.shiftRight_eq_div_pow]
  norm_num
  omega

theorem yields_mulCos {x : Int} (h : Short x) : Yields (fun v => -42815 ≤ v ∧ v ≤ 42815) (mulCos x) := by
  unfold Short at h
  unfold mulCos
  rw [i32_eq (v := x * 20091) (by omega) (by omega)]
  have part : -10047 ≤ (x * 20091) >>> (16 : Nat) ∧ (x * 20091) >>> (16 : Nat) ≤ 10047 := by
    rw [Int.shiftRight_eq_div_pow]
    norm_num
    omega
  simp only [Option.bind_eq_bind, Option.bind_some]
  exact ⟨_, i32_eq (by omega) (by omega), by omega, by omega⟩

theorem yields_dctButterfly {a b c d : Int} (ha : Short a) (hb : Short b) (hc : Short c) (hd : Short d) :
    Yields (fun out => out.length = 4 ∧ ∀ v ∈ out, -131072 ≤ v ∧ v ≤ 131072) (dctButterfly a b c d) := by
  obtain ⟨sb, sbEq, sbLow, sbHigh⟩ := yields_mulSin hb
  obtain ⟨cb, cbEq, cbLow, cbHigh⟩ := yields_mulCos hb
  obtain ⟨sd, sdEq, sdLow, sdHigh⟩ := yields_mulSin hd
  obtain ⟨cd, cdEq, cdLow, cdHigh⟩ := yields_mulCos hd
  unfold Short at ha hc
  unfold dctButterfly
  rw [i32_eq (v := a + c) (by omega) (by omega), i32_eq (v := a - c) (by omega) (by omega), sbEq, cbEq, sdEq, cdEq]
  simp only [Option.bind_eq_bind, Option.bind_some, i32_eq (v := sb - cd) (by omega) (by omega),
    i32_eq (v := cb + sd) (by omega) (by omega), i32_eq (v := a + c + (cb + sd)) (by omega) (by omega),
    i32_eq (v := a - c + (sb - cd)) (by omega) (by omega), i32_eq (v := a - c - (sb - cd)) (by omega) (by omega),
    i32_eq (v := a + c - (cb + sd)) (by omega) (by omega)]
  refine Yields.pure ⟨rfl, ?_⟩
  intro v mem
  simp only [List.mem_cons, List.not_mem_nil, or_false] at mem
  omega

theorem yields_four {α : Type} {l : List α} (length : l.length = 4) {i : Nat} (inside : i < 4) :
    Yields (fun _ => True) l[i]? := Yields.getElem? (by omega) fun _ _ => trivial

theorem yields_column {f : Int → Int → Int → Int → Option (List Int)} {input : List Int16} {i : Nat}
    (length : input.length = 16) (inside : i < 4)
    (safe : ∀ a b c d : Int16, Yields (fun out => out.length = 4 ∧ ∀ v ∈ out, -131072 ≤ v ∧ v ≤ 131072)
      (f a.toInt b.toInt c.toInt d.toInt)) :
    Yields (fun out : List Int16 => out.length = 4) (do
      let out ← f (← input[i]?).toInt (← input[4 + i]?).toInt (← input[8 + i]?).toInt (← input[12 + i]?).toInt
      return out.map Int16.ofInt) := by
  have each (j : Nat) (below : j < 16) : Yields (fun _ => True) input[j]? :=
    Yields.getElem? (by omega) fun _ _ => trivial
  refine (each i (by omega)).bind fun a _ => ?_
  refine (each (4 + i) (by omega)).bind fun b _ => ?_
  refine (each (8 + i) (by omega)).bind fun c _ => ?_
  refine (each (12 + i) (by omega)).bind fun d _ => ?_
  refine (safe a b c d).bind fun out known => ?_
  exact Yields.pure (by rw [List.length_map, known.1])

theorem yields_row {β : Type} {P : β → Prop} {f : Int → Int → Int → Int → Option (List Int)} {g : Int → Option β}
    {columns : List (List Int16)} {i : Nat} (length : columns.length = 4) (heights : ∀ c ∈ columns, c.length = 4)
    (inside : i < 4)
    (safe : ∀ a b c d : Int16, Yields (fun out => out.length = 4 ∧ ∀ v ∈ out, -131072 ≤ v ∧ v ≤ 131072)
      (f a.toInt b.toInt c.toInt d.toInt))
    (rounds : ∀ v, -131072 ≤ v → v ≤ 131072 → Yields P (g v)) :
    Yields (fun out => out.length = 4 ∧ ∀ b ∈ out, P b) (do
      let ip ← columns.mapM (·[i]?)
      let out ← f (← ip[0]?).toInt (← ip[1]?).toInt (← ip[2]?).toInt (← ip[3]?).toInt
      out.mapM g) := by
  refine (Yields.mapM (Q := fun _ => True) fun c mem => ?_).bind fun ip known => ?_
  · exact Yields.getElem? (by rw [heights c mem]; exact inside) fun _ _ => trivial
  have four : ip.length = 4 := by rw [known.1, length]
  refine (yields_four four (by decide)).bind fun a _ => ?_
  refine (yields_four four (by decide)).bind fun b _ => ?_
  refine (yields_four four (by decide)).bind fun c _ => ?_
  refine (yields_four four (by decide)).bind fun d _ => ?_
  refine (safe a b c d).bind fun out bounded => ?_
  refine (Yields.mapM fun v mem => rounds v (bounded.2 v mem).1 (bounded.2 v mem).2).mono fun out' known' => ?_
  exact ⟨by rw [known'.1, bounded.1], known'.2⟩

theorem yields_inverseWht {input : List Int16} (length : input.length = 16) :
    Yields (fun out => out.length = 16) (inverseWht input) := by
  refine (Yields.mapM (Q := fun c => c.length = 4) fun i mem => ?_).bind fun columns known => ?_
  · exact yields_column length (List.mem_range.mp mem) fun a b c d =>
      yields_whtButterfly (short_toInt a) (short_toInt b) (short_toInt c) (short_toInt d)
  refine (Yields.mapM (Q := fun r => r.length = 4) fun i mem => ?_).bind fun rows known' => ?_
  · refine (yields_row (P := fun _ => True) (by rw [known.1, List.length_range]) known.2 (List.mem_range.mp mem)
      (fun a b c d => yields_whtButterfly (short_toInt a) (short_toInt b) (short_toInt c) (short_toInt d))
      fun v low high => ?_).mono fun out known => known.1
    simp only [i32_eq (v := v + 3) (by omega) (by omega), Option.bind_eq_bind, Option.bind_some]
    exact Yields.pure trivial
  · refine Yields.pure ?_
    rw [List.length_flatten, List.map_congr_left (f := List.length) (g := fun _ => 4) known'.2, List.map_const',
      List.sum_replicate_nat, known'.1, List.length_range]

theorem yields_idctRows {coeffs : List Int16} (length : coeffs.length = 16) :
    Yields (fun rows => rows.length = 4 ∧ ∀ r ∈ rows, r.length = 4 ∧ ∀ v ∈ r, Short v) (idctRows coeffs) := by
  refine (Yields.mapM (Q := fun c => c.length = 4) fun i mem => ?_).bind fun columns known => ?_
  · exact yields_column length (List.mem_range.mp mem) fun a b c d =>
      yields_dctButterfly (short_toInt a) (short_toInt b) (short_toInt c) (short_toInt d)
  refine (Yields.mapM (Q := fun r : List Int => r.length = 4 ∧ ∀ v ∈ r, Short v) fun i mem => ?_).mono
    fun rows known' => ⟨by rw [known'.1, List.length_range], known'.2⟩
  refine yields_row (by rw [known.1, List.length_range]) known.2 (List.mem_range.mp mem)
    (fun a b c d => yields_dctButterfly (short_toInt a) (short_toInt b) (short_toInt c) (short_toInt d))
    fun v low high => ?_
  simp only [i32_eq (v := v + 4) (by omega) (by omega), Option.bind_eq_bind, Option.bind_some]
  exact Yields.pure (short_asI16 _)

theorem yields_addPixel (p : UInt8) {v : Int} (h : Short v) : Yields (fun _ => True) (addPixel p v) := by
  unfold Short at h
  have := p.toNat_lt
  unfold addPixel
  rw [i32_eq (by omega) (by omega)]
  exact Yields.pure trivial

theorem yields_dcResidual (dc : Int16) : Yields Short (dcResidual dc) := by
  have := short_toInt dc
  unfold Short at this
  unfold dcResidual
  rw [i32_eq (by omega) (by omega)]
  exact Yields.pure (short_asI16 _)

variable {n : Nat} {D : Set Nat}

/-- The 4x4 block at `pos` lies in the buffer and in `D`. -/
def BlockIn (n : Nat) (D : Set Nat) (pos stride : Nat) : Prop :=
  ∀ r < 4, pos + r * stride + 4 ≤ n ∧ ∀ c < 4, pos + r * stride + c ∈ D

theorem tracks_addRow {pos : Nat} {o : List Int} (length : o.length = 4) (shorts : ∀ v ∈ o, Short v)
    (inside : pos + 4 ≤ n) (known : ∀ c < 4, pos + c ∈ D) : Tracks n D D (fun _ => True) (addRow pos o) := by
  refine (Tracks.slice inside fun i low high => ?_).bind fun row four => ?_
  · have := known (i - pos) (by omega)
    rwa [Nat.add_sub_cancel' low] at this
  refine (Tracks.lift (Yields.mapM (Q := fun _ => True) fun x mem => ?_)).bind fun out both => ?_
  · obtain ⟨p, v⟩ := x
    exact yields_addPixel p (shorts v (List.of_mem_zip mem).2)
  · refine (Tracks.splice ?_).mono (fun _ h => h) Set.subset_union_left
    rw [both.1, List.length_zip, four, length]
    exact inside

theorem tracks_idctAdd {coeffs : List Int16} {pos stride : Nat} (length : coeffs.length = 16)
    (block : BlockIn n D pos stride) : Tracks n D D (fun _ => True) (idctAdd coeffs pos stride) := by
  refine (Tracks.lift (yields_idctRows length)).bind fun rows known => ?_
  refine Tracks.loop (fun _ _ => True) (fun _ => D) trivial fun r below _ _ => ?_
  refine (Tracks.lift (Yields.getElem? (by rw [known.1]; exact below) known.2)).bind fun o four => ?_
  exact tracks_addRow four.1 four.2 (block r below).1 (block r below).2

theorem tracks_idctDcAdd {dc : Int16} {pos stride : Nat} (block : BlockIn n D pos stride) :
    Tracks n D D (fun _ => True) (idctDcAdd dc pos stride) := by
  refine (Tracks.lift (yields_dcResidual dc)).bind fun v short => ?_
  refine Tracks.loop (fun _ _ => True) (fun _ => D) trivial fun r below _ _ => ?_
  refine tracks_addRow (List.length_replicate ..) (fun w mem => ?_) (block r below).1 (block r below).2
  rw [List.eq_of_mem_replicate mem]
  exact short

end K2.Vp8
